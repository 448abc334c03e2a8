import Mathlib.Data.List.Basic

/-!
# Lines of bounded width

A line that is too long is cut after every `w` letters. The empty line is one piece.
-/
namespace EventServer.Lib.Lines

variable {α : Type}

def cut (w : Nat) (l : List α) : List (List α) :=
  if w = 0 ∨ l.length ≤ w then [l] else l.take w :: cut w (l.drop w)
termination_by l.length
decreasing_by
  simp only [List.length_drop]
  omega

theorem cut_short {w : Nat} {l : List α} (h : l.length ≤ w) : cut w l = [l] := by
  rw [cut, if_pos (Or.inr h)]

/-- A full piece is cut off as soon as a letter follows. -/
theorem cut_full {w : Nat} (hw : 0 < w) {p : List α} (hp : p.length = w) (c : α) (l : List α) :
    cut w (p ++ c :: l) = p :: cut w (c :: l) := by
  rw [cut, if_neg, List.take_left' hp, List.drop_left' hp]
  rw [not_or, List.length_append, List.length_cons]
  omega

theorem cut_ne_nil (w : Nat) (l : List α) : cut w l ≠ [] := by
  rw [cut]
  split
  · exact List.cons_ne_nil _ _
  · exact List.cons_ne_nil _ _

theorem length_of_mem_cut {w : Nat} (hw : 0 < w) {l p : List α} (hp : p ∈ cut w l) :
    p.length ≤ w := by
  induction l using cut.induct w with
  | case1 l h =>
    rw [cut, if_pos h, List.mem_singleton] at hp
    rw [hp]
    omega
  | case2 l h ih =>
    rw [cut, if_neg h, List.mem_cons] at hp
    rcases hp with rfl | hp
    · exact List.length_take_le w l
    · exact ih hp

theorem flatten_cut (w : Nat) (l : List α) : (cut w l).flatten = l := by
  induction l using cut.induct w with
  | case1 l h => rw [cut, if_pos h, List.flatten_singleton]
  | case2 l h ih => rw [cut, if_neg h, List.flatten_cons, ih, List.take_append_drop]

end EventServer.Lib.Lines
