import Mathlib.Data.List.Basic

/-!
# Strings in memory

A C string is the part of a block before its terminator. `strstr` returns where
the first occurrence starts.
-/
namespace EventServer.Lib.CString

variable {α : Type} [DecidableEq α]

def cstr [Zero α] (blk : List α) : List α := blk.takeWhile (· ≠ 0)

/-- A character of a source text. -/
def chr (c : Char) : BitVec 8 := BitVec.ofNat 8 c.toNat

def lit (s : List Char) : List (BitVec 8) := s.map chr

def strstr : List α → List α → Option Nat
  | [], sub => if sub = [] then some 0 else none
  | c :: s, sub => if sub.isPrefixOf (c :: s) then some 0 else (strstr s sub).map (· + 1)

theorem cstr_append [Zero α] {s : List α} (hs : (0 : α) ∉ s) (rest : List α) :
    cstr (s ++ rest) = s ++ cstr rest := by
  induction s with
  | nil => rfl
  | cons c s ih =>
    obtain ⟨hc, hs⟩ := List.ne_and_not_mem_of_not_mem_cons hs
    have htail : (s ++ rest).takeWhile (· ≠ 0) = s ++ rest.takeWhile (· ≠ 0) := ih hs
    rw [cstr, List.cons_append, List.takeWhile_cons, if_pos (by simpa using hc.symm), htail]
    rfl

theorem cstr_append_zero [Zero α] {s : List α} (hs : (0 : α) ∉ s) (rest : List α) :
    cstr (s ++ 0 :: rest) = s := by
  rw [cstr_append hs, cstr, List.takeWhile_cons, if_neg (by simp), List.append_nil]

theorem cstr_of_not_mem [Zero α] {s : List α} (hs : (0 : α) ∉ s) : cstr s = s := by
  have h := cstr_append hs []
  rwa [show cstr ([] : List α) = [] from rfl, List.append_nil] at h

/-- Only what stands in front of a terminator counts. -/
theorem cstr_terminated [Zero α] (s rest : List α) : cstr (s ++ 0 :: rest) = cstr s := by
  by_cases hs : (0 : α) ∈ s
  · obtain ⟨front, tail, rfl, hfront⟩ := List.eq_append_cons_of_mem hs
    rw [List.append_assoc, List.cons_append, cstr_append_zero hfront, cstr_append_zero hfront]
  · rw [cstr_append_zero hs, cstr_of_not_mem hs]

theorem length_cstr_le [Zero α] (s : List α) : (cstr s).length ≤ s.length :=
  (List.takeWhile_sublist _).length_le

theorem strstr_eq_none {s sub : List α} {x : α} (hx : x ∈ sub) (hs : x ∉ s) :
    strstr s sub = none := by
  induction s with
  | nil => rw [strstr, if_neg (List.ne_nil_of_mem hx)]
  | cons c s ih =>
    rw [strstr, ih (fun h => hs (List.mem_cons_of_mem _ h)), if_neg]
    · rfl
    · intro hp
      exact hs (List.IsPrefix.subset (List.isPrefixOf_iff_prefix.mp hp) hx)

/-- A pattern that ends in the first `x` of the text starts that much earlier. -/
theorem strstr_eq_some {l pre : List α} {x : α} (hl : x ∉ l) (hpre : x ∉ pre) (rest : List α) :
    strstr (l ++ (pre ++ [x] ++ rest)) (pre ++ [x]) = some l.length := by
  induction l with
  | nil =>
    cases h : pre ++ [x] ++ rest with
    | nil => simp at h
    | cons c s =>
      rw [List.nil_append, strstr, if_pos]
      · rfl
      · rw [← h, List.isPrefixOf_iff_prefix]
        exact List.prefix_append _ _
  | cons c l ih =>
    obtain ⟨hc, hl⟩ := List.ne_and_not_mem_of_not_mem_cons hl
    rw [List.cons_append, strstr, ih hl, if_neg]
    · rfl
    · -- An earlier occurrence would end in an earlier `x`.
      intro hp
      have hfront : pre ++ [x] <+: c :: l ++ pre := by
        refine List.prefix_of_prefix_length_le (List.isPrefixOf_iff_prefix.mp hp) ?_ ?_
        · exact ⟨[x] ++ rest, by simp⟩
        · simp
      have hmem := hfront.subset (List.mem_append_right pre (List.mem_singleton_self x))
      rw [List.mem_append, List.mem_cons] at hmem
      rcases hmem with (hxc | hxl) | hxp
      · exact hc hxc
      · exact hl hxl
      · exact hpre hxp

theorem strstr_eq_some_head {l pat : List α} {x : α} (hl : x ∉ l) (rest : List α) :
    strstr (l ++ (x :: pat ++ rest)) (x :: pat) = some l.length := by
  induction l with
  | nil =>
    rw [List.nil_append, List.cons_append, strstr, if_pos]
    · rfl
    · rw [List.isPrefixOf_iff_prefix]
      exact List.prefix_append (x :: pat) rest
  | cons c l ih =>
    obtain ⟨hc, hl⟩ := List.ne_and_not_mem_of_not_mem_cons hl
    rw [List.cons_append, strstr, ih hl, if_neg]
    · rfl
    · intro hp
      exact hc (List.cons_prefix_cons.mp (List.isPrefixOf_iff_prefix.mp hp)).1

end EventServer.Lib.CString
