import Mathlib.Data.List.Basic

/-!
# Machines that append to a buffer

A machine reads a text letter by letter and appends to a buffer. Its runs over two texts,
one after the other, are its run over both.
-/
namespace EventServer.Lib.Machine

variable {σ τ α β : Type}

def run (step : σ → α → σ × List β) : σ → List α → σ × List β
  | s, [] => (s, [])
  | s, a :: as =>
    let (t, out) := step s a
    let (u, more) := run step t as
    (u, out ++ more)

@[simp] theorem run_nil (step : σ → α → σ × List β) (s : σ) : run step s [] = (s, []) := rfl

theorem run_cons (step : σ → α → σ × List β) (s : σ) (a : α) (as : List α) :
    run step s (a :: as) =
      ((run step (step s a).1 as).1, (step s a).2 ++ (run step (step s a).1 as).2) := rfl

theorem run_append (step : σ → α → σ × List β) (s : σ) (as bs : List α) :
    run step s (as ++ bs) =
      ((run step (run step s as).1 bs).1, (run step s as).2 ++ (run step (run step s as).1 bs).2) := by
  induction as generalizing s with
  | nil => rfl
  | cons a as ih => simp only [List.cons_append, run_cons, ih, List.append_assoc]

theorem run_singleton (step : σ → α → σ × List β) (s : σ) (a : α) : run step s [a] = step s a := by
  rw [run_cons, run_nil, List.append_nil]

/-- What every letter keeps is kept by a text. -/
theorem run_keeps {step : σ → α → σ × List β} {P : σ → Prop}
    (hstep : ∀ s a, P s → P (step s a).1) {s : σ} (hs : P s) (as : List α) :
    P (run step s as).1 := by
  induction as generalizing s with
  | nil => exact hs
  | cons a as ih => exact ih (hstep s a hs)

/-- Letters that change nothing may stand anywhere in a text. -/
theorem run_ignore {step : σ → α → σ × List β} {noise : α → Bool}
    (hnoise : ∀ s a, noise a → step s a = (s, [])) (s : σ) (as : List α) :
    run step s as = run step s (as.filter (!noise ·)) := by
  induction as generalizing s with
  | nil => rfl
  | cons a as ih =>
    by_cases ha : noise a
    · rw [List.filter_cons_of_neg (by simpa using ha), ← ih, run_cons, hnoise s a ha,
        List.nil_append]
    · rw [List.filter_cons_of_pos (by simpa using ha), run_cons, run_cons, ih]

/-- What the second machine leaves as it is, letter by letter of the first, it leaves as it is. -/
theorem run_fixes {first : σ → α → σ × List β} {second : τ → β → τ × List β} {t : τ}
    (hfix : ∀ s a, run second t (first s a).2 = (t, (first s a).2)) (s : σ) (as : List α) :
    run second t (run first s as).2 = (t, (run first s as).2) := by
  induction as generalizing s with
  | nil => rfl
  | cons a as ih => rw [run_cons, run_append, hfix, ih]

end EventServer.Lib.Machine
