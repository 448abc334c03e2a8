import Mathlib.Data.List.Count
import Mathlib.Data.List.Nodup
import Mathlib.Logic.Function.Basic

/-!
# Tokens in places

A system that hands things over, seen as a map from places to the lists of
tokens that lie there. Tokens come into being once and are moved; then no token
ever lies in two places, or twice in one.
-/
namespace EventServer.Lib.Tokens

variable {π τ : Type} [DecidableEq π] [DecidableEq τ] {c : π → List τ}

/-- `place` says of every token where it lies: there once, and nowhere else. -/
def Placed (c : π → List τ) (place : τ → Option π) : Prop :=
  ∀ p t, (c p).count t = if place t = some p then 1 else 0

/-- No token lies in two places, or twice in one. -/
def Separate (c : π → List τ) : Prop := ∃ place, Placed c place

theorem separate_empty : Separate (fun _ : π => ([] : List τ)) := ⟨fun _ => none, by simp [Placed]⟩

theorem Placed.mem_iff {place : τ → Option π} (h : Placed c place) (p : π) (t : τ) :
    t ∈ c p ↔ place t = some p := by
  rw [← List.count_pos_iff, h p t]
  split <;> simp_all

/-- A token that lies somewhere lies there once, and nowhere else. -/
theorem Separate.count_eq (h : Separate c) {p : π} {t : τ} (hp : t ∈ c p) (q : π) :
    (c q).count t = if q = p then 1 else 0 := by
  obtain ⟨place, hpl⟩ := h
  rw [hpl q t, (hpl.mem_iff p t).1 hp]
  simp [eq_comm]

theorem Separate.nodup (h : Separate c) (p : π) : (c p).Nodup := by
  rw [List.nodup_iff_count_le_one]
  intro t
  obtain ⟨place, hpl⟩ := h
  rw [hpl p t]
  split <;> omega

theorem Separate.unique (h : Separate c) {p q : π} {t : τ} (hp : t ∈ c p) (hq : t ∈ c q) : p = q := by
  have hc := h.count_eq hp q
  have hpos := List.count_pos_iff.mpr hq
  split at hc
  · rename_i he
    exact he.symm
  · omega

theorem Separate.add (h : Separate c) (p : π) {t : τ} (ht : ∀ q, t ∉ c q) :
    Separate (Function.update c p (c p ++ [t])) := by
  obtain ⟨place, hpl⟩ := h
  refine ⟨Function.update place t (some p), fun q x => ?_⟩
  have hx := hpl q x
  by_cases hxt : x = t
  · subst hxt
    have h0 : (c q).count x = 0 := List.count_eq_zero_of_not_mem (ht q)
    by_cases hq : q = p
    · subst hq
      simp [h0]
    · simp [Function.update_of_ne hq, h0, Ne.symm hq]
  · by_cases hq : q = p
    · subst hq
      simp [Function.update_of_ne hxt, hx, Ne.symm hxt]
    · simp [Function.update_of_ne hq, Function.update_of_ne hxt, hx]

/-- The first tokens of one place go to the end of another. -/
theorem Separate.move (h : Separate c) {p q : π} (hpq : p ≠ q) {xs rest : List τ}
    (hp : c p = xs ++ rest) :
    Separate (Function.update (Function.update c p rest) q (c q ++ xs)) := by
  obtain ⟨place, hpl⟩ := h
  refine ⟨fun x => if x ∈ xs then some q else place x, fun r x => ?_⟩
  have hxp := hpl p x
  have hxq := hpl q x
  have hxr := hpl r x
  rw [hp, List.count_append] at hxp
  beta_reduce
  by_cases hx : x ∈ xs
  · -- It lay in `p`, so nowhere else.
    have hpos := List.count_pos_iff.mpr hx
    have hplace : place x = some p := by
      by_contra hne
      rw [if_neg hne] at hxp
      omega
    rw [hplace, if_pos rfl] at hxp
    rw [hplace, if_neg (by simpa using hpq)] at hxq
    by_cases hrq : r = q
    · subst hrq
      simp only [Function.update_self, List.count_append, hx, ↓reduceIte]
      omega
    · rw [Function.update_of_ne hrq, if_pos hx, if_neg (by simpa using Ne.symm hrq)]
      by_cases hrp : r = p
      · subst hrp
        rw [Function.update_self]
        omega
      · rw [Function.update_of_ne hrp, hxr, hplace, if_neg (by simpa using Ne.symm hrp)]
  · have h0 : xs.count x = 0 := List.count_eq_zero_of_not_mem hx
    rw [if_neg hx]
    by_cases hrq : r = q
    · subst hrq
      rw [Function.update_self, List.count_append, h0, hxq, Nat.add_zero]
    · rw [Function.update_of_ne hrq]
      by_cases hrp : r = p
      · subst hrp
        rw [Function.update_self, ← hxp, h0, Nat.zero_add]
      · rw [Function.update_of_ne hrp, hxr]

omit [DecidableEq τ] in
theorem mem_of_mem_move {p q : π} {xs rest : List τ} (hp : c p = xs ++ rest) {r : π} {t : τ}
    (h : t ∈ Function.update (Function.update c p rest) q (c q ++ xs) r) :
    t ∈ c r ∨ t ∈ xs ∧ r = q := by
  by_cases hrq : r = q
  · subst hrq
    rw [Function.update_self, List.mem_append] at h
    exact h.imp id fun hx => ⟨hx, rfl⟩
  · rw [Function.update_of_ne hrq] at h
    by_cases hrp : r = p
    · subst hrp
      rw [Function.update_self] at h
      exact .inl (by rw [hp]; exact List.mem_append_right _ h)
    · rw [Function.update_of_ne hrp] at h
      exact .inl h

omit [DecidableEq τ] in
theorem mem_move {p q : π} (hpq : p ≠ q) {xs rest : List τ} (hp : c p = xs ++ rest) {r : π} {t : τ}
    (h : t ∈ c r) :
    t ∈ Function.update (Function.update c p rest) q (c q ++ xs) r ∨
      r = p ∧ t ∈ xs ∧ t ∈ Function.update (Function.update c p rest) q (c q ++ xs) q := by
  by_cases hrq : r = q
  · subst hrq
    rw [Function.update_self]
    exact .inl (List.mem_append_left _ h)
  · by_cases hrp : r = p
    · subst hrp
      rw [hp, List.mem_append] at h
      rcases h with hx | hx
      · exact .inr ⟨rfl, hx, by rw [Function.update_self]; exact List.mem_append_right _ hx⟩
      · exact .inl (by rw [Function.update_of_ne hpq, Function.update_self]; exact hx)
    · exact .inl (by rw [Function.update_of_ne hrq, Function.update_of_ne hrp]; exact h)

omit [DecidableEq τ] in
theorem mem_add {p r : π} {x t : τ} :
    t ∈ Function.update c p (c p ++ [x]) r ↔ t ∈ c r ∨ t = x ∧ r = p := by
  by_cases hrp : r = p
  · subst hrp
    simp
  · simp [hrp]

end EventServer.Lib.Tokens
