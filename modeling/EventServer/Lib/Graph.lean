import Mathlib.Logic.Relation
import Mathlib.Data.List.Chain

/-!
# Graphs

A rank that every edge lowers bounds the paths, so that nothing reaches itself.
-/
namespace EventServer.Lib.Graph

open Relation

variable {α : Type}

section Descent

variable {R : α → α → Prop} {P : Nat → α → Prop}
  (hstep : ∀ n a b, P n a → R a b → ∃ m, n = m + 1 ∧ P m b)

include hstep

theorem length_le_of_rank {n : Nat} {a : α} {path : List α} (ha : P n a)
    (hpath : List.IsChain R (a :: path)) : path.length ≤ n := by
  induction path generalizing n a with
  | nil => exact Nat.zero_le n
  | cons b path ih =>
    obtain ⟨hab, hpath⟩ := List.isChain_cons_cons.mp hpath
    obtain ⟨m, rfl, hb⟩ := hstep n a b ha hab
    exact Nat.succ_le_succ (ih hb hpath)

theorem exists_rank_of_reaches {n : Nat} {a b : α} (ha : P n a) (hab : ReflTransGen R a b) :
    ∃ m, P m b := by
  induction hab with
  | refl => exact ⟨n, ha⟩
  | tail _ hbc ih =>
    obtain ⟨m, hm⟩ := ih
    obtain ⟨k, -, hk⟩ := hstep _ _ _ hm hbc
    exact ⟨k, hk⟩

theorem not_cycle_of_rank {n : Nat} {a : α} (ha : P n a) : ¬TransGen R a a := by
  induction n generalizing a with
  | zero =>
    intro h
    obtain ⟨b, hab, -⟩ := TransGen.head'_iff.mp h
    obtain ⟨m, hm, -⟩ := hstep 0 a b ha hab
    exact Nat.succ_ne_zero m hm.symm
  | succ n ih =>
    intro h
    obtain ⟨b, hab, hba⟩ := TransGen.head'_iff.mp h
    obtain ⟨m, hm, hb⟩ := hstep (n + 1) a b ha hab
    obtain rfl := Nat.succ.inj hm
    exact ih hb (TransGen.tail' hba hab)

end Descent

end EventServer.Lib.Graph
