import Mathlib.Data.List.AList

/-!
# Tables of references

A table gives out unused keys for values and takes them back. Owners hold keys
until they give them back or are gone without doing so. What the owners hold and
what was lost are, up to order, the entries of the table.
-/
namespace EventServer.Lib.Registry

variable {K V ω : Type}

/-- A key with its value. -/
abbrev Ref (K V : Type) := (_ : K) × V

abbrev Table (K V : Type) := AList fun _ : K => V

/-- A key that is not given out cannot be given back. -/
def release [DecidableEq K] (t : Table K V) (k : K) : Option (Table K V) := if k ∈ t then some (t.erase k) else none

section Held

variable {t : Table K V} {held : List (Ref K V)} {k : K} {v : V}

theorem lookup_of_held [DecidableEq K] (h : t.entries.Perm held) (hm : ⟨k, v⟩ ∈ held) : t.lookup k = some v :=
  AList.mem_lookup_iff.mpr (h.mem_iff.mpr hm)

theorem mem_of_held (h : t.entries.Perm held) (hm : ⟨k, v⟩ ∈ held) : k ∈ t :=
  AList.mem_keys.mpr (List.mem_map_of_mem (h.mem_iff.mpr hm))

theorem held_insert [DecidableEq K] (h : t.entries.Perm held) (hk : k ∉ t) (v : V) :
    (t.insert k v).entries.Perm (⟨k, v⟩ :: held) := by
  rw [AList.entries_insert_of_notMem hk]
  exact h.cons _

/-- What is held can be given back, and the rest is held as before. -/
theorem held_release [DecidableEq K] (h : t.entries.Perm (⟨k, v⟩ :: held)) :
    ∃ t', release t k = some t' ∧ t'.entries.Perm held := by
  refine ⟨t.erase k, if_pos (mem_of_held h List.mem_cons_self), ?_⟩
  have herase := h.kerase (a := k) t.nodupKeys
  exact herase.trans (.of_eq (List.kerase_cons_eq rfl))

end Held

section Owners

variable [DecidableEq ω] (refs : ω → List (Ref K V)) {os : List ω} {o : ω}

/-- One owner's references beside those of the others. -/
theorem owners_erase (h : o ∈ os) :
    (os.flatMap refs).Perm (refs o ++ (os.erase o).flatMap refs) :=
  (List.perm_cons_erase h).flatMap_right refs

/-- An owner that changes but holds what it held. -/
theorem owners_replace (h : o ∈ os) {o' : ω} (hrefs : refs o' = refs o) :
    (os.flatMap refs).Perm ((o' :: os.erase o).flatMap refs) := by
  rw [List.flatMap_cons, hrefs]
  exact owners_erase refs h

end Owners
end EventServer.Lib.Registry
