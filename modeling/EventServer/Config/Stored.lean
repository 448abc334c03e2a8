import EventServer.Config.Tags

/-!
# Lines that say the same again

A line whose name no other line of a file has stores its value for good: later lines
are about other entries, and the line itself changes nothing when it comes again.
-/
namespace EventServer.Config

open EventServer.Lib.CString EventServer.Lib.Transition EventServer.Stream

/-- A line without `=` calls no setter. -/
theorem lineCall_of_not_mem {env : Env} {line : List Byte} (h : ch '=' ∉ line) :
    lineCall env line = some none := by
  rw [lineCall, strstr_eq_none (x := ch '=') (List.mem_singleton_self _) h]

/-- Lines without calls leave the store as it is. -/
theorem run_silent {env : Env} (s : Store) {lines : List (List Byte)}
    (h : ∀ line ∈ lines, ch '=' ∉ line) : ∃ a, run (applyLine env) s lines = some (s, a) := by
  induction lines with
  | nil => exact ⟨[], rfl⟩
  | cons line lines ih =>
    obtain ⟨hline, hlines⟩ := List.forall_mem_cons.mp h
    obtain ⟨a, ha⟩ := ih hlines
    have hstep : applyLine env s line = some (s, []) := by
      rw [applyLine, lineCall_of_not_mem hline]
      rfl
    exact ⟨[] :: a, run_of_step hstep ha⟩

namespace Store

/-- The entry that is found for the name has the type of the value, and holds it. -/
def Stores (s : Store) (name : List Byte) (v : Value) : Prop :=
  ∃ i e, s.ref name none = some i ∧ s.entries[i]? = some e ∧ e.type = v.type ∧
    e.cell.read v.type = .value v

/-- `Ref` does not look at the case. -/
theorem ref_congr (s : Store) {name name' : List Byte} (h : tolower_ name = tolower_ name') :
    s.ref name none = s.ref name' none := by
  rw [ref_eq, ref_eq, h]

theorem Stores.congr {s : Store} {name name' : List Byte} {v : Value} (hs : s.Stores name v)
    (h : tolower_ name = tolower_ name') : s.Stores name' v := by
  rwa [Stores, ref_congr s h] at hs

theorem resolve_null (s : Store) (name : List Byte) : s.resolve name none none = s.ref name none :=
  rfl

section Set

variable {env : Env} {s : Store} {name : List Byte} {v : Value} {r : Result}

/-- A setter that inserts an entry stores its value. -/
theorem set_stores_new (hnone : s.ref name none = none) (h : s.set env name none v = some r) :
    r.store.Stores name v := by
  have hfit : s.Fits name none v := by
    intro i e hi _
    rw [resolve_null, hnone] at hi
    cases hi
  have href : r.ref_ = none := by
    obtain ⟨-, rfl⟩ | ⟨i, e, e', ret, -, -, -, rfl⟩ := set_cases h <;> rfl
  obtain ⟨i, e, hi, he, ht, hread⟩ := set_found hfit h
  rw [href, resolve_null] at hi
  exact ⟨i, e, hi, he, ht, hread⟩

/-- Storing what is there already is defined, and no getter sees a difference. -/
theorem set_stores_again (hs : s.Stores name v) :
    ∃ r, s.set env name none v = some r ∧ r.store.view = s.view ∧
      ∀ n w, s.Stores n w → r.store.Stores n w := by
  obtain ⟨i, e, hi, he, ht, hread⟩ := hs
  have hwild : s.NoWild name none v := by
    intro hv i' e' hi' he'
    obtain rfl : i = i' := Option.some.inj (hi.symm.trans hi')
    obtain rfl : e = e' := Option.some.inj (he.symm.trans he')
    cases hcell : e.cell with
    | str addr str => exact .inl ⟨addr, str, hcell⟩
    | bits w =>
      rw [hcell, hv] at hread
      cases hread
  obtain ⟨r, hr⟩ := Option.isSome_iff_exists.mp ((set_isSome_iff (inRange_null s)).mpr hwild)
  obtain ⟨hnone, -⟩ | ⟨i', e', e'', ret, hi', he', hw, rfl⟩ := set_cases hr
  · rw [resolve_null, hi] at hnone
    cases hnone
  · obtain rfl : i = i' := Option.some.inj (hi.symm.trans hi')
    obtain rfl : e = e' := Option.some.inj (he.symm.trans he')
    obtain ⟨hnew, -⟩ := overwrite_cases hw
    have htype : e''.type = v.type := by rw [hnew]; exact ht
    have hname : e''.name = e.name := by rw [hnew]
    have hwrite : e''.cell.read v.type = .value v := by rw [hnew]; exact Cell.read_write _ _ v
    have hview : e''.view = e.view := by
      rw [Entry.view, Entry.view, hname, htype, ht, hwrite, hread]
    refine ⟨_, hr, map_set_eq he hview, ?_⟩
    rintro n w ⟨j, x, hj, hx, hxt, hxr⟩
    have hnames : s.names <+: names ⟨s.entries.set i e'', s.copiesAfter v⟩ := by
      rw [names, names, map_set_eq he hname]
    have hfound := ref_of_names hnames hj
    by_cases hij : i = j
    · subst hij
      obtain rfl : e = x := Option.some.inj (he.symm.trans hx)
      have hvalues : w = v := by
        rw [← hxt, ht, hread] at hxr
        exact (Returned.value.inj hxr).symm
      subst hvalues
      exact ⟨i, e'', hfound, List.getElem?_set_self (List.getElem?_eq_some_iff.mp he).1, htype,
        hwrite⟩
    · exact ⟨j, x, hfound, (List.getElem?_set_ne hij).trans hx, hxt, hxr⟩

/-- A setter of another name leaves a stored value alone. -/
theorem set_stores_other {n : List Byte} {w : Value} (hname : tolower_ name ≠ tolower_ n)
    (hs : s.Stores n w) (h : s.set env name none v = some r) : r.store.Stores n w := by
  obtain ⟨i, e, hi, he, ht, hread⟩ := hs
  have hnames : s.names <+: r.store.names := by
    rcases set_names h with heq | ⟨-, heq⟩
    · rw [heq]
    · rw [heq]
      exact List.prefix_append _ _
  refine ⟨i, e, ref_of_names hnames hi, ?_, ht, hread⟩
  obtain ⟨-, rfl⟩ | ⟨j, x, x', ret, hj, hx, -, rfl⟩ := set_cases h
  · exact (List.getElem?_append_left (List.getElem?_eq_some_iff.mp he).1).trans he
  · have hij : j ≠ i := by
      rintro rfl
      obtain ⟨y, hy, hyn⟩ := exists_of_ref hi
      obtain ⟨z, hz, hzn⟩ := exists_of_ref hj
      obtain rfl : y = z := Option.some.inj (hy.symm.trans hz)
      exact hname (hzn.symm.trans hyn)
    exact (List.getElem?_set_ne hij).trans he

theorem set_ref_other {n : List Byte} (hname : tolower_ name ≠ tolower_ n)
    (hn : s.ref n none = none) (h : s.set env name none v = some r) :
    r.store.ref n none = none := by
  rcases set_names h with heq | ⟨-, heq⟩
  · rwa [ref_eq, heq, ← ref_eq]
  · rw [ref_eq] at hn
    rw [ref_eq, heq, List.findIdx?_append, hn, List.findIdx?_singleton]
    simp [hname]

end Set

end Store

/-! ## Lines -/

/-- The line has another name, up to case, or none. -/
def OtherName (env : Env) (name line : List Byte) : Prop :=
  ∀ n w, lineCall env line = some (some (n, w)) → tolower_ n ≠ tolower_ name

/-- What the line says is said by exactly one line of the file, and no other line has its name. -/
def Repeats (env : Env) (file : List (List Byte)) (line : List Byte) : Prop :=
  ∃ name name' v before said after, lineCall env line = some (some (name, v)) ∧
    file = before ++ said :: after ∧ lineCall env said = some (some (name', v)) ∧
    tolower_ name' = tolower_ name ∧ ∀ other ∈ before ++ after, OtherName env name other

namespace Store

variable {env : Env}

theorem run_other {name : List Byte} {lines : List (List Byte)}
    (hlines : ∀ line ∈ lines, OtherName env name line) {s t : Store} {a : List (List Access)}
    (h : run (applyLine env) s lines = some (t, a)) :
    (s.ref name none = none → t.ref name none = none) ∧
      ∀ v, s.Stores name v → t.Stores name v := by
  refine run_keeps (P := fun t => (s.ref name none = none → t.ref name none = none) ∧
    ∀ v, s.Stores name v → t.Stores name v) ?_ h ⟨id, fun _ => id⟩
  intro line hline s₁ s₂ a₁ hstep hkept
  obtain ⟨-, rfl, -⟩ | ⟨n, w, r, hcall, hset, rfl, -⟩ := applyLine_cases hstep
  · exact hkept
  · have hname := hlines line hline n w hcall
    exact ⟨fun hn => set_ref_other hname (hkept.1 hn) hset,
      fun v hv => set_stores_other hname (hkept.2 v hv) hset⟩

/-- Behind the file, what the line says is stored. -/
theorem stores_of_repeats {file : List (List Byte)} {line : List Byte}
    (hline : Repeats env file line) {s : Store} {a : List (List Access)}
    (h : run (applyLine env) fresh file = some (s, a)) :
    ∃ name v, lineCall env line = some (some (name, v)) ∧ s.Stores name v := by
  obtain ⟨name, name', v, before, said, after, hcall, rfl, hsaid, hname, hother⟩ := hline
  refine ⟨name, v, hcall, ?_⟩
  rw [run_append, Option.bind_eq_some_iff] at h
  obtain ⟨⟨s₁, a₁⟩, hbefore, h⟩ := h
  obtain ⟨⟨s', a'⟩, hrest, heq⟩ := Option.map_eq_some_iff.mp h
  obtain rfl : s' = s := congrArg Prod.fst heq
  obtain ⟨s₂, o, os, hstep, hafter, -⟩ := run_cons hrest
  have hfirst : s₁.ref name none = none :=
    (run_other (fun l hl => hother l (List.mem_append_left _ hl)) hbefore).1 rfl
  have hstored : s₂.Stores name v := by
    obtain ⟨hnone, -, -⟩ | ⟨n, w, r, hcall', hset, rfl, -⟩ := applyLine_cases hstep
    · rw [hsaid] at hnone
      cases hnone
    · rw [hsaid] at hcall'
      obtain ⟨rfl, rfl⟩ := Prod.mk.inj (Option.some.inj (Option.some.inj hcall'))
      rw [← ref_congr s₁ hname] at hfirst
      exact (set_stores_new hfirst hset).congr hname
  exact (run_other (fun l hl => hother l (List.mem_append_right _ hl)) hafter).2 v hstored

/-- Lines that say what is stored change nothing. -/
theorem run_again {s : Store} {lines : List (List Byte)}
    (h : ∀ line ∈ lines, ch '=' ∉ line ∨
      ∃ name v, lineCall env line = some (some (name, v)) ∧ s.Stores name v) :
    ∃ t a, run (applyLine env) s lines = some (t, a) ∧ t.view = s.view := by
  induction lines generalizing s with
  | nil => exact ⟨s, [], rfl, rfl⟩
  | cons line lines ih =>
    obtain ⟨hline, hlines⟩ := List.forall_mem_cons.mp h
    rcases hline with hsilent | ⟨name, v, hcall, hstored⟩
    · obtain ⟨t, a, hrun, hview⟩ := ih hlines
      have hstep : applyLine env s line = some (s, []) := by
        rw [applyLine, lineCall_of_not_mem hsilent]
        rfl
      exact ⟨t, [] :: a, run_of_step hstep hrun, hview⟩
    · obtain ⟨r, hset, hview, hkeep⟩ := @set_stores_again env s name v hstored
      have hmore : ∀ line ∈ lines, ch '=' ∉ line ∨
          ∃ name v, lineCall env line = some (some (name, v)) ∧ r.store.Stores name v := by
        intro line hline
        refine (hlines line hline).imp_right fun h => ?_
        obtain ⟨n, w, hc, hw⟩ := h
        exact ⟨n, w, hc, hkeep n w hw⟩
      obtain ⟨t, a, hrun, hview'⟩ := ih hmore
      have hstep : applyLine env s line = some (r.store, r.accesses) := by
        simp only [applyLine, hcall, hset, Option.bind_eq_bind, Option.bind_some, Option.pure_def]
      exact ⟨t, r.accesses :: a, run_of_step hstep hrun, hview'.trans hview⟩

theorem applyLine_names {s t : Store} {line : List Byte} {a : List Access}
    (h : applyLine env s line = some (t, a)) : s.names <+: t.names := by
  obtain ⟨-, rfl, -⟩ | ⟨n, w, r, -, hset, rfl, -⟩ := applyLine_cases h
  · exact List.prefix_refl _
  · rcases set_names hset with heq | ⟨-, heq⟩
    · rw [heq]
    · rw [heq]
      exact List.prefix_append _ _

/-- The name of a line is found behind it. -/
theorem ref_of_applyLine {s t : Store} {line name : List Byte} {v : Value} {a : List Access}
    (hcall : lineCall env line = some (some (name, v))) (h : applyLine env s line = some (t, a)) :
    ∃ i, t.ref name none = some i := by
  obtain ⟨hnone, -, -⟩ | ⟨n, w, r, hcall', hset, rfl, -⟩ := applyLine_cases h
  · rw [hcall] at hnone
    cases hnone
  · rw [hcall] at hcall'
    obtain ⟨rfl, rfl⟩ := Prod.mk.inj (Option.some.inj (Option.some.inj hcall'))
    cases hi : s.ref name none with
    | some i =>
      rcases set_names hset with heq | ⟨hnone, -⟩
      · exact ⟨i, ref_of_names (by rw [heq]) hi⟩
      · rw [hi] at hnone
        cases hnone
    | none =>
      obtain ⟨i, -, hr, -⟩ := set_stores_new hi hset
      exact ⟨i, hr⟩

/-- The name of a line is found behind all of them. -/
theorem ref_of_said {s t : Store} {lines : List (List Byte)} {line name : List Byte} {v : Value}
    {a : List (List Access)} (hline : line ∈ lines)
    (hcall : lineCall env line = some (some (name, v)))
    (h : run (applyLine env) s lines = some (t, a)) : ∃ i, t.ref name none = some i := by
  obtain ⟨before, after, rfl⟩ := List.append_of_mem hline
  rw [run_append, Option.bind_eq_some_iff] at h
  obtain ⟨⟨s₁, a₁⟩, -, h⟩ := h
  obtain ⟨⟨s', a'⟩, hrest, heq⟩ := Option.map_eq_some_iff.mp h
  obtain rfl : s' = t := congrArg Prod.fst heq
  obtain ⟨s₂, o, os, hstep, hafter, -⟩ := run_cons hrest
  obtain ⟨i, hi⟩ := ref_of_applyLine hcall hstep
  have hkept : s₂.names <+: s'.names := by
    refine run_keeps (P := fun t => s₂.names <+: t.names) ?_ hafter (List.prefix_refl _)
    exact fun _ _ s₃ s₄ _ hstep hkept => hkept.trans (applyLine_names hstep)
  exact ⟨i, ref_of_names hkept hi⟩

end Store

/-- One of the lines has a name that none of the others has. -/
def NewName (env : Env) (lines others : List (List Byte)) : Prop :=
  ∃ line ∈ lines, ∃ name v, lineCall env line = some (some (name, v)) ∧
    ∀ other ∈ others, OtherName env name other

namespace Store

/-- Such a name is in one of the stores only. -/
theorem names_ne_of_newName {env : Env} {lines others : List (List Byte)}
    (h : NewName env lines others) {s t : Store} {a b : List (List Access)}
    (hs : run (applyLine env) fresh lines = some (s, a))
    (ht : run (applyLine env) fresh others = some (t, b)) : s.names ≠ t.names := by
  obtain ⟨line, hline, name, v, hcall, hother⟩ := h
  obtain ⟨i, hi⟩ := ref_of_said hline hcall hs
  have hnone : t.ref name none = none := (run_other hother ht).1 rfl
  intro heq
  rw [ref_eq, heq, ← ref_eq, hnone] at hi
  cases hi

end Store

end EventServer.Config
