import EventServer.Config.Load
import EventServer.Containers.VVector

/-!
# Names and references

An entry is only ever added behind the others, under a name that `Ref` did not
find, and keeps its name and its place. So the names are distinct up to case, and
what `Ref` has found for a name it finds again.
-/
namespace EventServer.Config

open EventServer.Lib.Transition EventServer.Containers EventServer.Stream

namespace Store

def names (s : Store) : List (List Byte) := s.entries.map (·.name)

/-- No two names are the same to `Ref`. -/
def DistinctKeys (s : Store) : Prop := (s.names.map tolower_).Nodup

/-- `Ref` looks at nothing but the names. -/
theorem ref_eq (s : Store) (name : List Byte) (alias_ : Option (List Byte)) :
    s.ref name alias_ = s.names.findIdx? fun n =>
      decide (tolower_ n = tolower_ name) || decide (alias_ = some (tolower_ n)) := by
  rw [names, List.findIdx?_map]
  rfl

theorem ref_of_names {s t : Store} (h : s.names <+: t.names) {name : List Byte}
    {alias_ : Option (List Byte)} {i : Nat} (hi : s.ref name alias_ = some i) :
    t.ref name alias_ = some i := by
  obtain ⟨more, hmore⟩ := h
  rw [ref_eq] at hi ⊢
  rw [← hmore, List.findIdx?_append, hi]
  rfl

theorem not_mem_of_ref {s : Store} {name : List Byte} (h : s.ref name none = none) :
    tolower_ name ∉ s.names.map tolower_ := by
  rw [ref_eq, List.findIdx?_eq_none_iff] at h
  intro hmem
  obtain ⟨n, hn, heq⟩ := List.mem_map.mp hmem
  have hno := h n hn
  simp [heq] at hno

theorem DistinctKeys.eq_of_mem {s : Store} (h : s.DistinctKeys) {e e' : Entry} (he : e ∈ s.entries)
    (he' : e' ∈ s.entries) (heq : tolower_ e.name = tolower_ e'.name) : e = e' := by
  rw [DistinctKeys, names, List.map_map] at h
  exact List.inj_on_of_nodup_map h he he' heq

theorem exists_of_ref {s : Store} {name : List Byte} {i : Nat} (h : s.ref name none = some i) :
    ∃ e, s.entries[i]? = some e ∧ tolower_ e.name = tolower_ name := by
  obtain ⟨hlt, hmatch, -⟩ := List.findIdx?_eq_some_iff_getElem.mp h
  exact ⟨s.entries[i], List.getElem?_eq_getElem hlt, by simpa [matchesName] using hmatch⟩

theorem DistinctKeys.ref_eq {s : Store} (h : s.DistinctKeys) {e : Entry} (he : e ∈ s.entries) :
    ∃ i, s.ref e.name none = some i ∧ s.entries[i]? = some e := by
  cases hi : s.ref e.name none with
  | none => exact absurd (List.mem_map_of_mem (List.mem_map_of_mem he)) (not_mem_of_ref hi)
  | some i =>
    obtain ⟨x, hx, hname⟩ := exists_of_ref hi
    refine ⟨i, rfl, ?_⟩
    rw [hx, h.eq_of_mem (List.mem_of_getElem? hx) he hname]

theorem ref_of_resolve {s : Store} {name : List Byte} {alias_ : Option (List Byte)} {ref_ : RefPtr}
    (h : s.resolve name alias_ ref_ = none) : s.ref name alias_ = none := by
  unfold resolve at h
  split at h
  · cases h
  · exact h

@[simp] theorem newEntry_name (env : Env) (s : Store) (name : List Byte) (v : Value) :
    (s.newEntry env name v).name = name := by cases v <;> rfl

/-- What is the same of an entry and of the one in its place is the same of all entries. -/
theorem map_set_eq {α : Type} {f : Entry → α} {es : List Entry} {i : Nat} {e e' : Entry}
    (he : es[i]? = some e) (hf : f e' = f e) : (es.set i e').map f = es.map f := by
  rw [List.map_set, hf]
  apply List.ext_getElem?
  intro j
  rw [List.getElem?_set]
  split
  · rename_i hij
    subst hij
    split
    · rw [List.getElem?_map, he]
      rfl
    · rename_i hlen
      rw [List.getElem?_eq_none (Nat.not_lt.mp hlen)]
  · rfl

/-- A setter adds its name behind the others, or leaves the names as they are. -/
theorem set_names {env : Env} {s : Store} {name : List Byte} {ref_ : RefPtr} {v : Value}
    {r : Result} (h : s.set env name ref_ v = some r) :
    r.store.names = s.names ∨ s.ref name none = none ∧ r.store.names = s.names ++ [name] := by
  obtain ⟨hnone, rfl⟩ | ⟨i, e, e', ret, -, he, hw, rfl⟩ := set_cases h
  · right
    refine ⟨ref_of_resolve hnone, ?_⟩
    simp [names]
  · left
    obtain ⟨rfl, -⟩ := overwrite_cases hw
    exact map_set_eq he rfl

/-! ## The vector -/

/-- `m_vecCfg`, where pointer `i` is the `i`-th entry that was made. -/
structure Holds (v : VVector Nat) (s : Store) : Prop where
  wf : v.Wf
  grown : v.grown = 2
  entries : v.toList = List.range s.entries.length

theorem Holds.get {v : VVector Nat} {s : Store} (h : Holds v s) {i : Nat}
    (hi : i < s.entries.length) : v.get i = some i := by
  have hsize : v.size = s.entries.length := by
    rw [← h.wf.length_toList, h.entries, List.length_range]
  rw [h.wf.get_eq (by omega), h.entries, List.getElem?_range hi]

/-- A setter leaves the vector alone or makes one `push_back`, which may move all of it. -/
theorem Holds.set {v : VVector Nat} {env : Env} {s : Store} (h : Holds v s) {name : List Byte}
    {ref_ : RefPtr} {x : Value} {r : Result} (hset : s.set env name ref_ x = some r) :
    Holds v r.store ∨ ∀ v', v.pushBack s.entries.length = some v' → Holds v' r.store := by
  obtain ⟨-, rfl⟩ | ⟨i, e, e', ret, -, -, -, rfl⟩ := set_cases hset
  · right
    intro v' hv'
    obtain ⟨hwf, hl, hg⟩ := VVector.pushBack_spec h.wf hv'
    refine ⟨hwf, hg.trans h.grown, ?_⟩
    rw [hl, h.entries, List.length_append, List.length_singleton, List.range_succ]
  · left
    refine ⟨h.wf, h.grown, ?_⟩
    rw [h.entries, List.length_set]

/-! ## Runs -/

/-- A state in which the names are distinct and those of `s` are still in their places. -/
structure Extends (s t : Store) : Prop where
  distinct : t.DistinctKeys
  names : s.names <+: t.names

theorem set_extends {env : Env} {s₀ s : Store} (hs : s₀.Extends s) {name : List Byte}
    {ref_ : RefPtr} {v : Value} {r : Result} (h : s.set env name ref_ v = some r) :
    s₀.Extends r.store := by
  obtain ⟨hd, hp⟩ := hs
  rcases set_names h with heq | ⟨hnone, heq⟩
  · exact ⟨by rw [DistinctKeys, heq]; exact hd, by rw [heq]; exact hp⟩
  · refine ⟨?_, by rw [heq]; exact hp.trans (List.prefix_append _ _)⟩
    rw [DistinctKeys, heq, List.map_append, List.nodup_append]
    refine ⟨hd, List.nodup_singleton _, ?_⟩
    intro a ha b hb hab
    rw [List.map_singleton, List.mem_singleton] at hb
    rw [hab, hb] at ha
    exact not_mem_of_ref hnone ha

theorem step_extends {env : Env} {s₀ s t : Store} (hs : s₀.Extends s) {op : Op}
    (hop : op ≠ .release) {a : List Access} (h : s.step env op = some (t, a)) : s₀.Extends t := by
  obtain ⟨name, ref_, v, r, -, hr, rfl, -⟩ | ⟨name, ref_, alias_, dflt, r, -, hr, rfl, -⟩ |
    ⟨file, l, -, hr, -⟩ | ⟨hrel, -⟩ := step_cases h
  · exact set_extends hs hr
  · obtain ⟨i, e, -, -, -, rfl⟩ | ⟨r', hset, rfl⟩ := get_cases hr
    · exact hs
    · exact set_extends (r := r') hs hset
  · refine run_keeps (P := s₀.Extends) ?_ hr hs
    intro line _ s₁ s₂ a₁ hline hs₁
    obtain ⟨-, rfl, -⟩ | ⟨name, v, r', -, hset, rfl, -⟩ := applyLine_cases hline
    · exact hs₁
    · exact set_extends hs₁ hset
  · exact absurd hrel hop

theorem run_extends {env : Env} {s₀ s t : Store} (hs : s₀.Extends s) {ops : List Op}
    (hops : .release ∉ ops) {as : List (List Access)} (h : run (step env) s ops = some (t, as)) :
    s₀.Extends t := by
  refine run_keeps (P := s₀.Extends) ?_ h hs
  intro op hop s₁ s₂ a₁ hstep hs₁
  refine step_extends hs₁ ?_ hstep
  rintro rfl
  exact hops hop

/-! ## Calls that are defined -/

/-- The union is zero or holds a string, which is what `SetCString` takes it for. -/
def HoldsString (e : Entry) : Prop := (∃ addr str, e.cell = .str addr str) ∨ e.cell = .bits 0

/-- A string is not stored into a union that `SetCString` takes for one wrongly. -/
def NoWild (s : Store) (name : List Byte) (ref_ : RefPtr) (v : Value) : Prop :=
  v.type = .cstr → ∀ i e, s.resolve name none ref_ = some i → s.entries[i]? = some e →
    HoldsString e

/-- `ref_` is null, points to `-1` or points to an index of the vector. -/
def InRange (s : Store) (ref_ : RefPtr) : Prop := ∀ i, ref_ = some (some i) → i < s.entries.length

theorem inRange_null (s : Store) : s.InRange none := by
  intro i h
  cases h

theorem noWild_of_type {s : Store} {name : List Byte} {ref_ : RefPtr} {v : Value}
    (h : v.type ≠ .cstr) : s.NoWild name ref_ v := fun hv => absurd hv h

theorem overwrite_isSome_iff {e : Entry} {addr : BitVec 64} {v : Value} :
    (overwrite e addr v).isSome ↔ (v.type = .cstr → HoldsString e) := by
  constructor
  · intro h hv
    obtain ⟨str, rfl⟩ : ∃ str, v = .cstr str := by
      cases v with
      | cstr str => exact ⟨str, rfl⟩
      | _ => cases hv
    cases hcell : e.cell with
    | str addr' old => exact .inl ⟨addr', old, hcell⟩
    | bits w =>
      right
      unfold overwrite at h
      simp only [hcell] at h
      split at h
      · next hw => rw [hcell, hw]
      · cases h
  · intro h
    by_cases hv : v.type = .cstr
    · rcases h hv with hstr | hzero
      · exact overwrite_isSome fun _ => hstr
      · cases v with
        | cstr str =>
          unfold overwrite
          rw [hzero]
          rfl
        | _ => cases hv
    · exact overwrite_isSome fun hc => absurd hc hv

section Defined

variable {env : Env} {s : Store} {name : List Byte} {ref_ : RefPtr}

theorem InRange.lt (h : s.InRange ref_) {alias_ : Option (List Byte)} {i : Nat}
    (hi : s.resolve name alias_ ref_ = some i) : i < s.entries.length := by
  unfold resolve at hi
  split at hi
  · exact h i (by rw [Option.some.inj hi])
  · exact (List.findIdx?_eq_some_iff_findIdx_eq.mp hi).1

theorem set_isSome_iff (h : s.InRange ref_) {v : Value} :
    (s.set env name ref_ v).isSome ↔ s.NoWild name ref_ v := by
  constructor
  · intro hset hv i e hi he
    obtain ⟨r, hr⟩ := Option.isSome_iff_exists.mp hset
    obtain ⟨hnone, -⟩ | ⟨i', e', e'', ret, hi', he', hw, -⟩ := set_cases hr
    · rw [hnone] at hi
      cases hi
    · obtain rfl : i = i' := Option.some.inj (hi.symm.trans hi')
      obtain rfl : e = e' := Option.some.inj (he.symm.trans he')
      exact overwrite_isSome_iff.mp (Option.isSome_iff_exists.mpr ⟨_, hw⟩) hv
  · intro hwild
    refine set_isSome_of_overwrite h fun i e hi he => ?_
    exact overwrite_isSome_iff.mpr fun hv => hwild hv i e hi he

theorem get_isSome_iff (h : s.InRange ref_) {alias_ : Option (List Byte)} {dflt : Value} :
    (s.get env name ref_ alias_ dflt).isSome ↔
      (∃ i e, s.resolve name alias_ ref_ = some i ∧ s.entries[i]? = some e ∧ e.type = dflt.type) ∨
        s.NoWild name (ref_.map fun _ => s.resolve name alias_ ref_) dflt := by
  have hrange : s.InRange (ref_.map fun _ => s.resolve name alias_ ref_) := by
    intro i hi
    obtain ⟨_, -, hi⟩ := Option.map_eq_some_iff.mp hi
    exact h.lt hi
  rw [← set_isSome_iff hrange]
  constructor
  · intro hget
    obtain ⟨r, hr⟩ := Option.isSome_iff_exists.mp hget
    obtain ⟨i, e, hi, he, ht, -⟩ | ⟨r', hr', -⟩ := get_cases hr
    · exact .inl ⟨i, e, hi, he, ht⟩
    · exact .inr (Option.isSome_iff_exists.mpr ⟨r', hr'⟩)
  · intro hor
    rcases hor with ⟨i, e, hi, he, ht⟩ | hset
    · rw [get_of_type hi he ht]
      rfl
    · unfold get
      cases hi : s.resolve name alias_ ref_ with
      | none =>
        rw [hi] at hset
        simpa using hset
      | some i =>
        have hlt := h.lt hi
        have he : s.entries[i]? = some s.entries[i] := List.getElem?_eq_getElem hlt
        rw [hi] at hset
        simp only [he, Option.bind_eq_bind, Option.bind_some]
        split
        · rfl
        · simpa using hset

end Defined

end Store

/-- The `ref_` of a call is in range. -/
def Op.InRange (s : Store) : Op → Prop
  | .set _ ref_ _ => s.InRange ref_
  | .get _ ref_ _ _ => s.InRange ref_
  | .load _ => True
  | .release => True

/-- Name and value of every line of a file fit their arrays. -/
def Op.LinesFit (env : Env) : Op → Prop
  | .load file => ∀ line ∈ loadLines file, (lineCall env line).isSome
  | _ => True

/-- A call that stores no string over anything else, and reads no line that is too long. -/
def Op.Defined (env : Env) (s : Store) (op : Op) : Prop :=
  op.Meets env Store.NoWild s ∧ op.LinesFit env

namespace Store

section Defined

variable {env : Env} {s : Store}

theorem applyLine_isSome_iff {line : List Byte} :
    (applyLine env s line).isSome ↔
      (lineCall env line).isSome ∧ lineMeets env NoWild s line := by
  unfold applyLine lineMeets
  rcases hcall : lineCall env line with - | - | ⟨name, v⟩
  · exact iff_of_false Bool.false_ne_true fun h => Bool.false_ne_true h.1
  · refine iff_of_true rfl ⟨rfl, fun _ _ heq => ?_⟩
    cases heq
  · have hset : (s.set env name none v).isSome ↔ s.NoWild name none v :=
      set_isSome_iff (inRange_null s)
    have hrun : ((s.set env name none v).bind fun res => some (res.store, res.accesses)).isSome =
        (s.set env name none v).isSome := by
      cases s.set env name none v <;> rfl
    simp only [Option.bind_eq_bind, Option.bind_some, Option.pure_def, hrun, hset,
      Option.isSome_some, true_and]
    constructor
    · intro h _ _ heq
      cases heq
      exact h
    · exact fun h => h name v rfl

theorem load_isSome_iff {file : List Byte} :
    (s.load env file).isSome ↔ (Op.load file).Defined env s := by
  have hrun := run_isSome_iff (fun s line _ => @applyLine_isSome_iff env s line)
    (along_trivial (applyLine env) s (loadLines file))
  constructor
  · intro h
    obtain ⟨⟨t, os⟩, hload⟩ := Option.isSome_iff_exists.mp h
    refine ⟨along_mono (fun _ _ _ h => h.2) (hrun.mp h), fun line hline => ?_⟩
    obtain ⟨s', hs'⟩ := run_mem hload hline
    exact (applyLine_isSome_iff.mp hs').1
  · intro h
    exact hrun.mpr (along_mono (fun line hline _ hmeets => ⟨h.2 line hline, hmeets⟩) h.1)

theorem step_isSome_iff {op : Op} (hrange : op.InRange s) (hop : op ≠ .release) :
    (s.step env op).isSome ↔ op.Defined env s := by
  cases op with
  | set name ref_ v =>
    rw [step, Option.isSome_map, set_isSome_iff hrange]
    exact (and_iff_left trivial).symm
  | get name ref_ alias_ dflt =>
    rw [step, Option.isSome_map, get_isSome_iff hrange]
    exact (and_iff_left trivial).symm
  | load file =>
    rw [step, Option.isSome_map]
    exact load_isSome_iff
  | release => exact absurd rfl hop

end Defined

/-- The calls are defined. After the first of them the names are distinct up to case, and after the
others the entries are still in their places and `Ref` finds what it found. -/
def KeysStay (env : Env) (ops more : List Op) : Prop :=
  ∃ s t as bs, run (step env) fresh ops = some (s, as) ∧ run (step env) s more = some (t, bs) ∧
    s.DistinctKeys ∧ t.DistinctKeys ∧ s.names <+: t.names ∧
    ∀ name alias_ i, s.ref name alias_ = some i → t.ref name alias_ = some i

/-- Whatever calls but `release` are made, names and references stay valid exactly as long as
`SetCString` finds strings and the lines fit. -/
theorem keys_distinct_refs_stable_iff (env : Env) (ops more : List Op)
    (hops : .release ∉ ops ++ more)
    (hrange : Along (step env) (fun s op => op.InRange s) fresh (ops ++ more)) :
    KeysStay env ops more ↔ Along (step env) (Op.Defined env) fresh (ops ++ more) := by
  have hdefined : (run (step env) fresh (ops ++ more)).isSome ↔
      Along (step env) (Op.Defined env) fresh (ops ++ more) := by
    have hstep : ∀ s (op : Op), op.InRange s ∧ op ≠ .release →
        ((step env s op).isSome ↔ op.Defined env s) := fun _ _ hop => step_isSome_iff hop.1 hop.2
    refine run_isSome_iff hstep (along_mono (fun op hop s hr => ⟨hr, ?_⟩) hrange)
    rintro rfl
    exact hops hop
  rw [← hdefined]
  rw [List.mem_append, not_or] at hops
  constructor
  · intro h
    obtain ⟨s, t, as, bs, hs, ht, -⟩ := h
    rw [run_append, hs, Option.bind_some, ht]
    rfl
  · intro h
    obtain ⟨r, hr⟩ := Option.isSome_iff_exists.mp h
    rw [run_append, Option.bind_eq_some_iff] at hr
    obtain ⟨⟨s, as⟩, hs, hr⟩ := hr
    obtain ⟨⟨t, bs⟩, ht, -⟩ := Option.map_eq_some_iff.mp hr
    have hfresh : fresh.Extends fresh := ⟨List.nodup_nil, List.nil_prefix⟩
    have hd : s.DistinctKeys := (run_extends hfresh hops.1 hs).distinct
    have hext : s.Extends t := run_extends ⟨hd, List.prefix_refl _⟩ hops.2 ht
    exact ⟨s, t, as, bs, hs, ht, hd, hext.distinct, hext.names,
      fun name alias_ i hi => ref_of_names hext.names hi⟩

/-- A setter, a getter that finds the entry by its alias only and inserts another, a setter with the
first name in capitals, and a string that is stored twice. -/
theorem keys_distinct_refs_stable_run :
    KeysStay Env.sample [.set [ch 'a'] none (.int 1)]
      [.get [ch 'b'] none (some [ch 'a']) (.bool true), .set [ch 'A'] (some none) (.int 2),
        .set [ch 's'] none (.cstr [ch 'x']), .set [ch 'S'] none (.cstr [ch 'y'])] := by
  have hminus : ∀ s : Store, s.InRange (some none) := by
    intro s i h
    cases h
  refine (keys_distinct_refs_stable_iff Env.sample [.set [ch 'a'] none (.int 1)] _ (by decide)
    ?_).mpr ?_
  · exact ⟨inRange_null _, fun s₁ _ _ => ⟨inRange_null s₁, fun s₂ _ _ => ⟨hminus s₂,
      fun s₃ _ _ => ⟨inRange_null s₃, fun s₄ _ _ => ⟨inRange_null s₄, fun _ _ _ => trivial⟩⟩⟩⟩⟩
  · -- The strings are stored behind the numbers: the first finds no entry, the second the first.
    refine ⟨⟨noWild_of_type (by decide), trivial⟩, fun s₁ _ h₁ => ?_⟩
    cases h₁
    refine ⟨⟨.inr (noWild_of_type (by decide)), trivial⟩, fun s₂ _ h₂ => ?_⟩
    cases h₂
    refine ⟨⟨noWild_of_type (by decide), trivial⟩, fun s₃ _ h₃ => ?_⟩
    cases h₃
    refine ⟨⟨?_, trivial⟩, fun s₄ _ h₄ => ?_⟩
    · intro _ i e hi
      cases hi
    · cases h₄
      refine ⟨⟨?_, trivial⟩, fun _ _ _ => trivial⟩
      intro _ i e hi he
      cases hi
      cases he
      exact .inl ⟨_, _, rfl⟩

/-- `SetInt` and then `SetCString` of one name: the number is taken for an address. -/
theorem int_taken_for_string :
    ¬ KeysStay Env.sample [.set [ch 'a'] none (.int 1)] [.set [ch 'a'] none (.cstr [ch 'x'])] := by
  rintro ⟨s, t, as, bs, hs, ht, -⟩
  have hnone : (run (step Env.sample) fresh [.set [ch 'a'] none (.int 1)]).bind (fun r =>
      run (step Env.sample) r.1 [.set [ch 'a'] none (.cstr [ch 'x'])]) = none := by decide +kernel
  rw [hs, Option.bind_some, ht] at hnone
  cases hnone

end Store

end EventServer.Config
