import EventServer.Config.Keys

/-!
# Tags and members

A setter that finds an entry of another type stores through its own member and
leaves the tag, so the tag no longer names what is stored. As long as every
setter finds no entry or one of its own type, every member that is read or freed
is the tagged one and what was set is what is read. A new `bool` is the exception
among the members: it is stored through `i`.
-/
namespace EventServer.Config

open EventServer.Lib.Transition EventServer.Stream

/-! ## The union -/

namespace Cell

@[simp] theorem setWidth_store32 (c : Cell) (v : BitVec 32) : (c.store32 v).word.setWidth 32 = v :=
  BitVec.setWidth_append_eq_right

@[simp] theorem setWidth_store32_byte (c : Cell) (v : BitVec 32) :
    (c.store32 v).word.setWidth 8 = v.setWidth 8 := by
  have h : (c.word.extractLsb' 32 32 ++ v).setWidth 8 = v.setWidth 8 := by
    rw [BitVec.setWidth_append, dif_pos (by decide)]
  exact h

theorem read_write (c : Cell) (addr : BitVec 64) (v : Value) :
    (c.write addr v).read v.type = .value v := by
  cases v with
  | int v => simp [write, read, Value.type]
  | float v => simp [write, read, Value.type]
  | uint v => simp [write, read, Value.type]
  | cstr s => rfl
  | obj p => rfl
  | bool b =>
    have h : (c.write addr (.bool b)).word.setWidth 8 = if b then 1#8 else 0#8 :=
      BitVec.setWidth_append_eq_right
    cases b <;> simp [read, Value.type, h]

end Cell

namespace Store

variable {env : Env} {s : Store} {name : List Byte} {ref_ : RefPtr} {v : Value}

@[simp] theorem newEntry_type (env : Env) (s : Store) (name : List Byte) (v : Value) :
    (s.newEntry env name v).type = v.type := by cases v <;> rfl

/-- A new `bool` is stored through `i`, but its low byte is what `b` reads. -/
theorem newEntry_read (env : Env) (s : Store) (name : List Byte) (v : Value) :
    (s.newEntry env name v).cell.read v.type = .value v := by
  cases v with
  | bool b =>
    cases b <;> simp [newEntry, Cell.read, Value.type]
  | int v => exact Cell.read_write _ (env.addr s.copies) (.int v)
  | float v => exact Cell.read_write _ (env.addr s.copies) (.float v)
  | uint v => exact Cell.read_write _ (env.addr s.copies) (.uint v)
  | cstr s => rfl
  | obj p => rfl

theorem newEntry_last (env : Env) (s : Store) (name : List Byte) (v : Value) :
    (s.newEntry env name v).last = if v.type = .b then .i else v.type := by cases v <;> rfl

/-! ## Setters that fit -/

/-- The setter finds no entry, or one of its own type. -/
def Fits (s : Store) (name : List Byte) (ref_ : RefPtr) (v : Value) : Prop :=
  ∀ i e, s.resolve name none ref_ = some i → s.entries[i]? = some e → e.type = v.type

/-- The setter does not make an entry for a `bool`. -/
def NoNewBool (s : Store) (name : List Byte) (ref_ : RefPtr) (v : Value) : Prop :=
  s.resolve name none ref_ = none → v.type ≠ .b

/-- The tag names the member last stored, except in a `bool` that was not stored into since it
was made; and under the tag of a string there is one. -/
structure Tagged (e : Entry) : Prop where
  last : e.last = e.type ∨ e.type = .b ∧ e.last = .i
  cstr : e.type = .cstr → ∃ addr str, e.cell = .str addr str

theorem newEntry_tagged (env : Env) (s : Store) (name : List Byte) (v : Value) :
    Tagged (s.newEntry env name v) := by
  cases v with
  | bool b => exact ⟨.inr ⟨rfl, rfl⟩, nofun⟩
  | int v => exact ⟨.inl rfl, nofun⟩
  | float v => exact ⟨.inl rfl, nofun⟩
  | cstr str => exact ⟨.inl rfl, fun _ => ⟨_, str, rfl⟩⟩
  | obj p => exact ⟨.inl rfl, nofun⟩
  | uint v => exact ⟨.inl rfl, nofun⟩

theorem overwrite_tagged {e e' : Entry} {addr : BitVec 64} {ret : Returned}
    (ht : e.type = v.type) (h : overwrite e addr v = some (e', ret)) :
    Tagged e' ∧ e'.type = v.type ∧ e'.last = e'.type ∧ e'.cell.read v.type = .value v := by
  obtain ⟨rfl, -⟩ := overwrite_cases h
  refine ⟨⟨.inl ht.symm, ?_⟩, ht, ht.symm, Cell.read_write _ _ _⟩
  intro hc
  have hv : v.type = .cstr := ht.symm.trans hc
  cases v with
  | cstr str => exact ⟨addr, str, rfl⟩
  | int v => cases hv
  | float v => cases hv
  | bool b => cases hv
  | obj p => cases hv
  | uint v => cases hv

/-- A setter that fits keeps the tags, and what it reads is what the tag names. -/
theorem set_tagged {r : Result} (hfit : s.Fits name ref_ v) (hs : ∀ e ∈ s.entries, Tagged e)
    (h : s.set env name ref_ v = some r) :
    (∀ e ∈ r.store.entries, Tagged e) ∧ ∀ a ∈ r.accesses, a.tag = a.member := by
  obtain ⟨-, rfl⟩ | ⟨i, e, e', ret, hi, he, hw, rfl⟩ := set_cases h
  · refine ⟨?_, nofun⟩
    intro e he
    rcases List.mem_append.mp he with he | he
    · exact hs e he
    · rw [List.mem_singleton.mp he]
      exact newEntry_tagged env s name v
  · have ht := hfit i e hi he
    refine ⟨?_, ?_⟩
    · intro x hx
      rcases List.mem_or_eq_of_mem_set hx with hx | rfl
      · exact hs x hx
      · exact (overwrite_tagged ht hw).1
    · intro a ha
      rw [List.mem_singleton.mp ha]
      exact ht

theorem set_last {r : Result} (hfit : s.Fits name ref_ v) (hnew : s.NoNewBool name ref_ v)
    (hs : ∀ e ∈ s.entries, e.last = e.type) (h : s.set env name ref_ v = some r) :
    ∀ e ∈ r.store.entries, e.last = e.type := by
  obtain ⟨hnone, rfl⟩ | ⟨i, e, e', ret, hi, he, hw, rfl⟩ := set_cases h
  · intro e he
    rcases List.mem_append.mp he with he | he
    · exact hs e he
    · rw [List.mem_singleton.mp he, newEntry_last, newEntry_type, if_neg (hnew hnone)]
  · intro x hx
    rcases List.mem_or_eq_of_mem_set hx with hx | rfl
    · exact hs x hx
    · exact (overwrite_tagged (hfit i e hi he) hw).2.2.1

theorem set_found {r : Result} (hfit : s.Fits name ref_ v) (h : s.set env name ref_ v = some r) :
    ∃ i e, r.store.resolve name none r.ref_ = some i ∧ r.store.entries[i]? = some e ∧
      e.type = v.type ∧ e.cell.read v.type = .value v := by
  obtain ⟨hnone, rfl⟩ | ⟨i, e, e', ret, hi, he, hw, rfl⟩ := set_cases h
  · refine ⟨s.entries.length, s.newEntry env name v, ?_, List.getElem?_concat_length,
      newEntry_type env s name v, newEntry_read env s name v⟩
    cases ref_ with
    | some x => rfl
    | none =>
      have hself : matchesName name none (s.newEntry env name v) = true := by simp [matchesName]
      change (s.entries ++ [s.newEntry env name v]).findIdx? (matchesName name none) = _
      have hfirst : s.entries.findIdx? (matchesName name none) = none := hnone
      rw [List.findIdx?_append, hfirst, List.findIdx?_singleton, hself]
      simp
  · have hlt : i < s.entries.length := (List.getElem?_eq_some_iff.mp he).1
    obtain ⟨-, htype, -, hread⟩ := overwrite_tagged (hfit i e hi he) hw
    refine ⟨i, e', ?_, List.getElem?_set_self hlt, htype, hread⟩
    cases ref_ with
    | some x => rfl
    | none =>
      have hname : e'.name = e.name := by rw [(overwrite_cases hw).1]
      have hnames : s.names <+: names ⟨s.entries.set i e', s.copiesAfter v⟩ := by
        rw [names, names, map_set_eq he hname]
      exact ref_of_names hnames hi

theorem get_after_set {r : Result} (hfit : s.Fits name ref_ v)
    (h : s.set env name ref_ v = some r) {dflt : Value} (hd : dflt.type = v.type) :
    (r.store.get env name r.ref_ none dflt).map (·.returned) = some (.value v) := by
  obtain ⟨i, e, hi, he, ht, hread⟩ := set_found hfit h
  rw [get_of_type hi he (ht.trans hd.symm), Option.map_some, ht, hread]

theorem set_isSome (hfit : s.Fits name ref_ v) (hs : ∀ e ∈ s.entries, Tagged e)
    (hrange : ∀ i, ref_ = some (some i) → i < s.entries.length) :
    (s.set env name ref_ v).isSome := by
  apply set_isSome_of_overwrite hrange
  intro i e hi he
  apply overwrite_isSome
  intro hv
  exact (hs e (List.mem_of_getElem? he)).cstr ((hfit i e hi he).trans hv)

theorem release_isSome (hs : ∀ e ∈ s.entries, Tagged e) : s.release.isSome := by
  have hall : s.entries.all releasable = true := by
    rw [List.all_eq_true]
    intro e he
    cases ht : e.type with
    | cstr =>
      obtain ⟨addr, str, hcell⟩ := (hs e he).cstr ht
      simp [releasable, ht, hcell]
    | _ => simp [releasable, ht]
  rw [release, if_pos hall]
  rfl

end Store

/-! ## Runs -/

namespace Store

variable {env : Env} {C : Store → List Byte → RefPtr → Value → Prop} {I : Store → Prop}

/-- What setters keep under the condition is kept by every call. -/
theorem step_meets
    (hset : ∀ s name ref_ v r, C s name ref_ v → I s → s.set env name ref_ v = some r →
      I r.store ∧ ∀ a ∈ r.accesses, a.tag = a.member)
    (hempty : ∀ n, I ⟨[], n⟩) {s t : Store} {op : Op} {as : List Access} (hop : op.Meets env C s)
    (hs : I s) (h : s.step env op = some (t, as)) : I t ∧ ∀ a ∈ as, a.tag = a.member := by
  obtain ⟨name, ref_, v, r, rfl, hr, rfl, rfl⟩ | ⟨name, ref_, alias_, dflt, r, rfl, hr, rfl, rfl⟩ |
    ⟨file, l, rfl, hr, rfl⟩ | ⟨rfl, hr⟩ := step_cases h
  · exact hset s name ref_ v r hop hs hr
  · obtain ⟨i, e, -, -, -, rfl⟩ | ⟨r', hr', rfl⟩ := get_cases hr
    · exact ⟨hs, by simp⟩
    · rcases hop with ⟨i, e, hi, he, ht⟩ | hop
      · rw [get_of_type hi he ht, Option.some.injEq] at hr
        rw [← hr]
        exact ⟨hs, by simp⟩
      · exact hset s name _ dflt r' hop hs hr'
  · have hline : ∀ s₁ line s₂ (l : List Access), lineMeets env C s₁ line → I s₁ →
        applyLine env s₁ line = some (s₂, l) → I s₂ ∧ ∀ a ∈ l, a.tag = a.member := by
      intro s₁ line s₂ l hmeets hs₁ hstep
      obtain ⟨-, rfl, rfl⟩ | ⟨name, v, r', hcall, hr', rfl, rfl⟩ := applyLine_cases hstep
      · exact ⟨hs₁, nofun⟩
      · exact hset s₁ name none v r' (hmeets name v hcall) hs₁ hr'
    obtain ⟨ht, has⟩ := run_along hline hop hs hr
    refine ⟨ht, ?_⟩
    intro a ha
    obtain ⟨l, hl, ha⟩ := List.mem_flatten.mp ha
    exact has l hl a ha
  · rw [release] at hr
    split at hr
    · obtain ⟨rfl, rfl⟩ := Prod.mk.inj (Option.some.inj hr)
      refine ⟨hempty _, ?_⟩
      intro a ha
      obtain ⟨e, -, rfl⟩ := List.mem_map.mp ha
      rfl
    · cases hr

theorem run_meets
    (hset : ∀ s name ref_ v r, C s name ref_ v → I s → s.set env name ref_ v = some r →
      I r.store ∧ ∀ a ∈ r.accesses, a.tag = a.member)
    (hempty : ∀ n, I ⟨[], n⟩) {t : Store} {ops : List Op} {as : List (List Access)}
    (hops : Along (step env) (Op.Meets env C) fresh ops)
    (h : run (step env) fresh ops = some (t, as)) : I t ∧ ∀ a ∈ as.flatten, a.tag = a.member := by
  have hstep : ∀ s op s' (l : List Access), Op.Meets env C s op → I s →
      step env s op = some (s', l) → I s' ∧ ∀ a ∈ l, a.tag = a.member :=
    fun _ _ _ _ hop hs h => step_meets hset hempty hop hs h
  obtain ⟨ht, has⟩ := run_along hstep hops (hempty 0) h
  refine ⟨ht, ?_⟩
  intro a ha
  obtain ⟨l, hl, ha⟩ := List.mem_flatten.mp ha
  exact has l hl a ha

/-- In every run in which each setter finds no entry or one of its own type, only tagged members
are read or freed, a getter returns what its setter has just set, and neither a setter nor
`release` is undefined. If no setter makes an entry for a `bool` either, the tag of every entry
names the member last stored. -/
theorem tags_name_members (env : Env) (ops : List Op) (s : Store) (as : List (List Access))
    (hrun : run (step env) fresh ops = some (s, as))
    (hfit : Along (step env) (Op.Meets env Fits) fresh ops) :
    (∀ a ∈ as.flatten, a.tag = a.member) ∧
    (∀ e ∈ s.entries, e.last = e.type ∨ e.type = .b ∧ e.last = .i) ∧
    (∀ name ref_ v dflt, s.Fits name ref_ v → dflt.type = v.type →
      (∀ i, ref_ = some (some i) → i < s.entries.length) →
      ∃ r, s.set env name ref_ v = some r ∧
        (r.store.get env name r.ref_ none dflt).map (·.returned) = some (.value v)) ∧
    s.release.isSome ∧
    (Along (step env)
        (Op.Meets env fun s name ref_ v => s.Fits name ref_ v ∧ s.NoNewBool name ref_ v) fresh ops →
      ∀ e ∈ s.entries, e.last = e.type) := by
  obtain ⟨htag, has⟩ := run_meets (I := fun s => ∀ e ∈ s.entries, Tagged e)
    (fun _ _ _ _ _ hfit hs hr => set_tagged hfit hs hr) (fun _ _ he => absurd he List.not_mem_nil)
    hfit hrun
  refine ⟨has, fun e he => (htag e he).last, ?_, release_isSome htag, ?_⟩
  · intro name ref_ v dflt hf hd hrange
    have hsome : (s.set env name ref_ v).isSome := set_isSome hf htag hrange
    obtain ⟨r, hr⟩ := Option.isSome_iff_exists.mp hsome
    exact ⟨r, hr, get_after_set hf hr hd⟩
  · intro hstrict
    refine (run_meets (I := fun s => (∀ e ∈ s.entries, Tagged e) ∧ ∀ e ∈ s.entries, e.last = e.type)
      ?_ ?_ hstrict hrun).1.2
    · intro s₁ name ref_ v r hc hi hr
      obtain ⟨ht, ha⟩ := set_tagged hc.1 hi.1 hr
      exact ⟨⟨ht, set_last hc.1 hc.2 hi.2 hr⟩, ha⟩
    · exact fun _ => ⟨fun _ he => absurd he List.not_mem_nil,
        fun _ he => absurd he List.not_mem_nil⟩

theorem meets_set_get (hC : C fresh [ch 'a'] none (.int 1)) :
    Along (step Env.sample) (Op.Meets Env.sample C) fresh
      [.set [ch 'a'] none (.int 1), .get [ch 'a'] none none (.int 0)] := by
  refine ⟨hC, ?_⟩
  intro s₁ l₁ h₁
  cases h₁
  refine ⟨.inl ⟨0, _, rfl, rfl, rfl⟩, ?_⟩
  intro s₂ l₂ _
  trivial

/-- `SetInt`, then `GetInt`: one access, and the tag names the member. -/
theorem tags_name_members_int :
    ∃ s, run (step Env.sample) fresh
        [.set [ch 'a'] none (.int 1), .get [ch 'a'] none none (.int 0)] =
          some (s, [[], [⟨.i, .i⟩]]) ∧ s.entries.map (·.type) = [.i] ∧
      ∀ e ∈ s.entries, e.last = e.type := by
  refine ⟨_, rfl, rfl, ?_⟩
  have hfit : fresh.Fits [ch 'a'] none (.int 1) := fun i e hi => nomatch hi
  have hnew : fresh.NoNewBool [ch 'a'] none (.int 1) := fun _ => by decide
  exact (tags_name_members Env.sample
    [.set [ch 'a'] none (.int 1), .get [ch 'a'] none none (.int 0)] _ _ rfl
    (meets_set_get hfit)).2.2.2.2 (meets_set_get ⟨hfit, hnew⟩)

/-- `SetInt` and then `SetBool` of one name: under the tag of an `int` a `bool` is read and stored,
and `GetBool` returns its default instead of what was set. -/
theorem bool_stored_under_int :
    ∃ s, run (step Env.sample) fresh
        [.set [ch 'a'] none (.int 1), .set [ch 'a'] none (.bool true)] =
          some (s, [[], [⟨.i, .b⟩]]) ∧
      ¬ (∀ e ∈ s.entries, e.last = e.type) ∧
      (s.get Env.sample [ch 'a'] none none (.bool false)).map (·.returned) =
        some (.value (.bool false)) := by
  refine ⟨_, rfl, by decide, by decide⟩

end Store

end EventServer.Config
