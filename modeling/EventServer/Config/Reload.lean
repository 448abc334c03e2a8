import EventServer.Config.Chunks
import EventServer.Config.Save
import EventServer.Config.Tags

/-!
# Saving and loading again

A `bool` and an `int` are printed in a form that `load` reads back. A `uint` has a
form of its own as well, but for it `load` calls `SetInt`. A pointer repeats the
line in front of it, and a line that is loaded twice changes nothing.
-/
namespace EventServer.Config

open EventServer.Lib.Blocks EventServer.Lib.CString EventServer.Lib.Decimal
open EventServer.Lib.Transition EventServer.Stream

/-! ## One value -/

theorem isNumberLoop_digits {text : List Byte} (h : ∀ c ∈ text, isDigit c = true) (c d : Nat) :
    isNumberLoop c d text = true := by
  induction text with
  | nil => rfl
  | cons x text ih =>
    obtain ⟨hx, htext⟩ := List.forall_mem_cons.mp h
    have hdot : x ≠ ch '.' := by
      rintro rfl
      exact absurd hx (by decide)
    rw [isNumberLoop, if_neg hdot, if_pos hx, ih htext]

theorem isNumber_printNat (n : Nat) : isNumber (printNat n) = true := by
  rw [isNumber, if_neg (printNat_ne_nil n)]
  exact isNumberLoop_digits (fun c hc => isDigit_of_mem_printNat hc) 0 0

theorem isNumber_printInt (n : Int) : isNumber (printInt n) = true := by
  unfold printInt
  split
  · rw [isNumber, if_neg (List.cons_ne_nil _ _), isNumberLoop, if_neg (by decide),
      if_neg (by decide), if_pos (by decide), if_neg (by decide)]
    exact isNumberLoop_digits (fun c hc => isDigit_of_mem_printNat hc) 0 1
  · exact isNumber_printNat _

/-- What `load` sets for what `save` printed: `SetInt` for a `uint`. -/
def reloaded : Value → Value
  | .uint v => .int (atoi (printNat v.toNat))
  | v => v

/-- The types of a configuration of scalars. -/
def CfgType.Scalar (t : CfgType) : Prop := t = .b ∨ t = .i ∨ t = .u ∨ t = .p

/-- A text that stands in a line as it is. -/
structure PlainText (text : List Byte) : Prop where
  short : text.length ≤ 12
  zero : 0 ∉ text
  lf : Config.lf ∉ text

theorem plainText_of_number {c : Byte} (hc : c ≠ 0 ∧ c ≠ lf) {text : List Byte}
    (hlen : text.length ≤ 11) (htext : ∀ x ∈ text, x = 45 ∨ isDigit x = true) :
    PlainText (c :: text) := by
  have hmem : ∀ b : Byte, c ≠ b → b ≠ 45 → isDigit b = false → b ∉ c :: text := by
    intro b hcb hb hd hin
    rcases List.mem_cons.mp hin with rfl | hin
    · exact hcb rfl
    · rcases htext b hin with h | h
      · exact hb h
      · rw [hd] at h
        cases h
  exact ⟨by rw [List.length_cons]; omega, hmem 0 hc.1 (by decide) (by decide),
    hmem lf hc.2 (by decide) (by decide)⟩

theorem printValue_scalar (env : Env) {v : Value} (hv : v.type.Scalar) {text : List Byte}
    (h : printValue env v = some text) :
    PlainText text ∧ parseValue env text = reloaded v ∧
      ((reloaded v).type = .b ∨ (reloaded v).type = .i) := by
  cases v with
  | bool b =>
    obtain rfl := Option.some.inj h
    cases b with
    | false => exact ⟨⟨by decide, by decide, by decide⟩, rfl, .inl rfl⟩
    | true => exact ⟨⟨by decide, by decide, by decide⟩, rfl, .inl rfl⟩
  | int v =>
    obtain rfl := Option.some.inj h
    have hle := BitVec.le_toInt v
    have hlt : v.toInt < 2 ^ 31 := BitVec.toInt_lt
    have hlen : (printInt v.toInt).length ≤ 11 := printInt_length (by decide) (by omega)
    refine ⟨plainText_of_number (by decide) hlen fun x hx => mem_printInt hx, ?_, .inr rfl⟩
    rw [parseValue_cons env _ (by decide) (by decide) (by decide), if_neg (by decide),
      if_pos ⟨rfl, isNumber_printInt _⟩, atoi_printInt]
    rfl
  | uint v =>
    obtain rfl := Option.some.inj h
    have hlt := v.isLt
    have hlen : (printNat v.toNat).length ≤ 10 := printNat_length (by decide) (by omega)
    refine ⟨plainText_of_number (by decide) (by omega)
      fun x hx => .inr (isDigit_of_mem_printNat hx), ?_, .inr rfl⟩
    rw [parseValue_cons env _ (by decide) (by decide) (by decide), if_neg (by decide),
      if_neg (fun hi => absurd hi.1 (by decide)), if_pos ⟨rfl, isNumber_printNat _⟩]
    rfl
  | obj p => cases h
  | float v => simp [CfgType.Scalar, Value.type] at hv
  | cstr s => simp [CfgType.Scalar, Value.type] at hv

/-! ## The file -/

/-- The name and the value that are printed for an entry. -/
def savedPair (e : Entry) : Option (List Byte × Value) :=
  match e.cell.read e.type with
  | .value (.obj _) => none
  | .value v => some (e.name, v)
  | .wildPtr _ => none

theorem savedPair_cases {e : Entry} (he : e.type.Scalar) :
    (e.type = .p ∧ savedPair e = none ∧ ∃ p, e.cell.read e.type = .value (.obj p)) ∨
    (e.type ≠ .p ∧ ∃ v, savedPair e = some (e.name, v) ∧ v.type = e.type ∧
      e.cell.read e.type = .value v) := by
  unfold savedPair
  rcases he with h | h | h | h
  · exact .inr ⟨by rw [h]; decide, _, by rw [h]; rfl, by rw [h]; rfl, by rw [h]; rfl⟩
  · exact .inr ⟨by rw [h]; decide, _, by rw [h]; rfl, by rw [h]; rfl, by rw [h]; rfl⟩
  · exact .inr ⟨by rw [h]; decide, _, by rw [h]; rfl, by rw [h]; rfl, by rw [h]; rfl⟩
  · exact .inl ⟨h, by rw [h]; rfl, _, by rw [h]; rfl⟩

def pairLine (env : Env) (p : List Byte × Value) : List Byte :=
  printLine p.1 ((printValue env p.2).getD [])

/-- A pair whose line is read back. -/
structure Printable (p : List Byte × Value) : Prop where
  name : ValidName p.1
  scalar : p.2.type.Scalar
  printed : p.2.type ≠ .p

theorem Printable.exists_text {p : List Byte × Value} (h : Printable p) (env : Env) :
    ∃ text, printValue env p.2 = some text ∧ pairLine env p = printLine p.1 text := by
  obtain ⟨n, v⟩ := p
  cases v with
  | obj q => exact absurd rfl h.printed
  | int v => exact ⟨_, rfl, rfl⟩
  | uint v => exact ⟨_, rfl, rfl⟩
  | bool b => exact ⟨_, rfl, rfl⟩
  | float v => exact ⟨_, rfl, rfl⟩
  | cstr s => exact ⟨_, rfl, rfl⟩

theorem Printable.line {p : List Byte × Value} (h : Printable p) (env : Env) :
    Style.crlf.Clean (pairLine env p) ∧ (pairLine env p).length ≤ 268 ∧
      lineCall env (pairLine env p) = some (some (p.1, reloaded p.2)) := by
  obtain ⟨text, htext, hline⟩ := h.exists_text env
  obtain ⟨hplain, hparse, -⟩ := printValue_scalar env h.scalar htext
  have hname := h.name.short
  have hshort := hplain.short
  have hlen : (printLine p.1 text).length ≤ 268 := by
    rw [printLine, List.length_append, List.length_cons]
    omega
  have hmem : ∀ b : Byte, b ∉ p.1 → b ≠ ch '=' → b ∉ text → b ∉ printLine p.1 text := by
    intro b hn he ht
    rw [printLine, List.mem_append, List.mem_cons, not_or, not_or]
    exact ⟨hn, he, ht⟩
  rw [hline]
  refine ⟨⟨hmem 0 h.name.zero (by decide) hplain.zero, hmem lf h.name.lf (by decide) hplain.lf,
    (fun h => by cases h), by omega⟩, hlen, ?_⟩
  rw [lineCall_printLine env h.name (by omega), hparse]

theorem printEntry_eq (env : Env) (buf : List Byte) {e : Entry} (he : e.type.Scalar)
    (hname : ValidName e.name) :
    printEntry env buf e =
      some (((savedPair e).map fun p => pairLine env p ++ crlf).getD buf) := by
  rcases savedPair_cases he with ⟨-, hpair, q, hread⟩ | ⟨hp, v, hpair, hv, hread⟩
  · rw [printEntry, hread, hpair]
    rfl
  · have hprintable : Printable (e.name, v) := ⟨hname, by rw [hv]; exact he, by rw [hv]; exact hp⟩
    obtain ⟨text, htext, hline⟩ := hprintable.exists_text env
    have hlen := (hprintable.line env).2.1
    rw [hline] at hlen
    have hconvert : convertedLength v = 0 := by
      cases v with
      | cstr s =>
        rw [← hv] at he
        simp [CfgType.Scalar, Value.type] at he
      | _ => rfl
    rw [printEntry, hread, hpair]
    simp only [htext, Option.map_some, Option.getD_some, hline, hconvert]
    rw [if_pos]
    refine ⟨?_, Nat.zero_le _⟩
    rw [List.length_append]
    exact Nat.le_trans (Nat.add_le_add_right hlen _) (by decide)

/-- The lines that are written for entries, behind the line that is in the buffer. -/
def savedPairs : Option (List Byte × Value) → List Entry → List (List Byte × Value)
  | _, [] => []
  | prev, e :: es => ((savedPair e).or prev).toList ++ savedPairs ((savedPair e).or prev) es

theorem saveLoop_eq (env : Env) (prev : Option (List Byte × Value)) {es : List Entry}
    (hes : ∀ e ∈ es, e.type.Scalar ∧ ValidName e.name) :
    saveLoop env (Style.crlf.join (prev.toList.map (pairLine env))) es =
      some (Style.crlf.join ((savedPairs prev es).map (pairLine env))) := by
  induction es generalizing prev with
  | nil => rfl
  | cons e es ih =>
    obtain ⟨he, hes⟩ := List.forall_mem_cons.mp hes
    have hbuf : printEntry env (Style.crlf.join (prev.toList.map (pairLine env))) e =
        some (Style.crlf.join (((savedPair e).or prev).toList.map (pairLine env))) := by
      rw [printEntry_eq env _ he.1 he.2]
      cases savedPair e with
      | none => rfl
      | some p => simp [Style.term]
    rw [saveLoop]
    refine bind_eq_of_some hbuf (bind_eq_of_some (ih _ hes) ?_)
    rw [savedPairs, List.map_append, Style.join_append]
    rfl

theorem mem_savedPairs {p : List Byte × Value} {prev : Option (List Byte × Value)} {es : List Entry}
    (h : p ∈ savedPairs prev es) : prev = some p ∨ ∃ e ∈ es, savedPair e = some p := by
  induction es generalizing prev with
  | nil => cases h
  | cons e es ih =>
    have hcur : (savedPair e).or prev = some p →
        prev = some p ∨ ∃ x ∈ e :: es, savedPair x = some p := by
      intro hor
      rcases Option.or_eq_some_iff.mp hor with he | ⟨-, hprev⟩
      · exact .inr ⟨e, List.mem_cons_self, he⟩
      · exact .inl hprev
    rw [savedPairs] at h
    rcases List.mem_append.mp h with h | h
    · exact hcur (Option.mem_toList.mp h)
    · rcases ih h with hor | ⟨x, hx, hpair⟩
      · exact hcur hor
      · exact .inr ⟨x, List.mem_cons_of_mem _ hx, hpair⟩

theorem savedPair_mem {p : List Byte × Value} {es : List Entry} {e : Entry} (he : e ∈ es)
    (hpair : savedPair e = some p) (prev : Option (List Byte × Value)) :
    p ∈ savedPairs prev es := by
  induction es generalizing prev with
  | nil => cases he
  | cons x es ih =>
    rw [savedPairs]
    rcases List.mem_cons.mp he with rfl | he
    · rw [hpair]
      exact List.mem_append_left _ (List.mem_singleton_self p)
    · exact List.mem_append_right _ (ih he _)

/-! ## The store that is loaded -/

/-- The entries are those of the pairs. -/
structure Loaded (t : Store) (ps : List (List Byte × Value)) : Prop where
  distinct : t.DistinctKeys
  sound : ∀ e ∈ t.entries, ∃ v, (e.name, v) ∈ ps ∧ e.type = v.type ∧ e.cell.read v.type = .value v
  complete : ∀ p ∈ ps, ∃ e ∈ t.entries, e.name = p.1 ∧ e.type = p.2.type ∧
    e.cell.read p.2.type = .value p.2

theorem Loaded.fresh : Loaded Store.fresh [] := ⟨List.nodup_nil, nofun, nofun⟩

theorem mem_set_of_ne {es : List Entry} {i : Nat} {e x : Entry} (e' : Entry)
    (he : es[i]? = some e) (hx : x ∈ es) (hne : x ≠ e) : x ∈ es.set i e' := by
  obtain ⟨j, hj⟩ := List.mem_iff_getElem?.mp hx
  have hij : i ≠ j := by
    rintro rfl
    rw [he] at hj
    exact hne (Option.some.inj hj).symm
  exact List.mem_iff_getElem?.mpr ⟨j, by rw [List.getElem?_set_ne hij, hj]⟩

/-- What a setter leaves where the entry it finds has its name and its type: an entry with the
value, and the entries with other names. -/
theorem Store.set_mem {env : Env} {t : Store} {n : List Byte} {v : Value} {r : Result}
    (hfound : ∀ i e, t.resolve n none none = some i → t.entries[i]? = some e →
      e.name = n ∧ e.type = v.type) (h : t.set env n none v = some r) :
    ∃ e ∈ r.store.entries, e.name = n ∧ e.type = v.type ∧ e.cell.read v.type = .value v ∧
      (∀ x ∈ r.store.entries, x = e ∨ x ∈ t.entries) ∧
      ∀ x ∈ t.entries, tolower_ x.name ≠ tolower_ n → x ∈ r.store.entries := by
  obtain ⟨-, rfl⟩ | ⟨i, e, e', ret, hi, he, hw, rfl⟩ := set_cases h
  · refine ⟨t.newEntry env n v, List.mem_append_right _ (List.mem_singleton_self _),
      newEntry_name env t n v, newEntry_type env t n v, newEntry_read env t n v, ?_,
      fun x hx _ => List.mem_append_left _ hx⟩
    intro x hx
    rcases List.mem_append.mp hx with hx | hx
    · exact .inr hx
    · exact .inl (List.mem_singleton.mp hx)
  · obtain ⟨hn, htype⟩ := hfound i e hi he
    obtain ⟨-, htype', -, hread⟩ := overwrite_tagged htype hw
    have hname : e'.name = n := by rw [(overwrite_cases hw).1, ← hn]
    have hlt : i < t.entries.length := (List.getElem?_eq_some_iff.mp he).1
    refine ⟨e', List.mem_set hlt e', hname, htype', hread,
      fun x hx => (List.mem_or_eq_of_mem_set hx).symm, ?_⟩
    intro x hx hne
    apply mem_set_of_ne e' he hx
    rintro rfl
    exact hne (by rw [hn])

theorem Loaded.set {env : Env} {t : Store} {ps : List (List Byte × Value)} (ht : Loaded t ps)
    {n : List Byte} {v : Value} (hagree : ∀ p ∈ ps, tolower_ p.1 = tolower_ n → p = (n, v))
    (hv : v.type ≠ .cstr) : ∃ r, t.set env n none v = some r ∧ Loaded r.store (ps ++ [(n, v)]) := by
  -- The entry that is found came from this very pair.
  have hfound : ∀ i e, t.resolve n none none = some i → t.entries[i]? = some e →
      e.name = n ∧ e.type = v.type := by
    intro i e hi he
    obtain ⟨x, hx, hname⟩ := Store.exists_of_ref hi
    obtain rfl : e = x := Option.some.inj (he.symm.trans hx)
    obtain ⟨v', hmem, htype, -⟩ := ht.sound e (List.mem_of_getElem? he)
    obtain ⟨hn, rfl⟩ := Prod.mk.inj (hagree _ hmem hname)
    exact ⟨hn, htype⟩
  have hsome : (t.set env n none v).isSome :=
    Store.set_isSome_of_overwrite nofun fun i e _ _ =>
      Store.overwrite_isSome fun hc => absurd hc hv
  obtain ⟨r, hr⟩ := Option.isSome_iff_exists.mp hsome
  have hext : t.Extends r.store := Store.set_extends ⟨ht.distinct, List.prefix_refl _⟩ hr
  obtain ⟨e, he, hname, htype, hread, hold, hkept⟩ := Store.set_mem hfound hr
  refine ⟨r, hr, hext.distinct, ?_, ?_⟩
  · intro x hx
    rcases hold x hx with rfl | hx
    · rw [hname]
      exact ⟨v, List.mem_append_right _ (List.mem_singleton_self _), htype, hread⟩
    · obtain ⟨v', hmem, h⟩ := ht.sound x hx
      exact ⟨v', List.mem_append_left _ hmem, h⟩
  · intro p hp
    by_cases hkey : tolower_ p.1 = tolower_ n
    · have hpair : p = (n, v) := by
        rcases List.mem_append.mp hp with hp | hp
        · exact hagree p hp hkey
        · exact List.mem_singleton.mp hp
      rw [hpair]
      exact ⟨e, he, hname, htype, hread⟩
    · rcases List.mem_append.mp hp with hp | hp
      · obtain ⟨x, hx, hxname, h⟩ := ht.complete p hp
        exact ⟨x, hkept x hx (by rw [hxname]; exact hkey), hxname, h⟩
      · rw [List.mem_singleton.mp hp] at hkey
        exact absurd rfl hkey

def reloadedPair (p : List Byte × Value) : List Byte × Value := (p.1, reloaded p.2)

/-- The lines of pairs that agree with each other give a store with these pairs. -/
theorem Loaded.lines {env : Env} {ps : List (List Byte × Value)} (hps : ∀ p ∈ ps, Printable p)
    {t : Store} {qs : List (List Byte × Value)} (ht : Loaded t qs)
    (hagree : ∀ p ∈ qs ++ ps.map reloadedPair, ∀ q ∈ qs ++ ps.map reloadedPair,
      tolower_ p.1 = tolower_ q.1 → p = q) :
    ∃ t' as, run (applyLine env) t (ps.map (pairLine env)) = some (t', as) ∧
      Loaded t' (qs ++ ps.map reloadedPair) := by
  induction ps generalizing t qs with
  | nil => exact ⟨t, [], rfl, by rwa [List.map_nil, List.append_nil]⟩
  | cons p ps ih =>
    obtain ⟨hp, hps⟩ := List.forall_mem_cons.mp hps
    have hsplit : qs ++ (p :: ps).map reloadedPair = qs ++ [reloadedPair p] ++ ps.map reloadedPair := by
      simp
    obtain ⟨text, htext, -⟩ := hp.exists_text env
    have htype : (reloaded p.2).type ≠ .cstr := by
      rcases (printValue_scalar env hp.scalar htext).2.2 with h | h
      · rw [h]; decide
      · rw [h]; decide
    have hhere : reloadedPair p ∈ qs ++ (p :: ps).map reloadedPair := by
      rw [hsplit]
      exact List.mem_append_left _ (List.mem_append_right _ (List.mem_singleton_self _))
    obtain ⟨r, hr, hset⟩ : ∃ r, t.set env p.1 none (reloaded p.2) = some r ∧
        Loaded r.store (qs ++ [reloadedPair p]) :=
      ht.set (fun q hq hkey => hagree q (List.mem_append_left _ hq) _ hhere hkey) htype
    have hline : applyLine env t (pairLine env p) = some (r.store, r.accesses) := by
      rw [applyLine]
      exact bind_eq_of_some (hp.line env).2.2 (bind_eq_of_some hr rfl)
    rw [hsplit] at hagree ⊢
    obtain ⟨t', as, hrun, hloaded⟩ := ih hps hset hagree
    refine ⟨t', r.accesses :: as, ?_, hloaded⟩
    rw [List.map_cons, run]
    exact bind_eq_of_some hline (bind_eq_of_some hrun rfl)

/-! ## Configurations -/

/-- A store of scalars under names that can be saved. -/
structure Configured (s : Store) : Prop where
  distinct : s.DistinctKeys
  entry : ∀ e ∈ s.entries, e.type.Scalar ∧ ValidName e.name

/-- `SetBool`, `SetInt`, `SetUint` or `SetObj` on such a name. -/
def Op.SetsScalar : Op → Prop
  | .set name _ v => ValidName name ∧ v.type.Scalar
  | _ => False

theorem configured_set {env : Env} {s : Store} (hs : Configured s) {name : List Byte}
    {ref_ : RefPtr} {v : Value} (hname : ValidName name) (hv : v.type.Scalar) {r : Result}
    (h : s.set env name ref_ v = some r) : Configured r.store := by
  have hext : s.Extends r.store := Store.set_extends ⟨hs.distinct, List.prefix_refl _⟩ h
  refine ⟨hext.distinct, ?_⟩
  obtain ⟨-, rfl⟩ | ⟨i, e, e', ret, -, he, hw, rfl⟩ := Store.set_cases h
  · intro x hx
    rcases List.mem_append.mp hx with hx | hx
    · exact hs.entry x hx
    · rw [List.mem_singleton.mp hx, Store.newEntry_name, Store.newEntry_type]
      exact ⟨hv, hname⟩
  · intro x hx
    rcases List.mem_or_eq_of_mem_set hx with hx | rfl
    · exact hs.entry x hx
    · rw [(Store.overwrite_cases hw).1]
      exact hs.entry e (List.mem_of_getElem? he)

theorem configured_run {env : Env} {ops : List Op} (hops : ∀ op ∈ ops, op.SetsScalar) {s : Store}
    {as : List (List Access)} (h : run (Store.step env) Store.fresh ops = some (s, as)) :
    Configured s := by
  refine run_keeps (P := Configured) ?_ h ⟨List.nodup_nil, nofun⟩
  intro op hop s₁ s₂ a hstep hs₁
  have hset := hops op hop
  obtain ⟨name, ref_, v, r, rfl, hr, rfl, -⟩ | ⟨name, ref_, alias_, dflt, r, rfl, -⟩ |
    ⟨file, l, rfl, -⟩ | ⟨rfl, -⟩ := Store.step_cases hstep
  · exact configured_set hs₁ hset.1 hset.2 hr
  · exact hset.elim
  · exact hset.elim
  · exact hset.elim

/-- Saved and loaded into an empty store, every entry that is not a pointer is there with its type
and value, its getter returns the value, and there is no other entry. -/
def Reloads (env : Env) (s : Store) : Prop :=
  ∃ file t as, s.save env = some file ∧ Store.fresh.load env file = some (t, as) ∧
    (∀ e ∈ s.entries, e.type ≠ .p → (∃ e' ∈ t.entries, e'.view = e.view) ∧
      ∀ dflt, dflt.type = e.type →
        (t.get env e.name none none dflt).map (·.returned) = some (e.cell.read e.type)) ∧
    ∀ e' ∈ t.entries, ∃ e ∈ s.entries, e.type ≠ .p ∧ e'.name = e.name

theorem Configured.exists_entry {s : Store} (hs : Configured s) {p : List Byte × Value}
    (hp : p ∈ savedPairs none s.entries) :
    ∃ e ∈ s.entries, e.type ≠ .p ∧ savedPair e = some p ∧ p.1 = e.name ∧ p.2.type = e.type := by
  rcases mem_savedPairs hp with hnone | ⟨e, he, hsaved⟩
  · cases hnone
  · rcases savedPair_cases (hs.entry e he).1 with ⟨-, hnone, -⟩ | ⟨htype, v, hsome, hv, -⟩
    · rw [hnone] at hsaved
      cases hsaved
    · obtain rfl := Option.some.inj (hsome.symm.trans hsaved)
      exact ⟨e, he, htype, hsome, rfl, hv⟩

theorem Configured.printable {s : Store} (hs : Configured s) {p : List Byte × Value}
    (hp : p ∈ savedPairs none s.entries) : Printable p := by
  obtain ⟨e, he, htype, -, hname, hv⟩ := hs.exists_entry hp
  obtain ⟨hscalar, hvalid⟩ := hs.entry e he
  exact ⟨by rw [hname]; exact hvalid, by rw [hv]; exact hscalar, by rw [hv]; exact htype⟩

/-- The store that comes back holds the pairs that were printed. -/
theorem Configured.loaded (env : Env) {s : Store} (hs : Configured s) :
    ∃ file t as, s.save env = some file ∧ Store.fresh.load env file = some (t, as) ∧
      Loaded t ((savedPairs none s.entries).map reloadedPair) := by
  have hagree : ∀ p ∈ [] ++ (savedPairs none s.entries).map reloadedPair,
      ∀ q ∈ [] ++ (savedPairs none s.entries).map reloadedPair,
      tolower_ p.1 = tolower_ q.1 → p = q := by
    intro p hp q hq hkey
    obtain ⟨p', hp', rfl⟩ := List.mem_map.mp hp
    obtain ⟨q', hq', rfl⟩ := List.mem_map.mp hq
    obtain ⟨e, he, -, hsaved, hname, -⟩ := hs.exists_entry hp'
    obtain ⟨e', he', -, hsaved', hname', -⟩ := hs.exists_entry hq'
    have hkey' : tolower_ e.name = tolower_ e'.name := by
      rw [← hname, ← hname']
      exact hkey
    obtain rfl := hs.distinct.eq_of_mem he he' hkey'
    rw [Option.some.inj (hsaved.symm.trans hsaved')]
  obtain ⟨t, as, hrun, hloaded⟩ := Loaded.lines (fun p hp => hs.printable hp) Loaded.fresh hagree
  refine ⟨_, t, as, saveLoop_eq env none hs.entry, ?_, hloaded⟩
  rw [Store.load, loadLines_join]
  · exact hrun
  · intro l hl
    obtain ⟨p, hp, rfl⟩ := List.mem_map.mp hl
    exact ((hs.printable hp).line env).1

theorem Configured.loaded_type (env : Env) {s : Store} (hs : Configured s) {t : Store}
    (ht : Loaded t ((savedPairs none s.entries).map reloadedPair)) {e : Entry}
    (he : e ∈ t.entries) : e.type = .b ∨ e.type = .i := by
  obtain ⟨v, hmem, htype, -⟩ := ht.sound e he
  obtain ⟨p, hp, heq⟩ := List.mem_map.mp hmem
  have hprintable := hs.printable hp
  obtain ⟨text, htext, -⟩ := hprintable.exists_text env
  rw [htype, ← (Prod.mk.inj heq).2]
  exact (printValue_scalar env hprintable.scalar htext).2.2

/-- An entry that is neither a pointer nor a `uint` comes back as it was. -/
theorem Configured.loaded_entry {s : Store} (hs : Configured s) {t : Store}
    (ht : Loaded t ((savedPairs none s.entries).map reloadedPair)) {e : Entry}
    (he : e ∈ s.entries) (hp : e.type ≠ .p) (hu : e.type ≠ .u) :
    ∃ e' ∈ t.entries, e'.name = e.name ∧ e'.type = e.type ∧
      e'.cell.read e.type = e.cell.read e.type := by
  rcases savedPair_cases (hs.entry e he).1 with ⟨hptr, -⟩ | ⟨-, v, hpair, hv, hread⟩
  · exact absurd hptr hp
  · have hsame : reloaded v = v := by
      cases v with
      | uint v => exact absurd hv.symm hu
      | _ => rfl
    obtain ⟨e', he', hname, htype, hread'⟩ :=
      ht.complete _ (List.mem_map_of_mem (savedPair_mem he hpair none))
    simp only [reloadedPair, hsame] at hname htype hread'
    refine ⟨e', he', hname, htype.trans hv, ?_⟩
    rw [hread, ← hv, hread']

theorem Configured.no_uint {env : Env} {s : Store} (hs : Configured s) (h : Reloads env s) :
    ∀ e ∈ s.entries, e.type ≠ .u := by
  intro e he hu
  obtain ⟨file, t, as, hsave, hload, hentries, -⟩ := h
  obtain ⟨file', t', as', hsave', hload', ht⟩ := hs.loaded env
  obtain rfl := Option.some.inj (hsave.symm.trans hsave')
  obtain ⟨rfl, -⟩ := Prod.mk.inj (Option.some.inj (hload.symm.trans hload'))
  obtain ⟨e', he', hview⟩ := (hentries e he (by rw [hu]; decide)).1
  have htype : e'.type = .u := by rw [← hu]; exact (Prod.mk.inj (Prod.mk.inj hview).2).1
  rcases hs.loaded_type env ht he' with h | h
  · rw [htype] at h
    cases h
  · rw [htype] at h
    cases h

/-- A configuration of scalars survives a reload exactly when it has no `uint`. -/
theorem reloads_iff (env : Env) (ops : List Op) (hops : ∀ op ∈ ops, op.SetsScalar) (s : Store)
    (as : List (List Access)) (hrun : run (Store.step env) Store.fresh ops = some (s, as)) :
    Reloads env s ↔ ∀ e ∈ s.entries, e.type ≠ .u := by
  have hs := configured_run hops hrun
  refine ⟨hs.no_uint, ?_⟩
  intro hno
  obtain ⟨file, t, bs, hsave, hload, ht⟩ := hs.loaded env
  refine ⟨file, t, bs, hsave, hload, ?_, ?_⟩
  · intro e he hp
    obtain ⟨e', he', hname, htype, hread⟩ := hs.loaded_entry ht he hp (hno e he)
    refine ⟨⟨e', he', ?_⟩, ?_⟩
    · rw [Entry.view, Entry.view, hname, htype, hread]
    · intro dflt hd
      obtain ⟨i, hi, hentry⟩ := ht.distinct.ref_eq he'
      have hres : t.resolve e.name none none = some i := by
        rw [← hname]
        exact hi
      rw [Store.get_of_type hres hentry (htype.trans hd.symm), Option.map_some, htype, hread]
  · intro e' he'
    obtain ⟨v, hmem, -⟩ := ht.sound e' he'
    obtain ⟨p, hp, heq⟩ := List.mem_map.mp hmem
    obtain ⟨e, he, htype, -, hname, -⟩ := hs.exists_entry hp
    refine ⟨e, he, htype, ?_⟩
    rw [← hname, ← (Prod.mk.inj heq).1]

/-- An `int`, a pointer and a `bool`. -/
theorem reloads_int_obj_bool :
    ∃ s as, run (Store.step Env.sample) Store.fresh
        [.set [ch 'n'] none (.int (-5)), .set [ch 'p'] none (.obj 4096),
          .set [ch 'B'] none (.bool true)] = some (s, as) ∧
      s.entries.map (·.type) = [.i, .p, .b] ∧ Reloads Env.sample s := by
  refine ⟨_, _, rfl, rfl, ?_⟩
  refine (reloads_iff Env.sample [.set [ch 'n'] none (.int (-5)), .set [ch 'p'] none (.obj 4096),
    .set [ch 'B'] none (.bool true)] ?_ _ _ rfl).mpr (by decide)
  intro op hop
  simp only [List.mem_cons, List.not_mem_nil, or_false] at hop
  rcases hop with rfl | rfl | rfl
  · exact ⟨by constructor <;> decide, .inr (.inl rfl)⟩
  · exact ⟨by constructor <;> decide, .inr (.inr (.inr rfl))⟩
  · exact ⟨by constructor <;> decide, .inl rfl⟩

/-- A `uint` does not come back as one. -/
theorem uint_not_reloaded :
    ∃ s as, run (Store.step Env.sample) Store.fresh [.set [ch 'n'] none (.uint 5)] = some (s, as) ∧
      ¬ Reloads Env.sample s := by
  have hops : ∀ op ∈ [Op.set [ch 'n'] none (.uint 5)], op.SetsScalar := by
    intro op hop
    rw [List.mem_singleton.mp hop]
    exact ⟨by constructor <;> decide, .inr (.inr (.inl rfl))⟩
  have hrun : run (Store.step Env.sample) Store.fresh [.set [ch 'n'] none (.uint 5)] =
      some (⟨[Store.fresh.newEntry Env.sample [ch 'n'] (.uint 5)], 0⟩, [[]]) := rfl
  refine ⟨_, _, hrun, ?_⟩
  intro h
  exact absurd ((configured_run hops hrun).no_uint h) (by decide)

end EventServer.Config
