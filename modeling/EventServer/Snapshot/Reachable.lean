import EventServer.Lib.Traversal
import EventServer.Snapshot.Mark

/-!
# What a snapshot contains

The objects that the registry reaches by references that keep alive, and for each
its parents. An object's references are those that its function marks.
-/
namespace EventServer.Snapshot

open Relation EventServer.Lib.CString EventServer.Lib.Decimal EventServer.Lib.Traversal

variable {ν : Type}

def Value.address? : Value ν → Option Nat
  | .object p => some p
  | _ => none

namespace Heap

variable (h : Heap ν)

/-- The levels that `mark_thread` goes through. -/
def levels (p : Nat) (frames : List (Frame ν)) : List (Frame ν) :=
  if p = h.running then frames.drop 1 else frames

/-- The values that an object keeps alive, described. -/
def contents (p : Nat) : List (Text × Value ν) :=
  match h.object p with
  | .table metatable pairs =>
    (metatable.map fun m => (metatableDesc, .object m)).toList ++
      pairs.flatMap fun kv =>
        (if h.weakv metatable then [] else [(keystring h kv.1, kv.2)]) ++
          if h.weakk metatable then [] else [(keyDesc, kv.1)]
  | .function env upvalues _ =>
    (env.map fun e => (environmentDesc, .object e)).toList ++
      upvalues.map fun u => (upvalueName u.1, u.2)
  | .userdata metatable uservalue =>
    (metatable.map fun m => (metatableDesc, .object m)).toList ++
      (uservalue.map fun u => (uservalueDesc, .object u)).toList
  | .thread stack frames =>
    (if p = h.running then [] else stack.zipIdx.map fun v => (slotName (v.2 + 1), v.1)) ++
      (h.levels p frames).flatMap fun f => f.locals.map fun x => (localName x.1 f, x.2)

/-- The references among them. -/
def strong (p : Nat) : List (Text × Nat) :=
  (h.contents p).filterMap fun e => e.2.address?.map (e.1, ·)

/-- Where the code of an object is from. -/
def sourceOf (p : Nat) : Option Text :=
  match h.object p with
  | .function _ _ info => info.map functionSource
  | .thread _ frames => some (threadSource (h.levels p frames))
  | _ => none

/-- The registry reaches an object. -/
def Live (p : Nat) : Prop := ReflTransGen (Points h.strong) h.registry p

/-- The descriptions of locals fit into their buffer, and only the registry refers to the thread
that takes the snapshot. -/
structure Regular : Prop where
  fits : ∀ p stack frames, h.object p = .thread stack frames → ∀ f ∈ frames, ∀ x ∈ f.locals,
    (localName x.1 f).length < 128
  alone : ∀ p, ∀ e ∈ h.strong p, e.2 = h.running → p = h.registry

end Heap

section Expand

variable (h : Heap ν)

theorem foldlM_flatMap {α β σ : Type} (g : σ → β → Option σ) (f : α → List β) (xs : List α)
    (D : σ) : (xs.flatMap f).foldlM g D = xs.foldlM (fun D x => (f x).foldlM g D) D := by
  induction xs generalizing D with
  | nil => rfl
  | cons x xs ih => simp [List.flatMap_cons, List.foldlM_append, ih]

theorem foldlM_congr_mem {β σ : Type} {f g : σ → β → Option σ} {xs : List β}
    (hfg : ∀ x ∈ xs, ∀ D, f D x = g D x) (D : σ) : xs.foldlM f D = xs.foldlM g D := by
  induction xs generalizing D with
  | nil => rfl
  | cons x xs ih =>
    have hrest : ∀ D, xs.foldlM f D = xs.foldlM g D :=
      ih fun y hy => hfg y (List.mem_cons_of_mem x hy)
    simp only [List.foldlM_cons, hfg x List.mem_cons_self, hrest]

/-- The thread by way of which an object's contents are marked. -/
def Heap.via (l p : Nat) : Nat := if (h.object p).kind = .thread then p else l

def Dump.withSource (D : Dump) (p : Nat) : Option Text → Dump
  | some text => D.setSource p text
  | none => D

section Contents

variable (mk : Marker ν) (l p : Nat)

theorem foldlM_markOptional (desc : Text) (o : Option Nat) (D : Dump) :
    (o.map fun m => (desc, Value.object m)).toList.foldlM
      (fun D e => mk l D (some p) e.1 e.2) D = markOptional mk l p desc o D := by
  cases o <;> simp [markOptional]

theorem foldlM_markPair (metatable : Option Nat) (D : Dump) (kv : Value ν × Value ν) :
    ((if h.weakv metatable then [] else [(keystring h kv.1, kv.2)]) ++
      if h.weakk metatable then [] else [(keyDesc, kv.1)]).foldlM
        (fun D e => mk l D (some p) e.1 e.2) D = markPair h mk l p metatable D kv := by
  rw [markPair]
  cases h.weakv metatable <;> cases h.weakk metatable <;> simp

end Contents

/-- Each object's function marks its contents in order and then notes its source. -/
theorem markNew_eq (hreg : h.Regular) (mk : Marker ν) {l p : Nat} (hl : p = l ↔ p = h.running)
    (D : Dump) : markNew h mk l p D =
      ((h.contents p).foldlM (fun D e => mk (h.via l p) D (some p) e.1 e.2) D).map
        fun D => D.withSource p (h.sourceOf p) := by
  cases hobj : h.object p with
  | table metatable pairs =>
    have hvia : h.via l p = l := by simp [Heap.via, hobj, Object.kind]
    have hsource : h.sourceOf p = none := by simp [Heap.sourceOf, hobj]
    simp only [markNew, hobj, hvia, hsource, markTable, Heap.contents, Dump.withSource,
      Option.map_id']
    rw [List.foldlM_append, foldlM_markOptional]
    simp only [foldlM_flatMap, foldlM_markPair]
    rfl
  | userdata metatable uservalue =>
    have hvia : h.via l p = l := by simp [Heap.via, hobj, Object.kind]
    have hsource : h.sourceOf p = none := by simp [Heap.sourceOf, hobj]
    simp only [markNew, hobj, hvia, hsource, markUserdata, Heap.contents, List.foldlM_append,
      foldlM_markOptional, Dump.withSource, Option.map_id']
    rfl
  | function env upvalues info =>
    have hvia : h.via l p = l := by simp [Heap.via, hobj, Object.kind]
    have hsource : h.sourceOf p = info.map functionSource := by simp [Heap.sourceOf, hobj]
    have hnote : (fun D : Dump => D.withSource p (info.map functionSource)) =
        fun D => match info with
          | some info => D.setSource p (functionSource info)
          | none => D := by
      cases info <;> rfl
    simp only [markNew, hobj, hvia, hsource, markFunction, Heap.contents, List.foldlM_append,
      List.foldlM_map, foldlM_markOptional, hnote]
    cases markOptional mk l p environmentDesc env D with
    | none => rfl
    | some D₁ =>
      simp only [Option.bind_eq_bind, Option.bind_some]
      cases upvalues.foldlM (fun D u => mk l D (some p) (upvalueName u.1) u.2) D₁ <;>
        cases info <;> rfl
  | thread stack frames =>
    have hvia : h.via l p = p := by simp [Heap.via, hobj, Object.kind]
    have hsource : h.sourceOf p = some (threadSource (h.levels p frames)) := by
      simp [Heap.sourceOf, hobj]
    have hlevels : (if p = l then frames.drop 1 else frames) = h.levels p frames := by
      rw [Heap.levels]
      exact if_congr hl rfl rfl
    have hlocal : ∀ D : Dump, (h.levels p frames).foldlM
        (fun D f => f.locals.foldlM (markLocal mk p f) D) D = (h.levels p frames).foldlM
          (fun D f => f.locals.foldlM (fun D x => mk p D (some p) (localName x.1 f) x.2) D) D := by
      refine foldlM_congr_mem fun f hf D => foldlM_congr_mem (fun x hx D => ?_) D
      have hmem : f ∈ frames := by
        rw [Heap.levels] at hf
        split at hf
        · exact List.mem_of_mem_drop hf
        · exact hf
      rw [markLocal, if_pos (hreg.fits p stack frames hobj f hmem x hx)]
    simp only [markNew, hobj, hvia, hsource, markThread, Heap.contents, List.foldlM_append,
      foldlM_flatMap, List.foldlM_map, hlevels, hlocal, Dump.withSource]
    rw [if_congr hl rfl rfl]
    split
    · simp [Option.map_eq_bind]
    · simp [Option.map_eq_bind, List.foldlM_map, Option.bind_assoc]

end Expand

/-! ## The marks as the log of a traversal -/

/-- The last description under which a log leads from each parent to an object. -/
def parentsOf (log : List (Edge Nat Text)) (p : Nat) : Parents := fun parent =>
  (log.filter fun e => e.source = parent ∧ e.target = p).getLast?.map Edge.label

theorem parentsOf_append_self (log : List (Edge Nat Text)) (e : Edge Nat Text) :
    parentsOf (log ++ [e]) e.target =
      Function.update (parentsOf log e.target) e.source (some e.label) := by
  funext parent
  by_cases hparent : parent = e.source
  · subst hparent
    simp [parentsOf]
  · simp [parentsOf, hparent, Ne.symm hparent]

theorem parentsOf_append_of_ne (log : List (Edge Nat Text)) {e : Edge Nat Text} {p : Nat}
    (hne : p ≠ e.target) : parentsOf (log ++ [e]) p = parentsOf log p := by
  funext parent
  simp [parentsOf, Ne.symm hne]

theorem parentsOf_of_notMem {log : List (Edge Nat Text)} {p : Nat} (hp : p ∉ targets log) :
    parentsOf log p = fun _ => none := by
  funext parent
  rw [parentsOf, List.filter_eq_nil_iff.mpr]
  · rfl
  · intro e he hboth
    have htarget : e.target = p := (of_decide_eq_true hboth).2
    exact hp (htarget ▸ List.mem_map_of_mem he)

/-- What is in `dL` after the references of a log were followed. -/
structure Matches (h : Heap ν) (D : Dump) (log : List (Edge Nat Text)) : Prop where
  mark : ∀ p, p ∈ D.mark ↔ p ∈ targets log
  tables : ∀ kind p, D.tables kind p =
    if kind = (h.object p).kind ∧ p ∈ targets log then some (parentsOf log p) else none
  source : ∀ p ∉ targets log, D.source p = none

theorem matches_empty (h : Heap ν) : Matches h .empty [] :=
  ⟨fun _ => by simp [Dump.empty, targets], fun _ _ => by simp [Dump.empty, targets],
    fun _ _ => rfl⟩

section Read

variable {h : Heap ν} {D : Dump} {log : List (Edge Nat Text)} (hm : Matches h D log)
  (parent : Option Nat) (desc : Text) {p : Nat}

include hm

/-- The entry of an object after a reference to it, and all others as they were. -/
theorem matches_setParents (mark : List Nat) (hmark : ∀ x, x ∈ mark ↔ x ∈ targets log ∨ x = p) :
    Matches h (Dump.setParents { D with mark } (h.object p).kind p
      (Function.update (parentsOf log p) parent (some desc))) (log ++ [⟨parent, desc, p⟩]) := by
  have htargets : ∀ x, x ∈ targets (log ++ [⟨parent, desc, p⟩]) ↔ x ∈ targets log ∨ x = p := by
    intro x
    simp [targets]
  refine ⟨fun x => (hmark x).trans (htargets x).symm, fun kind x => ?_, fun x hx => ?_⟩
  · have hself := parentsOf_append_self log ⟨parent, desc, p⟩
    by_cases hx : x = p
    · subst hx
      by_cases hkind : kind = (h.object x).kind
      · subst hkind
        simp [Dump.setParents, htargets, hself]
      · simp [Dump.setParents, hkind, hm.tables]
    · have hsame : (Dump.setParents { D with mark } (h.object p).kind p
          (Function.update (parentsOf log p) parent (some desc))).tables kind x =
          D.tables kind x := by
        by_cases hkind : kind = (h.object p).kind
        · subst hkind
          simp [Dump.setParents, hx]
        · simp [Dump.setParents, hkind]
      rw [hsame, hm.tables, parentsOf_append_of_ne log hx]
      simp [htargets, hx]
  · exact hm.source x fun hx' => hx ((htargets x).mpr (.inl hx'))

theorem readobject_known (hp : p ∈ targets log) :
    ∃ D', D.readobject (h.object p).kind parent desc p = (false, D') ∧
      Matches h D' (log ++ [⟨parent, desc, p⟩]) ∧ D'.source = D.source := by
  have hmarked : D.ismarked p = (true, D) := if_pos ((hm.mark p).mpr hp)
  have htable : D.tables (h.object p).kind p = some (parentsOf log p) := by
    rw [hm.tables, if_pos ⟨rfl, hp⟩]
  refine ⟨D.setParents (h.object p).kind p (Function.update (parentsOf log p) parent (some desc)),
    by simp only [Dump.readobject, hmarked, htable], ?_, rfl⟩
  refine matches_setParents hm parent desc D.mark fun x => ?_
  rw [hm.mark]
  exact ⟨.inl, fun hx => hx.elim id fun heq => heq ▸ hp⟩

theorem readobject_new (hp : p ∉ targets log) :
    ∃ D', D.readobject (h.object p).kind parent desc p = (true, D') ∧
      Matches h D' (log ++ [⟨parent, desc, p⟩]) ∧ D'.source = D.source := by
  have hmarked : D.ismarked p = (false, { D with mark := p :: D.mark }) :=
    if_neg fun hmem => hp ((hm.mark p).mp hmem)
  have hmark : ∀ x, x ∈ p :: D.mark ↔ x ∈ targets log ∨ x = p := by
    intro x
    rw [List.mem_cons, hm.mark, or_comm]
  have hset := matches_setParents hm parent desc (p :: D.mark) hmark
  rw [parentsOf_of_notMem hp] at hset
  exact ⟨_, by simp only [Dump.readobject, hmarked], hset, rfl⟩

end Read
/-- What is new in a log has its source noted. -/
def Sourced (h : Heap ν) (D D' : Dump) (log log' : List (Edge Nat Text)) : Prop :=
  ∀ p, D'.source p = if p ∈ targets log' ∧ p ∉ targets log then h.sourceOf p else D.source p

/-- Marking ends where the traversal does, with what the log says. -/
def Simulates (h : Heap ν) (D : Dump) (log : List (Edge Nat Text)) (marked : Option Dump)
    (visited : Option (List (Edge Nat Text))) : Prop :=
  match visited with
  | none => marked = none
  | some log' => ∃ D', marked = some D' ∧ Matches h D' log' ∧ Sourced h D D' log log'

/-- The thread whose stack a value is on is the running one or was met, and only at the registry's
values can it be that the running thread is about to be met. -/
structure Place (h : Heap ν) (l : Nat) (log : List (Edge Nat Text)) (v : Value ν) : Prop where
  thread : l = h.running ∨ l ∈ targets log
  registry : h.registry ∈ targets log ∨ v.address? = some h.registry ∧ l = h.running
  running : v.address? = some h.running → l = h.running

theorem mem_strong {h : Heap ν} {p q : Nat} {d : Text} {v : Value ν} (hmem : (d, v) ∈ h.contents p)
    (hv : v.address? = some q) : (d, q) ∈ h.strong p :=
  List.mem_filterMap.mpr ⟨(d, v), hmem, by simp [hv]⟩

theorem mark_of_no_address {h : Heap ν} {v : Value ν} (hv : v.address? = none) (room l : Nat)
    (D : Dump) (parent : Option Nat) (desc : Text) : mark h room l D parent desc v = some D := by
  cases v with
  | object p => cases hv
  | nil | boolean _ | number _ | str _ | light _ => cases room <;> rfl

theorem sourced_trans {h : Heap ν} {D D₁ D₂ : Dump} {log new₁ new₂ : List (Edge Nat Text)}
    (h₁ : Sourced h D D₁ log (log ++ new₁))
    (h₂ : Sourced h D₁ D₂ (log ++ new₁) (log ++ new₁ ++ new₂)) :
    Sourced h D D₂ log (log ++ new₁ ++ new₂) := by
  intro p
  rw [h₂ p, h₁ p]
  simp only [targets_append, List.mem_append]
  by_cases hlog : p ∈ targets log <;> by_cases hnew : p ∈ targets new₁ <;> simp [hlog, hnew]

/-- What is marked after more was met before. -/
theorem simulates_after {h : Heap ν} {D D₁ : Dump} {log new es : List (Edge Nat Text)}
    {room : Nat} (hs : Sourced h D D₁ log (log ++ new)) (hes : Seen (log ++ new) es)
    {marked : Option Dump}
    (hrest : Simulates h D₁ (log ++ new) marked (es.foldlM (visit h.strong room) (log ++ new))) :
    Simulates h D log marked (es.foldlM (visit h.strong room) (log ++ new)) := by
  cases hvisit : es.foldlM (visit h.strong room) (log ++ new) with
  | none =>
    rw [hvisit] at hrest
    exact hrest
  | some log' =>
    rw [hvisit] at hrest
    obtain ⟨D₂, hmarked, hm₂, hs₂⟩ := hrest
    obtain ⟨new₂, rfl, -⟩ := followed_foldlM visit_followed hes hvisit
    exact ⟨D₂, hmarked, hm₂, sourced_trans hs hs₂⟩

section Contents

variable {h : Heap ν} {room p l : Nat}
  (hmark : ∀ {D : Dump} {log : List (Edge Nat Text)} {desc : Text} {v : Value ν} {q : Nat},
    Matches h D log → Seen log [⟨some p, desc, q⟩] → Place h l log v → v.address? = some q →
      Simulates h D log (mark h room l D (some p) desc v)
        (visit h.strong room log ⟨some p, desc, q⟩))

include hmark

/-- The contents of an object that was met. -/
theorem simulates_contents {es : List (Text × Value ν)} {D : Dump} {log : List (Edge Nat Text)}
    (hm : Matches h D log) (hp : p ∈ targets log) (hplace : ∀ e ∈ es, Place h l log e.2) :
    Simulates h D log (es.foldlM (fun D e => mark h room l D (some p) e.1 e.2) D)
      (((es.filterMap fun e => e.2.address?.map (e.1, ·)).map fun e =>
        (⟨some p, e.1, e.2⟩ : Edge Nat Text)).foldlM (visit h.strong room) log) := by
  induction es generalizing D log with
  | nil => exact ⟨D, rfl, hm, fun q => by simp⟩
  | cons e es ih =>
    cases hv : e.2.address? with
    | none =>
      simp only [List.foldlM_cons, mark_of_no_address hv, List.filterMap_cons, hv, Option.map_none,
        Option.bind_eq_bind, Option.bind_some]
      exact ih hm hp fun e' he' => hplace e' (List.mem_cons_of_mem e he')
    | some q =>
      have hseen : Seen log [⟨some p, e.1, q⟩] := by
        intro e' he' x hx
        obtain rfl := List.mem_singleton.mp he'
        obtain rfl := Option.some.inj hx
        exact hp
      have hone := hmark hm hseen (hplace e List.mem_cons_self) hv
      simp only [List.foldlM_cons, List.filterMap_cons, hv, Option.map_some, List.map_cons,
        Option.bind_eq_bind]
      cases hvisit : visit h.strong room log ⟨some p, e.1, q⟩ with
      | none =>
        rw [hvisit] at hone
        rw [show mark h room l D (some p) e.1 e.2 = none from hone]
        rfl
      | some log₁ =>
        rw [hvisit] at hone
        obtain ⟨D₁, hD₁, hm₁, hs₁⟩ := hone
        obtain ⟨new₁, rfl, -⟩ := visit_followed hseen hvisit
        have hmono : ∀ {x}, x ∈ targets log → x ∈ targets (log ++ new₁) := fun hx => by
          rw [targets_append]
          exact List.mem_append_left _ hx
        have hrest := ih hm₁ (hmono hp) fun e' he' =>
          have hpl := hplace e' (List.mem_cons_of_mem e he')
          ⟨hpl.thread.imp id hmono, hpl.registry.imp hmono id, hpl.running⟩
        rw [hD₁, Option.bind_some, Option.bind_some]
        refine simulates_after hs₁ (fun e' he' x hx => ?_) hrest
        obtain ⟨s, -, rfl⟩ := List.mem_map.mp he'
        obtain rfl := Option.some.inj hx
        exact hmono hp

end Contents
theorem Value.eq_object {v : Value ν} {p : Nat} (hv : v.address? = some p) : v = .object p := by
  cases v with
  | object q => rw [Option.some.inj hv]
  | nil | boolean _ | number _ | str _ | light _ => cases hv

section WithSource

variable (D : Dump) (p : Nat) (text : Option Text)

@[simp] theorem Dump.withSource_mark : (D.withSource p text).mark = D.mark := by
  cases text <;> rfl

@[simp] theorem Dump.withSource_tables : (D.withSource p text).tables = D.tables := by
  cases text <;> rfl

theorem Dump.withSource_self (hnone : D.source p = none) : (D.withSource p text).source p = text := by
  cases text <;> simp [Dump.withSource, Dump.setSource, hnone]

theorem Dump.withSource_of_ne {q : Nat} (hne : q ≠ p) :
    (D.withSource p text).source q = D.source q := by
  cases text <;> simp [Dump.withSource, Dump.setSource, hne]

end WithSource

/-- An object is met, its contents are marked, and its source is noted. -/
theorem simulates_new {h : Heap ν} {D D₁ : Dump} {log : List (Edge Nat Text)} {e : Edge Nat Text}
    {room : Nat} {marked : Option Dump} (hm : Matches h D log) (hnew : e.target ∉ targets log)
    (hsource : D₁.source = D.source)
    (hcontents : Simulates h D₁ (log ++ [e]) marked
      ((edges h.strong e.target).foldlM (visit h.strong room) (log ++ [e]))) :
    Simulates h D log (marked.map fun D => D.withSource e.target (h.sourceOf e.target))
      ((edges h.strong e.target).foldlM (visit h.strong room) (log ++ [e])) := by
  cases hvisit : (edges h.strong e.target).foldlM (visit h.strong room) (log ++ [e]) with
  | none =>
    rw [hvisit] at hcontents
    exact congrArg (Option.map _) hcontents
  | some log' =>
    rw [hvisit] at hcontents
    obtain ⟨D₂, rfl, hm₂, hs₂⟩ := hcontents
    obtain ⟨new, rfl, -⟩ := followed_foldlM visit_followed (seen_edges h.strong log e) hvisit
    have hmem : e.target ∈ targets (log ++ [e] ++ new) := by simp [targets]
    have hself : D₂.source e.target = none := by
      rw [hs₂, if_neg (by simp [targets]), hsource, hm.source _ hnew]
    refine ⟨_, rfl, ⟨by simpa using hm₂.mark, by simpa using hm₂.tables, fun q hq => ?_⟩,
      fun q => ?_⟩
    · have hne : q ≠ e.target := fun heq => hq (heq ▸ hmem)
      rw [Dump.withSource_of_ne D₂ _ _ hne]
      exact hm₂.source q hq
    · by_cases hq : q = e.target
      · subst hq
        rw [Dump.withSource_self D₂ _ _ hself, if_pos ⟨hmem, hnew⟩]
      · rw [Dump.withSource_of_ne D₂ _ _ hq, hs₂ q, hsource]
        simp [targets, hq]

/-- The contents of an object that was just met are where they can be marked. -/
theorem place_contents {h : Heap ν} (hreg : h.Regular) {l p : Nat} {log : List (Edge Nat Text)}
    {e : Edge Nat Text} (htarget : e.target = p) (hp : p ∉ targets log)
    (hplace : Place h l log (.object p)) :
    ∀ c ∈ h.contents p, Place h (h.via l p) (log ++ [e]) c.2 := by
  have htargets : ∀ x, x ∈ targets (log ++ [e]) ↔ x ∈ targets log ∨ x = p := by
    intro x
    simp [targets, htarget]
  have hroot : h.registry ∈ targets (log ++ [e]) := by
    rw [htargets]
    exact hplace.registry.imp id fun hr => (Option.some.inj hr.1).symm
  intro c hc
  refine ⟨?_, .inl hroot, fun hrun => ?_⟩
  · rw [Heap.via, htargets]
    split
    · exact .inr (.inr rfl)
    · exact hplace.thread.imp id .inl
  · obtain rfl : p = h.registry := hreg.alone p _ (mem_strong hc hrun) rfl
    rw [Heap.via, if_neg (by rw [h.registry_table]; decide)]
    exact (hplace.registry.resolve_left hp).2

/-- Marking a value follows the reference to it. -/
theorem mark_simulates {h : Heap ν} (hreg : h.Regular) {room l : Nat} {D : Dump}
    {log : List (Edge Nat Text)} {parent : Option Nat} {desc : Text} {v : Value ν} {p : Nat}
    (hm : Matches h D log) (hseen : Seen log [⟨parent, desc, p⟩]) (hplace : Place h l log v)
    (hv : v.address? = some p) :
    Simulates h D log (mark h room l D parent desc v)
      (visit h.strong room log ⟨parent, desc, p⟩) := by
  induction room generalizing l D log parent desc v p with
  | zero =>
    obtain rfl := Value.eq_object hv
    rfl
  | succ room ih =>
    obtain rfl := Value.eq_object hv
    rw [mark, visit]
    by_cases hp : p ∈ targets log
    · obtain ⟨D', hread, hm', hsource⟩ := readobject_known hm parent desc hp
      rw [hread, if_pos hp]
      refine ⟨D', rfl, hm', fun q => ?_⟩
      have hnone : ¬(q ∈ targets (log ++ [⟨parent, desc, p⟩]) ∧ q ∉ targets log) := by
        intro hq
        rw [targets_append, List.mem_append] at hq
        obtain rfl := List.mem_singleton.mp (hq.1.resolve_left hq.2)
        exact hq.2 hp
      rw [hsource, if_neg hnone]
    · obtain ⟨D', hread, hm', hsource⟩ := readobject_new hm parent desc hp
      have hrunning : p = l ↔ p = h.running := by
        refine ⟨fun heq => ?_, fun heq => ?_⟩
        · subst heq
          exact hplace.thread.resolve_right hp
        · exact heq.trans (hplace.running (congrArg some heq)).symm
      rw [hread, if_neg hp]
      dsimp only
      rw [markNew_eq h hreg (mark h room) hrunning]
      refine simulates_new hm hp hsource ?_
      exact simulates_contents (fun hm hs hpl hv => ih hm hs hpl hv) hm' (by simp [targets])
        (place_contents hreg rfl hp hplace)

/-! ## The result -/

namespace Heap

variable (h : Heap ν)

/-- The first line about an object. -/
def headOf (p : Nat) : Text :=
  match h.object p with
  | .table .. => lit "table".toList
  | .userdata .. => lit "userdata".toList
  | .function _ _ info => (info.map functionSource).getD (lit "cfunction".toList)
  | .thread _ frames => threadSource (h.levels p frames)

/-- The description of the last reference from one object to another. -/
def lastDesc (q p : Nat) : Option Text :=
  ((h.strong q).filter (·.2 = p)).getLast?.map Prod.fst

open Classical in
/-- Every live object, with the live objects that refer to it. -/
noncomputable def expected : Result := fun p =>
  if h.Live p then some {
    head := h.headOf p
    parents := fun parent => match parent with
      | none => if p = h.registry then some registryDesc else none
      | some q => if h.Live q then h.lastDesc q p else none }
  else none

end Heap

theorem pdesc_apply (D : Dump) (result : Result) (kind : Kind) (p : Nat) :
    pdesc D result kind p =
      if p ∈ D.mark then ((D.tables kind p).map (⟨head D kind p, ·⟩)).or (result p)
      else result p := by
  have hfold : ∀ (ms : List Nat) (result : Result), ms.foldl (addEntry D kind) result p =
      if p ∈ ms then ((D.tables kind p).map (⟨head D kind p, ·⟩)).or (result p)
      else result p := by
    intro ms
    induction ms with
    | nil => exact fun _ => rfl
    | cons m ms ih =>
      intro result
      rw [List.foldl_cons, ih, addEntry]
      by_cases hm : p = m
      · subst hm
        cases D.tables kind p <;> simp
      · cases D.tables kind m <;> simp [hm]
  exact hfold D.mark result

theorem genResult_of_matches {h : Heap ν} {D : Dump} {log : List (Edge Nat Text)}
    (hm : Matches h D log) (hsource : ∀ p ∈ targets log, D.source p = h.sourceOf p) (p : Nat) :
    genResult D p = if p ∈ targets log then some ⟨h.headOf p, parentsOf log p⟩ else none := by
  by_cases hp : p ∈ targets log
  · have hhead : head D (h.object p).kind p = h.headOf p := by
      rw [Heap.headOf]
      have hsrc := hsource p hp
      rw [Heap.sourceOf] at hsrc
      cases hobj : h.object p with
      | table _ _ | userdata _ _ => rfl
      | function _ _ _ | thread _ _ =>
        rw [hobj] at hsrc
        simp [Object.kind, head, hsrc]
    rw [if_pos hp, ← hhead]
    simp only [genResult, List.foldl_cons, List.foldl_nil, pdesc_apply, hm.mark, hp, if_true,
      hm.tables]
    cases (h.object p).kind <;> simp
  · simp [genResult, pdesc_apply, hm.mark, hp]

theorem parentsOf_eq (log : List (Edge Nat Text)) (p : Nat) (parent : Option Nat) :
    parentsOf log p parent = ((outOf parent log).filter (·.target = p)).getLast?.map Edge.label := by
  rw [parentsOf, outOf, List.filter_filter]
  congr 3
  funext e
  simp [and_comm]

/-- The log of the whole traversal gives the result. -/
theorem genResult_eq_expected {h : Heap ν} {D : Dump} {log : List (Edge Nat Text)} {room : Nat}
    (hm : Matches h D log) (hsource : ∀ p ∈ targets log, D.source p = h.sourceOf p)
    (hvisit : visit h.strong room [] ⟨none, registryDesc, h.registry⟩ = some log) :
    genResult D = h.expected := by
  obtain ⟨hlive, hroot, hedges⟩ := visit_root hvisit
  funext p
  have hmem : p ∈ targets log ↔ h.Live p := hlive p
  rw [genResult_of_matches hm hsource, Heap.expected]
  by_cases hp : h.Live p
  swap
  · rw [if_neg fun hx => hp (hmem.mp hx), if_neg hp]
  rw [if_pos (hmem.mpr hp), if_pos hp]
  congr
  funext parent
  rw [parentsOf_eq]
  cases parent with
  | none =>
    rw [hroot]
    by_cases hp : p = h.registry
    · simp [hp]
    · simp [hp, Ne.symm hp]
  | some q =>
    rw [hedges q]
    by_cases hq : h.Live q
    · rw [if_pos ((hlive q).mpr hq)]
      simp [hq, Heap.lastDesc, edges, List.filter_map, List.getLast?_map, Function.comp_def]
    · rw [if_neg fun hmem => hq ((hlive q).mp hmem)]
      simp [hq]

/-- A snapshot shows every object that the registry keeps alive and no other, each with what it is
and with all live objects that refer to it under their last reference. It is taken where the stack
has room for more nested objects than there are. -/
theorem snapshot_exact {h : Heap ν} (hreg : h.Regular) {nodes : Finset Nat}
    (hroot : h.registry ∈ nodes) (hclosed : ∀ p ∈ nodes, ∀ e ∈ h.strong p, e.2 ∈ nodes) :
    (∀ room result, snapshot h room = some result → result = h.expected) ∧
      ∀ room, nodes.card < room → snapshot h room = some h.expected := by
  have hplace : Place h h.running [] (.object h.registry) :=
    ⟨.inl rfl, .inr ⟨rfl, rfl⟩, fun _ => rfl⟩
  have hseen : Seen ([] : List (Edge Nat Text)) [⟨none, registryDesc, h.registry⟩] := by
    simp [Seen]
  have hsim : ∀ room, match visit h.strong room [] ⟨none, registryDesc, h.registry⟩ with
      | none => snapshot h room = none
      | some _ => snapshot h room = some h.expected := by
    intro room
    have hmark : Simulates h .empty [] (mark h room h.running .empty none registryDesc
        (.object h.registry)) (visit h.strong room [] ⟨none, registryDesc, h.registry⟩) :=
      mark_simulates hreg (matches_empty h) hseen hplace rfl
    cases hvisit : visit h.strong room [] ⟨none, registryDesc, h.registry⟩ with
    | none =>
      rw [hvisit] at hmark
      exact congrArg (Option.map genResult) hmark
    | some log =>
      rw [hvisit] at hmark
      obtain ⟨D, hD, hm, hs⟩ := hmark
      have hsource : ∀ p ∈ targets log, D.source p = h.sourceOf p := fun p hp => by
        rw [hs p, if_pos ⟨hp, by simp [targets]⟩]
      rw [snapshot, hD, Option.map_some, genResult_eq_expected hm hsource hvisit]
  refine ⟨fun room result hresult => ?_, fun room hroom => ?_⟩
  · have hroom := hsim room
    split at hroom
    · rw [hroom] at hresult
      cases hresult
    · exact Option.some.inj (hresult.symm.trans hroom)
  · have hfuel : (unseen nodes ([] : List (Edge Nat Text))).card < room :=
      Nat.lt_of_le_of_lt (Finset.card_filter_le _ _) hroom
    obtain ⟨log, hlog⟩ := visit_isSome hclosed hseen hroot hfuel
    have hsome := hsim room
    rw [hlog] at hsome
    exact hsome

/-- The registry holds a table twice that holds the registry. -/
def twoTables : Heap Nat where
  object p := match p with
    | 0 => .table none [(.number 1, .object 1), (.number 2, .object 1)]
    | 1 => .table none [(.boolean true, .object 0)]
    | _ => .table none []
  registry := 0
  running := 2
  numberText := printNat
  pointerText := printNat
  registry_table := rfl

theorem strong_twoTables {p : Nat} {e : Text × Nat} (he : e ∈ twoTables.strong p) :
    e.2 = 0 ∨ e.2 = 1 := by
  match p with
  | 0 =>
    have hmem : e = (keystring twoTables (.number 1), 1) ∨
        e = (keystring twoTables (.number 2), 1) := by
      simpa [Heap.strong, Heap.contents, twoTables, Value.address?, Heap.weakv, Heap.weakk,
        Heap.mode] using he
    rcases hmem with rfl | rfl <;> exact .inr rfl
  | 1 =>
    have hmem : e = (keystring twoTables (.boolean true), 0) := by
      simpa [Heap.strong, Heap.contents, twoTables, Value.address?, Heap.weakv, Heap.weakk,
        Heap.mode] using he
    exact .inl (congrArg Prod.snd hmem)
  | _ + 2 => simp [Heap.strong, Heap.contents, twoTables] at he

theorem regular_twoTables : twoTables.Regular where
  fits p stack frames hobj := by
    have hkind := congrArg Object.kind hobj
    match p with
    | 0 | 1 | _ + 2 => cases hkind
  alone p e he hrun := by
    rcases strong_twoTables he with hzero | hone
    · exact absurd (hzero.symm.trans hrun) (by decide)
    · exact absurd (hone.symm.trans hrun) (by decide)

theorem snapshot_exact_two : snapshot twoTables 3 = some twoTables.expected := by
  have hclosed : ∀ p ∈ ({0, 1} : Finset Nat), ∀ e ∈ twoTables.strong p,
      e.2 ∈ ({0, 1} : Finset Nat) := by
    intro p _ e he
    simpa using strong_twoTables he
  exact (snapshot_exact regular_twoTables (by decide) hclosed).2 3 (by decide)

end EventServer.Snapshot
