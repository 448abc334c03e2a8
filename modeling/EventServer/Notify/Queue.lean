import EventServer.Containers.VVector
import EventServer.Lib.Transition
import Mathlib.Data.List.Infix
import Mathlib.Logic.Function.Basic

/-!
# `CEventServer::Notify` and `notify_timer_cb`

Any number of threads queue messages with `Notify`; the event loop exchanges the
queue for an empty vector under the lock and dispatches the batch outside it. A
step is one critical section, or one action of one thread outside it. A handler
that calls `Notify` is one more caller, between two steps of the loop. The logs
at the end of the state are not in the program: they record, in the order in
which the lock was taken, what was pushed, and what was dispatched.
-/
namespace EventServer.Notify

open EventServer.Containers EventServer.Lib.Transition

/-- A `CLXZMessage*`; what is allocated at different times is told apart. -/
abbrev MessagePtr := Nat

/-- An `int` or `LXZuint32`: `setSystemData` and `getSystemData` convert between the two. -/
abbrev Code := BitVec 32

/-- Where a thread stands in `Notify(code, msg)`. -/
inductive Caller where
  | outside
  /-- The copy was constructed. -/
  | constructed (pMsg : MessagePtr) (code : Code)
  /-- `setSystemData(code)` was called. -/
  | labelled (pMsg : MessagePtr) (code : Code)

def Caller.pMsg : Caller → Option MessagePtr
  | .outside => none
  | .constructed m _ => some m
  | .labelled m _ => some m

/-- Where the event loop stands in `notify_timer_cb`. -/
inductive TimerCb where
  | outside
  /-- In the loop over `vvMessage`, before iteration `i`. -/
  | dispatching (vvMessage : VVector MessagePtr) (i : Nat)

/-- How many steps lead to the next exchange of the queue, apart from dispatches. -/
def TimerCb.toSwap : TimerCb → Nat
  | .outside => 1
  | .dispatching _ _ => 2

structure Sys (C : Type) where
  /-- `_vvMsg`. -/
  vvMsg : VVector MessagePtr
  /-- `m_u4SysData` of every message. -/
  systemData : MessagePtr → Code
  caller : C → Caller
  timerCb : TimerCb
  /-- Messages from here on are not allocated. -/
  next : MessagePtr
  pushed : List (MessagePtr × Code)
  /-- The calls `_lua_proc(CMD_EVENT_NOTIFY, msg, code)`. -/
  dispatched : List (MessagePtr × Code)

namespace Sys

variable {C : Type}

def start : Sys C where
  vvMsg := .fresh
  systemData _ := 0
  caller _ := .outside
  timerCb := .outside
  next := 0
  pushed := []
  dispatched := []

/-- The part of the batch that was not dispatched yet. -/
def batch (s : Sys C) : List MessagePtr :=
  match s.timerCb with
  | .outside => []
  | .dispatching v i => v.toList.drop i

variable [DecidableEq C]

def setCaller (s : Sys C) (c : C) (x : Caller) : Sys C :=
  { s with caller := Function.update s.caller c x }

/-- One step of a thread in `Notify`. -/
inductive NotifyStep : Sys C → Sys C → Prop where
  /-- `new CLXZMessage(msg)`: the system data is that of `msg`. -/
  | construct {s c} (code d : Code) (h : s.caller c = .outside) :
      NotifyStep s { s.setCaller c (.constructed s.next code) with
        systemData := Function.update s.systemData s.next d
        next := s.next + 1 }
  | setSystemData {s c m code} (h : s.caller c = .constructed m code) :
      NotifyStep s { s.setCaller c (.labelled m code) with
        systemData := Function.update s.systemData m code }
  /-- The critical section. A `push_back` that is undefined ends the run. -/
  | pushBack {s c m code v} (h : s.caller c = .labelled m code)
      (hv : s.vvMsg.pushBack m = some v) :
      NotifyStep s { s.setCaller c .outside with
        vvMsg := v
        pushed := s.pushed ++ [(m, code)] }

/-- One step of the event loop in `notify_timer_cb`. -/
inductive TimerStep : Sys C → Sys C → Prop where
  /-- The critical section, from a vector that was just constructed. -/
  | swap {s} (h : s.timerCb = .outside) :
      TimerStep s { s with
        vvMsg := (VVector.fresh.swap s.vvMsg).2
        timerCb := .dispatching (VVector.fresh.swap s.vvMsg).1 0 }
  /-- One iteration. `lua_pcall` returns also when the handler fails. -/
  | dispatch {s v i m} (h : s.timerCb = .dispatching v i) (hi : i < v.size)
      (hm : v.get i = some m) :
      TimerStep s { s with
        timerCb := .dispatching v (i + 1)
        dispatched := s.dispatched ++ [(m, s.systemData m)] }
  | leave {s v i} (h : s.timerCb = .dispatching v i) (hi : ¬ i < v.size) :
      TimerStep s { s with timerCb := .outside }

def lts (C : Type) [DecidableEq C] : Lts (Sys C) where
  init s := s = start
  step s t := NotifyStep s t ∨ TimerStep s t

/-- A run from `s` to `t` in which the event loop takes `n` steps in `notify_timer_cb`. -/
inductive Run : Sys C → Nat → Sys C → Prop where
  | refl {s} : Run s 0 s
  | notify {s t u n} : Run s n t → NotifyStep t u → Run s n u
  | timer {s t u n} : Run s n t → TimerStep t u → Run s (n + 1) u

/-! ## The invariant -/

/-- Message pointers with the codes found through them. -/
def withCodes (s : Sys C) (ms : List MessagePtr) : List (MessagePtr × Code) :=
  ms.map fun m => (m, s.systemData m)

/-- What was pushed is what was dispatched, then what is left of the batch, then the queue. -/
structure Inv (s : Sys C) : Prop where
  ledger : s.pushed = s.dispatched ++ s.withCodes (s.batch ++ s.vvMsg.toList)
  nodup : (s.pushed.map Prod.fst).Nodup
  vvMsg : s.vvMsg.Wf ∧ s.vvMsg.grown = 0
  vvMessage : ∀ v i, s.timerCb = .dispatching v i → v.Wf
  allocated : ∀ m ∈ s.pushed.map Prod.fst, m < s.next
  held : ∀ c m, (s.caller c).pMsg = some m → m < s.next ∧ m ∉ s.pushed.map Prod.fst
  own : ∀ c d m, (s.caller c).pMsg = some m → (s.caller d).pMsg = some m → c = d
  labelled : ∀ c m code, s.caller c = .labelled m code → s.systemData m = code

omit [DecidableEq C] in
theorem inv_start : (start : Sys C).Inv := by
  constructor <;> simp [start, batch, withCodes, VVector.wf_fresh, VVector.grown_fresh, Caller.pMsg]

omit [DecidableEq C] in
theorem Inv.mem_pushed {s : Sys C} (hs : s.Inv) {m : MessagePtr}
    (hm : m ∈ s.batch ++ s.vvMsg.toList) : m ∈ s.pushed.map Prod.fst := by
  rw [hs.ledger, List.map_append, withCodes, List.map_map]
  exact List.mem_append_right _ (List.mem_map.mpr ⟨m, hm, rfl⟩)

omit [DecidableEq C] in
theorem withCodes_update {s t : Sys C} {ms : List MessagePtr} {m : MessagePtr} {d : Code}
    (ht : t.systemData = Function.update s.systemData m d) (hm : m ∉ ms) :
    t.withCodes ms = s.withCodes ms := by
  apply List.map_congr_left
  intro x hx
  have hne : x ≠ m := fun he => hm (he ▸ hx)
  rw [ht, Function.update_of_ne hne]

/-- After a step of one thread it holds what the step left it; the others hold what they held. -/
theorem pMsg_setCaller {s : Sys C} {c : C} {x : Caller} {e : C} {m : MessagePtr}
    (h : ((s.setCaller c x).caller e).pMsg = some m) :
    e = c ∧ x.pMsg = some m ∨ e ≠ c ∧ (s.caller e).pMsg = some m := by
  by_cases hec : e = c
  · subst hec
    simp only [setCaller, Function.update_self] at h
    exact .inl ⟨rfl, h⟩
  · simp only [setCaller, Function.update_of_ne hec] at h
    exact .inr ⟨hec, h⟩

theorem inv_construct {s : Sys C} (hs : s.Inv) (c : C) (code d : Code) :
    Inv { s.setCaller c (.constructed s.next code) with
      systemData := Function.update s.systemData s.next d
      next := s.next + 1 } := by
  have hnew : s.next ∉ s.pushed.map Prod.fst := fun hm => Nat.lt_irrefl _ (hs.allocated _ hm)
  have hfree : ∀ e, (s.caller e).pMsg ≠ some s.next :=
    fun e he => Nat.lt_irrefl _ (hs.held e _ he).1
  constructor
  · refine hs.ledger.trans (congrArg _ (withCodes_update (s := s) rfl ?_).symm)
    exact fun hm => hnew (hs.mem_pushed hm)
  · exact hs.nodup
  · exact hs.vvMsg
  · exact hs.vvMessage
  · intro m hm
    exact Nat.lt_succ_of_lt (hs.allocated m hm)
  · intro e m he
    rcases pMsg_setCaller he with ⟨-, hm⟩ | ⟨-, he⟩
    · obtain rfl : s.next = m := Option.some.inj hm
      exact ⟨Nat.lt_succ_self _, hnew⟩
    · exact ⟨Nat.lt_succ_of_lt (hs.held e m he).1, (hs.held e m he).2⟩
  · intro e f m he hf
    rcases pMsg_setCaller he with ⟨rfl, hm⟩ | ⟨-, he'⟩
    · obtain rfl : s.next = m := Option.some.inj hm
      rcases pMsg_setCaller hf with ⟨rfl, -⟩ | ⟨-, hf'⟩
      · rfl
      · exact absurd hf' (hfree f)
    · rcases pMsg_setCaller hf with ⟨rfl, hm⟩ | ⟨-, hf'⟩
      · obtain rfl : s.next = m := Option.some.inj hm
        exact absurd he' (hfree e)
      · exact hs.own e f m he' hf'
  · intro e m code' he
    by_cases hec : e = c
    · simp [setCaller, hec] at he
    · simp only [setCaller, Function.update_of_ne hec] at he
      have hne : m ≠ s.next := fun hm => hfree e (by rw [he, ← hm]; rfl)
      rw [← hs.labelled e m code' he]
      exact Function.update_of_ne hne _ _

theorem inv_setSystemData {s : Sys C} (hs : s.Inv) {c : C} {m : MessagePtr} {code : Code}
    (h : s.caller c = .constructed m code) :
    Inv { s.setCaller c (.labelled m code) with
      systemData := Function.update s.systemData m code } := by
  have hc : (s.caller c).pMsg = some m := by rw [h]; rfl
  have hpMsg : ∀ e x, ((s.setCaller c (.labelled m code)).caller e).pMsg = some x →
      (s.caller e).pMsg = some x := by
    intro e x he
    rcases pMsg_setCaller he with ⟨rfl, hx⟩ | ⟨-, he⟩
    · rw [hc]
      exact hx
    · exact he
  constructor
  · refine hs.ledger.trans (congrArg _ (withCodes_update (s := s) rfl ?_).symm)
    exact fun hm => (hs.held c m hc).2 (hs.mem_pushed hm)
  · exact hs.nodup
  · exact hs.vvMsg
  · exact hs.vvMessage
  · exact hs.allocated
  · intro e x he
    exact hs.held e x (hpMsg e x he)
  · intro e f x he hf
    exact hs.own e f x (hpMsg e x he) (hpMsg f x hf)
  · intro e x code' he
    by_cases hec : e = c
    · subst hec
      simp only [setCaller, Function.update_self, Caller.labelled.injEq] at he
      obtain ⟨rfl, rfl⟩ := he
      exact Function.update_self _ _ _
    · simp only [setCaller, Function.update_of_ne hec] at he
      have hne : x ≠ m := fun hx => hec (hs.own e c m (by rw [he, hx]; rfl) hc)
      rw [← hs.labelled e x code' he]
      exact Function.update_of_ne hne _ _

theorem inv_pushBack {s : Sys C} (hs : s.Inv) {c : C} {m : MessagePtr} {code : Code}
    {v : VVector MessagePtr} (h : s.caller c = .labelled m code)
    (hv : s.vvMsg.pushBack m = some v) :
    Inv { s.setCaller c .outside with vvMsg := v, pushed := s.pushed ++ [(m, code)] } := by
  have hc : (s.caller c).pMsg = some m := by rw [h]; rfl
  obtain ⟨hlt, hnew⟩ := hs.held c m hc
  obtain ⟨hwf, hl, hg⟩ := VVector.pushBack_spec hs.vvMsg.1 hv
  have hpMsg : ∀ e x, ((s.setCaller c .outside).caller e).pMsg = some x →
      e ≠ c ∧ (s.caller e).pMsg = some x := by
    intro e x he
    rcases pMsg_setCaller he with ⟨-, hx⟩ | he
    · cases hx
    · exact he
  constructor
  · have hcode : (m, code) = (m, s.systemData m) := by rw [hs.labelled c m code h]
    show s.pushed ++ [(m, code)] = s.dispatched ++ s.withCodes (s.batch ++ v.toList)
    rw [hs.ledger, hl, hcode]
    simp [withCodes]
  · rw [List.map_append, List.nodup_append]
    refine ⟨hs.nodup, by simp, ?_⟩
    intro x hx y hy he
    obtain rfl : y = m := by simpa using hy
    exact hnew (he ▸ hx)
  · exact ⟨hwf, hg.trans hs.vvMsg.2⟩
  · exact hs.vvMessage
  · intro x hx
    simp only [List.map_append, List.map_cons, List.map_nil, List.mem_append,
      List.mem_singleton] at hx
    rcases hx with hx | rfl
    · exact hs.allocated x hx
    · exact hlt
  · intro e x he
    obtain ⟨hec, he⟩ := hpMsg e x he
    refine ⟨(hs.held e x he).1, ?_⟩
    simp only [List.map_append, List.map_cons, List.map_nil, List.mem_append,
      List.mem_singleton, not_or]
    exact ⟨(hs.held e x he).2, fun hx => hec (hs.own e c m (hx ▸ he) hc)⟩
  · intro e f x he hf
    exact hs.own e f x (hpMsg e x he).2 (hpMsg f x hf).2
  · intro e x code' he
    by_cases hec : e = c
    · simp [setCaller, hec] at he
    · simp only [setCaller, Function.update_of_ne hec] at he
      exact hs.labelled e x code' he

theorem inv_notifyStep {s t : Sys C} (hs : s.Inv) (h : NotifyStep s t) : t.Inv := by
  cases h with
  | construct code d h => exact inv_construct hs _ code d
  | setSystemData h => exact inv_setSystemData hs h
  | pushBack h hv => exact inv_pushBack hs h hv

omit [DecidableEq C] in
theorem batch_eq_cons {s : Sys C} (hs : s.Inv) {v : VVector MessagePtr} {i : Nat}
    (h : s.timerCb = .dispatching v i) (hi : i < v.size) :
    ∃ m, v.get i = some m ∧ s.batch = m :: v.toList.drop (i + 1) := by
  have hv := hs.vvMessage v i h
  have hlt : i < v.toList.length := by rw [hv.length_toList]; exact hi
  refine ⟨v.toList[i], ?_, ?_⟩
  · rw [hv.get_eq hi, List.getElem?_eq_getElem hlt]
  · rw [batch, h]
    exact List.drop_eq_getElem_cons hlt

omit [DecidableEq C] in
theorem batch_outside {s : Sys C} (h : s.timerCb = .outside) : s.batch = [] := by
  rw [batch, h]

omit [DecidableEq C] in
theorem batch_finished {s : Sys C} (hs : s.Inv) {v : VVector MessagePtr} {i : Nat}
    (h : s.timerCb = .dispatching v i) (hi : ¬ i < v.size) : s.batch = [] := by
  have hv := hs.vvMessage v i h
  rw [batch, h]
  exact List.drop_eq_nil_of_le (by rw [hv.length_toList]; omega)

omit [DecidableEq C] in
/-- The loop moves messages from the queue to the batch, and from its head to the handler. -/
theorem inv_timerStep {s t : Sys C} (hs : s.Inv) (h : TimerStep s t) : t.Inv := by
  cases h with
  | swap h =>
    refine ⟨?_, hs.nodup, ⟨VVector.wf_fresh, VVector.grown_fresh⟩, ?_, hs.allocated, hs.held,
      hs.own, hs.labelled⟩
    · refine hs.ledger.trans (congrArg _ ?_)
      rw [batch_outside h]
      simp [batch, withCodes]
    · intro v i hv
      obtain ⟨rfl, rfl⟩ := TimerCb.dispatching.inj hv
      exact hs.vvMsg.1
  | @dispatch v i m h hi hm =>
    refine ⟨?_, hs.nodup, hs.vvMsg, ?_, hs.allocated, hs.held, hs.own, hs.labelled⟩
    · obtain ⟨m', hm', hb⟩ := batch_eq_cons hs h hi
      obtain rfl : m = m' := by simpa [hm] using hm'
      apply hs.ledger.trans
      rw [hb]
      simp [batch, withCodes]
    · intro w j hw
      obtain ⟨rfl, rfl⟩ := TimerCb.dispatching.inj hw
      exact hs.vvMessage v i h
  | @leave v i h hi =>
    refine ⟨?_, hs.nodup, hs.vvMsg, nofun, hs.allocated, hs.held, hs.own, hs.labelled⟩
    refine hs.ledger.trans (congrArg _ ?_)
    rw [batch_finished hs h hi]
    simp [batch, withCodes]

theorem inv_reachable {s : Sys C} (hs : Reachable (lts C) s) : s.Inv := by
  refine hs.invariant (P := Inv) ?_ ?_
  · intro s h
    rw [show s = start from h]
    exact inv_start
  · intro s t _ hs hstep
    exact hstep.elim (inv_notifyStep hs) (inv_timerStep hs)

/-! ## Progress -/

omit [DecidableEq C] in
/-- `notify_timer_cb` is never stuck. -/
theorem exists_timerStep {s : Sys C} (hs : s.Inv) : ∃ t, TimerStep s t := by
  cases h : s.timerCb with
  | outside => exact ⟨_, .swap h⟩
  | dispatching v i =>
    by_cases hi : i < v.size
    · obtain ⟨m, hm, -⟩ := batch_eq_cons hs h hi
      exact ⟨_, .dispatch h hi hm⟩
    · exact ⟨_, .leave h hi⟩

/-- Steps until `k` messages are dispatched, from `d` that are, `b` in the batch and `e` steps to the
next exchange. -/
def waiting (k d b e : Nat) : Nat := (k - d) + if k ≤ d + b then 0 else e

/-- How many steps of the loop it takes at most until the first `k` messages are dispatched. -/
def need (k : Nat) (s : Sys C) : Nat :=
  waiting k s.dispatched.length s.batch.length s.timerCb.toSwap

omit [DecidableEq C] in
theorem need_le (k : Nat) (s : Sys C) : need k s ≤ k - s.dispatched.length + 2 := by
  have he : s.timerCb.toSwap ≤ 2 := by cases s.timerCb <;> simp [TimerCb.toSwap]
  unfold need waiting
  split <;> omega

theorem need_notifyStep (k : Nat) {s t : Sys C} (h : NotifyStep s t) : need k t = need k s := by
  cases h <;> rfl

omit [DecidableEq C] in
theorem Inv.length_pushed {s : Sys C} (hs : s.Inv) :
    s.pushed.length = s.dispatched.length + (s.batch.length + s.vvMsg.toList.length) := by
  rw [hs.ledger, List.length_append, withCodes, List.length_map, List.length_append]

omit [DecidableEq C] in
theorem need_timerStep {k : Nat} {s t : Sys C} (hs : s.Inv) (hk : k ≤ s.pushed.length)
    (h : TimerStep s t) : need k t ≤ need k s - 1 := by
  have hlen := hs.length_pushed
  cases h with
  | swap h =>
    rw [batch_outside h, List.length_nil] at hlen
    show waiting k s.dispatched.length s.vvMsg.toList.length 2 ≤ need k s - 1
    rw [need, batch_outside h, h]
    unfold waiting TimerCb.toSwap
    simp only [List.length_nil]
    split <;> split <;> omega
  | @dispatch v i m h hi hm =>
    obtain ⟨m', -, hb⟩ := batch_eq_cons hs h hi
    show waiting k (s.dispatched ++ [(m, s.systemData m)]).length (v.toList.drop (i + 1)).length 2 ≤
      need k s - 1
    rw [need, hb, h]
    unfold waiting TimerCb.toSwap
    simp only [List.length_append, List.length_cons, List.length_nil]
    split <;> split <;> omega
  | @leave v i h hi =>
    show waiting k s.dispatched.length 0 1 ≤ need k s - 1
    rw [need, batch_finished hs h hi, h]
    unfold waiting TimerCb.toSwap
    simp only [List.length_nil]
    split <;> omega

omit [DecidableEq C] in
theorem pushed_timerStep {s t : Sys C} (h : TimerStep s t) : t.pushed = s.pushed := by
  cases h <;> rfl

theorem pushed_notifyStep {s t : Sys C} (h : NotifyStep s t) : s.pushed <+: t.pushed := by
  cases h with
  | construct => exact List.prefix_rfl
  | setSystemData => exact List.prefix_rfl
  | pushBack => exact List.prefix_append _ _

/-- Along a run the first `k` messages come closer with every step of the loop. -/
theorem run_need {k n : Nat} {s t : Sys C} (hs : s.Inv) (hk : k ≤ s.pushed.length)
    (h : Run s n t) : t.Inv ∧ s.pushed <+: t.pushed ∧ need k t ≤ need k s - n := by
  induction h with
  | refl => exact ⟨hs, List.prefix_rfl, Nat.le_refl _⟩
  | notify _ hstep ih =>
    obtain ⟨hi, hp, hn⟩ := ih
    exact ⟨inv_notifyStep hi hstep, hp.trans (pushed_notifyStep hstep),
      by rw [need_notifyStep k hstep]; exact hn⟩
  | timer _ hstep ih =>
    obtain ⟨hi, hp, hn⟩ := ih
    have hstep' := need_timerStep hi (hk.trans hp.length_le) hstep
    exact ⟨inv_timerStep hi hstep, by rw [pushed_timerStep hstep]; exact hp, by omega⟩

/-- In every run with so many steps of the loop, whatever the callers do in between, all that was
pushed at its start is dispatched at its end. -/
theorem prefix_dispatched {n : Nat} {s t : Sys C} (hs : s.Inv) (h : Run s n t)
    (hn : s.pushed.length - s.dispatched.length + 2 ≤ n) : s.pushed <+: t.dispatched := by
  obtain ⟨hi, hp, hneed⟩ := run_need hs (Nat.le_refl _) h
  have hle := need_le s.pushed.length s
  have hlen : s.pushed.length ≤ t.dispatched.length := by
    unfold need waiting at hneed hle
    omega
  refine List.prefix_of_prefix_length_le hp ?_ hlen
  rw [hi.ledger]
  exact List.prefix_append _ _

omit [DecidableEq C] in
theorem undispatched_place {s : Sys C} (hs : s.Inv) {m : MessagePtr} {code : Code}
    (hm : (m, code) ∈ s.pushed) (hd : (m, code) ∉ s.dispatched) :
    Xor (m ∈ s.batch) (m ∈ s.vvMsg.toList) := by
  have hsep := hs.nodup
  rw [hs.ledger, List.map_append, withCodes, List.map_map, Function.comp_def, List.map_id'] at hsep
  have hdisj := (List.nodup_append.mp (List.nodup_append.mp hsep).2.1).2.2
  have hmem : m ∈ s.batch ++ s.vvMsg.toList := by
    rw [hs.ledger, List.mem_append] at hm
    obtain ⟨x, hx, he⟩ := List.mem_map.mp (hm.resolve_left hd)
    rw [← (Prod.mk.inj he).1]
    exact hx
  rcases List.mem_append.mp hmem with hb | hq
  · exact .inl ⟨hb, fun hq => hdisj m hb m hq rfl⟩
  · exact .inr ⟨hq, fun hb => hdisj m hb m hq rfl⟩

/-- In every reachable state the messages pushed so far, in the order in which the lock was taken,
are those dispatched, each once and with its code, then the rest of the batch, then the queue; an
undispatched one lies in exactly one of the last two. The loop is never stuck, and after so many of
its steps, whatever the callers do in between, all of them are dispatched; a caller is not stuck
before the capacity leaves `int`. -/
theorem notify_once_in_order {s : Sys C} (hs : Reachable (lts C) s) :
    s.pushed = s.dispatched ++ s.withCodes (s.batch ++ s.vvMsg.toList) ∧
      (s.pushed.map Prod.fst).Nodup ∧
      (∀ m code, (m, code) ∈ s.pushed → (m, code) ∉ s.dispatched →
        Xor (m ∈ s.batch) (m ∈ s.vvMsg.toList)) ∧
      (∃ t, TimerStep s t) ∧
      (∀ n t, Run s n t → s.pushed.length - s.dispatched.length + 2 ≤ n →
        s.pushed <+: t.dispatched) ∧
      ∀ c m code, s.caller c = .labelled m code → s.vvMsg.cells.length < 2 ^ 30 - 1 →
        ∃ t, NotifyStep s t ∧ t.pushed = s.pushed ++ [(m, code)] := by
  have hi := inv_reachable hs
  refine ⟨hi.ledger, hi.nodup, ?_, exists_timerStep hi, ?_, ?_⟩
  · intro m code hm hd
    exact undispatched_place hi hm hd
  · intro n t hrun hn
    exact prefix_dispatched hi hrun hn
  · intro c m code hc hcap
    obtain ⟨v, hv⟩ := VVector.pushBack_isSome hi.vvMsg.1 (Int.le_of_eq hi.vvMsg.2) hcap m
    exact ⟨_, .pushBack hc hv, rfl⟩

/-- Two messages are queued, the second while the batch with the first is dispatched. -/
theorem notify_during_batch : ∃ s : Sys Bool, Reachable (lts Bool) s ∧
    s.dispatched = [(0, 7)] ∧ s.pushed = [(0, 7), (1, 9)] ∧
    s.pushed = s.dispatched ++ s.withCodes (s.batch ++ s.vvMsg.toList) := by
  have h₀ : Reachable (lts Bool) start := .init rfl
  have h₁ := h₀.step (.inl (.construct (c := true) 7 0 rfl))
  have h₂ := h₁.step (.inl (.setSystemData (c := true) rfl))
  have h₃ := h₂.step (.inl (.pushBack (c := true) rfl rfl))
  have h₄ := h₃.step (.inr (.swap rfl))
  have h₅ := h₄.step (.inl (.construct (c := false) 9 0 rfl))
  have h₆ := h₅.step (.inl (.setSystemData (c := false) rfl))
  have h₇ := h₆.step (.inl (.pushBack (c := false) rfl rfl))
  have h₈ := h₇.step (.inr (.dispatch rfl (by decide) rfl))
  exact ⟨_, h₈, rfl, rfl, (notify_once_in_order h₈).1⟩

end Sys

end EventServer.Notify
