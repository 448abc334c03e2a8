import EventServer.Lib.Registry
import EventServer.Lib.Transition

/-!
# References in the Lua registry

The server keeps Lua values alive by references in the registry: the message and
the `bufferevent` of every connection, and the coroutine of every timer, HTTP
request and background task that waits. An action is one callback or one call
from a script; a callback that resumes a coroutine is two, since the script runs
in between. `none` is a release of a reference that is not given out, or a use of
a coroutine that no reference keeps from being collected. The output of an action
are the references whose owner is gone without having released them.
-/
namespace EventServer.Dispatch.References

open EventServer.Lib EventServer.Lib.Registry EventServer.Lib.Transition

/-- What the server has references to. -/
inductive Object where
  /-- The name of the script's function. -/
  | name
  | message (msg : Nat)
  | light (bev : Nat)
  | thread (co : Nat)
  deriving DecidableEq

/-- The `bufferevent` of a connection and the message behind its `cbarg`. -/
structure Client where
  bev : Nat
  msg : Nat
  luaRef : Int
  event : Int
  deriving DecidableEq

inductive Kind where
  | selfTv
  | httpRequestGet
  | httpRequestPost
  | luaTask
  deriving DecidableEq

inductive Phase where
  /-- The timer, the answer or the worker is waited for. -/
  | pending
  /-- The task is in `_poolsRet`. -/
  | returned
  /-- The task is in the list that `Update` swapped out. -/
  | swapped
  /-- The coroutine was suspended, and is resumed. -/
  | resumed
  /-- It was not. -/
  | passed
  deriving DecidableEq

/-- What `self_tv`, the HTTP requests and `_LuaTask` have in common; `p` is their address. -/
structure Waiter where
  p : Nat
  kind : Kind
  thread : Option Nat
  ref : Int
  phase : Phase
  deriving DecidableEq

structure Server where
  registry : Table Int Object
  luaRef : Int
  clients : List Client
  waiters : List Waiter

/-- `Start()` has taken the reference to the name. -/
def start (luaRef : Int) : Server := ⟨AList.singleton luaRef .name, luaRef, [], []⟩

def Client.refs (c : Client) : List (Ref Int Object) :=
  [⟨c.event, .light c.bev⟩, ⟨c.luaRef, .message c.msg⟩]

def Waiter.refs (w : Waiter) : List (Ref Int Object) :=
  match w.thread with
  | some co => [⟨w.ref, .thread co⟩]
  | none => []

namespace Server

/-- `luaL_unref()` ignores negative references. -/
def unref (s : Server) (ref : Int) : Option Server :=
  if ref < 0 then some s
  else (release s.registry ref).map fun registry => { s with registry }

/-- Some reference keeps the coroutine. -/
def kept (s : Server) (co : Nat) : Bool := s.registry.entries.any fun e => e.2 = .thread co

/-- What `accept_cb` and `Connect` do with a new connection. -/
def addClient (s : Server) (bev msg : Nat) (luaRef event : Int) : Server :=
  { s with
    registry := (s.registry.insert luaRef (.message msg)).insert event (.light bev)
    clients := ⟨bev, msg, luaRef, event⟩ :: s.clients }

/-- `CloseClient()`. -/
def closeClient (s : Server) (bev : Nat) : Option Server := do
  let c ← s.clients.find? (·.bev = bev)
  let s ← if c.event ≠ -1 then s.unref c.event else some s
  let s ← if c.luaRef ≠ -1 then s.unref c.luaRef else some s
  return { s with clients := s.clients.erase c }

/-- A record with a reference to its coroutine where it has one. -/
def addWaiter (s : Server) (p : Nat) (kind : Kind) (thread : Option Nat) (ref : Int) : Server :=
  match thread with
  | some co => { s with
      registry := s.registry.insert ref (.thread co)
      waiters := ⟨p, kind, some co, ref, .pending⟩ :: s.waiters }
  | none => { s with waiters := ⟨p, kind, none, -1, .pending⟩ :: s.waiters }

def waiter? (s : Server) (p : Nat) (kind : Kind) (phase : Phase) : Option Waiter :=
  s.waiters.find? fun w => w.p = p ∧ w.kind = kind ∧ w.phase = phase

/-- The waiter that is called back. -/
def called? (s : Server) (p : Nat) (kind : Kind) : Option Waiter :=
  (s.waiter? p kind .resumed).or (s.waiter? p kind .passed)

def setPhase (s : Server) (w : Waiter) (phase : Phase) : Server :=
  { s with waiters := { w with phase } :: s.waiters.erase w }

/-- A callback up to `lua_resume`; without a coroutine there is nothing to resume. -/
def resume (s : Server) (w : Waiter) (suspended : Bool) : Option Server :=
  match w.thread with
  | some co => if s.kept co then
      some (s.setPhase w (if suspended then .resumed else .passed)) else none
  | none => some (s.setPhase w .passed)

/-- The record goes, after its reference is released by way of the coroutine itself. -/
def free (s : Server) (w : Waiter) : Option Server :=
  match w.thread with
  | some co => do
    let s ← if s.kept co then s.unref w.ref else none
    return { s with waiters := s.waiters.erase w }
  | none => some { s with waiters := s.waiters.erase w }

/-- The record goes, its reference stays. -/
def drop (s : Server) (w : Waiter) : Server × List (Ref Int Object) :=
  ({ s with waiters := s.waiters.erase w }, w.refs)

end Server

/-- What a request is called back with. -/
inductive Answer where
  /-- There was no connection. -/
  | null
  /-- The next attempt is started. -/
  | redirect
  | final (suspended : Bool)

inductive Action where
  | acceptCb (bev msg : Nat) (luaRef event : Int)
  | connect (bev msg : Nat) (luaRef event : Int)
  | closeClient (bev : Nat)
  | waitTime (p : Nat) (timer : Nat) (co : Nat) (ref : Int)
  | waitTimerCb (p : Nat) (suspended : Bool)
  | waitTimerCbEnd (p : Nat)
  | sendHttpGet (p : Nat) (co : Option Nat) (ref : Int)
  | sendHttpPost (p : Nat) (co : Option Nat) (ref : Int)
  | getCb (p : Nat) (answer : Answer)
  | getCbEnd (p : Nat)
  | postCb (p : Nat) (answer : Answer)
  /-- `sizeTasks` and `maxTasks` are those of the thread it is posted to. -/
  | postTask (p : Nat) (co : Option Nat) (ref : Int) (sizeTasks maxTasks : Nat)
  /-- A worker has executed the task. -/
  | workProc (p : Nat)
  | updateSwap
  | update (p : Nat) (suspended : Bool)
  | updateEnd (p : Nat)

open Server

/-- A reference that `luaL_ref` can take: an unused positive integer. -/
def Fresh (s : Server) (ref : Int) : Prop := 0 < ref ∧ ref ∉ s.registry

/-- A script closes open connections only, and what is called back has waited for it. -/
def Enabled (s : Server) : Action → Prop
  | .acceptCb _ _ luaRef event | .connect _ _ luaRef event =>
    Fresh s luaRef ∧ Fresh s event ∧ event ≠ luaRef
  | .closeClient bev => (s.clients.find? (·.bev = bev)).isSome
  | .waitTime _ _ _ ref => Fresh s ref
  | .waitTimerCb p _ => (s.waiter? p .selfTv .pending).isSome
  | .waitTimerCbEnd p => (s.called? p .selfTv).isSome
  | .sendHttpGet _ co ref | .sendHttpPost _ co ref | .postTask _ co ref _ _ =>
    co.isSome → Fresh s ref
  | .getCb p _ => (s.waiter? p .httpRequestGet .pending).isSome
  | .getCbEnd p => (s.called? p .httpRequestGet).isSome
  | .postCb p _ => (s.waiter? p .httpRequestPost .pending).isSome
  | .workProc p => (s.waiter? p .luaTask .pending).isSome
  | .updateSwap => True
  | .update p _ => (s.waiter? p .luaTask .swapped).isSome
  | .updateEnd p => (s.called? p .luaTask).isSome

/-- What `_lua_proc` does for a coroutine after `lua_resume`, and `http_request_free`. -/
def getCbEnd (s : Server) (w : Waiter) : Option (Server × List (Ref Int Object)) :=
  if w.phase = .resumed ∧ w.ref ≠ -1 then (s.free w).map (·, []) else some (s.drop w)

/-- `PostTaskReturn()`, or the task is deleted. -/
def workProc (s : Server) (w : Waiter) : Server :=
  if w.thread.isSome then s.setPhase w .returned else { s with waiters := s.waiters.erase w }

/-- `lstRet.swap(_poolsRet)`. -/
def updateSwap (s : Server) : Server :=
  { s with waiters := s.waiters.map fun w =>
      if w.kind = .luaTask ∧ w.phase = .returned then { w with phase := .swapped } else w }

def step (s : Server) : Action → Option (Server × List (Ref Int Object))
  | .acceptCb bev msg luaRef event | .connect bev msg luaRef event =>
    some (s.addClient bev msg luaRef event, [])
  | .closeClient bev => (s.closeClient bev).map (·, [])
  | .waitTime p timer co ref =>
    some (if 0 < timer then s.addWaiter p .selfTv (some co) ref else s, [])
  | .waitTimerCb p suspended => do
    let w ← s.waiter? p .selfTv .pending
    (s.resume w suspended).map (·, [])
  | .waitTimerCbEnd p => do
    let w ← s.called? p .selfTv
    (s.free w).map (·, [])
  | .sendHttpGet p co ref => some (s.addWaiter p .httpRequestGet co ref, [])
  | .sendHttpPost p co ref => some (s.addWaiter p .httpRequestPost co ref, [])
  | .getCb p answer => do
    let w ← s.waiter? p .httpRequestGet .pending
    match answer with
    | .null => some (s.drop w)
    | .redirect => some (s, [])
    | .final suspended => (s.resume w suspended).map (·, [])
  | .getCbEnd p => do
    let w ← s.called? p .httpRequestGet
    getCbEnd s w
  | .postCb p answer => do
    let w ← s.waiter? p .httpRequestPost .pending
    match answer with
    | .redirect => some (s, [])
    | .null | .final _ => some (s.drop w)
  | .postTask p co ref sizeTasks maxTasks =>
    some (if maxTasks ≤ sizeTasks then s else s.addWaiter p .luaTask co ref, [])
  | .workProc p => (s.waiter? p .luaTask .pending).map fun w => (workProc s w, [])
  | .updateSwap => some (updateSwap s, [])
  | .update p suspended => do
    let w ← s.waiter? p .luaTask .swapped
    (s.resume w suspended).map (·, [])
  | .updateEnd p => do
    let w ← s.called? p .luaTask
    (s.free w).map (·, [])

/-! ## What is held -/

def Server.held (s : Server) : List (Ref Int Object) :=
  ⟨s.luaRef, .name⟩ :: (s.clients.flatMap Client.refs ++ s.waiters.flatMap Waiter.refs)

/-- The registry has what the server holds and what was lost, and nothing twice. -/
structure Exact (s : Server) (lost : List (Ref Int Object)) : Prop where
  perm : s.registry.entries.Perm (s.held ++ lost)
  pos : ∀ e ∈ s.held, 0 < e.1

theorem exact_start {luaRef : Int} (h : 0 < luaRef) : Exact (start luaRef) [] :=
  ⟨.refl _, List.forall_mem_singleton.mpr h⟩

section Step

variable {s : Server} {lost : List (Ref Int Object)} (h : Exact s lost)

include h

/-- A change that takes no reference and gives none back. -/
theorem exact_of_held {s' : Server} {out : List (Ref Int Object)} (hreg : s'.registry = s.registry)
    (hheld : s.held.Perm (s'.held ++ out)) : Exact s' (lost ++ out) := by
  refine ⟨?_, fun e he => h.pos e (hheld.mem_iff.mpr (List.mem_append_left _ he))⟩
  rw [hreg]
  calc s.registry.entries
    _ |>.Perm (s.held ++ lost) := h.perm
    _ |>.Perm ((s'.held ++ out) ++ lost) := hheld.append_right lost
    _ |>.Perm (s'.held ++ (lost ++ out)) := by
      rw [List.append_assoc]
      exact List.perm_append_comm.append_left _

theorem kept_of_held {ref : Int} {co : Nat} (hm : ⟨ref, .thread co⟩ ∈ s.held) :
    s.kept co = true := by
  refine List.any_eq_true.mpr ⟨⟨ref, .thread co⟩, ?_, decide_eq_true rfl⟩
  exact h.perm.mem_iff.mpr (List.mem_append_left _ hm)

end Step

section Changes

variable {s : Server}

theorem held_client {c : Client} (hc : c ∈ s.clients) :
    s.held.Perm (c.refs ++ { s with clients := s.clients.erase c }.held) := by
  have hrest := ((owners_erase Client.refs hc).append_right (s.waiters.flatMap Waiter.refs)).cons
    ⟨s.luaRef, .name⟩
  rw [List.append_assoc] at hrest
  exact hrest.trans List.perm_middle.symm

theorem held_waiter {w : Waiter} (hw : w ∈ s.waiters) :
    s.held.Perm (w.refs ++ { s with waiters := s.waiters.erase w }.held) := by
  have hrest := ((owners_erase Waiter.refs hw).append_left (s.clients.flatMap Client.refs)).cons
    ⟨s.luaRef, .name⟩
  refine hrest.trans (.trans (.cons _ ?_) List.perm_middle.symm)
  exact List.perm_append_comm_assoc _ _ _

theorem held_setPhase {w : Waiter} (hw : w ∈ s.waiters) (phase : Phase) :
    s.held.Perm (s.setPhase w phase).held := by
  have hrefs : Waiter.refs { w with phase } = w.refs := rfl
  exact ((owners_replace Waiter.refs hw hrefs).append_left _).cons _

theorem held_updateSwap (s : Server) : (updateSwap s).held = s.held := by
  have hrefs : ∀ w : Waiter, Waiter.refs (if w.kind = .luaTask ∧ w.phase = .returned then
      { w with phase := .swapped } else w) = w.refs := by
    intro w
    split <;> rfl
  simp only [held, updateSwap, List.flatMap_map, hrefs]

theorem unref_spec {ref : Int} {v : Object} {rest : List (Ref Int Object)} (hpos : 0 < ref)
    (hperm : s.registry.entries.Perm (⟨ref, v⟩ :: rest)) :
    ∃ registry, s.unref ref = some { s with registry } ∧ registry.entries.Perm rest := by
  obtain ⟨registry, hrel, hrest⟩ := held_release hperm
  exact ⟨registry, by rw [unref, if_neg (by omega), hrel, Option.map_some], hrest⟩

end Changes

section Step

variable {s : Server} {lost : List (Ref Int Object)} (h : Exact s lost)

include h

theorem exact_addClient (bev msg : Nat) {luaRef event : Int} (hl : Fresh s luaRef)
    (he : Fresh s event) (hne : event ≠ luaRef) :
    Exact (s.addClient bev msg luaRef event) lost := by
  have hev : event ∉ s.registry.insert luaRef (.message msg) := by
    rw [AList.mem_insert]
    exact not_or.mpr ⟨hne, he.2⟩
  have hperm := held_insert (held_insert h.perm hl.2 (.message msg)) hev (.light bev)
  refine ⟨hperm.trans ?_, ?_⟩
  · let c : Client := ⟨bev, msg, luaRef, event⟩
    let others := s.clients.flatMap Client.refs ++ s.waiters.flatMap Waiter.refs ++ lost
    have hmiddle : (c.refs ++ ⟨s.luaRef, .name⟩ :: others).Perm
        (⟨s.luaRef, .name⟩ :: (c.refs ++ others)) := List.perm_middle
    exact hmiddle
  · have hpos := List.forall_mem_cons.mp h.pos
    exact List.forall_mem_cons.mpr ⟨hpos.1, List.forall_mem_cons.mpr ⟨he.1,
      List.forall_mem_cons.mpr ⟨hl.1, hpos.2⟩⟩⟩

theorem exact_addWaiter (p : Nat) (kind : Kind) {co : Option Nat} {ref : Int}
    (hf : co.isSome → Fresh s ref) : Exact (s.addWaiter p kind co ref) lost := by
  cases co with
  | none => exact ⟨h.perm, h.pos⟩
  | some co =>
    obtain ⟨hpos, hfresh⟩ := hf rfl
    refine ⟨(held_insert h.perm hfresh (.thread co)).trans ?_, ?_⟩
    · refine .trans (.swap _ _ _) (.cons _ ?_)
      change List.Perm (⟨ref, .thread co⟩ :: (s.clients.flatMap Client.refs ++ _ ++ lost))
        (s.clients.flatMap Client.refs ++ (⟨ref, .thread co⟩ :: _) ++ lost)
      rw [List.append_assoc, List.append_assoc]
      exact List.perm_middle.symm
    · intro e he
      have hmem : e = ⟨ref, .thread co⟩ ∨ e ∈ s.held := by
        simpa [held, addWaiter, Waiter.refs, or_left_comm] using he
      rcases hmem with rfl | hold
      · exact hpos
      · exact h.pos e hold

theorem exact_closeClient {bev : Nat} (hfind : (s.clients.find? (·.bev = bev)).isSome) :
    ∃ s', s.closeClient bev = some s' ∧ Exact s' lost := by
  obtain ⟨c, hc⟩ := Option.isSome_iff_exists.mp hfind
  have hheld := held_client (List.mem_of_find?_eq_some hc)
  have hpos : ∀ e ∈ c.refs ++ { s with clients := s.clients.erase c }.held, 0 < e.1 :=
    fun e he => h.pos e (hheld.mem_iff.mpr he)
  have hposEvent : 0 < c.event := hpos ⟨c.event, .light c.bev⟩ (by simp [Client.refs])
  have hposRef : 0 < c.luaRef := hpos ⟨c.luaRef, .message c.msg⟩ (by simp [Client.refs])
  obtain ⟨r₁, h₁, hperm₁⟩ := unref_spec hposEvent (h.perm.trans (hheld.append_right lost))
  obtain ⟨r₂, h₂, hperm₂⟩ := @unref_spec { s with registry := r₁ } _ _ _ hposRef hperm₁
  refine ⟨{ s with registry := r₂, clients := s.clients.erase c }, ?_, hperm₂, ?_⟩
  · have hneEvent : c.event ≠ -1 := by omega
    have hneRef : c.luaRef ≠ -1 := by omega
    simp [closeClient, hc, hneEvent, hneRef, h₁, h₂]
  · exact fun e he => hpos e (List.mem_append_right _ he)

theorem exact_resume {w : Waiter} (hw : w ∈ s.waiters) (suspended : Bool) :
    ∃ s', s.resume w suspended = some s' ∧ Exact s' lost := by
  have hphase : ∀ phase, Exact (s.setPhase w phase) lost := by
    intro phase
    have hheld : s.held.Perm ((s.setPhase w phase).held ++ []) := by
      rw [List.append_nil]
      exact held_setPhase hw phase
    have hsame : Exact (s.setPhase w phase) (lost ++ []) := exact_of_held h rfl hheld
    rwa [List.append_nil] at hsame
  rw [resume]
  cases hco : w.thread with
  | none => exact ⟨_, rfl, hphase _⟩
  | some co =>
    have hrefs : ⟨w.ref, .thread co⟩ ∈ w.refs := by simp [Waiter.refs, hco]
    have hkept := kept_of_held h ((held_waiter hw).mem_iff.mpr (List.mem_append_left _ hrefs))
    exact ⟨_, if_pos hkept, hphase _⟩

theorem exact_free {w : Waiter} (hw : w ∈ s.waiters) :
    ∃ s', s.free w = some s' ∧ Exact s' lost := by
  have hheld := held_waiter hw
  have hpos : ∀ e ∈ w.refs ++ { s with waiters := s.waiters.erase w }.held, 0 < e.1 :=
    fun e he => h.pos e (hheld.mem_iff.mpr he)
  rw [free]
  cases hco : w.thread with
  | none =>
    have hrefs : w.refs = [] := by rw [Waiter.refs, hco]
    rw [hrefs] at hheld
    exact ⟨_, rfl, h.perm.trans (hheld.append_right lost), fun e he => hpos e (by simp [he])⟩
  | some co =>
    have hrefs : w.refs = [⟨w.ref, .thread co⟩] := by rw [Waiter.refs, hco]
    rw [hrefs] at hheld hpos
    have hkept : s.kept co := kept_of_held h (hheld.mem_iff.mpr List.mem_cons_self)
    obtain ⟨r, hr, hperm⟩ := unref_spec (hpos _ List.mem_cons_self)
      (h.perm.trans (hheld.append_right lost))
    refine ⟨{ s with registry := r, waiters := s.waiters.erase w }, ?_, hperm, ?_⟩
    · simp [hkept, hr]
    · exact fun e he => hpos e (List.mem_append_right _ he)

theorem exact_drop {w : Waiter} (hw : w ∈ s.waiters) :
    Exact (s.drop w).1 (lost ++ (s.drop w).2) :=
  exact_of_held h rfl ((held_waiter hw).trans List.perm_append_comm)

end Step

theorem waiter?_spec {s : Server} {p : Nat} {kind : Kind} {phase : Phase} {w : Waiter}
    (h : s.waiter? p kind phase = some w) : w ∈ s.waiters ∧ w.phase = phase := by
  rw [waiter?] at h
  have hfound : w.p = p ∧ w.kind = kind ∧ w.phase = phase := by simpa using List.find?_some h
  exact ⟨List.mem_of_find?_eq_some h, hfound.2.2⟩

theorem called?_spec {s : Server} {p : Nat} {kind : Kind} {w : Waiter}
    (h : s.called? p kind = some w) :
    w ∈ s.waiters ∧ (w.phase = .resumed ∨ w.phase = .passed) := by
  rcases Option.or_eq_some_iff.mp h with hres | ⟨-, hpass⟩
  · exact ⟨(waiter?_spec hres).1, .inl (waiter?_spec hres).2⟩
  · exact ⟨(waiter?_spec hpass).1, .inr (waiter?_spec hpass).2⟩

/-- An action that the server's surroundings allow is defined, and the books still balance. -/
theorem step_exact {s : Server} {lost : List (Ref Int Object)} (h : Exact s lost) (a : Action)
    (hen : Enabled s a) : ∃ s' out, step s a = some (s', out) ∧ Exact s' (lost ++ out) := by
  have hquiet : ∀ {s' : Server}, Exact s' lost → Exact s' (lost ++ []) := by
    intro s' h'
    rwa [List.append_nil]
  have hmap : ∀ {x : Option Server}, (∃ s', x = some s' ∧ Exact s' lost) →
      ∃ s' out, x.map (·, []) = some (s', out) ∧ Exact s' (lost ++ out) := by
    rintro x ⟨s', rfl, h'⟩
    exact ⟨s', [], rfl, hquiet h'⟩
  cases a with
  | acceptCb bev msg luaRef event | connect bev msg luaRef event =>
    obtain ⟨hl, he, hne⟩ := hen
    exact ⟨_, [], rfl, hquiet (exact_addClient h bev msg hl he hne)⟩
  | closeClient bev => exact hmap (exact_closeClient h hen)
  | waitTime p timer co ref =>
    refine ⟨_, [], rfl, hquiet ?_⟩
    split
    · exact exact_addWaiter h p .selfTv fun _ => hen
    · exact h
  | sendHttpGet p co ref => exact ⟨_, [], rfl, hquiet (exact_addWaiter h p .httpRequestGet hen)⟩
  | sendHttpPost p co ref => exact ⟨_, [], rfl, hquiet (exact_addWaiter h p .httpRequestPost hen)⟩
  | postTask p co ref sizeTasks maxTasks =>
    refine ⟨_, [], rfl, hquiet ?_⟩
    split
    · exact h
    · exact exact_addWaiter h p .luaTask hen
  | updateSwap => exact ⟨_, [], rfl, hquiet ⟨(held_updateSwap s).symm ▸ h.perm,
      (held_updateSwap s).symm ▸ h.pos⟩⟩
  | waitTimerCb p suspended | update p suspended =>
    obtain ⟨w, hw⟩ := Option.isSome_iff_exists.mp hen
    simp only [step, hw, Option.bind_eq_bind, Option.bind_some]
    exact hmap (exact_resume h (waiter?_spec hw).1 suspended)
  | waitTimerCbEnd p | updateEnd p =>
    obtain ⟨w, hw⟩ := Option.isSome_iff_exists.mp hen
    simp only [step, hw, Option.bind_eq_bind, Option.bind_some]
    exact hmap (exact_free h (called?_spec hw).1)
  | getCb p answer =>
    obtain ⟨w, hw⟩ := Option.isSome_iff_exists.mp hen
    simp only [step, hw, Option.bind_eq_bind, Option.bind_some]
    cases answer with
    | null => exact ⟨_, _, rfl, exact_drop h (waiter?_spec hw).1⟩
    | redirect => exact ⟨_, _, rfl, hquiet h⟩
    | final suspended => exact hmap (exact_resume h (waiter?_spec hw).1 suspended)
  | getCbEnd p =>
    obtain ⟨w, hw⟩ := Option.isSome_iff_exists.mp hen
    simp only [step, hw, Option.bind_eq_bind, Option.bind_some, getCbEnd]
    split
    · exact hmap (exact_free h (called?_spec hw).1)
    · exact ⟨_, _, rfl, exact_drop h (called?_spec hw).1⟩
  | postCb p answer =>
    obtain ⟨w, hw⟩ := Option.isSome_iff_exists.mp hen
    simp only [step, hw, Option.bind_eq_bind, Option.bind_some]
    cases answer with
    | redirect => exact ⟨_, _, rfl, hquiet h⟩
    | null | final _ => exact ⟨_, _, rfl, exact_drop h (waiter?_spec hw).1⟩
  | workProc p =>
    obtain ⟨w, hw⟩ := Option.isSome_iff_exists.mp hen
    have hmem := (waiter?_spec hw).1
    simp only [step, hw, Option.map_some]
    refine ⟨_, _, rfl, hquiet ?_⟩
    rw [workProc]
    split
    · exact ⟨h.perm.trans ((held_setPhase hmem .returned).append_right lost),
        fun e he => h.pos e ((held_setPhase hmem .returned).mem_iff.mpr he)⟩
    · next hnone =>
      have hrefs : w.refs = [] := by
        rw [Waiter.refs, Option.not_isSome_iff_eq_none.mp hnone]
      have hheld := held_waiter hmem
      rw [hrefs, List.nil_append] at hheld
      exact ⟨h.perm.trans (hheld.append_right lost), fun e he => h.pos e (hheld.mem_iff.mpr he)⟩

/-! ## Runs -/

/-- Nothing keeps the reference of a waiter that goes. -/
def Forgets (s : Server) : Action → Prop
  | .getCb p .null => ∃ w, s.waiter? p .httpRequestGet .pending = some w ∧ w.thread.isSome
  | .getCbEnd p =>
    ∃ w, s.called? p .httpRequestGet = some w ∧ w.phase = .passed ∧ w.thread.isSome
  | .postCb p .null | .postCb p (.final _) =>
    ∃ w, s.waiter? p .httpRequestPost .pending = some w ∧ w.thread.isSome
  | _ => False

theorem refs_eq_nil_iff (w : Waiter) : w.refs = [] ↔ ¬w.thread.isSome := by
  rw [Waiter.refs]
  split <;> simp [*]

/-- Something is lost exactly where the action forgets. -/
theorem step_lost_iff {s s' : Server} {lost out : List (Ref Int Object)} (h : Exact s lost)
    {a : Action} (hstep : step s a = some (s', out)) : out = [] ↔ ¬Forgets s a := by
  have hmap : ∀ {x : Option Server}, x.map (·, ([] : List (Ref Int Object))) = some (s', out) →
      out = [] := by
    intro x hx
    obtain ⟨s'', -, heq⟩ := Option.map_eq_some_iff.mp hx
    exact (Prod.mk.inj heq).2.symm
  cases a with
  | acceptCb _ _ _ _ | connect _ _ _ _ | waitTime _ _ _ _ | sendHttpGet _ _ _ | sendHttpPost _ _ _
  | postTask _ _ _ _ _ | updateSwap =>
    exact iff_of_true (Prod.mk.inj (Option.some.inj hstep)).2.symm (by simp [Forgets])
  | closeClient _ | workProc _ =>
    obtain ⟨_, -, heq⟩ := Option.map_eq_some_iff.mp hstep
    exact iff_of_true (Prod.mk.inj heq).2.symm (by simp [Forgets])
  | waitTimerCb _ _ | waitTimerCbEnd _ | update _ _ | updateEnd _ =>
    obtain ⟨w, -, hw⟩ := Option.bind_eq_some_iff.mp hstep
    exact iff_of_true (hmap hw) (by simp [Forgets])
  | getCb p answer =>
    obtain ⟨w, hw, hrest⟩ := Option.bind_eq_some_iff.mp hstep
    cases answer with
    | null =>
      obtain ⟨-, rfl⟩ := Prod.mk.inj (Option.some.inj hrest)
      simp [Forgets, hw, refs_eq_nil_iff]
    | redirect => exact iff_of_true (Prod.mk.inj (Option.some.inj hrest)).2.symm (by simp [Forgets])
    | final suspended => exact iff_of_true (hmap hrest) (by simp [Forgets])
  | postCb p answer =>
    obtain ⟨w, hw, hrest⟩ := Option.bind_eq_some_iff.mp hstep
    cases answer with
    | redirect => exact iff_of_true (Prod.mk.inj (Option.some.inj hrest)).2.symm (by simp [Forgets])
    | null | final _ =>
      obtain ⟨-, rfl⟩ := Prod.mk.inj (Option.some.inj hrest)
      simp [Forgets, hw, refs_eq_nil_iff]
  | getCbEnd p =>
    obtain ⟨w, hw, hrest⟩ := Option.bind_eq_some_iff.mp hstep
    obtain ⟨hmem, hphase⟩ := called?_spec hw
    have hforgets : Forgets s (.getCbEnd p) ↔ w.phase = .passed ∧ w.thread.isSome := by
      simp [Forgets, hw]
    have hne : w.thread.isSome → w.ref ≠ -1 := by
      intro hco
      obtain ⟨co, hco⟩ := Option.isSome_iff_exists.mp hco
      have hpos := h.pos ⟨w.ref, .thread co⟩
        ((held_waiter hmem).mem_iff.mpr (by simp [Waiter.refs, hco]))
      exact fun heq => by simp only [heq] at hpos; omega
    rw [hforgets]
    rw [getCbEnd] at hrest
    split at hrest
    · next hres =>
      exact iff_of_true (hmap hrest) (by simp [hres.1])
    · next hres =>
      obtain ⟨-, rfl⟩ := Prod.mk.inj (Option.some.inj hrest)
      change w.refs = [] ↔ _
      rw [refs_eq_nil_iff]
      refine not_congr ⟨fun hco => ⟨?_, hco⟩, And.right⟩
      exact hphase.resolve_left fun hph => hres ⟨hph, hne hco⟩

/-- What the callbacks look up is there. -/
structure Server.Complete (s : Server) : Prop where
  name : s.registry.lookup s.luaRef = some .name
  client : ∀ c ∈ s.clients, s.registry.lookup c.luaRef = some (.message c.msg) ∧
    s.registry.lookup c.event = some (.light c.bev)
  thread : ∀ w ∈ s.waiters, ∀ co, w.thread = some co →
    s.registry.lookup w.ref = some (.thread co)

theorem complete_of_exact {s : Server} {lost : List (Ref Int Object)} (h : Exact s lost) :
    s.Complete := by
  have hfound : ∀ {ref : Int} {v : Object}, ⟨ref, v⟩ ∈ s.held → s.registry.lookup ref = some v :=
    fun hm => lookup_of_held h.perm (List.mem_append_left _ hm)
  refine ⟨hfound List.mem_cons_self, fun c hc => ?_, fun w hw co hco => ?_⟩
  · have hrefs : ∀ e ∈ c.refs, e ∈ s.held :=
      fun e he => (held_client hc).mem_iff.mpr (List.mem_append_left _ he)
    exact ⟨hfound (hrefs _ (by simp [Client.refs])), hfound (hrefs _ (by simp [Client.refs]))⟩
  · have hrefs : ⟨w.ref, .thread co⟩ ∈ w.refs := by simp [Waiter.refs, hco]
    exact hfound ((held_waiter hw).mem_iff.mpr (List.mem_append_left _ hrefs))

section Run

variable {luaRef : Int} (hpos : 0 < luaRef) {acts : List Action}
  (halong : Along step Enabled (start luaRef) acts)

include hpos halong

theorem run_exact :
    ∃ s outs, run step (start luaRef) acts = some (s, outs) ∧ Exact s outs.flatten := by
  have hstep : ∀ (s : Server) (outs : List (List (Ref Int Object))) (a : Action), Enabled s a →
      Exact s outs.flatten → ∃ s' out, step s a = some (s', out) ∧
        Exact s' (outs ++ [out]).flatten := by
    intro s outs a hen h
    obtain ⟨s', out, he, h'⟩ := step_exact h a hen
    exact ⟨s', out, he, by rwa [List.flatten_append, List.flatten_singleton]⟩
  have hstart : Exact (start luaRef) ([] : List (List (Ref Int Object))).flatten :=
    exact_start hpos
  exact run_progress hstep halong hstart

theorem exact_of_run {s : Server} {outs : List (List (Ref Int Object))}
    (hrun : run step (start luaRef) acts = some (s, outs)) : Exact s outs.flatten := by
  obtain ⟨s', outs', hrun', h⟩ := run_exact hpos halong
  obtain ⟨rfl, rfl⟩ := Prod.mk.inj (Option.some.inj (hrun.symm.trans hrun'))
  exact h

/-- Whatever scripts, the network and the workers do, no reference is released that is not given out
and no coroutine used that may have been collected. The registry has, each once, the references that
are held and those that were lost, and every callback finds its own objects. -/
theorem references_exact : ∃ s outs, run step (start luaRef) acts = some (s, outs) ∧
    s.registry.entries.Perm (s.held ++ outs.flatten) ∧ s.Complete := by
  obtain ⟨s, outs, hrun, h⟩ := run_exact hpos halong
  exact ⟨s, outs, hrun, h.perm, complete_of_exact h⟩

/-- When no connection is open and nothing waits, the registry is as it was at the start exactly
where no action of the run forgot a coroutine. -/
theorem registry_clean_iff {s : Server} {outs : List (List (Ref Int Object))}
    (hrun : run step (start luaRef) acts = some (s, outs)) (hc : s.clients = [])
    (hw : s.waiters = []) : s.registry.entries = [⟨s.luaRef, .name⟩] ↔
      Along step (fun s a => ¬Forgets s a) (start luaRef) acts := by
  have h := exact_of_run hpos halong hrun
  have hheld : s.held = [⟨s.luaRef, .name⟩] := by simp [held, hc, hw]
  have hlost : s.registry.entries = [⟨s.luaRef, .name⟩] ↔ ∀ out ∈ outs, out = [] := by
    have hperm := h.perm
    rw [hheld] at hperm
    rw [← List.flatten_eq_nil_iff]
    refine ⟨fun heq => ?_, fun hnil => ?_⟩
    · rw [heq] at hperm
      exact List.eq_nil_of_length_eq_zero (by simpa using hperm.length_eq)
    · rw [hnil, List.append_nil] at hperm
      exact List.perm_singleton.mp hperm
  rw [hlost]
  refine run_outputs_iff (I := fun s => ∃ lost, Exact s lost) ?_ halong ⟨[], exact_start hpos⟩ hrun
  intro s a s' out hen hex hstep
  obtain ⟨lost, hex⟩ := hex
  obtain ⟨s'', out', hstep', hex'⟩ := step_exact hex a hen
  obtain ⟨rfl, rfl⟩ := Prod.mk.inj (Option.some.inj (hstep.symm.trans hstep'))
  exact ⟨⟨_, hex'⟩, step_lost_iff hex hstep⟩

end Run

/-- A connection and a request that is answered while the connection is closed. -/
def answeredRun : List Action := [.acceptCb 100 200 2 3, .sendHttpGet 300 (some 7) 4,
  .getCb 300 (.final true), .closeClient 100, .getCbEnd 300]

theorem enabled_answeredRun : Along step Enabled (start 1) answeredRun := by
  refine along_cons ⟨⟨by decide, by decide⟩, ⟨by decide, by decide⟩, by decide⟩ rfl ?_
  refine along_cons (fun _ => ⟨by decide, by decide⟩) rfl ?_
  refine along_cons (rfl : Option.isSome _ = true) rfl ?_
  refine along_cons (rfl : Option.isSome _ = true) rfl ?_
  exact along_cons (rfl : Option.isSome _ = true) rfl trivial

theorem references_exact_answered : ∃ s outs, run step (start 1) answeredRun = some (s, outs) ∧
    s.registry.entries.Perm (s.held ++ outs.flatten) ∧ s.Complete :=
  references_exact (by decide) enabled_answeredRun

/-- An answered request for a coroutine. -/
def postRun : List Action := [.sendHttpPost 300 (some 7) 2, .postCb 300 (.final true)]

theorem enabled_postRun : Along step Enabled (start 1) postRun := by
  refine along_cons (fun _ => ⟨by decide, by decide⟩) rfl ?_
  exact along_cons (rfl : Option.isSome _ = true) rfl trivial

/-- After a GET that resumed its coroutine nothing is left, after a POST its coroutine is. -/
theorem registry_clean_get_post :
    (∃ s outs, run step (start 1) answeredRun = some (s, outs) ∧
      s.registry.entries = [⟨s.luaRef, .name⟩]) ∧
    ∃ s outs, run step (start 1) postRun = some (s, outs) ∧
      s.registry.entries ≠ [⟨s.luaRef, .name⟩] := by
  refine ⟨⟨_, _, rfl, ?_⟩, _, _, rfl, ?_⟩
  · refine (registry_clean_iff (by decide) enabled_answeredRun rfl rfl rfl).mpr ?_
    refine along_cons (by simp [Forgets]) rfl (along_cons (by simp [Forgets]) rfl ?_)
    refine along_cons (by simp [Forgets]) rfl (along_cons (by simp [Forgets]) rfl ?_)
    refine along_cons ?_ rfl trivial
    intro hforgets
    obtain ⟨w, hw, hphase, -⟩ := hforgets
    obtain rfl := Option.some.inj hw
    exact absurd hphase (by decide)
  · intro hclean
    have halong := (registry_clean_iff (by decide) enabled_postRun rfl rfl rfl).mp hclean
    exact (halong.2 _ _ rfl).1 ⟨_, rfl, rfl⟩

end EventServer.Dispatch.References
