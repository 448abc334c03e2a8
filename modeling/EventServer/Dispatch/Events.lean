import EventServer.Dispatch.Api
import EventServer.Lib.Transition

/-!
# Events handed to Lua

The callbacks that call the script's function on the main stack of the server:
`_lua_proc` without a coroutine, `proc_cb`, `chunk_cb` and `accept_cb`. What the
Lua side does at an event is a parameter of the event. Whatever it does, the
stack is afterwards what it was before.
-/
namespace EventServer.Dispatch

open EventServer.Lib EventServer.Lib.Transition

/-- The class of the messages. -/
def messageClass : String := "CLXZMessage"

/-- What the Lua side does at an event. The lookup of a global may run a metamethod; a call returns
any values or raises one. None of it reaches the tables of the binding library, which scripts have
no access to. -/
structure Behaviour where
  getGlobal : Heap → Value → Heap × Value
  call : Heap → Value → List Value → Heap × Except Value (List Value)
  /-- The integer that `luaL_ref` takes. -/
  newRef : Heap → Int
  getGlobal_registered : ∀ h k, h.Registered messageClass →
    (getGlobal h k).1.Registered messageClass
  call_registered : ∀ h f args, h.Registered messageClass →
    (call h f args).1.Registered messageClass

namespace Lua

variable (b : Behaviour)

/-- `lua_gettable(_state, LUA_GLOBALSINDEX)`. -/
def getGlobal (l : Lua) : Option Lua :=
  match l.stack with
  | k :: s =>
    let (heap, v) := b.getGlobal l.heap k
    some ⟨v :: s, heap⟩
  | [] => none

/-- `lua_pcall(_state, nargs, 0, 0)`, and whether it failed. -/
def pcall (l : Lua) (nargs : Nat) : Option (Bool × Lua) := do
  let f ← Stack.peek l.stack (nargs + 1)
  let s ← Stack.pop l.stack (nargs + 1)
  match b.call l.heap f (l.stack.take nargs).reverse with
  | (heap, .ok _) => return (false, ⟨s, heap⟩)
  | (heap, .error e) => return (true, ⟨e :: s, heap⟩)

/-- `lua_ref(_state, -1)`, that is `luaL_ref` on the registry. -/
def ref (l : Lua) : Option (Int × Lua) :=
  match l.stack with
  | .nil :: s => some (-1, { l with stack := s })
  | v :: s => some (b.newRef l.heap, ⟨s, l.heap.rawset registry (.number (b.newRef l.heap)) v⟩)
  | [] => none

end Lua

/-- A `CLXZMessage` as the callbacks see it. -/
structure Msg where
  address : Nat
  luaRef : Int
  event : Int

def cmdEventAccept : Int := 3
def cmdEventChunk : Int := 14

section Callbacks

variable (b : Behaviour) (luaRef : Int)

/-- What the three dispatchers share: the function is looked up, its arguments are pushed and it is
called; where there is none or it fails the stack is cut down again. -/
def dispatch (l : Lua) (pushArgs : Lua → Option Lua) (nargs : Nat) : Option Lua := do
  let top := l.stack.length
  let l ← (l.getref luaRef).getGlobal b
  match l.stack.head? with
  | some (.function _) =>
    let l ← pushArgs l
    let (failed, l) ← l.pcall b nargs
    if failed then
      return l.settop top
    else
      return l
  | _ => return l.settop top

/-- The message argument of `_lua_proc`, by its reference where it has one. -/
def pushMsg (l : Lua) : Option Msg → Option Lua
  | some msg =>
    if msg.luaRef ≠ -1 then some (l.getref msg.luaRef)
    else l.pushusertype msg.address messageClass
  | none => l.pushusertype 0 messageClass

/-- Its `bufferevent` argument. -/
def pushBev (l : Lua) (bev : Nat) : Option Msg → Lua
  | some msg => if bev = 0 ∧ msg.event ≠ -1 then l.getref msg.event else l.push (.light bev)
  | none => l.push (.light bev)

/-- `_lua_proc(cmd, msg, code, NULL, -1, bev)`. -/
def luaProc (l : Lua) (cmd : Int) (msg : Option Msg) (code : Int) (bev : Nat) : Option Lua :=
  dispatch b luaRef l (fun l => do
    let l ← pushMsg (l.push (.number cmd)) msg
    return (pushBev l bev msg).push (.number code)) 4

def procCb (l : Lua) (code : Int) (req : Nat) (param : Int) : Option Lua :=
  dispatch b luaRef l (fun l =>
    some (((l.push (.number code)).push (.light req)).push (.number param))) 3

def chunkCb (l : Lua) (req : Nat) : Option Lua :=
  dispatch b luaRef l (fun l => some ((l.push (.number cmdEventChunk)).push (.light req))) 2

/-- `fd` is what `accept` returns, `nodelay` whether `setsockopt` succeeds; `pMsg` and `bev` are
the new objects. -/
def acceptCb (l : Lua) (fd : Int) (nodelay : Bool) (pMsg bev : Nat) : Option Lua :=
  if fd < 0 then some l
  else if nodelay = false then some l
  else do
    let l ← l.pushusertype pMsg messageClass
    let (ref, l) ← l.ref b
    let (event, l) ← (l.push (.light bev)).ref b
    luaProc b luaRef l cmdEventAccept (some ⟨pMsg, ref, event⟩) 0 0

end Callbacks

inductive Event where
  | luaProc (cmd : Int) (msg : Option Msg) (code : Int) (bev : Nat)
  | procCb (code : Int) (req : Nat) (param : Int)
  | chunkCb (req : Nat)
  | acceptCb (fd : Int) (nodelay : Bool) (pMsg bev : Nat)

/-- One event: the state after it, and the height of the stack. -/
def handle (luaRef : Int) (l : Lua) (e : Event × Behaviour) : Option (Lua × Nat) := do
  let l ← match e.1 with
    | .luaProc cmd msg code bev => luaProc e.2 luaRef l cmd msg code bev
    | .procCb code req param => procCb e.2 luaRef l code req param
    | .chunkCb req => chunkCb e.2 luaRef l req
    | .acceptCb fd nodelay pMsg bev => acceptCb e.2 luaRef l fd nodelay pMsg bev
  return (l, l.stack.length)

/-! ## What is left on the stack -/

/-- The registry's integers are the scripts' and the server's. -/
theorem Heap.Registered.rawset_number {h : Heap} {type : String} (hr : h.Registered type) (n : Int)
    (v : Value) : (h.rawset registry (.number n) v).Registered type := by
  obtain ⟨mt, ubox, super, hr⟩ := hr
  have hsame : ∀ {k : Value} (i : Nat), k ≠ .number n →
      (h.rawset registry (.number n) v).tables i k = h.tables i k :=
    fun i hk => Heap.rawset_tables_of_ne hk registry i v
  obtain ⟨t, ht⟩ := hr.known
  refine ⟨mt, ubox, super, (hsame _ (by simp)).trans hr.mt_eq, ?_,
    (hsame _ (by simp)).trans hr.super_eq, ⟨t, (hsame _ (by simp)).trans ht⟩, fun p => ?_⟩
  · rw [hsame mt (by simp), hsame registry (by simp)]
    exact hr.ubox_eq
  · rw [hsame ubox (by simp)]
    rcases hr.boxed p with hnil | ⟨u, m, t', hu, hm, ht'⟩
    · exact .inl hnil
    · exact .inr ⟨u, m, t', hu, hm, (hsame _ (by simp)).trans ht'⟩

/-- What a callback makes of a state: the stack is the same. -/
def Neutral (l : Lua) (x : Option Lua) : Prop :=
  ∃ h', x = some ⟨l.stack, h'⟩ ∧ h'.Registered messageClass

section Callbacks

variable (b : Behaviour) (luaRef : Int) {l : Lua} (hr : l.heap.Registered messageClass)

/-- A protected call takes its function and arguments away, and leaves an error at most. -/
theorem pcall_spec (vs s : List Value) (f : Value) {h : Heap} (hh : h.Registered messageClass) :
    ∃ failed front h', (⟨vs ++ f :: s, h⟩ : Lua).pcall b vs.length =
        some (failed, ⟨front ++ s, h'⟩) ∧
      (failed = false → front = []) ∧ h'.Registered messageClass := by
  have hpop : Stack.pop (vs ++ f :: s) (vs.length + 1) = some s := by
    have hfront := Stack.pop_append (vs ++ [f]) s
    rwa [List.append_assoc, List.length_append] at hfront
  have hkeep := b.call_registered h f vs.reverse hh
  cases hcall : b.call h f vs.reverse with
  | mk h' result =>
    rw [hcall] at hkeep
    cases result with
    | ok _ =>
      refine ⟨false, [], h', ?_, fun _ => rfl, hkeep⟩
      simp [Lua.pcall, Stack.peek_append, hpop, hcall]
    | error e =>
      refine ⟨true, [e], h', ?_, by simp, hkeep⟩
      simp [Lua.pcall, Stack.peek_append, hpop, hcall]

include hr

/-- With as many arguments pushed as are taken off, a dispatcher is neutral. -/
theorem dispatch_neutral {pushArgs : Lua → Option Lua} {nargs : Nat}
    (hargs : ∀ l : Lua, l.heap.Registered messageClass → ∃ vs h',
      pushArgs l = some ⟨vs ++ l.stack, h'⟩ ∧ vs.length = nargs ∧ h'.Registered messageClass) :
    Neutral l (dispatch b luaRef l pushArgs nargs) := by
  have hkeep := b.getGlobal_registered l.heap (l.heap.tables registry (.number luaRef)) hr
  cases hglobal : b.getGlobal l.heap (l.heap.tables registry (.number luaRef)) with
  | mk h₁ f =>
    rw [hglobal] at hkeep
    have hlookup : (l.getref luaRef).getGlobal b = some ⟨f :: l.stack, h₁⟩ := by
      simp [Lua.getref, Lua.push, Lua.getGlobal, hglobal]
    have hcut : ∀ (front : List Value) (h : Heap), (⟨front ++ l.stack, h⟩ : Lua).settop
        l.stack.length = ⟨l.stack, h⟩ := by
      intro front h
      rw [Lua.settop, Stack.settop_append]
    rw [dispatch, hlookup]
    cases f with
    | function f =>
      obtain ⟨vs, h₂, hpush, rfl, hreg⟩ := hargs ⟨.function f :: l.stack, h₁⟩ hkeep
      obtain ⟨failed, front, h₃, hcall, hfront, hreg'⟩ := pcall_spec b vs l.stack (.function f) hreg
      refine ⟨h₃, ?_, hreg'⟩
      cases failed with
      | false =>
        rw [hfront rfl] at hcall
        simp [hpush, hcall]
      | true => simp [hpush, hcall, hcut]
    | nil | boolean _ | number _ | str _ | light _ | userdata _ | table _ =>
      exact ⟨h₁, congrArg some (hcut [_] h₁), hkeep⟩

theorem pushMsg_spec (msg : Option Msg) :
    ∃ v h', pushMsg l msg = some ⟨v :: l.stack, h'⟩ ∧ h'.Registered messageClass := by
  cases msg with
  | none => exact Lua.pushusertype_spec hr 0
  | some msg =>
    rw [pushMsg]
    split
    · exact ⟨_, l.heap, rfl, hr⟩
    · exact Lua.pushusertype_spec hr msg.address

omit hr in
theorem pushBev_spec (l : Lua) (bev : Nat) (msg : Option Msg) :
    ∃ v, pushBev l bev msg = ⟨v :: l.stack, l.heap⟩ := by
  cases msg with
  | none => exact ⟨_, rfl⟩
  | some msg =>
    rw [pushBev]
    split
    · exact ⟨_, rfl⟩
    · exact ⟨_, rfl⟩

theorem luaProc_neutral (cmd : Int) (msg : Option Msg) (code : Int) (bev : Nat) :
    Neutral l (luaProc b luaRef l cmd msg code bev) := by
  apply dispatch_neutral b luaRef hr
  intro l hr
  obtain ⟨v, h', hmsg, hr'⟩ := pushMsg_spec (l := l.push (.number cmd)) hr msg
  obtain ⟨w, hbev⟩ := pushBev_spec ⟨v :: .number cmd :: l.stack, h'⟩ bev msg
  refine ⟨[.number code, w, v, .number cmd], h', ?_, rfl, hr'⟩
  rw [hmsg]
  exact congrArg (fun l => some (Lua.push l (.number code))) hbev

theorem procCb_neutral (code : Int) (req : Nat) (param : Int) :
    Neutral l (procCb b luaRef l code req param) := by
  apply dispatch_neutral b luaRef hr
  intro l hr
  exact ⟨[.number param, .light req, .number code], l.heap, rfl, rfl, hr⟩

theorem chunkCb_neutral (req : Nat) : Neutral l (chunkCb b luaRef l req) := by
  apply dispatch_neutral b luaRef hr
  intro l hr
  exact ⟨[.light req, .number cmdEventChunk], l.heap, rfl, rfl, hr⟩

omit hr in
theorem ref_spec {v : Value} {s : List Value} {h : Heap} (hh : h.Registered messageClass) :
    ∃ ref h', (⟨v :: s, h⟩ : Lua).ref b = some (ref, ⟨s, h'⟩) ∧ h'.Registered messageClass := by
  cases v with
  | nil => exact ⟨-1, h, rfl, hh⟩
  | boolean _ | number _ | str _ | light _ | userdata _ | table _ | function _ =>
    exact ⟨_, _, rfl, hh.rawset_number _ _⟩

theorem acceptCb_neutral (fd : Int) (nodelay : Bool) (pMsg bev : Nat) :
    Neutral l (acceptCb b luaRef l fd nodelay pMsg bev) := by
  unfold acceptCb
  split
  · exact ⟨l.heap, rfl, hr⟩
  split
  · exact ⟨l.heap, rfl, hr⟩
  obtain ⟨v, h₁, hpush, hr₁⟩ := Lua.pushusertype_spec hr pMsg
  obtain ⟨ref, h₂, href, hr₂⟩ := ref_spec b (v := v) (s := l.stack) hr₁
  obtain ⟨event, h₃, hevent, hr₃⟩ := ref_spec b (v := .light bev) (s := l.stack) hr₂
  obtain ⟨h₄, hproc, hr₄⟩ := luaProc_neutral b luaRef (l := ⟨l.stack, h₃⟩) hr₃ cmdEventAccept
    (some ⟨pMsg, ref, event⟩) 0 0
  refine ⟨h₄, ?_, hr₄⟩
  simp only [hpush, href, Lua.push, hevent, Option.bind_eq_bind, Option.bind_some]
  exact hproc

/-- One event leaves the stack as it was. -/
theorem handle_neutral (e : Event) :
    ∃ h', handle luaRef l (e, b) = some (⟨l.stack, h'⟩, l.stack.length) ∧
      h'.Registered messageClass := by
  have hwrap : ∀ {x : Option Lua}, Neutral l x → ∃ h', (do
      let l ← x
      return (l, l.stack.length)) = some ((⟨l.stack, h'⟩ : Lua), l.stack.length) ∧
        h'.Registered messageClass := by
    rintro x ⟨h', rfl, hr'⟩
    exact ⟨h', rfl, hr'⟩
  cases e with
  | luaProc cmd msg code bev => exact hwrap (luaProc_neutral b luaRef hr cmd msg code bev)
  | procCb code req param => exact hwrap (procCb_neutral b luaRef hr code req param)
  | chunkCb req => exact hwrap (chunkCb_neutral b luaRef hr req)
  | acceptCb fd nodelay pMsg bev =>
    exact hwrap (acceptCb_neutral b luaRef hr fd nodelay pMsg bev)

end Callbacks

/-- Whatever events come in and whatever the Lua side makes of them, the stack is after each as high
as it was before the first. -/
theorem events_stack_neutral (luaRef : Int) {l : Lua} (hr : l.heap.Registered messageClass)
    (events : List (Event × Behaviour)) :
    ∃ l', run (handle luaRef) l events =
        some (l', List.replicate events.length l.stack.length) ∧ l'.stack = l.stack := by
  induction events generalizing l with
  | nil => exact ⟨l, rfl, rfl⟩
  | cons e events ih =>
    obtain ⟨h', he, hr'⟩ := handle_neutral e.2 luaRef hr e.1
    obtain ⟨l', hrun, hstack⟩ := ih (l := ⟨l.stack, h'⟩) hr'
    refine ⟨l', ?_, hstack⟩
    rw [run, he]
    simp [hrun, List.replicate_succ]

/-- The tables after the registration of `CLXZMessage`; reference 1 is the name of the function. -/
def registeredHeap : Heap where
  tables t k :=
    if t = registry ∧ k = .str messageClass then .table 2
    else if t = registry ∧ k = .str "tolua_super" then .table 4
    else if t = registry ∧ k = .number 1 then .str "event_proc"
    else if t = 2 ∧ k = .str "tolua_ubox" then .table 3
    else if t = 4 ∧ k = .table 2 then .table 5
    else .nil
  metatable _ := .nil
  fresh := 0

theorem registered_registeredHeap : registeredHeap.Registered messageClass := by
  refine ⟨2, 3, 4, by decide, .inl (by decide), by decide, ⟨5, by decide⟩, fun p => .inl ?_⟩
  simp [registeredHeap, registry]

/-- The Lua side finds `f` and ends the call with `result`. -/
def answers (f : Value) (result : Except Value (List Value)) : Behaviour where
  getGlobal h _ := (h, f)
  call h _ _ := (h, result)
  newRef _ := 2
  getGlobal_registered _ _ hr := hr
  call_registered _ _ _ hr := hr

/-- A connection, an event whose function raises an error, a request and a chunk without one. -/
theorem events_stack_neutral_four : ∃ l', run (handle 1) ⟨[.boolean true], registeredHeap⟩
    [(.acceptCb 5 true 100 200, answers (.function 0) (.ok [])),
      (.luaProc 1 (some ⟨100, -1, -1⟩) 0 0, answers (.function 0) (.error (.str "error"))),
      (.procCb 9 300 0, answers (.function 0) (.ok [.nil, .number 1])),
      (.chunkCb 300, answers .nil (.ok []))] = some (l', [1, 1, 1, 1]) ∧
    l'.stack = [.boolean true] :=
  events_stack_neutral 1 registered_registeredHeap _

end EventServer.Dispatch
