import EventServer.Lib.Stack

/-!
# The Lua state and its C interface

The main stack of a Lua state and what its values refer to, with the functions of
the C interface that the server's callbacks use. `none` is a use of the interface
that it does not allow. `tolua_pushusertype` is the one of the binding library.
-/
namespace EventServer.Dispatch

open EventServer.Lib

inductive Value where
  | nil
  | boolean (b : Bool)
  | number (n : Int)
  | str (s : String)
  | light (p : Nat)
  | userdata (u : Nat)
  | table (t : Nat)
  | function (f : Nat)
  deriving DecidableEq

/-- `lua_toboolean()`. -/
def Value.truthy : Value → Bool
  | .nil | .boolean false => false
  | _ => true

/-- The table behind `LUA_REGISTRYINDEX`. -/
def registry : Nat := 0

/-- Tables, metatables, and the userdata not yet allocated. -/
structure Heap where
  tables : Nat → Value → Value
  metatable : Value → Value
  fresh : Nat

def Heap.rawset (h : Heap) (t : Nat) (k v : Value) : Heap :=
  { h with tables := Function.update h.tables t (Function.update (h.tables t) k v) }

structure Lua where
  stack : List Value
  heap : Heap

namespace Lua

def push (l : Lua) (v : Value) : Lua := { l with stack := v :: l.stack }

def onStack (l : Lua) (f : List Value → Option (List Value)) : Option Lua := do
  let stack ← f l.stack
  return { l with stack }

def pushvalue (l : Lua) (i : Nat) : Option Lua := (Stack.peek l.stack i).map l.push

def pop (l : Lua) (n : Nat) : Option Lua := l.onStack (Stack.pop · n)

def insert (l : Lua) (i : Nat) : Option Lua := l.onStack (Stack.insert · i)

def remove (l : Lua) (i : Nat) : Option Lua := l.onStack (Stack.remove · i)

def settop (l : Lua) (top : Nat) : Lua := { l with stack := Stack.settop .nil l.stack top }

/-- The key on top makes room for its value in the table. -/
def gettable (l : Lua) (t : Nat) : Option Lua :=
  match l.stack with
  | k :: s => some { l with stack := l.heap.tables t k :: s }
  | [] => none

def rawget (l : Lua) (i : Nat) : Option Lua :=
  match Stack.peek l.stack i with
  | some (.table t) => l.gettable t
  | _ => none

def rawset (l : Lua) (i : Nat) : Option Lua :=
  match Stack.peek l.stack i, l.stack with
  | some (.table t), v :: k :: s => some ⟨s, l.heap.rawset t k v⟩
  | _, _ => none

def newuserdata (l : Lua) : Lua :=
  ⟨.userdata l.heap.fresh :: l.stack, { l.heap with
    metatable := Function.update l.heap.metatable (.userdata l.heap.fresh) .nil
    fresh := l.heap.fresh + 1 }⟩

/-- Nothing is pushed for a value without a metatable. -/
def getmetatable (l : Lua) (i : Nat) : Option Lua := do
  let v ← Stack.peek l.stack i
  match l.heap.metatable v with
  | .nil => return l
  | mt => return l.push mt

def setmetatable (l : Lua) (i : Nat) : Option Lua := do
  let v ← Stack.peek l.stack i
  match l.stack with
  | .table t :: s =>
    return ⟨s, { l.heap with metatable := Function.update l.heap.metatable v (.table t) }⟩
  | .nil :: s => return ⟨s, { l.heap with metatable := Function.update l.heap.metatable v .nil }⟩
  | _ => none

/-- The environment itself is read by nothing here. -/
def setfenv (l : Lua) (i : Nat) : Option Lua := do
  let _ ← Stack.peek l.stack i
  match l.stack with
  | .table _ :: s => return { l with stack := s }
  | _ => none

/-- `luaL_getmetatable()`. -/
def getRegistered (l : Lua) (name : String) : Lua := l.push (l.heap.tables registry (.str name))

/-- `lua_getref()`. -/
def getref (l : Lua) (ref : Int) : Lua := l.push (l.heap.tables registry (.number ref))

/-! ## `tolua_pushusertype` -/

/-- The userdata at index 4 gets the metatable at index 5. -/
def specialize (l : Lua) : Option Lua := do
  let l ← l.pushvalue 5
  let l ← l.setmetatable 5
  let l ← l.pop 3
  l.remove 2

/-- The userdata that stands for `value` already, below its ubox. -/
def pushCached (l : Lua) (type : String) : Option Lua := do
  let l ← l.insert 2
  let l ← l.pop 1
  let l ← (l.push (.str "tolua_super")).gettable registry
  let l ← l.getmetatable 2
  let l ← l.rawget 2
  match l.stack.head? with
  | some (.table _) =>
    let l ← (l.push (.str type)).rawget 2
    if (l.stack.head?.map Value.truthy) = some true then
      let l ← l.pop 3
      l.remove 2
    else l.specialize
  | _ => l.specialize

def pushNew (l : Lua) (value : Nat) : Option Lua := do
  let l ← l.pop 1
  let l := (l.push (.light value)).newuserdata
  let l ← l.pushvalue 1
  let l ← l.insert 4
  let l ← l.rawset 3
  let l ← l.pop 1
  let l ← l.pushvalue 2
  let l ← l.setmetatable 2
  let l ← (l.push (.table registry)).setfenv 2
  l.remove 2

def pushusertype (l : Lua) (value : Nat) (type : String) : Option Lua :=
  if value = 0 then some (l.push .nil)
  else do
    let l := l.getRegistered type
    let l ← (l.push (.str "tolua_ubox")).rawget 2
    let l ← if l.stack.head? = some .nil then do
        let l ← l.pop 1
        (l.push (.str "tolua_ubox")).gettable registry
      else some l
    let l ← (l.push (.light value)).rawget 2
    if l.stack.head? = some .nil then l.pushNew value else l.pushCached type

end Lua

/-- The tables of the binding library for a class, as its registration leaves them: whatever is in
the ubox has a metatable, and the library knows the classes above it. -/
structure Heap.RegisteredAt (h : Heap) (type : String) (mt ubox super : Nat) : Prop where
  mt_eq : h.tables registry (.str type) = .table mt
  ubox_eq : h.tables mt (.str "tolua_ubox") = .table ubox ∨
    h.tables mt (.str "tolua_ubox") = .nil ∧
      h.tables registry (.str "tolua_ubox") = .table ubox
  super_eq : h.tables registry (.str "tolua_super") = .table super
  known : ∃ t, h.tables super (.table mt) = .table t
  boxed : ∀ p, h.tables ubox (.light p) = .nil ∨
    ∃ u m t, h.tables ubox (.light p) = .userdata u ∧ h.metatable (.userdata u) = .table m ∧
      h.tables super (.table m) = .table t

def Heap.Registered (h : Heap) (type : String) : Prop :=
  ∃ mt ubox super, h.RegisteredAt type mt ubox super

section Usertype

variable {h : Heap} {type : String} {mt ubox super : Nat}

/-- A userdata may get the metatable of the class. -/
theorem Heap.RegisteredAt.setmetatable (hr : h.RegisteredAt type mt ubox super) (u : Nat) :
    { h with metatable := Function.update h.metatable (.userdata u) (.table mt) }.RegisteredAt type
      mt ubox super := by
  refine ⟨hr.mt_eq, hr.ubox_eq, hr.super_eq, hr.known, fun p => ?_⟩
  rcases hr.boxed p with hnil | ⟨v, m, t, hv, hm, ht⟩
  · exact .inl hnil
  · by_cases hvu : v = u
    · obtain ⟨t', ht'⟩ := hr.known
      exact .inr ⟨v, mt, t', hv, by simp [hvu], ht'⟩
    · have hne : Value.userdata v ≠ .userdata u := fun he => hvu (Value.userdata.inj he)
      exact .inr ⟨v, m, t, hv, (Function.update_of_ne hne _ _).trans hm, ht⟩

theorem Heap.rawset_tables_of_ne {k k' : Value} (hk : k' ≠ k) (t t' : Nat) (v : Value) :
    (h.rawset t k v).tables t' k' = h.tables t' k' := by
  by_cases ht : t' = t
  · simp [Heap.rawset, ht, Function.update_of_ne hk]
  · simp [Heap.rawset, Function.update_of_ne ht]

/-- A userdata with the metatable of the class may be put into the ubox. -/
theorem Heap.RegisteredAt.box (hr : h.RegisteredAt type mt ubox super) {u : Nat}
    (hu : h.metatable (.userdata u) = .table mt) (p : Nat) :
    (h.rawset ubox (.light p) (.userdata u)).RegisteredAt type mt ubox super := by
  obtain ⟨t, ht⟩ := hr.known
  have hsame : ∀ {k : Value} (i : Nat), k ≠ .light p →
      (h.rawset ubox (.light p) (.userdata u)).tables i k = h.tables i k :=
    fun i hk => rawset_tables_of_ne hk ubox i _
  refine ⟨(hsame _ (by simp)).trans hr.mt_eq, ?_, (hsame _ (by simp)).trans hr.super_eq,
    ⟨t, (hsame _ (by simp)).trans ht⟩, fun q => ?_⟩
  · rw [hsame mt (by simp), hsame registry (by simp)]
    exact hr.ubox_eq
  · by_cases hq : q = p
    · refine .inr ⟨u, mt, t, by simp [Heap.rawset, hq], hu, (hsame _ (by simp)).trans ht⟩
    · have hne : Value.light q ≠ .light p := fun he => hq (Value.light.inj he)
      rcases hr.boxed q with hnil | ⟨v, m, t', hv, hm, ht'⟩
      · exact .inl ((hsame _ hne).trans hnil)
      · exact .inr ⟨v, m, t', (hsame _ hne).trans hv, hm, (hsame _ (by simp)).trans ht'⟩

namespace Lua

theorem specialize_eq (flag known super : Value) (u m : Nat) (s : List Value) :
    (⟨flag :: known :: super :: .userdata u :: .table m :: s, h⟩ : Lua).specialize =
      some ⟨.userdata u :: s,
        { h with metatable := Function.update h.metatable (.userdata u) (.table m) }⟩ := rfl

theorem pushCached_spec (hr : h.RegisteredAt type mt ubox super) {u m t : Nat} {s : List Value}
    (hm : h.metatable (.userdata u) = .table m) (ht : h.tables super (.table m) = .table t) :
    ∃ h', (⟨.userdata u :: .table ubox :: .table mt :: s, h⟩ : Lua).pushCached type =
      some ⟨.userdata u :: s, h'⟩ ∧ h'.RegisteredAt type mt ubox super := by
  have hstart : (⟨.userdata u :: .table ubox :: .table mt :: s, h⟩ : Lua).pushCached type =
      if (h.tables t (.str type)).truthy = true then some ⟨.userdata u :: s, h⟩
      else (⟨h.tables t (.str type) :: .table t :: .table super :: .userdata u :: .table mt :: s,
        h⟩ : Lua).specialize := by
    simp [pushCached, insert, pop, remove, onStack, push, gettable, rawget, getmetatable,
      Stack.insert, Stack.place, Stack.pop, Stack.peek, Stack.remove, hr.super_eq, hm, ht]
  rw [hstart]
  split
  · exact ⟨h, rfl, hr⟩
  · exact ⟨_, specialize_eq _ _ _ u mt s, hr.setmetatable u⟩

theorem pushNew_spec (hr : h.RegisteredAt type mt ubox super) (value : Nat) (s : List Value) :
    ∃ v h', (⟨.nil :: .table ubox :: .table mt :: s, h⟩ : Lua).pushNew value =
      some ⟨v :: s, h'⟩ ∧ h'.RegisteredAt type mt ubox super := by
  have hset := hr.setmetatable h.fresh
  have hfresh : ({ h with
      metatable := Function.update h.metatable (.userdata h.fresh) (.table mt)
      fresh := h.fresh + 1 } : Heap).RegisteredAt type mt ubox super :=
    ⟨hset.mt_eq, hset.ubox_eq, hset.super_eq, hset.known, hset.boxed⟩
  refine ⟨.userdata h.fresh, _, ?_, hfresh.box (Function.update_self _ _ _) value⟩
  simp [pushNew, pop, push, newuserdata, pushvalue, insert, rawset, setmetatable, setfenv, remove,
    onStack, Stack.pop, Stack.peek, Stack.insert, Stack.place, Stack.remove, Heap.rawset]

/-- One value is pushed, and the tables are as they should be. -/
theorem pushusertype_spec {l : Lua} (hr : l.heap.Registered type) (value : Nat) :
    ∃ v h', l.pushusertype value type = some ⟨v :: l.stack, h'⟩ ∧ h'.Registered type := by
  unfold pushusertype
  split
  · exact ⟨.nil, l.heap, rfl, hr⟩
  obtain ⟨mt, ubox, super, hr⟩ := hr
  -- The metatable and the ubox, from the class or from the registry.
  have hrest : ∀ {x y : Lua → Option Lua}, (do
      let l ← ((l.getRegistered type).push (.str "tolua_ubox")).rawget 2
      let l ← if l.stack.head? = some .nil then do
          let l ← l.pop 1
          (l.push (.str "tolua_ubox")).gettable registry
        else some l
      let l ← (l.push (.light value)).rawget 2
      if l.stack.head? = some .nil then x l else y l) =
      (let l' : Lua := ⟨l.heap.tables ubox (.light value) :: .table ubox :: .table mt :: l.stack,
          l.heap⟩
        if l.heap.tables ubox (.light value) = .nil then x l' else y l') := by
    intro x y
    rcases hr.ubox_eq with hown | ⟨hnil, hglobal⟩
    · simp [getRegistered, push, rawget, gettable, Stack.peek, hr.mt_eq, hown]
    · simp [getRegistered, push, rawget, gettable, pop, onStack, Stack.pop, Stack.peek, hr.mt_eq,
        hnil, hglobal]
  rw [hrest]
  rcases hr.boxed value with hnil | ⟨u, m, t, hu, hm, ht⟩
  · obtain ⟨v, h', he, hr'⟩ := pushNew_spec hr value l.stack
    exact ⟨v, h', by simpa [hnil] using he, mt, ubox, super, hr'⟩
  · obtain ⟨h', he, hr'⟩ := pushCached_spec hr hm ht (s := l.stack)
    exact ⟨.userdata u, h', by simpa [hu] using he, mt, ubox, super, hr'⟩

end Lua
end Usertype

end EventServer.Dispatch
