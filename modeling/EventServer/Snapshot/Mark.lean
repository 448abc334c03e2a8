import EventServer.Lib.CString
import EventServer.Lib.Decimal
import Mathlib.Data.BitVec
import Mathlib.Logic.Function.Basic

/-!
# The heap snapshot

`snapshot()` marks every object of a Lua state that the registry keeps alive and
lists for each the objects that refer to it, with a description of how. `none` is
an error raised where the stack has no room for another nesting, or a write past
the buffer for a local's description. Tables are followed in the order that
`lua_next` gives.
-/
namespace EventServer.Snapshot

open EventServer.Lib.CString EventServer.Lib.Decimal

/-- An object is given by its address. -/
inductive Value (ν : Type) where
  | nil
  | boolean (b : Bool)
  | number (x : ν)
  | str (s : Text)
  | light (p : Nat)
  | object (p : Nat)

/-- The tables of `dL` for the objects found. -/
inductive Kind where
  | table
  | function
  | thread
  | userdata
  deriving DecidableEq

/-- A level of a call stack, with what `lua_getlocal` names from 1 on. -/
structure Frame (ν : Type) where
  shortSrc : Text
  currentline : Int
  locals : List (Text × Value ν)

inductive Object (ν : Type) where
  | table (metatable : Option Nat) (pairs : List (Value ν × Value ν))
  /-- `info` has `short_src` and `linedefined`; a C function has none. -/
  | function (env : Option Nat) (upvalues : List (Text × Value ν)) (info : Option (Text × Int))
  | userdata (metatable : Option Nat) (uservalue : Option Nat)
  | thread (stack : List (Value ν)) (frames : List (Frame ν))

def Object.kind {ν : Type} : Object ν → Kind
  | .table .. => .table
  | .function .. => .function
  | .userdata .. => .userdata
  | .thread .. => .thread

structure Heap (ν : Type) where
  object : Nat → Object ν
  registry : Nat
  /-- The thread that calls `snapshot`. -/
  running : Nat
  /-- `%lg` -/
  numberText : ν → Text
  /-- `%p` -/
  pointerText : Nat → Text
  registry_table : (object registry).kind = .table

/-- The descriptions by parent; the registry's parent is `NULL`. -/
abbrev Parents := Option Nat → Option Text

/-- What is in `dL`. -/
structure Dump where
  mark : List Nat
  tables : Kind → Nat → Option Parents
  source : Nat → Option Text

def Dump.empty : Dump := ⟨[], fun _ _ => none, fun _ => none⟩

def Dump.setParents (D : Dump) (kind : Kind) (p : Nat) (parents : Parents) : Dump :=
  { D with tables :=
      Function.update D.tables kind (Function.update (D.tables kind) p (some parents)) }

def Dump.setSource (D : Dump) (p : Nat) (text : Text) : Dump :=
  { D with source := Function.update D.source p (some text) }

def Dump.ismarked (D : Dump) (p : Nat) : Bool × Dump :=
  if p ∈ D.mark then (true, D) else (false, { D with mark := p :: D.mark })

/-- `readobject()`, and whether it returns the object. -/
def Dump.readobject (D : Dump) (kind : Kind) (parent : Option Nat) (desc : Text) (p : Nat) :
    Bool × Dump :=
  match D.ismarked p with
  | (true, D) =>
    match D.tables kind p with
    | some parents => (false, D.setParents kind p (Function.update parents parent (some desc)))
    | none => (false, D)
  | (false, D) => (true, D.setParents kind p (Function.update (fun _ => none) parent (some desc)))

variable {ν : Type} (h : Heap ν)

def Heap.typename (p : Nat) : Text :=
  match (h.object p).kind with
  | .table => lit "table".toList
  | .function => lit "function".toList
  | .userdata => lit "userdata".toList
  | .thread => lit "thread".toList

def keystring : Value ν → Text
  | .str s => cstr s
  | .number x => lit "[".toList ++ h.numberText x ++ lit "]".toList
  | .boolean true => lit "[true]".toList
  | .boolean false => lit "[false]".toList
  | .nil => lit "[nil]".toList
  | .light p => lit "[userdata:".toList ++ h.pointerText p ++ lit "]".toList
  | .object p => lit "[".toList ++ h.typename p ++ lit ":".toList ++ h.pointerText p ++ lit "]".toList

/-- The text under `__mode`. The text of a number has none of the letters looked for. -/
def Heap.mode (metatable : Option Nat) : Text :=
  match metatable.map h.object with
  | some (.table _ pairs) =>
    match pairs.find? fun kv => match kv.1 with
      | .str s => s = lit "__mode".toList
      | _ => false with
    | some (_, .str s) => cstr s
    | _ => []
  | _ => []

def Heap.weakk (metatable : Option Nat) : Bool := (h.mode metatable).contains (chr 'k')

def Heap.weakv (metatable : Option Nat) : Bool := (h.mode metatable).contains (chr 'v')

def localName (name : Text) (f : Frame ν) : Text :=
  name ++ lit " : ".toList ++ f.shortSrc ++ lit ":".toList ++ printInt f.currentline

def functionSource (info : Text × Int) : Text :=
  lit "func: ".toList ++ info.1 ++ lit ":".toList ++ printInt info.2

def threadSource (frames : List (Frame ν)) : Text :=
  (frames.flatMap fun f => f.shortSrc ++
    if 0 ≤ f.currentline then lit ":".toList ++ printInt f.currentline ++ lit " ".toList else []) ++
    lit "thread: ".toList

/-! The descriptions that are the same for every object. -/

def metatableDesc : Text := lit "[metatable]".toList

def keyDesc : Text := lit "[key]".toList

def uservalueDesc : Text := lit "[uservalue]".toList

def environmentDesc : Text := lit "[environment]".toList

def registryDesc : Text := lit "[registry]".toList

def upvalueDesc : Text := lit "[upvalue]".toList

/-- `mark_object(L, dL, parent, desc)` with the value on top of the stack of `L`. -/
abbrev Marker (ν : Type) := Nat → Dump → Option Nat → Text → Value ν → Option Dump

section Objects

variable (mark : Marker ν) (l : Nat) (t : Nat)

/-- A metatable, an environment or a uservalue, where there is one. -/
def markOptional (desc : Text) (o : Option Nat) (D : Dump) : Option Dump :=
  match o with
  | some m => mark l D (some t) desc (.object m)
  | none => some D

/-- The loop over `lua_next()`, for one pair. -/
def markPair (metatable : Option Nat) (D : Dump) (kv : Value ν × Value ν) : Option Dump :=
  (if h.weakv metatable then some D else mark l D (some t) (keystring h kv.1) kv.2).bind fun D =>
    if h.weakk metatable then some D else mark l D (some t) keyDesc kv.1

/-- What `mark_table` does with a table it has not met. -/
def markTable (metatable : Option Nat) (pairs : List (Value ν × Value ν)) (D : Dump) :
    Option Dump :=
  (markOptional mark l t metatableDesc metatable D).bind fun D =>
    pairs.foldlM (markPair h mark l t metatable) D

def markUserdata (metatable uservalue : Option Nat) (D : Dump) : Option Dump :=
  (markOptional mark l t metatableDesc metatable D).bind fun D =>
    markOptional mark l t uservalueDesc uservalue D

def upvalueName (name : Text) : Text := if name = [] then upvalueDesc else name

def markFunction (env : Option Nat) (upvalues : List (Text × Value ν))
    (info : Option (Text × Int)) (D : Dump) : Option Dump := do
  let D ← markOptional mark l t environmentDesc env D
  let D ← upvalues.foldlM (fun D u => mark l D (some t) (upvalueName u.1) u.2) D
  match info with
  | some info => some (D.setSource t (functionSource info))
  | none => some D

def slotName (i : Nat) : Text := lit "[".toList ++ printNat i ++ lit "]".toList

/-- A local of a level; its description is written into a buffer of 128 bytes. -/
def markLocal (f : Frame ν) (D : Dump) (x : Text × Value ν) : Option Dump :=
  if (localName x.1 f).length < 128 then mark t D (some t) (localName x.1 f) x.2 else none

/-- What is met in the stack of a thread is marked by way of that thread. The thread that runs
`mark_thread` itself has no stack marked, and its first level is left out. The loop over `j` ends
after 1. -/
def markThread (stack : List (Value ν)) (frames : List (Frame ν)) (D : Dump) : Option Dump := do
  let D ← if t = l then some D
    else stack.zipIdx.foldlM (fun D v => mark t D (some t) (slotName (v.2 + 1)) v.1) D
  let frames := if t = l then frames.drop 1 else frames
  let D ← frames.foldlM (fun D f => f.locals.foldlM (markLocal mark t f) D) D
  return D.setSource t (threadSource frames)

/-- The function for the type of a value that was not met before. -/
def markNew (D : Dump) : Option Dump :=
  match h.object t with
  | .table metatable pairs => markTable h mark l t metatable pairs D
  | .function env upvalues info => markFunction mark l t env upvalues info D
  | .userdata metatable uservalue => markUserdata mark l t metatable uservalue D
  | .thread stack frames => markThread mark l t stack frames D

end Objects

/-- `mark_object()`, which calls `readobject` by way of the function for the type of the value;
`room` is how deep objects may nest. -/
def mark : Nat → Marker ν
  | 0, _, D, _, _, v => match v with
    | .object _ => none
    | _ => some D
  | room + 1, l, D, parent, desc, v => match v with
    | .object p => match D.readobject (h.object p).kind parent desc p with
      | (false, D) => some D
      | (true, D) => markNew h (mark room) l p D
    | _ => some D

/-- An object in the result: what it is, and the lines about its parents. -/
structure Entry where
  head : Text
  parents : Parents

abbrev Result := Nat → Option Entry

/-- The first line of a description; without a source that of a thread is empty. -/
def head (D : Dump) (kind : Kind) (p : Nat) : Text :=
  match kind with
  | .function => (D.source p).getD (lit "cfunction".toList)
  | .thread => (D.source p).getD []
  | .table => lit "table".toList
  | .userdata => lit "userdata".toList

/-- The loop of `pdesc` over one table of `dL`, for one object. -/
def addEntry (D : Dump) (kind : Kind) (result : Result) (p : Nat) : Result :=
  match D.tables kind p with
  | some parents => Function.update result p (some ⟨head D kind p, parents⟩)
  | none => result

/-- The objects are taken in some order. -/
def pdesc (D : Dump) (result : Result) (kind : Kind) : Result :=
  D.mark.foldl (addEntry D kind) result

def genResult (D : Dump) : Result :=
  [Kind.table, .userdata, .function, .thread].foldl (pdesc D) fun _ => none

def snapshot (room : Nat) : Option Result :=
  (mark h room h.running .empty none registryDesc (.object h.registry)).map genResult

end EventServer.Snapshot
