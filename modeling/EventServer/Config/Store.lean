import EventServer.Stream.IMemFile

/-!
# The entries of `LXZCoreCfg`

An entry has a name, a type tag and a union of 8 bytes. A setter finds its entry
by the cached reference or by the name and stores through its own member without
looking at the tag; a getter that finds another tag falls back to the setter. The
member last stored is recorded beside the tag, and every call returns which
members it read or freed under which tag: neither is in the program. `none` is
undefined behaviour. The vector of entries is its list of elements.
-/
namespace EventServer.Config

open EventServer.Lib.Blocks EventServer.Stream

/-- The values of the type tag, and the members of the union they name. -/
inductive CfgType where
  | i
  | f
  | cstr
  | p
  | b
  | u
  deriving DecidableEq

inductive Value where
  | int (v : BitVec 32)
  | float (bits : BitVec 32)
  | cstr (s : List Byte)
  | obj (p : BitVec 64)
  | bool (b : Bool)
  | uint (v : BitVec 32)
  deriving DecidableEq

def Value.type : Value → CfgType
  | .int _ => .i
  | .float _ => .f
  | .cstr _ => .cstr
  | .obj _ => .p
  | .bool _ => .b
  | .uint _ => .u

/-- What a call returns; a `char*` that does not point to a string is kept as it is. -/
inductive Returned where
  | value (v : Value)
  | wildPtr (p : BitVec 64)
  deriving DecidableEq

/-- The union: its bytes, or the address of a string made by `cpstr` with the string. -/
inductive Cell where
  | bits (w : BitVec 64)
  | str (addr : BitVec 64) (s : List Byte)
  deriving DecidableEq

namespace Cell

def word : Cell → BitVec 64
  | .bits w => w
  | .str addr _ => addr

def read (c : Cell) : CfgType → Returned
  | .i => .value (.int (c.word.setWidth 32))
  | .f => .value (.float (c.word.setWidth 32))
  | .p => .value (.obj c.word)
  | .b => .value (.bool (c.word.setWidth 8 ≠ 0))
  | .u => .value (.uint (c.word.setWidth 32))
  | .cstr =>
    match c with
    | .str _ s => .value (.cstr s)
    | .bits w => .wildPtr w

/-- Store the low four bytes. -/
def store32 (c : Cell) (v : BitVec 32) : Cell := .bits (c.word.extractLsb' 32 32 ++ v)

/-- Store through the member of the value; `addr` is where `cpstr` puts a string. -/
def write (c : Cell) (addr : BitVec 64) : Value → Cell
  | .int v => c.store32 v
  | .float v => c.store32 v
  | .cstr s => .str addr s
  | .obj p => .bits p
  | .bool b => .bits (c.word.extractLsb' 8 56 ++ (if b then 1#8 else 0#8))
  | .uint v => c.store32 v

end Cell

/-- A `_cfg_value`. Its `alias` is never set, and its `flag` is read by no call here. -/
structure Entry where
  name : List Byte
  type : CfgType
  cell : Cell
  /-- The member last stored. -/
  last : CfgType
  deriving DecidableEq

/-- The entry as its own getter sees it. -/
def Entry.view (e : Entry) : List Byte × CfgType × Returned := (e.name, e.type, e.cell.read e.type)

/-- What the program does not determine: the first content of each union, the address of each
string, and how a `float` is read and printed. -/
structure Env where
  junk : Nat → BitVec 64
  addr : Nat → BitVec 64
  atof : List Byte → BitVec 32
  /-- `%f`. -/
  printFloat : BitVec 32 → List Byte

/-- Unions that start as zero, and a page for each string. -/
def Env.sample : Env where
  junk _ := 0
  addr n := BitVec.ofNat 64 (4096 * (n + 1))
  atof _ := 0
  printFloat _ := [48, 46, 48, 48, 48, 48, 48, 48]

structure Store where
  entries : List Entry
  /-- How many strings were made. -/
  copies : Nat
  deriving DecidableEq

/-- `int* ref_`: null, pointing to `-1`, or pointing to an index. -/
abbrev RefPtr := Option (Option Nat)

/-- A member read or freed, under the tag the entry had. -/
structure Access where
  tag : CfgType
  member : CfgType
  deriving DecidableEq

structure Result where
  store : Store
  ref_ : RefPtr
  returned : Returned
  accesses : List Access
  deriving DecidableEq

def lowerByte (c : Byte) : Byte := if 65 ≤ c.toNat ∧ c.toNat ≤ 90 then c + 32 else c

/-- `tolower_` into a buffer of 512. -/
def tolower_ (name : List Byte) : List Byte := (name.take 511).map lowerByte

namespace Store

def fresh : Store := ⟨[], 0⟩

def view (s : Store) : List (List Byte × CfgType × Returned) := s.entries.map Entry.view

/-- The test in the loop of `Ref`; the alias is compared as it is. -/
def matchesName (name : List Byte) (alias_ : Option (List Byte)) (e : Entry) : Bool :=
  decide (tolower_ e.name = tolower_ name) || decide (alias_ = some (tolower_ e.name))

/-- `Ref()`; `none` is `-1`. -/
def ref (s : Store) (name : List Byte) (alias_ : Option (List Byte)) : Option Nat :=
  s.entries.findIdx? (matchesName name alias_)

/-- The index a call works on: the one `ref_` points to, or else that of `Ref`. -/
def resolve (s : Store) (name : List Byte) (alias_ : Option (List Byte)) : RefPtr → Option Nat
  | some (some i) => some i
  | _ => s.ref name alias_

/-- The entry that is inserted for a value. `SetBool` stores a new value through `i`. -/
def newEntry (env : Env) (s : Store) (name : List Byte) (v : Value) : Entry :=
  let union := Cell.bits (env.junk s.entries.length)
  match v with
  | .bool b => ⟨name, .b, union.store32 (if b then 1 else 0), .i⟩
  | v => ⟨name, v.type, union.write (env.addr s.copies) v, v.type⟩

def copiesAfter (s : Store) : Value → Nat
  | .cstr _ => s.copies + 1
  | _ => s.copies

/-- Store into an entry that exists, and what is returned for it. `SetCString` takes any nonzero
old content for a string, copies and frees it. -/
def overwrite (e : Entry) (addr : BitVec 64) (v : Value) : Option (Entry × Returned) :=
  let e' := { e with cell := e.cell.write addr v, last := v.type }
  match v, e.cell with
  | .cstr _, .str _ s => some (e', .value (.cstr s))
  | .cstr _, .bits w => if w = 0 then some (e', .value (.cstr [])) else none
  | v, c => some (e', c.read v.type)

/-- The body the setters share. -/
def set (env : Env) (s : Store) (name : List Byte) (ref_ : RefPtr) (v : Value) : Option Result :=
  match s.resolve name none ref_ with
  | none =>
    some ⟨⟨s.entries ++ [s.newEntry env name v], s.copiesAfter v⟩,
      ref_.map fun _ => some s.entries.length, .value v, []⟩
  | some i => do
    let e ← s.entries[i]?
    let (e', r) ← overwrite e (env.addr s.copies) v
    return ⟨⟨s.entries.set i e', s.copiesAfter v⟩, ref_.map fun _ => some i, r, [⟨e.type, v.type⟩]⟩

/-- The body the getters share; `dflt` has the type of the getter. -/
def get (env : Env) (s : Store) (name : List Byte) (ref_ : RefPtr) (alias_ : Option (List Byte))
    (dflt : Value) : Option Result :=
  let r := s.resolve name alias_ ref_
  let ref_ := ref_.map fun _ => r
  let setDefault := (s.set env name ref_ dflt).map fun res => { res with returned := .value dflt }
  match r with
  | none => setDefault
  | some i => do
    let e ← s.entries[i]?
    if e.type = dflt.type then
      return ⟨s, ref_, e.cell.read e.type, [⟨e.type, e.type⟩]⟩
    else setDefault

/-! ## The calls -/

section Calls

variable (env : Env) (s : Store) (name : List Byte) (ref_ : RefPtr) (alias_ : Option (List Byte))

def setInt (v : BitVec 32) : Option Result := s.set env name ref_ (.int v)
def setUint (v : BitVec 32) : Option Result := s.set env name ref_ (.uint v)
def setFloat (v : BitVec 32) : Option Result := s.set env name ref_ (.float v)
def setBool (v : Bool) : Option Result := s.set env name ref_ (.bool v)
def setCString (v : List Byte) : Option Result := s.set env name ref_ (.cstr v)
def setObj (v : BitVec 64) : Option Result := s.set env name ref_ (.obj v)
def getInt (dflt : BitVec 32) : Option Result := s.get env name ref_ alias_ (.int dflt)
def getUint (dflt : BitVec 32) : Option Result := s.get env name ref_ alias_ (.uint dflt)
def getFloat (dflt : BitVec 32) : Option Result := s.get env name ref_ alias_ (.float dflt)
def getBool (dflt : Bool) : Option Result := s.get env name ref_ alias_ (.bool dflt)
def getCString (dflt : List Byte) : Option Result := s.get env name ref_ alias_ (.cstr dflt)
def getObj (dflt : BitVec 64) : Option Result := s.get env name ref_ alias_ (.obj dflt)

end Calls

/-- `delete` of the string of an entry, for `release()`. -/
def releasable (e : Entry) : Bool :=
  match e.type, e.cell with
  | .cstr, .bits w => w = 0
  | _, _ => true

def release (s : Store) : Option (Store × List Access) :=
  if s.entries.all releasable then
    some (⟨[], s.copies⟩,
      (s.entries.filter (·.type = .cstr)).map fun _ => ⟨.cstr, .cstr⟩)
  else none

/-! ## What a call does -/

section Cases

variable {env : Env} {s : Store} {name : List Byte} {ref_ : RefPtr} {alias_ : Option (List Byte)}

/-- A store goes through the member of the value, and what it returns is that member's old value. -/
theorem overwrite_cases {e e' : Entry} {addr : BitVec 64} {v : Value} {ret : Returned}
    (h : overwrite e addr v = some (e', ret)) :
    e' = { e with cell := e.cell.write addr v, last := v.type } ∧
      (ret = e.cell.read v.type ∨ v.type = .cstr ∧ e.cell = .bits 0 ∧ ret = .value (.cstr [])) := by
  unfold overwrite at h
  dsimp only at h
  split at h
  · rename_i hcell
    simp only [Option.some.injEq, Prod.mk.injEq] at h
    obtain ⟨rfl, rfl⟩ := h
    refine ⟨by rw [hcell], .inl ?_⟩
    rw [hcell]
    rfl
  · rename_i w hcell
    split at h
    · rename_i hw
      simp only [Option.some.injEq, Prod.mk.injEq] at h
      obtain ⟨rfl, rfl⟩ := h
      exact ⟨by rw [hcell], .inr ⟨rfl, by rw [hcell, hw], rfl⟩⟩
    · cases h
  · simp only [Option.some.injEq, Prod.mk.injEq] at h
    obtain ⟨rfl, rfl⟩ := h
    exact ⟨rfl, .inl rfl⟩

/-- A setter inserts an entry, or stores into the one it resolves to. -/
theorem set_cases {v : Value} {r : Result} (h : s.set env name ref_ v = some r) :
    (s.resolve name none ref_ = none ∧
      r = ⟨⟨s.entries ++ [s.newEntry env name v], s.copiesAfter v⟩,
        ref_.map fun _ => some s.entries.length, .value v, []⟩) ∨
    ∃ i e e' ret, s.resolve name none ref_ = some i ∧ s.entries[i]? = some e ∧
      overwrite e (env.addr s.copies) v = some (e', ret) ∧
      r = ⟨⟨s.entries.set i e', s.copiesAfter v⟩, ref_.map fun _ => some i, ret,
        [⟨e.type, v.type⟩]⟩ := by
  unfold set at h
  split at h
  · rename_i hr
    exact .inl ⟨hr, (Option.some.inj h).symm⟩
  · rename_i i hr
    simp only [Option.bind_eq_bind, Option.bind_eq_some_iff, Option.pure_def,
      Option.some.injEq] at h
    obtain ⟨e, he, ⟨e', ret⟩, hw, rfl⟩ := h
    exact .inr ⟨i, e, e', ret, hr, he, hw, rfl⟩

theorem set_isSome_of_overwrite {v : Value}
    (hrange : ∀ i, ref_ = some (some i) → i < s.entries.length)
    (hw : ∀ i e, s.resolve name none ref_ = some i → s.entries[i]? = some e →
      (overwrite e (env.addr s.copies) v).isSome) : (s.set env name ref_ v).isSome := by
  unfold set
  cases hi : s.resolve name none ref_ with
  | none => rfl
  | some i =>
    have hlt : i < s.entries.length := by
      unfold resolve at hi
      split at hi
      · exact hrange i (by rw [Option.some.inj hi])
      · exact (List.findIdx?_eq_some_iff_findIdx_eq.mp hi).1
    have he : s.entries[i]? = some s.entries[i] := List.getElem?_eq_getElem hlt
    obtain ⟨r, hr⟩ := Option.isSome_iff_exists.mp (hw i _ hi he)
    simp [he, hr]

theorem overwrite_isSome {e : Entry} {addr : BitVec 64} {v : Value}
    (h : v.type = .cstr → ∃ a str, e.cell = .str a str) : (overwrite e addr v).isSome := by
  cases v with
  | cstr str =>
    obtain ⟨a, old, hcell⟩ := h rfl
    unfold overwrite
    rw [hcell]
    rfl
  | int v => rfl
  | float v => rfl
  | bool b => rfl
  | obj p => rfl
  | uint v => rfl

/-- A getter reads the entry it resolves to if the tag is its own, and is a setter otherwise. -/
theorem get_cases {dflt : Value} {r : Result} (h : s.get env name ref_ alias_ dflt = some r) :
    (∃ i e, s.resolve name alias_ ref_ = some i ∧ s.entries[i]? = some e ∧ e.type = dflt.type ∧
      r = ⟨s, ref_.map fun _ => some i, e.cell.read e.type, [⟨e.type, e.type⟩]⟩) ∨
    ∃ r', s.set env name (ref_.map fun _ => s.resolve name alias_ ref_) dflt = some r' ∧
      r = { r' with returned := .value dflt } := by
  unfold get at h
  dsimp only at h
  split at h
  · rename_i hr
    rw [hr] at h ⊢
    obtain ⟨r', hset, rfl⟩ := Option.map_eq_some_iff.mp h
    exact .inr ⟨r', hset, rfl⟩
  · rename_i i hr
    rw [hr] at h
    simp only [Option.bind_eq_bind, Option.bind_eq_some_iff] at h
    obtain ⟨e, he, h⟩ := h
    split at h
    · rename_i ht
      exact .inl ⟨i, e, hr, he, ht, (Option.some.inj h).symm⟩
    · rw [← hr] at h
      obtain ⟨r', hset, rfl⟩ := Option.map_eq_some_iff.mp h
      exact .inr ⟨r', hset, rfl⟩

theorem get_of_type {dflt : Value} {i : Nat} {e : Entry} (hi : s.resolve name alias_ ref_ = some i)
    (he : s.entries[i]? = some e) (ht : e.type = dflt.type) :
    s.get env name ref_ alias_ dflt =
      some ⟨s, ref_.map fun _ => some i, e.cell.read e.type, [⟨e.type, e.type⟩]⟩ := by
  unfold get
  dsimp only
  rw [hi]
  exact bind_eq_of_some he (if_pos ht)

end Cases

end Store

end EventServer.Config
