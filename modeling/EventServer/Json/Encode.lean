import EventServer.Json.Token

/-!
# `json_encode`

`json_append_data` with the functions it calls. Tables are references into a heap, so that
they may be shared and contain themselves. What the C library knows about a number is a
parameter. The recursion runs on what is left of `encode_max_depth`.
-/
namespace EventServer.Json

open EventServer.Lib.CString EventServer.Lib.Decimal EventServer.Stream

/-- `lua_type()`. -/
inductive LuaType where
  | nil
  | boolean
  | lightuserdata
  | number
  | string
  | table
  | function
  | userdata
  | thread
  deriving DecidableEq

/-- `lua_typename()`. -/
def LuaType.typename : LuaType → String
  | nil => "nil"
  | boolean => "boolean"
  | lightuserdata => "userdata"
  | number => "number"
  | string => "string"
  | table => "table"
  | function => "function"
  | userdata => "userdata"
  | thread => "thread"

/-- A value on the Lua stack. A light user datum is known by its address. -/
inductive Value (ν : Type) where
  | nil
  | boolean (b : Bool)
  | lightuserdata (p : Nat)
  | number (x : ν)
  | string (s : List Byte)
  | table (t : Nat)
  | function
  | userdata
  | thread
  deriving DecidableEq

variable {ν : Type}

def Value.type : Value ν → LuaType
  | nil => .nil
  | boolean _ => .boolean
  | lightuserdata _ => .lightuserdata
  | number _ => .number
  | string _ => .string
  | table _ => .table
  | function => .function
  | userdata => .userdata
  | thread => .thread

/-- The pairs of a table in the order of `lua_next()`. -/
abbrev Table (ν : Type) := List (Value ν × Value ν)

/-- `encode_invalid_numbers`. -/
inductive InvalidNumbers where
  | off
  | on
  | null
  deriving DecidableEq

structure EncodeConfig where
  sparseConvert : Bool
  sparseRatio : Int
  sparseSafe : Int
  maxDepth : Nat
  invalidNumbers : InvalidNumbers

/-- `json_create_config()`. -/
def EncodeConfig.default : EncodeConfig := ⟨false, 2, 10, 1000, .off⟩

/-- What the encoder takes from outside. -/
structure EncodeEnv (ν : Type) where
  cfg : EncodeConfig
  heap : Nat → Table ν
  isinf : ν → Bool
  isnan : ν → Bool
  /-- `fpconv_g_fmt()` with `encode_number_precision`. -/
  gfmt : ν → List Byte
  /-- `floor(k) == k && k >= 1`. -/
  whole : ν → Bool
  /-- The conversion to `int`, where it is defined. -/
  toInt : ν → Option Nat
  /-- `lua_checkstack()` for so many slots over those in use. -/
  checkstack : Nat → Nat → Bool

inductive Reason where
  | typeNotSupported
  | keyType
  | sparse
  | invalidNumber
  deriving DecidableEq

def Reason.text : Reason → String
  | typeNotSupported => "type not supported"
  | keyType => "table key must be a number or string"
  | sparse => "excessively sparse array"
  | invalidNumber => "must not be NaN or Inf"

inductive EncodeError where
  | cannotSerialise (type : LuaType) (reason : Reason)
  | excessiveNesting (depth : Nat)
  /-- A conversion to `int`, or a product of two, that is not defined. -/
  | undefined
  deriving DecidableEq

/-- The texts of `luaL_error`. -/
def EncodeError.message : EncodeError → String
  | cannotSerialise type reason => "Cannot serialise " ++ type.typename ++ ": " ++ reason.text
  | excessiveNesting depth => "Cannot serialise, excessive nesting (" ++ toString depth ++ ")"
  | undefined => ""

/-! ## Strings -/

/-- The table `char2escape`. -/
def char2escape (c : Byte) : Option (List Byte) :=
  if c = 8 then some (lit ['\\', 'b'])
  else if c = 9 then some (lit ['\\', 't'])
  else if c = 10 then some (lit ['\\', 'n'])
  else if c = 12 then some (lit ['\\', 'f'])
  else if c = 13 then some (lit ['\\', 'r'])
  else if c = chr '"' then some (lit ['\\', '"'])
  else if c = chr '/' then some (lit ['\\', '/'])
  else if c = chr '\\' then some (lit ['\\', '\\'])
  else if c.toNat < 32 ∨ c = 127 then
    let hex := lit "0123456789abcdef".toList
    some (lit ['\\', 'u', '0', '0'] ++ [hex.getD (c.toNat / 16) 0, hex.getD (c.toNat % 16) 0])
  else none

/-- What the loop of `json_append_string()` appends. -/
def escape (str : List Byte) : List Byte := str.flatMap fun c => (char2escape c).getD [c]

/-- `json_append_string()`. -/
def appendString (str : List Byte) : List Byte := chr '"' :: escape str ++ [chr '"']

/-! ## Tables -/

variable (env : EncodeEnv ν)

/-- The loop of `lua_array_length()`, with `max` and `items` so far: none where the table is no
array. -/
def arrayLengthLoop : Table ν → Nat → Nat → Except EncodeError (Option (Nat × Nat))
  | [], max, items => .ok (some (max, items))
  | (.number k, _) :: pairs, max, items =>
    if env.whole k then
      match env.toInt k with
      | none => .error .undefined
      | some n => arrayLengthLoop pairs (if n > max then n else max) (items + 1)
    else .ok none
  | _ :: _, _, _ => .ok none

/-- `lua_array_length()`. -/
def arrayLength (pairs : Table ν) : Except EncodeError Int := do
  match ← arrayLengthLoop env pairs 0 0 with
  | none => return -1
  | some (max, items) =>
    -- The overflow of `items * encode_sparse_ratio`, an `int`, comes before its comparison.
    if env.cfg.sparseRatio > 0 ∧ 2 ^ 31 ≤ items * env.cfg.sparseRatio then .error .undefined
    else if env.cfg.sparseRatio > 0 ∧ max > items * env.cfg.sparseRatio ∧
        max > env.cfg.sparseSafe then
      if env.cfg.sparseConvert then return -1
      else .error (.cannotSerialise .table .sparse)
    else return max

/-- The key of an element. -/
def EncodeEnv.isIndex (i : Nat) : Value ν → Bool
  | .number k => env.whole k && env.toInt k = some i
  | _ => false

/-- `lua_rawgeti()`. -/
def rawgeti (pairs : Table ν) (i : Nat) : Value ν :=
  ((pairs.find? fun pair => env.isIndex i pair.1).map Prod.snd).getD .nil

/-- `json_append_number()`. -/
def appendNumber (num : ν) : Except EncodeError (List Byte) :=
  match env.cfg.invalidNumbers with
  | .off =>
    if env.isinf num || env.isnan num then .error (.cannotSerialise .number .invalidNumber)
    else .ok (env.gfmt num)
  | .on => if env.isnan num then .ok (lit ['n', 'a', 'n']) else .ok (env.gfmt num)
  | .null =>
    if env.isinf num || env.isnan num then .ok (lit ['n', 'u', 'l', 'l']) else .ok (env.gfmt num)

/-- The key of a pair with its colon. -/
def appendKey : Value ν → Except EncodeError (List Byte)
  | .number k => do
    let num ← appendNumber env k
    return chr '"' :: num ++ [chr '"', chr ':']
  | .string s => .ok (appendString s ++ [chr ':'])
  | v => .error (.cannotSerialise v.type .keyType)

section Loops

variable (value : Value ν → Except EncodeError (List Byte))

/-- The elements from `i` on, `n` of them, in `json_append_array()`; `value` is
`json_append_data`. -/
def appendArrayLoop (pairs : Table ν) : Nat → Nat → Bool → Except EncodeError (List Byte)
  | 0, _, _ => .ok []
  | n + 1, i, comma => do
    let data ← value (rawgeti env pairs i)
    let more ← appendArrayLoop pairs n (i + 1) true
    return (if comma then [chr ','] else []) ++ data ++ more

/-- `json_append_array()`. -/
def appendArray (pairs : Table ν) (len : Nat) : Except EncodeError (List Byte) := do
  let data ← appendArrayLoop env value pairs len 1 false
  return chr '[' :: data ++ [chr ']']

/-- The loop of `json_append_object()`. -/
def appendObjectLoop : Table ν → Bool → Except EncodeError (List Byte)
  | [], _ => .ok []
  | (k, v) :: pairs, comma => do
    let key ← appendKey env k
    let data ← value v
    let more ← appendObjectLoop pairs true
    return (if comma then [chr ','] else []) ++ key ++ data ++ more

/-- `json_append_object()`. -/
def appendObject (pairs : Table ν) : Except EncodeError (List Byte) := do
  let data ← appendObjectLoop env value pairs false
  return chr '{' :: data ++ [chr '}']

end Loops

/-- `json_append_data()`. The first argument is what `encode_max_depth` leaves over the current
depth, the second one the number of stack slots in use. -/
def appendData : Nat → Nat → Value ν → Except EncodeError (List Byte)
  | _, _, .string s => .ok (appendString s)
  | _, _, .number x => appendNumber env x
  | _, _, .boolean b => .ok (if b then lit "true".toList else lit "false".toList)
  | 0, _, .table _ => .error (.excessiveNesting (env.cfg.maxDepth + 1))
  | room + 1, top, .table t =>
    -- `json_check_encode_depth()`.
    if env.checkstack top 3 then do
      let len ← arrayLength env (env.heap t)
      -- The value is on top of the table, or on top of the key and the table.
      if len > 0 then appendArray env (appendData room (top + 1)) (env.heap t) len.toNat
      else appendObject env (appendData room (top + 2)) (env.heap t)
    else .error (.excessiveNesting (env.cfg.maxDepth - room))
  | _, _, .nil => .ok (lit "null".toList)
  | _, _, .lightuserdata p =>
    if p = 0 then .ok (lit "null".toList)
    else .error (.cannotSerialise .lightuserdata .typeNotSupported)
  | _, _, v => .error (.cannotSerialise v.type .typeNotSupported)

/-- `json_encode()` of its one argument. -/
def encode (v : Value ν) : Except EncodeError (List Byte) := appendData env env.cfg.maxDepth 1 v

end EventServer.Json
