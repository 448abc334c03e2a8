import EventServer.Lua.Tables
import EventServer.WebSocket.Encode

/-!
# The Lua methods of `CLXZMessage`

A message as scripts see it: the archive over its memory file, and the members
of `CIArchive` and `CLXZMessage` that the registered methods read or set. A
method takes its arguments as the conversions from Lua leave them, and local
variables it does not initialise as further arguments; it returns the message
and what it pushes. `none` is undefined behaviour of the method. Left out are
`topointer`, which shows the address, and `delete`, which gives the message up.
-/
namespace EventServer.Lua

open EventServer.Lib.Blocks EventServer.Lib.CInt
open EventServer.Stream EventServer.Archive EventServer.WebSocket

/-- What a method pushes. -/
inductive LuaValue where
  | number (n : Int)
  | float (bits : BitVec 32)
  | boolean (b : Bool)
  | str (s : List Byte)
  /-- `tolua_pushusertype`; null becomes `nil`. -/
  | usertype (p : BitVec 64)
  deriving DecidableEq

/-- The members behind the archive. -/
@[ext]
structure Members where
  /-- `m_arrAddress`, of `int`. -/
  arrAddress : Fin 10 → BitVec 32
  /-- `m_nIndex`. -/
  index : Nat
  /-- `m_nExeCnt`. -/
  exeCnt : Byte
  /-- `m_pArchive`. -/
  result : BitVec 64
  /-- `m_u4Data`. -/
  data : BitVec 32
  /-- `m_u4SysData`. -/
  sysData : BitVec 32
  deriving DecidableEq

/-- The members as the constructors leave them. -/
def Members.fresh : Members := ⟨fun _ => 0, 0, 0, 0, 0, 0⟩

structure Message where
  ar : CLXZMessage
  members : Members
  deriving DecidableEq

namespace Message

/-- `new CLXZMessage()`. -/
def fresh : Message := ⟨.fresh, .fresh⟩

/-- A method that goes on with the archive and pushes nothing. -/
def withArchive (m : Message) (ar : Option CLXZMessage) : Option (Message × List LuaValue) := do
  let ar ← ar
  return ({ m with ar }, [])

/-- A method that only pushes. -/
def push (m : Message) (vs : List LuaValue) : Option (Message × List LuaValue) := some (m, vs)

/-- The C string at the start of a block. -/
def cstrOf (buf : List Byte) : Option (List Byte) := do
  let n ← CIArchive.strlen buf
  return buf.take n

/-! ## Typed fields -/

/-- `LuaMessage_Serial_int` and its like: `v` is the argument, `u` the local that is read into. -/
def typed {α : Type} (m : Message) (serial : CLXZMessage → α → Option (α × CLXZMessage))
    (toLua : α → LuaValue) (v u : α) : Option (Message × List LuaValue) := do
  let (x, ar) ← serial m.ar (if m.ar.mode = .smRead then u else v)
  return ({ m with ar }, [toLua x])

def uiboolean (m : Message) (v u : BitVec 32) : Option (Message × List LuaValue) :=
  m.typed CIArchive.serialUiboolean (fun x => .number x.toInt) v u

def bool (m : Message) (v u : Bool) : Option (Message × List LuaValue) :=
  m.typed CIArchive.serialBool .boolean v u

def int (m : Message) (v u : BitVec 32) : Option (Message × List LuaValue) :=
  m.typed CIArchive.serialInt (fun x => .number x.toInt) v u

def sint8 (m : Message) (v u : Byte) : Option (Message × List LuaValue) :=
  m.typed CIArchive.serialSint8 (fun x => .number x.toInt) v u

def uint8 (m : Message) (v u : Byte) : Option (Message × List LuaValue) :=
  m.typed CIArchive.serialUint8 (fun x => .number x.toNat) v u

def sint16 (m : Message) (v u : BitVec 16) : Option (Message × List LuaValue) :=
  m.typed CIArchive.serialSint16 (fun x => .number x.toInt) v u

def uint16 (m : Message) (v u : BitVec 16) : Option (Message × List LuaValue) :=
  m.typed CIArchive.serialUint16 (fun x => .number x.toNat) v u

/-- The number is cast to `int` before it is pushed. -/
def uint32 (m : Message) (v u : BitVec 32) : Option (Message × List LuaValue) :=
  m.typed CIArchive.serialUint32 (fun x => .number x.toInt) v u

/-- `fl` is the union inside `Serial(float&)`. -/
def float (m : Message) (fl : BitVec 64) (v u : BitVec 32) : Option (Message × List LuaValue) :=
  m.typed (fun ar x => ar.serialFloat fl x) .float v u

/-- `LuaMessage_Serial_uint64` and `LuaMessage_Serial_int64`: `v` is `atoll` of the argument, `fmt`
what `sprintf` makes of the number. The text and its terminator go to `buf[64]`. -/
def serial64 (m : Message) (fmt : BitVec 64 → List Byte) (v u : BitVec 64) :
    Option (Message × List LuaValue) :=
  match m.ar.mode with
  | .smWrite => do
    let (_, ar) ← m.ar.serialUint64 v
    return ({ m with ar }, [])
  | .smRead => do
    let (x, ar) ← m.ar.serialUint64 u
    if (fmt x).length < 64 then return ({ m with ar }, [.str (fmt x)]) else none

/-! ## Strings -/

/-- `v` is the Lua string, `u` the local `len`. A negative length is no size of an array. -/
def string (m : Message) (v : List Byte) (u : BitVec 32) : Option (Message × List LuaValue) :=
  match m.ar.mode with
  | .smWrite => do
    let buf ← cstrOf (v ++ [0])
    let len ← CIMemFile.copyLen (toInt32 buf.length)
    let (_, ar) ← m.ar.serialInt (BitVec.ofNat 32 len)
    let (_, ar) ← ar.serialBlock (buf ++ [0]) len len
    return ({ m with ar }, [])
  | .smRead => do
    let (len, ar) ← m.ar.serialInt u
    let n ← CIMemFile.copyLen len.toInt
    let size ← addInt n 1
    let (buf, ar) ← ar.serialBlock (List.replicate size.toNat 0) n n
    let s ← cstrOf buf
    return ({ m with ar }, [.str s])

/-- `v` is the Lua string, `type` the kind of the length, `u8` and `u16` the locals. -/
def lstring (m : Message) (v : List Byte) (type : BitVec 32) (u8 : Byte) (u16 : BitVec 16) :
    Option (Message × List LuaValue) :=
  match m.ar.mode with
  | .smWrite => do
    let (len, ar) ←
      if type = 1 then
        (m.ar.serialUint8 (BitVec.ofNat 8 v.length)).map fun r => (toInt32 v.length, r.2)
      else if type = 2 then
        (m.ar.serialUint16 (BitVec.ofNat 16 v.length)).map fun r => (toInt32 v.length, r.2)
      else some (type.toInt, m.ar)
    let (_, ar) ← ar.serialBuf (v ++ [0]) len
    return ({ m with ar }, [])
  | .smRead => do
    let (len, ar) ←
      if type = 1 then (m.ar.serialUint8 u8).map fun r => ((r.1.toNat : Int), r.2)
      else if type = 2 then (m.ar.serialUint16 u16).map fun r => ((r.1.toNat : Int), r.2)
      else some (type.toInt, m.ar)
    let n ← CIMemFile.copyLen len
    let size ← addInt n 1
    let (buf, ar) ← ar.serialBuf (List.replicate size.toNat 0) n
    return ({ m with ar }, [.str (buf.take n)])

/-- `u` is the local `buf[256]`. -/
def cstring (m : Message) (v : List Byte) (u : Fin 256 → Byte) :
    Option (Message × List LuaValue) :=
  match m.ar.mode with
  | .smWrite => do
    let s ← cstrOf (v ++ [0])
    let len := toInt32 s.length
    let (_, ar) ← m.ar.serialStr (v ++ [0]) (if 255 < len then 255 else len)
    return ({ m with ar }, [])
  | .smRead => do
    let (buf, ar) ← m.ar.serialStr (List.ofFn u) 255
    let s ← cstrOf buf
    return ({ m with ar }, [.str s])

def cstring_len (m : Message) (v : List Byte) (size : Nat) : Option (Message × List LuaValue) :=
  match m.ar.mode with
  | .smWrite => do
    let buf ← blit (List.replicate size 0) 0 (v.take size)
    let (_, ar) ← m.ar.serialBuf buf (toInt32 size)
    return ({ m with ar }, [])
  | .smRead => do
    let (buf, ar) ← m.ar.serialBuf (List.replicate (size + 1) 0) (toInt32 size)
    let s ← cstrOf buf
    return ({ m with ar }, [.str s])

/-- `LuaMessage_Serial_Write`; `len` is the third argument, when it is a number. -/
def write (m : Message) (v : List Byte) (len : Option (BitVec 32)) :
    Option (Message × List LuaValue) :=
  match m.ar.mode with
  | .smWrite => m.withArchive (m.ar.write (v ++ [0]) ((len.map BitVec.toInt).getD (toInt32 v.length)))
  | .smRead => some (m, [])

/-- `u` is the local of `SerialPtr` that is read into. -/
def ptr (m : Message) (name : List Byte) (pObj u : BitVec 64) : Option (Message × List LuaValue) := do
  let name ← cstrOf (name ++ [0])
  let (p, ar) ← m.ar.serialPtrNamed u (if m.ar.mode = .smRead then 0 else pObj) name
  return ({ m with ar }, [.usertype p])

/-! ## The other members -/

def pushAddress (m : Message) : Option (Message × List LuaValue) :=
  if h : m.members.index < 10 then
    match m.ar.mode with
    | .smWrite => do
      let pos ← m.ar.getPos
      return ({ m with members := { m.members with
        arrAddress := Function.update m.members.arrAddress ⟨m.members.index, h⟩ (BitVec.ofNat 32 pos)
        index := m.members.index + 1 } }, [])
    | .smRead => some (m, [])
  else some (m, [])

def resetAddress (m : Message) : Option (Message × List LuaValue) :=
  some ({ m with members := { m.members with index := 0 } }, [])

/-- An index outside the array is only logged. -/
def setIndexPos (m : Message) (index : BitVec 32) : Option (Message × List LuaValue) :=
  if h : index.toNat < 10 then
    m.withArchive (m.ar.setPos (toSizeT (m.members.arrAddress ⟨index.toNat, h⟩).toInt))
  else some (m, [])

def setData (m : Message) (d : BitVec 32) : Option (Message × List LuaValue) :=
  some ({ m with members := { m.members with data := d } }, [])

def setResult (m : Message) (p : BitVec 64) : Option (Message × List LuaValue) :=
  some ({ m with members := { m.members with result := p } }, [])

/-! ## The content -/

/-- `n` bytes from `getMsgPtr() + pos` on. -/
def bytesAt (m : Message) (pos n : Nat) : Option (List Byte) := do
  let blk ← m.ar.stream.fastBuf.buf
  slice blk pos n

def getMsgPtr (m : Message) : Option (Message × List LuaValue) := do
  let n ← CIMemFile.copyLen m.ar.getMsgSize
  let bytes ← m.bytesAt 0 n
  return (m, [.str bytes])

/-- `LuaMessage_CRC16`: the length becomes an `unsigned short`. -/
def crc16 (m : Message) ( from_ len : BitVec 32) : Option (Message × List LuaValue) := do
  let bytes ← m.bytesAt from_.toNat (len.toNat % 65536)
  return (m, [.number (Lua.crc16 bytes).toNat])

def mapKind (m : Message) ( from_ len : BitVec 32) (mode : Bool) :
    Option (Message × List LuaValue) := do
  let bytes ← m.bytesAt from_.toNat len.toNat
  let fb ← m.ar.stream.fastBuf.poke from_.toNat (bytes.map (byteMap mode))
  return ({ m with ar := { m.ar with stream := { m.ar.stream with fastBuf := fb } } }, [])

/-- `%02x`. -/
def hexByte (b : Byte) : List Byte :=
  let digit := fun n : Nat => BitVec.ofNat 8 (if n < 10 then 48 + n else 87 + n)
  [digit (b.toNat / 16), digit (b.toNat % 16)]

def tohex (m : Message) : Option (Message × List LuaValue) := do
  let n ← CIMemFile.copyLen m.ar.getMsgSize
  let twice ← addInt n n
  let _ ← addInt twice 1
  let bytes ← m.bytesAt 0 n
  return (m, [.str (bytes.flatMap hexByte)])

def releaseMemory (m : Message) : Message :=
  { m with ar := { m.ar with stream := m.ar.stream.release } }

def grown (m : Message) (size : Nat) : Option (Message × List LuaValue) := do
  let f ← m.ar.stream.grown size
  return ({ m with ar := { m.ar with stream := f } }, [])

/-- `LuaMessage_bitop`; with another operator the last argument is what is returned. -/
def bitop (m : Message) (src mask : Byte) (op : List Byte) : Option (Message × List LuaValue) :=
  match (op ++ [0]).head? with
  | some 94 => m.push [.number (src ^^^ mask).toNat]
  | some 38 => m.push [.number (src &&& mask).toNat]
  | some 126 => m.push [.number (~~~src).toNat]
  | some 124 => m.push [.number (src ||| mask).toNat]
  | _ => m.push [.str op]

def setWebSocketFrame (m : Message) (frameType : Byte) (s : List Byte) :
    Option (Message × List LuaValue) :=
  m.withArchive ((WebSocket.setWebSocketFrame m.ar frameType (s ++ [0]) (toInt32 s.length)).map
    Prod.snd)

def getWebSocketFrame (m : Message) (s : List Byte) : Option (Message × List LuaValue) := do
  let d ← luaGetWebSocketFrame m.ar s
  return ({ m with ar := d.msg }, [.number d.type.toNat, .number d.outLen])

end Message

/-! ## Calls -/

/-- A call of a registered method. -/
inductive LuaOp where
  | uiboolean (v u : BitVec 32)
  | bool (v u : Bool)
  | int (v u : BitVec 32)
  | sint8 (v u : Byte)
  | uint8 (v u : Byte)
  | sint16 (v u : BitVec 16)
  | uint16 (v u : BitVec 16)
  | uint32 (v u : BitVec 32)
  | uint64 (v u : BitVec 64)
  | int64 (v u : BitVec 64)
  | float (fl : BitVec 64) (v u : BitVec 32)
  | string (v : List Byte) (u : BitVec 32)
  | lstring (v : List Byte) (type : BitVec 32) (u8 : Byte) (u16 : BitVec 16)
  | cstring (v : List Byte) (u : Fin 256 → Byte)
  | cstring_len (v : List Byte) (size : Nat)
  | getMode
  | setMode (mode : BitVec 32)
  | write (v : List Byte) (len : Option (BitVec 32))
  | ptr (name : List Byte) (pObj u : BitVec 64)
  | setLittleEndian (mode : Bool)
  | pushAddress
  | resetAddress
  | getSystemData
  | getData
  | setData (d : BitVec 32)
  | getMsgPtr
  | getMsgSize
  | getMsgPos
  | setMsgPos (pos : BitVec 32)
  | crc16 ( from_ len : BitVec 32)
  | getResult
  | getIndex
  | setIndexPos (index : BitVec 32)
  | setResult (p : BitVec 64)
  | getExecuteCount
  | releaseMemory
  | removeHeadBuffer (size : Nat)
  | mapKind ( from_ len : BitVec 32) (mode : Bool)
  | bitop (src mask : Byte) (op : List Byte)
  | setWebSocketFrame (frameType : Byte) (s : List Byte)
  | getWebSocketFrame (s : List Byte)
  | grown (size : Nat)
  | tohex

/-- What `sprintf` makes of a 64-bit number under the formats of `uint64` and `int64`. -/
structure Formats where
  i64u : BitVec 64 → List Byte
  i64d : BitVec 64 → List Byte

/-- One call: the message after it, and what is pushed. -/
def Message.call (fmt : Formats) (m : Message) : LuaOp → Option (Message × List LuaValue)
  | .uiboolean v u => m.uiboolean v u
  | .bool v u => m.bool v u
  | .int v u => m.int v u
  | .sint8 v u => m.sint8 v u
  | .uint8 v u => m.uint8 v u
  | .sint16 v u => m.sint16 v u
  | .uint16 v u => m.uint16 v u
  | .uint32 v u => m.uint32 v u
  | .uint64 v u => m.serial64 fmt.i64u v u
  | .int64 v u => m.serial64 fmt.i64d v u
  | .float fl v u => m.float fl v u
  | .string v u => m.string v u
  | .lstring v type u8 u16 => m.lstring v type u8 u16
  | .cstring v u => m.cstring v u
  | .cstring_len v size => m.cstring_len v size
  | .getMode => m.push [.number m.ar.getMode]
  | .setMode mode => m.withArchive (m.ar.setMode mode.toInt)
  | .write v len => m.write v len
  | .ptr name pObj u => m.ptr name pObj u
  | .setLittleEndian mode => m.withArchive (m.ar.setLittleEndian mode)
  | .pushAddress => m.pushAddress
  | .resetAddress => m.resetAddress
  | .getSystemData => m.push [.number m.members.sysData.toNat]
  | .getData => m.push [.number m.members.data.toNat]
  | .setData d => m.setData d
  | .getMsgPtr => m.getMsgPtr
  | .getMsgSize => m.push [.number m.ar.getMsgSize]
  | .getMsgPos => do
    let pos ← m.ar.getPos
    m.push [.number pos]
  | .setMsgPos pos => m.withArchive (m.ar.setPos pos.toNat)
  | .crc16 from_ len => m.crc16 from_ len
  | .getResult => m.push [.usertype m.members.result]
  | .getIndex => m.push [.number m.members.index]
  | .setIndexPos index => m.setIndexPos index
  | .setResult p => m.setResult p
  | .getExecuteCount => m.push [.number m.members.exeCnt.toNat]
  | .releaseMemory => some (m.releaseMemory, [])
  | .removeHeadBuffer size => m.withArchive (m.ar.removeHeadBuffer size)
  | .mapKind from_ len mode => m.mapKind from_ len mode
  | .bitop src mask op => m.bitop src mask op
  | .setWebSocketFrame frameType s => m.setWebSocketFrame frameType s
  | .getWebSocketFrame s => m.getWebSocketFrame s
  | .grown size => m.grown size
  | .tohex => m.tohex

end EventServer.Lua
