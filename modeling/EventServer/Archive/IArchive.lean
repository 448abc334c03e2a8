import EventServer.Archive.Swap
import EventServer.Stream.IMemFile

/-!
# The archive

A `CIArchive` reads or writes typed fields through the stream that `m_pISerial`
points to. For a `CLXZMessage` this is its own memory file, attached by the first
`setMode`; before that every access goes through a null pointer (`none`). The
host is little-endian LP64. Every typed function takes the variable it is given
and returns what it leaves in it; variables the source does not initialise are
arguments.
-/
namespace EventServer.Archive

open EventServer.Lib.Blocks EventServer.Lib.CInt EventServer.Lib.ByteOrder EventServer.Stream

inductive SerialMode where
  | smWrite
  | smRead
  deriving DecidableEq

def SerialMode.toInt : SerialMode → Int
  | .smWrite => 0
  | .smRead => 1

/-- Every number but that of `SM_READ` selects writing. -/
def SerialMode.ofInt (nMode : Int) : SerialMode := if nMode = 1 then .smRead else .smWrite

@[simp] theorem SerialMode.ofInt_toInt (m : SerialMode) : SerialMode.ofInt m.toInt = m := by
  cases m <;> rfl

structure CIArchive where
  stream : CIMemFile
  attached : Bool
  mode : SerialMode
  swapped : Bool
  deriving DecidableEq

/-- A message is the archive over its own memory file. -/
abbrev CLXZMessage := CIArchive

namespace CIArchive

/-- The constructor: reading, nothing attached, no swapping. -/
def fresh : CIArchive := ⟨.fresh, false, .smRead, false⟩

/-- `SetLittleEndian()` on a little-endian host. -/
def setLittleEndian (ar : CIArchive) (isLittleEndian : Bool) : CIArchive :=
  { ar with swapped := !isLittleEndian }

def shortSwapFn (ar : CIArchive) : BitVec 16 → BitVec 16 :=
  if ar.swapped then shortSwap else shortNoSwap

def longSwapFn (ar : CIArchive) : BitVec 32 → BitVec 32 :=
  if ar.swapped then longSwap else longNoSwap

def longLongSwapFn (ar : CIArchive) : BitVec 64 → BitVec 64 :=
  if ar.swapped then longLongSwap else longLongNotSwap

/-- `CLXZMessage::setMode()`, that is `Initial(&m_IMemStream, nMode)`. -/
def setMode (ar : CIArchive) (nMode : Int) : CIArchive :=
  { ar with stream := ar.stream.setPos 0, attached := true, mode := .ofInt nMode }

def getMode (ar : CIArchive) : Int := ar.mode.toInt

def setPos (ar : CIArchive) (pos : Nat) : Option CIArchive :=
  if ar.attached then some { ar with stream := ar.stream.setPos pos } else none

def getPos (ar : CIArchive) : Option Nat := if ar.attached then some ar.stream.curPos else none

def getMsgSize (ar : CIArchive) : Int := ar.stream.getValidCount

def removeHeadBuffer (ar : CIArchive) (size : Nat) : Option CIArchive := do
  let f ← ar.stream.removeHeadBuffer size
  return { ar with stream := f }

/-- `(m_pISerial->*m_SerialFunc)(p, n)` while reading. -/
def streamRead (ar : CIArchive) (n : Int) : Option (Int × List Byte × CIArchive) :=
  if ar.attached then do
    let (ret, bytes, f) ← ar.stream.read n
    return (ret, bytes, { ar with stream := f })
  else none

/-- `(m_pISerial->*m_SerialFunc)(p, n)` while writing; no caller looks at the result. -/
def streamWrite (ar : CIArchive) (pBuf : List Byte) (n : Int) : Option CIArchive :=
  if ar.attached then do
    let (_, f) ← ar.stream.write pBuf n
    return { ar with stream := f }
  else none

/-- The integer overloads of `Serial`. Reading stores the swapped number if the
read returned a positive count. Writing calls the swap routine too, but drops
its result and writes the number as it is. -/
def serialWord {w : Nat} (ar : CIArchive) (swap : BitVec w → BitVec w) (l : BitVec w) :
    Option (BitVec w × CIArchive) :=
  match ar.mode with
  | .smRead => do
    let (ret, v, ar) ← ar.streamRead (w / 8 : Nat)
    return (if 0 < ret then swap (fromLe w v) else l, ar)
  | .smWrite => do
    let ar ← ar.streamWrite (leBytes (w / 8) l.toNat) (w / 8 : Nat)
    return (l, ar)

def serialInt (ar : CIArchive) (l : BitVec 32) : Option (BitVec 32 × CIArchive) :=
  ar.serialWord ar.longSwapFn l

/-- `Serial(long&)`: the swap routine is the one for `int`, through conversions. -/
def serialLong (ar : CIArchive) (l : BitVec 64) : Option (BitVec 64 × CIArchive) :=
  ar.serialWord (fun v => (ar.longSwapFn (v.setWidth 32)).signExtend 64) l

def serialSint16 (ar : CIArchive) (l : BitVec 16) : Option (BitVec 16 × CIArchive) :=
  ar.serialWord ar.shortSwapFn l

/-- `Serial(LXZuint16&)`, through a `short` of the same pattern. -/
def serialUint16 (ar : CIArchive) (l : BitVec 16) : Option (BitVec 16 × CIArchive) :=
  ar.serialWord ar.shortSwapFn l

def serialUint32 (ar : CIArchive) (l : BitVec 32) : Option (BitVec 32 × CIArchive) :=
  ar.serialWord ar.longSwapFn l

def serialUint64 (ar : CIArchive) (l : BitVec 64) : Option (BitVec 64 × CIArchive) :=
  ar.serialWord ar.longLongSwapFn l

/-- `Serial(uiboolean&)`: an `int` on the wire; reading maps all but one to `uifalse`. -/
def serialUiboolean (ar : CIArchive) (l : BitVec 32) : Option (BitVec 32 × CIArchive) :=
  match ar.mode with
  | .smRead => do
    let (ret, v, ar') ← ar.streamRead 4
    return (if 0 < ret then (if ar.longSwapFn (fromLe 32 v) = 1 then 1 else 0) else l, ar')
  | .smWrite => do
    let ar ← ar.streamWrite (leBytes 4 l.toNat) 4
    return (l, ar)

def serialBool (ar : CIArchive) (l : Bool) : Option (Bool × CIArchive) :=
  match ar.mode with
  | .smRead => do
    let (ret, v, ar') ← ar.streamRead 4
    return (if 0 < ret then decide (ar.longSwapFn (fromLe 32 v) = 1) else l, ar')
  | .smWrite => do
    let ar ← ar.streamWrite (leBytes 4 (if l then 1 else 0)) 4
    return (l, ar)

/-- `Serial(float&)` on bit patterns. The union `fl` of a `float` and a `long` is
not initialised; a read fills its low half and the swap takes it as an `int`. -/
def serialFloat (ar : CIArchive) (fl : BitVec 64) (l : BitVec 32) :
    Option (BitVec 32 × CIArchive) :=
  match ar.mode with
  | .smRead => do
    let (ret, v, ar') ← ar.streamRead 4
    let fl := if 0 < ret then fl.extractLsb' 32 32 ++ fromLe 32 v else fl
    let fl : BitVec 64 := (ar.longSwapFn (fl.setWidth 32)).signExtend 64
    return (if 0 < ret then fl.setWidth 32 else l, ar')
  | .smWrite => do
    let ar ← ar.streamWrite (leBytes 4 l.toNat) 4
    return (l, ar)

/-- `Serial(LXZsint8&)` and `Serial(LXZuint8&)`: one byte straight from or to the variable. -/
def serialByte (ar : CIArchive) (l : Byte) : Option (Byte × CIArchive) :=
  match ar.mode with
  | .smRead => do
    let (_, v, ar) ← ar.streamRead 1
    return (v.headD l, ar)
  | .smWrite => do
    let ar ← ar.streamWrite [l] 1
    return (l, ar)

def serialSint8 (ar : CIArchive) (l : Byte) : Option (Byte × CIArchive) := ar.serialByte l

def serialUint8 (ar : CIArchive) (l : Byte) : Option (Byte × CIArchive) := ar.serialByte l

def serialBuf (ar : CIArchive) (str : List Byte) (len : Int) : Option (List Byte × CIArchive) :=
  match ar.mode with
  | .smRead => do
    let (_, bytes, ar) ← ar.streamRead len
    let str ← blit str 0 bytes
    return (str, ar)
  | .smWrite => do
    let ar ← ar.streamWrite str len
    return (str, ar)

/-- `Serial(char* str, int len, int nMaxBuf)`: a block with its length in front. -/
def serialBlock (ar : CIArchive) (str : List Byte) (len nMaxBuf : Int) :
    Option (List Byte × CIArchive) :=
  match ar.mode with
  | .smRead => do
    let str ← blit str 0 (List.replicate nMaxBuf.toNat 0)
    let (l, ar) ← ar.serialInt 0
    if l.toInt ≤ nMaxBuf then ar.serialBuf str l.toInt else return (str, ar)
  | .smWrite => do
    let (_, ar) ← ar.serialInt (BitVec.ofInt 32 len)
    let ar ← ar.streamWrite str len
    return (str, ar)

/-- `strlen()`: undefined without a terminator in the block. -/
def strlen (str : List Byte) : Option Nat :=
  if 0 ∈ str then some (str.takeWhile (· ≠ 0)).length else none

/-- `SerialStr()`: the terminator is written even when the bytes were not read. -/
def serialStr (ar : CIArchive) (str : List Byte) (len : Int) : Option (List Byte × CIArchive) :=
  match ar.mode with
  | .smRead => do
    let (l, ar) ← ar.serialInt 0
    let (str, ar) ← if l.toInt < len then ar.serialBuf str l.toInt else some (str, ar)
    let i ← CIMemFile.copyLen l.toInt
    let str ← blit str i [0]
    return (str, ar)
  | .smWrite => do
    let len ← strlen str
    let (_, ar) ← ar.serialInt (BitVec.ofNat 32 len)
    let ar ← ar.streamWrite str (toInt32 len)
    return (str, ar)

/-- `SerialPtr(void*&)`; the `v` that is read into is not initialised. -/
def serialPtr (ar : CIArchive) (v ptr : BitVec 64) : Option (BitVec 64 × CIArchive) :=
  match ar.mode with
  | .smRead => ar.serialUint64 v
  | .smWrite => ar.serialUint64 ptr

/-- `SerialPtr(void*&, const char*)` with a name of `name.length` characters. -/
def serialPtrNamed (ar : CIArchive) (v ptr : BitVec 64) (name : List Byte) :
    Option (BitVec 64 × CIArchive) :=
  match ar.mode with
  | .smRead => do
    let (buf, ar) ← ar.serialBlock (List.replicate 32 0) 32 32
    let (v, ar) ← ar.serialUint64 v
    if name.length < 32 then
      return (if buf.take (name.length + 1) = name ++ [0] then v else 0, ar)
    else
      return (v, ar)
  | .smWrite => do
    let ar ← if name.length < 32 then
        (ar.serialBlock (splice (List.replicate 32 0) 0 name) 32 32).map Prod.snd
      else some ar
    ar.serialUint64 ptr

/-- `CIArchive::Write()`: nothing happens while reading. -/
def write (ar : CIArchive) (buf : List Byte) (len : Int) : Option CIArchive :=
  match ar.mode with
  | .smRead => some ar
  | .smWrite => ar.streamWrite buf len

def content (ar : CIArchive) : List Byte := ar.stream.content

/-- A message on which `setMode` has been called, over a well-formed file. -/
structure Ready (ar : CIArchive) : Prop where
  attached : ar.attached = true
  wf : ar.stream.Wf

def remaining (ar : CIArchive) : List Byte := ar.content.drop ar.stream.curPos

def AtEnd (ar : CIArchive) : Prop := ar.stream.curPos = ar.content.length

/-- At most the cursor and the error code changed. -/
structure Moved (ar ar' : CIArchive) : Prop where
  ready : ar'.Ready
  fastBuf : ar'.stream.fastBuf = ar.stream.fastBuf
  mode : ar'.mode = ar.mode
  swapped : ar'.swapped = ar.swapped

/-- `n` bytes were read and `rest` is still ahead. -/
structure Consumed (ar : CIArchive) (n : Nat) (rest : List Byte) (ar' : CIArchive) : Prop where
  moved : Moved ar ar'
  remaining : ar'.remaining = rest
  pos : ar'.stream.curPos = ar.stream.curPos + n
  errorCode : ar'.stream.errorCode = ar.stream.errorCode

/-- `bytes` were written at the cursor. -/
structure Wrote (ar : CIArchive) (bytes : List Byte) (ar' : CIArchive) : Prop where
  ready : ar'.Ready
  content : ar'.content = splice ar.content ar.stream.curPos bytes
  pos : ar'.stream.curPos = ar.stream.curPos + bytes.length
  errorCode : ar'.stream.errorCode = ar.stream.errorCode
  mode : ar'.mode = ar.mode
  swapped : ar'.swapped = ar.swapped

theorem ready_setMode {ar : CIArchive} (h : ar.stream.Wf) (nMode : Int) : (ar.setMode nMode).Ready :=
  ⟨rfl, CIMemFile.wf_setPos h 0⟩

@[simp] theorem content_setMode (ar : CIArchive) (nMode : Int) :
    (ar.setMode nMode).content = ar.content := CIMemFile.setPos_content _ _

@[simp] theorem curPos_setMode (ar : CIArchive) (nMode : Int) :
    (ar.setMode nMode).stream.curPos = 0 := by
  simp [setMode, CIMemFile.setPos]

@[simp] theorem mode_setMode (ar : CIArchive) (nMode : Int) :
    (ar.setMode nMode).mode = .ofInt nMode := rfl

@[simp] theorem swapped_setMode (ar : CIArchive) (nMode : Int) :
    (ar.setMode nMode).swapped = ar.swapped := rfl

@[simp] theorem errorCode_setMode (ar : CIArchive) (nMode : Int) :
    (ar.setMode nMode).stream.errorCode = ar.stream.errorCode := CIMemFile.setPos_errorCode _ _

theorem ready_fresh (nMode : Int) : (fresh.setMode nMode).Ready := ready_setMode CIMemFile.wf_fresh nMode

theorem content_fresh (nMode : Int) : (fresh.setMode nMode).content = [] := content_setMode _ _

theorem atEnd_fresh (nMode : Int) : (fresh.setMode nMode).AtEnd := by
  rw [AtEnd, content_fresh, curPos_setMode, List.length_nil]

theorem Ready.getPos {ar : CIArchive} (h : ar.Ready) : ar.getPos = some ar.stream.curPos :=
  if_pos h.attached

theorem Ready.content_length {ar : CIArchive} (h : ar.Ready) :
    ar.content.length = ar.stream.fastBuf.cpLen := h.wf.content_length

theorem Ready.pos_le {ar : CIArchive} (h : ar.Ready) : ar.stream.curPos ≤ ar.content.length :=
  h.wf.pos_le

theorem Ready.atEnd_of_empty {ar : CIArchive} (h : ar.Ready) (hc : ar.content = []) : ar.AtEnd := by
  have hpos := h.pos_le
  rw [hc, List.length_nil] at hpos
  rw [AtEnd, hc, List.length_nil]
  omega

theorem Moved.refl {ar : CIArchive} (h : ar.Ready) : Moved ar ar := ⟨h, rfl, rfl, rfl⟩

theorem Moved.trans {a b c : CIArchive} (hab : Moved a b) (hbc : Moved b c) : Moved a c :=
  ⟨hbc.ready, hbc.fastBuf.trans hab.fastBuf, hbc.mode.trans hab.mode,
    hbc.swapped.trans hab.swapped⟩

theorem Moved.content {ar ar' : CIArchive} (h : Moved ar ar') : ar'.content = ar.content := by
  unfold CIArchive.content CIMemFile.content
  rw [h.fastBuf]

theorem setPos_spec {ar : CIArchive} (h : ar.Ready) (pos : Nat) :
    ∃ ar', ar.setPos pos = some ar' ∧ Moved ar ar' ∧
      ar'.stream.errorCode = ar.stream.errorCode ∧
      ar'.stream.curPos = if pos ≤ ar.content.length then pos else ar.stream.curPos := by
  refine ⟨_, if_pos h.attached, ⟨⟨h.attached, CIMemFile.wf_setPos h.wf pos⟩,
    CIMemFile.setPos_fastBuf _ _, rfl, rfl⟩, CIMemFile.setPos_errorCode _ _, ?_⟩
  rw [h.content_length]
  exact CIMemFile.setPos_curPos _ _

theorem Consumed.trans {a b c : CIArchive} {m n : Nat} {r r' : List Byte}
    (hab : Consumed a m r b) (hbc : Consumed b n r' c) : Consumed a (m + n) r' c :=
  ⟨hab.moved.trans hbc.moved, hbc.remaining, by rw [hbc.pos, hab.pos, Nat.add_assoc],
    hbc.errorCode.trans hab.errorCode⟩

theorem Wrote.append {ar ar' : CIArchive} {bytes : List Byte} (h : Wrote ar bytes ar')
    (he : ar.AtEnd) : ar'.content = ar.content ++ bytes ∧ ar'.AtEnd := by
  have hc := h.content
  rw [he, splice_at_end] at hc
  exact ⟨hc, by rw [AtEnd, h.pos, hc, he, List.length_append]⟩

theorem Wrote.trans {a b c : CIArchive} {x y : List Byte} (ha : a.Ready) (hab : Wrote a x b)
    (hbc : Wrote b y c) : Wrote a (x ++ y) c := by
  refine ⟨hbc.ready, ?_, ?_, hbc.errorCode.trans hab.errorCode, hbc.mode.trans hab.mode,
    hbc.swapped.trans hab.swapped⟩
  · rw [hbc.content, hab.content, hab.pos, splice_splice ha.pos_le]
  · rw [hbc.pos, hab.pos, List.length_append, Nat.add_assoc]

/-- `setMode(SM_READ)` and `setPos(pos)`. -/
def readFrom (ar : CIArchive) (pos : Nat) : Option CIArchive :=
  (ar.setMode SerialMode.smRead.toInt).setPos pos

/-- What was written can be read from where it was written. -/
theorem Wrote.readFrom {ar ar' : CIArchive} {bytes : List Byte} (h : ar.Ready)
    (hw : Wrote ar bytes ar') : ∃ r, ar'.readFrom ar.stream.curPos = some r ∧ r.Ready ∧
      r.mode = .smRead ∧ r.swapped = ar.swapped ∧ r.stream.curPos = ar.stream.curPos ∧
      r.remaining = bytes ++ ar.content.drop (ar.stream.curPos + bytes.length) := by
  have hle : ar.stream.curPos ≤ ar'.content.length := by
    have hend := hw.ready.pos_le
    rw [hw.pos] at hend
    omega
  obtain ⟨r, he, hmv, -, hpos⟩ := setPos_spec (ready_setMode hw.ready.wf SerialMode.smRead.toInt)
    ar.stream.curPos
  rw [content_setMode, if_pos hle] at hpos
  refine ⟨r, he, hmv.ready, hmv.mode, hmv.swapped.trans hw.swapped, hpos, ?_⟩
  have htake : (ar.content.take ar.stream.curPos).length = ar.stream.curPos :=
    List.length_take_of_le h.pos_le
  rw [remaining, hpos, hmv.content, content_setMode, hw.content, splice, List.append_assoc,
    List.drop_left' htake]

theorem streamRead_moved {ar ar' : CIArchive} (h : ar.Ready) {n ret : Int} {bytes : List Byte}
    (he : ar.streamRead n = some (ret, bytes, ar')) : Moved ar ar' := by
  simp only [streamRead, h.attached, ↓reduceIte, Option.bind_eq_bind, Option.bind_eq_some_iff,
    Option.pure_def, Option.some.injEq] at he
  obtain ⟨⟨r, b, f⟩, hread, heq⟩ := he
  obtain ⟨rfl, rfl, rfl⟩ : r = ret ∧ b = bytes ∧ { ar with stream := f, attached := true } = ar' := by
    simpa using heq
  unfold CIMemFile.read at hread
  split at hread
  · rename_i hle
    simp only [Option.bind_eq_bind, Option.bind_eq_some_iff, Option.pure_def, Option.some.injEq,
      Prod.mk.injEq] at hread
    obtain ⟨-, -, -, -, -, -, -, -, rfl⟩ := hread
    exact ⟨⟨rfl, h.wf.fastBuf, hle⟩, rfl, rfl, rfl⟩
  · obtain ⟨-, -, rfl⟩ : -1 = r ∧ [] = b ∧ { ar.stream with errorCode := .errRead } = f := by
      simpa using hread
    exact ⟨⟨rfl, h.wf.fastBuf, h.wf.pos⟩, rfl, rfl, rfl⟩

theorem streamRead_ahead {ar : CIArchive} (h : ar.Ready) {bytes rest : List Byte}
    (hr : ar.remaining = bytes ++ rest) :
    ∃ ar', ar.streamRead bytes.length = some (toInt32 bytes.length, bytes, ar') ∧
      Consumed ar bytes.length rest ar' := by
  have hpos := h.pos_le
  have hlen : ar.content.length - ar.stream.curPos = bytes.length + rest.length := by
    rw [← List.length_drop, ← List.length_append, ← hr]
    rfl
  have hfit : ar.stream.curPos + bytes.length ≤ ar.stream.content.length := by
    change _ ≤ ar.content.length
    omega
  have hread := CIMemFile.read_spec h.wf bytes.length
  rw [if_pos hfit] at hread
  have hb : (ar.stream.content.drop ar.stream.curPos).take bytes.length = bytes := by
    change ar.remaining.take bytes.length = bytes
    rw [hr, List.take_left]
  rw [hb] at hread
  refine ⟨{ ar with stream := { ar.stream with curPos := ar.stream.curPos + bytes.length } }, ?_, ?_⟩
  · simp [streamRead, h.attached, hread]
  · have hw : ar.stream.curPos + bytes.length ≤ ar.stream.fastBuf.cpLen := by
      rw [← h.wf.content_length]; exact hfit
    refine ⟨⟨⟨h.attached, h.wf.fastBuf, hw⟩, rfl, rfl, rfl⟩, ?_, rfl, rfl⟩
    change ar.content.drop (ar.stream.curPos + bytes.length) = rest
    rw [← List.drop_drop]
    change ar.remaining.drop bytes.length = rest
    rw [hr, List.drop_left]

theorem streamRead_image {ar : CIArchive} (h : ar.Ready) {bytes rest : List Byte} {n : Int}
    (hn : bytes.length = n) (hlt : n < 2 ^ 31) (hr : ar.remaining = bytes ++ rest) :
    ∃ ar', ar.streamRead n = some (n, bytes, ar') ∧ Consumed ar bytes.length rest ar' := by
  obtain ⟨ar', he, hc⟩ := streamRead_ahead h hr
  rw [toInt32_of_lt (by omega), hn] at he
  exact ⟨ar', he, hc⟩

/-- Writing `n` bytes of a buffer that has them puts them at the cursor. -/
theorem streamWrite_spec {ar : CIArchive} (h : ar.Ready) (pBuf : List Byte) {n : Nat}
    (hn : n ≤ pBuf.length) :
    ∃ ar', ar.streamWrite pBuf n = some ar' ∧ Wrote ar (pBuf.take n) ar' := by
  have hl : (pBuf.take n).length = n := List.length_take_of_le hn
  obtain ⟨r, f, he, hw, hc, hp, hr⟩ := CIMemFile.write_spec h.wf (pBuf.take n)
  rw [hl, ← CIMemFile.write_take _ hn] at he
  exact ⟨{ ar with stream := f }, by simp [streamWrite, h.attached, he], ⟨h.attached, hw⟩, hc, hp,
    hr, rfl, rfl⟩

theorem streamWrite_all {ar : CIArchive} (h : ar.Ready) (bytes : List Byte) {n : Int}
    (hn : bytes.length = n) :
    ∃ ar', ar.streamWrite bytes n = some ar' ∧ Wrote ar bytes ar' := by
  obtain ⟨ar', he, hw⟩ := streamWrite_spec h bytes (Nat.le_refl bytes.length)
  rw [List.take_length] at hw
  rw [hn] at he
  exact ⟨ar', he, hw⟩

theorem serialWord_write {w : Nat} {ar : CIArchive} (h : ar.Ready) (hm : ar.mode = .smWrite)
    (swap : BitVec w → BitVec w) (l : BitVec w) :
    ∃ ar', ar.serialWord swap l = some (l, ar') ∧ Wrote ar (leBytes (w / 8) l.toNat) ar' := by
  obtain ⟨ar', he, hw⟩ := streamWrite_all (n := (w / 8 : Nat)) h _
    (congrArg Nat.cast (leBytes_length (w / 8) l.toNat))
  exact ⟨ar', by simp only [serialWord, hm, he]; rfl, hw⟩

/-- Reading an integer whose bytes are ahead returns it through the swap routine. -/
theorem serialWord_read {w : Nat} {ar : CIArchive} (h : ar.Ready) (hm : ar.mode = .smRead)
    (hw : 0 < w / 8) (hw' : w / 8 < 2 ^ 31) (swap : BitVec w → BitVec w) (l : BitVec w)
    {bytes rest : List Byte} (hb : bytes.length = w / 8) (hr : ar.remaining = bytes ++ rest) :
    ∃ ar', ar.serialWord swap l = some (swap (fromLe w bytes), ar') ∧
      Consumed ar (w / 8) rest ar' := by
  obtain ⟨ar', he, hc⟩ := streamRead_ahead h hr
  rw [hb] at he hc
  have hret : 0 < toInt32 (w / 8) := by rw [toInt32_of_lt hw']; omega
  refine ⟨ar', ?_, hc⟩
  simp only [serialWord, hm, he, Option.bind_eq_bind, Option.bind_some, hret, ↓reduceIte,
    Option.pure_def]

theorem serialWord_read_le {w k : Nat} {ar : CIArchive} (h : ar.Ready) (hm : ar.mode = .smRead)
    (hw : w = 8 * k) (hk : 0 < k) (hk' : k < 2 ^ 31) (swap : BitVec w → BitVec w) (l l₀ : BitVec w)
    {rest : List Byte} (hr : ar.remaining = leBytes k l.toNat ++ rest) :
    ∃ ar', ar.serialWord swap l₀ = some (swap l, ar') ∧ Consumed ar k rest ar' := by
  have hdiv : w / 8 = k := by omega
  obtain ⟨ar', he, hc⟩ := serialWord_read h hm (by omega) (by omega) swap l₀
    ((leBytes_length k l.toNat).trans hdiv.symm) hr
  rw [fromLe_leBytes hw] at he
  rw [hdiv] at hc
  exact ⟨ar', he, hc⟩

theorem serialWord_readBack {w k : Nat} {ar : CIArchive} (h : ar.Ready) (hm : ar.mode = .smRead)
    (hw : w = 8 * k) (hk : 0 < k) (hk' : k < 2 ^ 31) (swap : BitVec w → BitVec w) {l : BitVec w}
    (hid : swap l = l) (l₀ : BitVec w) {rest : List Byte}
    (hr : ar.remaining = leBytes k l.toNat ++ rest) :
    ∃ ar', ar.serialWord swap l₀ = some (l, ar') ∧ Consumed ar k rest ar' := by
  obtain ⟨ar', he, hc⟩ := serialWord_read_le h hm hw hk hk' swap l l₀ hr
  rw [hid] at he
  exact ⟨ar', he, hc⟩

theorem serialByte_write {ar : CIArchive} (h : ar.Ready) (hm : ar.mode = .smWrite) (l : Byte) :
    ∃ ar', ar.serialByte l = some (l, ar') ∧ Wrote ar (leBytes 1 l.toNat) ar' := by
  obtain ⟨ar', he, hw⟩ := streamWrite_all (n := 1) h [l] rfl
  rw [← leBytes_byte] at hw
  exact ⟨ar', by simp only [serialByte, hm, he]; rfl, hw⟩

theorem serialByte_read {ar : CIArchive} (h : ar.Ready) (hm : ar.mode = .smRead) (l l₀ : Byte)
    {rest : List Byte} (hr : ar.remaining = leBytes 1 l.toNat ++ rest) :
    ∃ ar', ar.serialByte l₀ = some (l, ar') ∧ Consumed ar 1 rest ar' := by
  rw [leBytes_byte] at hr
  obtain ⟨ar', he, hc⟩ := streamRead_image (n := 1) h rfl (by omega) hr
  exact ⟨ar', by simp only [serialByte, hm, he]; rfl, hc⟩

theorem swapFn_default {ar : CIArchive} (hs : ar.swapped = false) :
    ar.shortSwapFn = shortNoSwap ∧ ar.longSwapFn = longNoSwap ∧
      ar.longLongSwapFn = longLongNotSwap := by
  simp [shortSwapFn, longSwapFn, longLongSwapFn, hs]

theorem longSwapFn_default {ar : CIArchive} (hs : ar.swapped = false) (l : BitVec 32) :
    ar.longSwapFn l = l := by
  rw [(swapFn_default hs).2.1, longNoSwap]

/-- A length is read as it was written. In the default byte order all of them are. -/
def KeepsLength (ar : CIArchive) (len : Nat) : Prop :=
  ar.longSwapFn (BitVec.ofNat 32 len) = BitVec.ofNat 32 len

theorem keepsLength_default {ar : CIArchive} (hs : ar.swapped = false) (len : Nat) :
    ar.KeepsLength len := longSwapFn_default hs _

theorem KeepsLength.congr {ar ar' : CIArchive} {len : Nat} (h : ar.KeepsLength len)
    (hs : ar'.swapped = ar.swapped) : ar'.KeepsLength len := by
  rwa [KeepsLength, longSwapFn, hs]

theorem serialInt_readBack {ar : CIArchive} (h : ar.Ready) (hm : ar.mode = .smRead) {l : BitVec 32}
    (hid : ar.longSwapFn l = l) (l₀ : BitVec 32) {rest : List Byte}
    (hr : ar.remaining = leBytes 4 l.toNat ++ rest) :
    ∃ ar', ar.serialInt l₀ = some (l, ar') ∧ Consumed ar 4 rest ar' := by
  unfold serialInt
  exact serialWord_readBack h hm rfl (by omega) (by omega) ar.longSwapFn hid l₀ hr

end CIArchive
end EventServer.Archive
