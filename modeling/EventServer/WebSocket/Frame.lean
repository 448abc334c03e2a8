import EventServer.Archive.IArchive

/-!
# `GetWebSocketFrame`

The decoder takes a pointer and a length and appends the payload of the first
frame to the message. The buffer is the memory behind the pointer; the indices
that are read are returned with the result, so that reads behind `in_length`
can be spoken about. A nonzero byte shifted past the width of `int` and a sum
that overflows it are undefined (`none`).
-/
namespace EventServer.WebSocket

open EventServer.Lib.Blocks EventServer.Lib.CInt EventServer.Lib.ByteOrder
open EventServer.Stream EventServer.Archive

inductive WebSocketFrameType where
  | errorFrame
  | incompleteFrame
  | openingFrame
  | closingFrame
  | incompleteTextFrame
  | incompleteBinaryFrame
  | textFrame
  | binaryFrame
  | pingFrame
  | pongFrame
  deriving DecidableEq

/-- The memory behind `in_buffer`. -/
abbrev Buffer := Nat → Byte

/-- `b << k`, computed in `int`. -/
def shl (b : Byte) (k : Nat) : Option (BitVec 32) :=
  if k < 32 ∨ b = 0 then some (b.setWidth 32 <<< k) else none

def lengthBits (inBuffer : Buffer) : BitVec 32 := (inBuffer 1).setWidth 32 &&& ~~~0x80

structure Header where
  payloadLength : Int
  pos : Nat
  reads : List Nat

/-- The length branches: `payload_length`, `pos` and the bytes read for them. -/
def readLength (inBuffer : Buffer) : Option Header :=
  let lengthField := (lengthBits inBuffer).toInt
  if lengthField ≤ 125 then some ⟨lengthField, 2, []⟩
  else if lengthField = 126 then do
    let b2 ← shl (inBuffer 2) 8
    let b3 ← shl (inBuffer 3) 0
    return ⟨(b2 ||| b3).toInt, 4, [2, 3]⟩
  else if lengthField = 127 then do
    let b2 ← shl (inBuffer 2) 56
    let b3 ← shl (inBuffer 3) 48
    let b4 ← shl (inBuffer 4) 40
    let b5 ← shl (inBuffer 5) 32
    let b6 ← shl (inBuffer 6) 24
    let b7 ← shl (inBuffer 7) 16
    let b8 ← shl (inBuffer 8) 8
    let b9 ← shl (inBuffer 9) 0
    return ⟨(b2 ||| b3 ||| b4 ||| b5 ||| b6 ||| b7 ||| b8 ||| b9).toInt, 10, [2, 3, 4, 5, 6, 7, 8, 9]⟩
  else some ⟨0, 2, []⟩

/-- `*((unsigned int*)(in_buffer + pos))`. -/
def maskWord (inBuffer : Buffer) (pos : Nat) : BitVec 32 :=
  fromLe 32 [inBuffer pos, inBuffer (pos + 1), inBuffer (pos + 2), inBuffer (pos + 3)]

/-- `((unsigned char*)(&mask))[k]`. -/
def maskByte (mask : BitVec 32) (k : Nat) : Byte := (leBytes 4 mask.toNat).getD k 0

/-- The unmasking loop from index `i` on, for `n` more bytes. -/
def unmask (c : Buffer) (mask : BitVec 32) : Nat → Nat → CLXZMessage →
    Option (CLXZMessage × List Nat)
  | _, 0, msg => some (msg, [])
  | i, n + 1, msg => do
    let (_, msg) ← msg.serialUint8 (c i ^^^ maskByte mask (i % 4))
    let (msg, reads) ← unmask c mask (i + 1) n msg
    return (msg, i :: reads)

/-- The type by opcode and FIN. -/
def frameType (msgOpcode msgFin : Byte) : WebSocketFrameType :=
  if msgOpcode = 0x0 then (if msgFin ≠ 0 then .textFrame else .incompleteTextFrame)
  else if msgOpcode = 0x1 then (if msgFin ≠ 0 then .textFrame else .incompleteTextFrame)
  else if msgOpcode = 0x2 then (if msgFin ≠ 0 then .binaryFrame else .incompleteBinaryFrame)
  else if msgOpcode = 0x9 then .pingFrame
  else if msgOpcode = 0xA then .pongFrame
  else .errorFrame

structure Decoded where
  type : WebSocketFrameType
  outLen : Int
  msg : CLXZMessage
  reads : List Nat

/-- The two ways to the payload: the message, the final `pos` and the bytes read. -/
def copyPayload (msg : CLXZMessage) (inBuffer : Buffer) (msgMasked : Byte) (hd : Header) :
    Option (CLXZMessage × Nat × List Nat) :=
  let n := hd.payloadLength.toNat
  if msgMasked ≠ 0 then do
    let mask := maskWord inBuffer hd.pos
    let pos := hd.pos + 4
    let (msg, reads) ← unmask (fun i => inBuffer (pos + i)) mask 0 n msg
    return (msg, pos, List.range' hd.pos 4 ++ reads.map (pos + ·))
  else do
    let reads := if msg.mode = .smWrite then List.range' hd.pos n else []
    let msg ← msg.write ((List.range' hd.pos n).map inBuffer) hd.payloadLength
    return (msg, hd.pos, reads)

/-- What follows the completeness test. -/
def acceptFrame (msg : CLXZMessage) (inBuffer : Buffer) (hd : Header) : Option Decoded := do
  let msgOpcode := inBuffer 0 &&& 0x0F
  let msgFin := (inBuffer 0 >>> 7) &&& 0x01
  let msgMasked := (inBuffer 1 >>> 7) &&& 0x01
  let (msg, pos, more) ← copyPayload msg inBuffer msgMasked hd
  let outLen ← addInt pos hd.payloadLength
  return ⟨frameType msgOpcode msgFin, outLen, msg, [0, 1] ++ hd.reads ++ more⟩

def getWebSocketFrame (msg : CLXZMessage) (inBuffer : Buffer) (inLength outLen : Int) :
    Option Decoded :=
  if inLength < 3 then some ⟨.incompleteFrame, outLen, msg, []⟩
  else do
    let hd ← readLength inBuffer
    let size ← addInt hd.payloadLength hd.pos
    if inLength < size then some ⟨.incompleteFrame, outLen, msg, [0, 1] ++ hd.reads⟩
    else acceptFrame msg inBuffer hd

/-- The bytes of a list as memory. -/
def bufferOf (s : List Byte) : Buffer := fun i => s.getD i 0

/-- `LuaMessage_GetWebSocketFrame()`: the length of the Lua string becomes an `int`. -/
def luaGetWebSocketFrame (msg : CLXZMessage) (s : List Byte) : Option Decoded :=
  getWebSocketFrame msg (bufferOf s) (toInt32 s.length) 0

/-- The type of a frame with this opcode and FIN bit. -/
def declaredType (opcode : Nat) (fin : Bool) : WebSocketFrameType :=
  match opcode with
  | 0 => if fin then .textFrame else .incompleteTextFrame
  | 1 => if fin then .textFrame else .incompleteTextFrame
  | 2 => if fin then .binaryFrame else .incompleteBinaryFrame
  | 9 => .pingFrame
  | 10 => .pongFrame
  | _ => .errorFrame

theorem frameType_eq (b : Byte) :
    frameType (b &&& 0x0F) ((b >>> 7) &&& 0x01) =
      declaredType (b.toNat % 16) (decide (128 ≤ b.toNat)) := by
  revert b
  decide

/-- The 7-bit length field. -/
def lengthField (inBuffer : Buffer) : Nat := (inBuffer 1).toNat % 128

def masked (inBuffer : Buffer) : Bool := decide (128 ≤ (inBuffer 1).toNat)

/-- The bytes in front of mask and payload, by the length field. -/
def headerSize (inBuffer : Buffer) : Nat :=
  if lengthField inBuffer ≤ 125 then 2 else if lengthField inBuffer = 126 then 4 else 10

/-- The payload length that is announced, as the unsigned number it is. -/
def payloadSize (inBuffer : Buffer) : Nat :=
  if lengthField inBuffer ≤ 125 then lengthField inBuffer
  else if lengthField inBuffer = 126 then ofBe ((List.range' 2 2).map inBuffer)
  else ofBe ((List.range' 2 8).map inBuffer)

/-- The size of the whole frame that is announced. -/
def announced (inBuffer : Buffer) : Nat :=
  headerSize inBuffer + (if masked inBuffer then 4 else 0) + payloadSize inBuffer

theorem lengthBits_eq (inBuffer : Buffer) :
    (lengthBits inBuffer).toInt = lengthField inBuffer := by
  unfold lengthBits lengthField
  generalize inBuffer 1 = b
  revert b
  decide

theorem msgMasked_iff (inBuffer : Buffer) :
    (inBuffer 1 >>> 7) &&& 0x01 ≠ 0 ↔ masked inBuffer = true := by
  unfold masked
  generalize inBuffer 1 = b
  revert b
  decide

theorem shl_of_lt (b : Byte) {k : Nat} (h : k < 32) : shl b k = some (b.setWidth 32 <<< k) :=
  if_pos (.inl h)

theorem shl_past {b : Byte} {k : Nat} (h : 32 ≤ k) :
    shl b k = if b = 0 then some 0#32 else none := by
  by_cases hb : b = 0
  · rw [if_pos hb, shl, if_pos (.inr hb), hb]
    simp
  · rw [if_neg hb, shl, if_neg (not_or.mpr ⟨by omega, hb⟩)]

private theorem of_ite_some {b : Byte} {v w : BitVec 32}
    (h : (if b = 0 then some v else none) = some w) : b = 0 := by
  by_contra hb
  rw [if_neg hb] at h
  cases h

theorem toNat_assembled (b6 b7 b8 b9 : Byte) :
    (b6.setWidth 32 <<< 24 ||| b7.setWidth 32 <<< 16 ||| b8.setWidth 32 <<< 8 |||
      b9.setWidth 32 <<< 0).toNat = ofBe [b6, b7, b8, b9] := by
  have h6 := toNat_placed (w := 32) b6 (k := 24) (by omega)
  have h7 := toNat_or_placed b7 (k := 16) (by omega) h6
  have h8 := toNat_or_placed b8 (k := 8) (by omega) h7
  rw [toNat_or_placed b9 (k := 0) (by omega) h8]
  simp only [ofBe, ofLe, List.reverse_cons, List.reverse_nil, List.nil_append, List.cons_append]
  omega

theorem toInt_eq_toInt32 (v : BitVec 32) : v.toInt = toInt32 v.toNat := by
  unfold toInt32
  exact BitVec.toInt_eq_toNat_bmod v

/-- A 64-bit length is assembled correctly when its upper half is zero, and is undefined
otherwise. -/
theorem readLength_wide (inBuffer : Buffer) (h : lengthField inBuffer = 127) :
    readLength inBuffer =
      if payloadSize inBuffer < 2 ^ 32 then
        some ⟨toInt32 (payloadSize inBuffer), 10, [2, 3, 4, 5, 6, 7, 8, 9]⟩
      else none := by
  have hp : payloadSize inBuffer = ofBe [inBuffer 2, inBuffer 3, inBuffer 4, inBuffer 5] * 2 ^ 32 +
      ofBe [inBuffer 6, inBuffer 7, inBuffer 8, inBuffer 9] := by
    simp only [payloadSize, h, show ¬ 127 ≤ 125 by omega, show ¬ 127 = 126 by omega, ↓reduceIte]
    simp [List.range', ofBe, ofLe]
    omega
  have hlow : ofBe [inBuffer 6, inBuffer 7, inBuffer 8, inBuffer 9] < 2 ^ 32 := by
    rw [← toNat_assembled]
    exact BitVec.isLt _
  have hf : (lengthBits inBuffer).toInt = 127 := by rw [lengthBits_eq, h]; rfl
  by_cases hz : inBuffer 2 = 0 ∧ inBuffer 3 = 0 ∧ inBuffer 4 = 0 ∧ inBuffer 5 = 0
  · obtain ⟨h2, h3, h4, h5⟩ := hz
    have hp' : payloadSize inBuffer = ofBe [inBuffer 6, inBuffer 7, inBuffer 8, inBuffer 9] := by
      rw [hp, h2, h3, h4, h5]
      simp [ofBe, ofLe]
    rw [if_pos (by omega), hp', ← toNat_assembled, ← toInt_eq_toInt32]
    simp only [readLength, hf, h2, h3, h4, h5, shl_past (show 32 ≤ 56 by omega),
      shl_past (show 32 ≤ 48 by omega), shl_past (show 32 ≤ 40 by omega),
      shl_past (show 32 ≤ 32 by omega), shl_of_lt _ (show 24 < 32 by omega),
      shl_of_lt _ (show 16 < 32 by omega), shl_of_lt _ (show 8 < 32 by omega),
      shl_of_lt _ (show 0 < 32 by omega), show ¬ (127 : Int) ≤ 125 by omega,
      show ¬ (127 : Int) = 126 by omega, ↓reduceIte, Option.bind_eq_bind, Option.bind_some,
      Option.pure_def, BitVec.zero_or]
  · have hhi : ofBe [inBuffer 2, inBuffer 3, inBuffer 4, inBuffer 5] ≠ 0 := by
      intro h0
      simp only [ofBe, ofLe, List.reverse_cons, List.reverse_nil, List.nil_append,
        List.cons_append] at h0
      have hb : ∀ b : Byte, b.toNat = 0 → b = 0 := fun b hb => BitVec.eq_of_toNat_eq hb
      exact hz ⟨hb _ (by omega), hb _ (by omega), hb _ (by omega), hb _ (by omega)⟩
    rw [if_neg (by omega)]
    simp only [readLength, hf, shl_past (show 32 ≤ 56 by omega), shl_past (show 32 ≤ 48 by omega),
      shl_past (show 32 ≤ 40 by omega), shl_past (show 32 ≤ 32 by omega),
      show ¬ (127 : Int) ≤ 125 by omega, show ¬ (127 : Int) = 126 by omega, ↓reduceIte,
      Option.bind_eq_bind, Option.bind_eq_none_iff]
    -- Some byte of the upper half is not zero and is shifted too far.
    intro b2 h2 b3 h3 b4 h4 b5 h5
    exact absurd ⟨of_ite_some h2, of_ite_some h3, of_ite_some h4, of_ite_some h5⟩ hz

/-- What the length branches compute, in the announced sizes. -/
theorem readLength_spec (inBuffer : Buffer) :
    readLength inBuffer =
      if payloadSize inBuffer < 2 ^ 32 then
        some ⟨toInt32 (payloadSize inBuffer), headerSize inBuffer,
          List.range' 2 (headerSize inBuffer - 2)⟩
      else none := by
  have hlt : lengthField inBuffer < 128 := Nat.mod_lt _ (by omega)
  have hf := lengthBits_eq inBuffer
  by_cases h125 : lengthField inBuffer ≤ 125
  · have hp : payloadSize inBuffer = lengthField inBuffer := if_pos h125
    have hs : headerSize inBuffer = 2 := if_pos h125
    rw [hp, hs, if_pos (by omega), toInt32_of_lt (by omega), readLength, hf, if_pos (by omega)]
    rfl
  · by_cases h126 : lengthField inBuffer = 126
    · have hp : payloadSize inBuffer = ofBe [inBuffer 2, inBuffer 3] := by
        rw [payloadSize, if_neg h125, if_pos h126]; rfl
      have hs : headerSize inBuffer = 4 := by rw [headerSize, if_neg h125, if_pos h126]
      have h2 := toNat_placed (w := 32) (inBuffer 2) (k := 8) (by omega)
      have h3 := toNat_or_placed (inBuffer 3) (k := 0) (by omega) h2
      have hv : ((inBuffer 2).setWidth 32 <<< 8 ||| (inBuffer 3).setWidth 32 <<< 0).toNat =
          payloadSize inBuffer := by
        rw [h3, hp]
        simp only [ofBe, ofLe, List.reverse_cons, List.reverse_nil, List.nil_append,
          List.cons_append]
        omega
      have hb2 := (inBuffer 2).isLt
      have hb3 := (inBuffer 3).isLt
      rw [hs, if_pos (by omega), ← hv, ← toInt_eq_toInt32, readLength, hf, h126]
      simp [shl_of_lt, List.range']
    · have h127 : lengthField inBuffer = 127 := by omega
      have hs : headerSize inBuffer = 10 := by rw [headerSize, if_neg h125, if_neg h126]
      rw [readLength_wide inBuffer h127, hs]
      rfl

theorem maskByte_maskWord (inBuffer : Buffer) (pos : Nat) {k : Nat} (hk : k < 4) :
    maskByte (maskWord inBuffer pos) k = inBuffer (pos + k) := by
  unfold maskByte maskWord
  have h := leBytes_fromLe (w := 32) [inBuffer pos, inBuffer (pos + 1), inBuffer (pos + 2),
    inBuffer (pos + 3)] rfl
  change leBytes 4 _ = _ at h
  rw [h]
  have hk' : k = 0 ∨ k = 1 ∨ k = 2 ∨ k = 3 := by omega
  obtain rfl | rfl | rfl | rfl := hk' <;> rfl

theorem unmask_write (c : Buffer) (mask : BitVec 32) (i n : Nat) {msg : CLXZMessage}
    (h : msg.Ready) (hm : msg.mode = .smWrite) :
    ∃ msg', unmask c mask i n msg = some (msg', List.range' i n) ∧
      CIArchive.Wrote msg ((List.range' i n).map fun j => c j ^^^ maskByte mask (j % 4)) msg' := by
  induction n generalizing i msg with
  | zero => exact ⟨msg, rfl, h, (splice_nil _ _).symm, rfl, rfl, rfl, rfl⟩
  | succ n ih =>
    obtain ⟨msg₁, he₁, hw₁⟩ :=
      CIArchive.streamWrite_all (n := 1) h [c i ^^^ maskByte mask (i % 4)] rfl
    obtain ⟨msg₂, he₂, hw₂⟩ := ih (i + 1) hw₁.ready (hw₁.mode.trans hm)
    refine ⟨msg₂, ?_, hw₁.trans h hw₂⟩
    simp [unmask, CIArchive.serialUint8, CIArchive.serialByte, hm, he₁, he₂, List.range'_succ]

/-- In either mode, the loop reads every byte of the payload. -/
theorem unmask_reads {c : Buffer} {mask : BitVec 32} {i n : Nat} {msg msg' : CLXZMessage}
    {reads : List Nat} (h : unmask c mask i n msg = some (msg', reads)) :
    reads = List.range' i n := by
  induction n generalizing i msg msg' reads with
  | zero =>
    obtain ⟨-, rfl⟩ : msg = msg' ∧ [] = reads := by simpa [unmask] using h
    rfl
  | succ n ih =>
    simp only [unmask, Option.bind_eq_bind, Option.bind_eq_some_iff, Option.pure_def,
      Option.some.injEq, Prod.mk.injEq] at h
    obtain ⟨⟨v, msg₁⟩, -, ⟨msg₂, reads₂⟩, h₂, -, rfl⟩ := h
    rw [ih h₂, List.range'_succ]

section

variable {msg : CLXZMessage} {inBuffer : Buffer} {inLength outLen : Int}

/-- The header that the length branches leave. -/
def header (inBuffer : Buffer) : Header :=
  ⟨toInt32 (payloadSize inBuffer), headerSize inBuffer, List.range' 2 (headerSize inBuffer - 2)⟩

@[simp] theorem header_payloadLength (inBuffer : Buffer) :
    (header inBuffer).payloadLength = toInt32 (payloadSize inBuffer) := rfl

@[simp] theorem header_pos (inBuffer : Buffer) : (header inBuffer).pos = headerSize inBuffer := rfl

theorem readLength_header (hp : payloadSize inBuffer < 2 ^ 32) :
    readLength inBuffer = some (header inBuffer) := by
  rw [readLength_spec, if_pos hp, header]

theorem headerSize_cases (inBuffer : Buffer) :
    (headerSize inBuffer = 2 ∨ headerSize inBuffer = 4) ∧ payloadSize inBuffer < 2 ^ 16 ∨
      headerSize inBuffer = 10 := by
  by_cases h125 : lengthField inBuffer ≤ 125
  · refine .inl ⟨.inl (if_pos h125), ?_⟩
    rw [payloadSize, if_pos h125]
    omega
  · by_cases h126 : lengthField inBuffer = 126
    · refine .inl ⟨.inr (by rw [headerSize, if_neg h125, if_pos h126]), ?_⟩
      rw [payloadSize, if_neg h125, if_pos h126]
      simpa [ofBe, List.range'] using ofLe_lt [inBuffer 3, inBuffer 2]
    · exact .inr (by rw [headerSize, if_neg h125, if_neg h126])

theorem frame_undefined (hL : 3 ≤ inLength) (hp : ¬ payloadSize inBuffer < 2 ^ 32) :
    getWebSocketFrame msg inBuffer inLength outLen = none := by
  rw [getWebSocketFrame, if_neg (by omega), readLength_spec, if_neg hp]
  rfl

theorem frame_overflows (hL : 3 ≤ inLength) (hp : payloadSize inBuffer < 2 ^ 31)
    (ho : 2 ^ 31 ≤ headerSize inBuffer + payloadSize inBuffer) :
    getWebSocketFrame msg inBuffer inLength outLen = none := by
  have hadd : addInt (header inBuffer).payloadLength (header inBuffer).pos = none := by
    rw [header_payloadLength, header_pos, toInt32_of_lt hp, addInt, if_neg (by omega)]
  rw [getWebSocketFrame, if_neg (by omega), readLength_header (by omega), Option.bind_eq_bind,
    Option.bind_some, hadd]
  rfl

theorem header_reads (inBuffer : Buffer) :
    [0, 1] ++ (header inBuffer).reads = List.range' 0 (headerSize inBuffer) := by
  obtain ⟨h | h, -⟩ | h := headerSize_cases inBuffer <;> rw [header, h] <;> rfl

theorem frame_tested (msg : CLXZMessage) (outLen : Int) (hL : 3 ≤ inLength)
    (hp : payloadSize inBuffer < 2 ^ 32) {size : Int}
    (hs : addInt (toInt32 (payloadSize inBuffer)) (headerSize inBuffer) = some size) :
    getWebSocketFrame msg inBuffer inLength outLen =
      if inLength < size then
        some ⟨.incompleteFrame, outLen, msg, List.range' 0 (headerSize inBuffer)⟩
      else acceptFrame msg inBuffer (header inBuffer) := by
  rw [getWebSocketFrame, if_neg (by omega)]
  refine bind_eq_of_some (readLength_header hp) (bind_eq_of_some hs ?_)
  rw [header_reads]

end

end EventServer.WebSocket
