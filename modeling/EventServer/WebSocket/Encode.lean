import EventServer.WebSocket.Frame

/-!
# `SetWebSocketFrame`

The encoder writes the type byte, the length in its shortest form and the
payload to the archive. It does not look at the mode: on a message in `SM_READ`
mode the same calls read bytes and drop them.
-/
namespace EventServer.WebSocket

open EventServer.Lib.Blocks EventServer.Lib.CInt EventServer.Lib.ByteOrder
open EventServer.Stream EventServer.Archive

def WebSocketFrameType.toNat : WebSocketFrameType → Nat
  | .errorFrame => 0xFF00
  | .incompleteFrame => 0xFE00
  | .openingFrame => 0x3300
  | .closingFrame => 0x3400
  | .incompleteTextFrame => 0x01
  | .incompleteBinaryFrame => 0x02
  | .textFrame => 0x81
  | .binaryFrame => 0x82
  | .pingFrame => 0x19
  | .pongFrame => 0x1A

/-- `(msg_length >> 8 * i) & 0xFF`. -/
def lengthByte (msgLength : Int) (i : Nat) : Byte := BitVec.ofInt 8 (msgLength >>> (8 * i))

/-- The bytes passed to `Serial` for the length, in order. -/
def lengthBytes (msgLength : Int) : List Byte :=
  if msgLength ≤ 125 then [lengthByte msgLength 0]
  else if msgLength ≤ 65535 then [126, lengthByte msgLength 1, lengthByte msgLength 0]
  else [127, 0, 0, 0, 0] ++
    [lengthByte msgLength 3, lengthByte msgLength 2, lengthByte msgLength 1, lengthByte msgLength 0]

/-- One call of `Serial(unsigned char&)` for each byte. -/
def serialBytes : CLXZMessage → List Byte → Option CLXZMessage
  | msg, [] => some msg
  | msg, b :: bs => do
    let (_, msg) ← msg.serialUint8 b
    serialBytes msg bs

/-- `SetWebSocketFrame()`, with the memory behind `msg`: the size it returns, and the message. -/
def setWebSocketFrame (msg : CLXZMessage) (frame : Byte) (payload : List Byte) (msgLength : Int) :
    Option (Int × CLXZMessage) := do
  let msg ← serialBytes msg (frame :: lengthBytes msgLength)
  let msg ← msg.write payload msgLength
  return (msg.getMsgSize, msg)

/-! ## The layout -/

/-- `(unsigned char)frame_type`. -/
def WebSocketFrameType.lowByte (t : WebSocketFrameType) : Byte := BitVec.ofNat 8 t.toNat

/-- The shortest form of the length, without the mask bit. -/
def minimalLength (n : Nat) : List Byte :=
  if n ≤ 125 then [BitVec.ofNat 8 n]
  else if n ≤ 65535 then 126 :: beBytes 2 n
  else 127 :: beBytes 8 n

/-- An unmasked frame: first byte, length, payload. -/
def unmaskedFrame (b₀ : Byte) (payload : List Byte) : List Byte :=
  b₀ :: minimalLength payload.length ++ payload

theorem lengthByte_natCast (n i : Nat) : lengthByte n i = BitVec.ofNat 8 (n / 256 ^ i) := by
  have hshift : (n : Int) >>> (8 * i) = ((n / 256 ^ i : Nat) : Int) := by
    rw [Int.shiftRight_eq_div_pow, Nat.pow_mul]
    norm_cast
  rw [lengthByte, hshift, BitVec.ofInt_natCast]

/-- The shifts and the padding make up the shortest form. -/
theorem lengthBytes_eq {n : Nat} (hn : n < 2 ^ 32) : lengthBytes n = minimalLength n := by
  have hpad : beBytes 8 n = [0, 0, 0, 0] ++ beBytes 4 n := beBytes_pad (k := 4) (by omega) 4
  unfold lengthBytes minimalLength
  by_cases h125 : n ≤ 125
  · rw [if_pos (by omega), if_pos h125, lengthByte_natCast, Nat.pow_zero, Nat.div_one]
  · rw [if_neg (by omega), if_neg h125]
    by_cases h65535 : n ≤ 65535
    · rw [if_pos (by omega), if_pos h65535, lengthByte_natCast, lengthByte_natCast, beBytes,
        leBytes_eq_map]
      rfl
    · rw [if_neg (by omega), if_neg h65535, lengthByte_natCast, lengthByte_natCast,
        lengthByte_natCast, lengthByte_natCast, hpad, beBytes, leBytes_eq_map]
      rfl

theorem length_minimalLength_le (n : Nat) : (minimalLength n).length ≤ 9 := by
  unfold minimalLength
  split_ifs <;> simp

theorem serialBytes_write (bytes : List Byte) {msg : CLXZMessage} (h : msg.Ready)
    (hm : msg.mode = .smWrite) :
    ∃ msg', serialBytes msg bytes = some msg' ∧ CIArchive.Wrote msg bytes msg' := by
  induction bytes generalizing msg with
  | nil => exact ⟨msg, rfl, h, (splice_nil _ _).symm, rfl, rfl, rfl, rfl⟩
  | cons b bytes ih =>
    obtain ⟨msg₁, he₁, hw₁⟩ := CIArchive.serialByte_write h hm b
    rw [leBytes_byte] at hw₁
    obtain ⟨msg₂, he₂, hw₂⟩ := ih hw₁.ready (hw₁.mode.trans hm)
    exact ⟨msg₂, bind_eq_of_some he₁ he₂, hw₁.trans h hw₂⟩

/-- What the encoder leaves in an empty message, whatever its byte order. -/
theorem setWebSocketFrame_spec {msg : CLXZMessage} (h : msg.Ready) (hc : msg.content = [])
    (hm : msg.mode = .smWrite) (b₀ : Byte) {payload : List Byte}
    (hn : payload.length < 2 ^ 31 - 14) :
    ∃ msg', setWebSocketFrame msg b₀ payload payload.length =
        some (((unmaskedFrame b₀ payload).length : Int), msg') ∧
      msg'.content = unmaskedFrame b₀ payload := by
  obtain ⟨msg₁, he₁, hw₁⟩ := serialBytes_write (b₀ :: lengthBytes payload.length) h hm
  obtain ⟨msg₂, he₂, hw₂⟩ := CIArchive.streamWrite_all hw₁.ready payload rfl
  have hcont : msg₂.content = unmaskedFrame b₀ payload := by
    rw [((hw₁.trans h hw₂).append (h.atEnd_of_empty hc)).1, hc, List.nil_append,
      lengthBytes_eq (by omega)]
    rfl
  have hlen : (unmaskedFrame b₀ payload).length < 2 ^ 31 := by
    have hmin := length_minimalLength_le payload.length
    rw [unmaskedFrame, List.length_append, List.length_cons]
    omega
  have hsize : msg₂.getMsgSize = (unmaskedFrame b₀ payload).length := by
    rw [CIArchive.getMsgSize, CIMemFile.getValidCount, ← hw₂.ready.content_length, hcont,
      toInt32_of_lt hlen]
  have hwrite : msg₁.write payload payload.length = some msg₂ := by
    simp only [CIArchive.write, hw₁.mode.trans hm]
    exact he₂
  refine ⟨msg₂, bind_eq_of_some he₁ (bind_eq_of_some hwrite ?_), hcont⟩
  rw [hsize]
  rfl

/-- At every size the encoder emits the type's low byte, the shortest form of the length and the
payload, and returns how many bytes these are. -/
theorem setWebSocketFrame_layout {msg : CLXZMessage} (h : msg.Ready) (hc : msg.content = [])
    (hm : msg.mode = .smWrite) (t : WebSocketFrameType) {payload : List Byte}
    (hn : payload.length < 2 ^ 31 - 14) :
    ∃ size msg', setWebSocketFrame msg t.lowByte payload payload.length = some (size, msg') ∧
      msg'.content = unmaskedFrame t.lowByte payload ∧ size = msg'.content.length := by
  obtain ⟨msg', he, hcont⟩ := setWebSocketFrame_spec h hc hm t.lowByte hn
  exact ⟨_, msg', he, hcont, by rw [hcont]⟩

theorem setWebSocketFrame_layout_swapped :
    ∃ size msg', setWebSocketFrame ((CIArchive.fresh.setMode 0).setLittleEndian false)
        WebSocketFrameType.pingFrame.lowByte [1, 2] 2 = some (size, msg') ∧
      msg'.content = [0x19, 2, 1, 2] ∧ size = msg'.content.length := by
  have hr : ((CIArchive.fresh.setMode 0).setLittleEndian false).Ready :=
    ⟨rfl, (CIArchive.ready_fresh 0).wf⟩
  exact setWebSocketFrame_layout hr (CIArchive.content_fresh 0) rfl .pingFrame
    (show [(1 : Byte), 2].length < 2 ^ 31 - 14 by decide)

end EventServer.WebSocket
