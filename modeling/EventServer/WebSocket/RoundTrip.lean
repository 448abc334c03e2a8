import EventServer.WebSocket.Complete
import EventServer.WebSocket.Encode

/-!
# From the encoder to the decoder

What `SetWebSocketFrame` emits is taken by `GetWebSocketFrame` on the other side.
The encoder stores the low byte of the type, the decoder rebuilds the type from
opcode and FIN; and the decoder wants three bytes before it looks at anything,
while a frame without payload has two.
-/
namespace EventServer.WebSocket

open EventServer.Lib.Blocks EventServer.Lib.CInt EventServer.Lib.ByteOrder
open EventServer.Stream EventServer.Archive

/-- The types that stand for frames on the wire. -/
def WebSocketFrameType.onWire : List WebSocketFrameType :=
  [.textFrame, .binaryFrame, .incompleteTextFrame, .incompleteBinaryFrame, .pingFrame, .pongFrame]

/-- A frame is encoded into `sender`, and its bytes are decoded into `msg`: the type comes back, the
payload is appended and the whole frame is used up. -/
def Undoes (sender msg : CLXZMessage) (t : WebSocketFrameType) (payload : List Byte)
    (outLen : Int) : Prop :=
  ∃ size sent r, setWebSocketFrame sender t.lowByte payload payload.length = some (size, sent) ∧
    getWebSocketFrame msg (bufferOf sent.content) size outLen = some r ∧ r.type = t ∧
    r.msg.content = msg.content ++ payload ∧ r.outLen = sent.content.length

/-- The low byte has the opcode and the FIN bit of the type. -/
theorem declaredType_lowByte {t : WebSocketFrameType} (ht : t ∈ WebSocketFrameType.onWire) :
    declaredType (t.lowByte.toNat % 16) (decide (128 ≤ t.lowByte.toNat)) = t := by
  revert t
  decide

theorem header_minimal (b₀ : Byte) {n : Nat} (hn : n < 2 ^ 64) (rest : List Byte) :
    masked (bufferOf (b₀ :: minimalLength n ++ rest)) = false ∧
      headerSize (bufferOf (b₀ :: minimalLength n ++ rest)) = 1 + (minimalLength n).length ∧
      payloadSize (bufferOf (b₀ :: minimalLength n ++ rest)) = n := by
  unfold minimalLength
  split_ifs with h125 h65535
  · have hb : (BitVec.ofNat 8 n).toNat = n := by
      rw [BitVec.toNat_ofNat]
      omega
    have hm : masked (bufferOf (b₀ :: BitVec.ofNat 8 n :: rest)) =
        decide (128 ≤ (BitVec.ofNat 8 n).toNat) := rfl
    obtain ⟨hh, hp⟩ := header_short b₀ rest
      (show (BitVec.ofNat 8 n).toNat % 128 ≤ 125 by omega)
    refine ⟨hm.trans ?_, hh, hp.trans (by omega)⟩
    rw [hb, decide_eq_false_iff_not]
    omega
  · obtain ⟨hh, hp⟩ := header_medium b₀ rest (show (126 : Byte).toNat % 128 = 126 from rfl)
      (beBytes_length 2 n)
    refine ⟨rfl, hh, hp.trans ?_⟩
    rw [ofBe_beBytes]
    omega
  · obtain ⟨hh, hp⟩ := header_wide b₀ rest (show (127 : Byte).toNat % 128 = 127 from rfl)
      (beBytes_length 8 n)
    refine ⟨rfl, hh, hp.trans ?_⟩
    rw [ofBe_beBytes]
    omega

/-- Behind the completeness test the payload of an unmasked frame is handed to `Write`. -/
theorem acceptFrame_copies {msg msg' : CLXZMessage} {inBuffer : Buffer}
    (hm : masked inBuffer = false) {hd : Header} {n : Nat} (hn : hd.payloadLength = n)
    (hfit : hd.pos + n < 2 ^ 31)
    (hwrite : msg.write ((List.range' hd.pos n).map inBuffer) n = some msg') :
    ∃ reads, acceptFrame msg inBuffer hd =
      some ⟨frameType (inBuffer 0 &&& 0x0F) ((inBuffer 0 >>> 7) &&& 0x01), (hd.pos + n : Nat),
        msg', reads⟩ := by
  have hclear : ¬ (inBuffer 1 >>> 7) &&& 0x01 ≠ 0 := by
    rw [msgMasked_iff, hm]
    exact Bool.false_ne_true
  have hcopy : copyPayload msg inBuffer ((inBuffer 1 >>> 7) &&& 0x01) hd =
      some (msg', hd.pos, if msg.mode = .smWrite then List.range' hd.pos n else []) := by
    rw [copyPayload, if_neg hclear, hn, Int.toNat_natCast]
    exact bind_eq_of_some hwrite rfl
  have hadd : addInt hd.pos hd.payloadLength = some ((hd.pos + n : Nat) : Int) := by
    rw [hn, addInt_of_fits (by omega) (by omega)]
    rfl
  exact ⟨_, bind_eq_of_some hcopy (bind_eq_of_some hadd rfl)⟩

theorem unmaskedFrame_length (b₀ : Byte) (payload : List Byte) :
    (unmaskedFrame b₀ payload).length =
      1 + (minimalLength payload.length).length + payload.length := by
  rw [unmaskedFrame, List.length_append, List.length_cons]
  omega

theorem length_minimalLength_pos (n : Nat) : 0 < (minimalLength n).length := by
  unfold minimalLength
  split_ifs <;> simp

/-- An unmasked frame with a payload is decoded. -/
theorem getWebSocketFrame_unmasked {msg msg' : CLXZMessage} (b₀ : Byte) {payload : List Byte}
    (hne : payload ≠ []) (hlt : (unmaskedFrame b₀ payload).length < 2 ^ 31) (outLen : Int)
    (hwrite : msg.write payload payload.length = some msg') :
    ∃ reads, getWebSocketFrame msg (bufferOf (unmaskedFrame b₀ payload))
        (unmaskedFrame b₀ payload).length outLen =
      some ⟨declaredType (b₀.toNat % 16) (decide (128 ≤ b₀.toNat)),
        (unmaskedFrame b₀ payload).length, msg', reads⟩ := by
  have hlen := unmaskedFrame_length b₀ payload
  have hmin := length_minimalLength_pos payload.length
  have hpos := List.length_pos_iff.mpr hne
  obtain ⟨hm, hh, hp⟩ := header_minimal b₀ (n := payload.length) (by omega) payload
  have hpay : (List.range' (1 + (minimalLength payload.length).length) payload.length).map
      (bufferOf (unmaskedFrame b₀ payload)) = payload := by
    rw [map_bufferOf (by omega), unmaskedFrame, List.drop_left' (by rw [List.length_cons]; omega),
      List.take_length]
  have hb0 : bufferOf (unmaskedFrame b₀ payload) 0 = b₀ := rfl
  rw [← unmaskedFrame] at hm hh hp
  generalize bufferOf (unmaskedFrame b₀ payload) = inBuffer at hm hh hp hpay hb0 ⊢
  have hpl : (header inBuffer).payloadLength = payload.length := by
    rw [header_payloadLength, hp, toInt32_of_lt (by omega)]
  have hsize : addInt (toInt32 (payloadSize inBuffer)) (headerSize inBuffer) =
      some ((payload.length : Int) + headerSize inBuffer) := by
    rw [hp, toInt32_of_lt (by omega), addInt_of_fits (by omega) (by omega)]
  have htest := frame_tested msg outLen
    (show (3 : Int) ≤ (unmaskedFrame b₀ payload).length by omega) (by omega) hsize
  rw [if_neg (by omega)] at htest
  have hcopy : msg.write ((List.range' (header inBuffer).pos payload.length).map inBuffer)
      payload.length = some msg' := by
    rw [header_pos, hh, hpay]
    exact hwrite
  obtain ⟨reads, hacc⟩ := acceptFrame_copies hm hpl (by rw [header_pos]; omega) hcopy
  rw [hacc, header_pos, hh, ← hlen, hb0, frameType_eq] at htest
  exact ⟨reads, htest⟩

/-- `Write` puts the bytes at the cursor in `SM_WRITE` mode and does nothing in `SM_READ` mode, so
it appends them exactly when the message is writing at its end. -/
theorem write_appends_iff {msg : CLXZMessage} (h : msg.Ready) {payload : List Byte}
    (hne : payload ≠ []) :
    ∃ msg', msg.write payload payload.length = some msg' ∧
      (msg'.content = msg.content ++ payload ↔ msg.mode = .smWrite ∧ msg.AtEnd) := by
  have hpos := List.length_pos_iff.mpr hne
  cases hm : msg.mode with
  | smRead =>
    refine ⟨msg, by rw [CIArchive.write, hm], ?_⟩
    simp [hne]
  | smWrite =>
    obtain ⟨msg', he, hw⟩ := CIArchive.streamWrite_all h payload rfl
    refine ⟨msg', by rw [CIArchive.write, hm]; exact he, ?_⟩
    constructor
    · intro hc
      have hlen := congrArg List.length (hw.content.symm.trans hc)
      have hle := h.pos_le
      rw [splice_length hle, List.length_append] at hlen
      refine ⟨rfl, ?_⟩
      rw [CIArchive.AtEnd]
      omega
    · intro hend
      exact (hw.append hend.2).1

section Undoes

variable {sender msg : CLXZMessage} (hs : sender.Ready) (hsc : sender.content = [])
  (hsm : sender.mode = .smWrite) {t : WebSocketFrameType} (ht : t ∈ WebSocketFrameType.onWire)

include hs hsc hsm ht

/-- The two bytes of a frame without payload are too few for the first test. -/
theorem not_undoes_empty (outLen : Int) : ¬ Undoes sender msg t [] outLen := by
  intro hu
  obtain ⟨size, sent, r, hset, hget, htype, -⟩ := hu
  obtain ⟨sent', hset', -⟩ := setWebSocketFrame_spec hs hsc hsm t.lowByte
    (show ([] : List Byte).length < 2 ^ 31 - 14 by decide)
  rw [hset', Option.some.injEq, Prod.mk.injEq] at hset
  obtain ⟨rfl, rfl⟩ := hset
  have hshort : ((unmaskedFrame t.lowByte []).length : Int) < 3 := (by decide : (2 : Int) < 3)
  rw [getWebSocketFrame, if_pos hshort, Option.some.injEq] at hget
  have hinc : .incompleteFrame = t := by rw [← htype, ← hget]
  rw [← hinc] at ht
  exact absurd ht (by decide)

/-- The decoder undoes the encoder exactly when there is a payload and the message that takes it is
writing at its end. -/
theorem undoes_iff (h : msg.Ready) {payload : List Byte} (hn : payload.length < 2 ^ 31 - 14)
    (outLen : Int) :
    Undoes sender msg t payload outLen ↔ payload ≠ [] ∧ msg.mode = .smWrite ∧ msg.AtEnd := by
  by_cases hne : payload = []
  · rw [hne]
    exact iff_of_false (not_undoes_empty hs hsc hsm ht outLen) (fun hc => hc.1 rfl)
  obtain ⟨sent, hset, hcont⟩ := setWebSocketFrame_spec hs hsc hsm t.lowByte hn
  have hlen := unmaskedFrame_length t.lowByte payload
  have hmin := length_minimalLength_le payload.length
  obtain ⟨msg', hwrite, happend⟩ := write_appends_iff h hne
  obtain ⟨reads, hget⟩ := getWebSocketFrame_unmasked t.lowByte hne (by omega) outLen hwrite
  rw [declaredType_lowByte ht] at hget
  rw [← hcont] at hget hset
  constructor
  · intro hu
    obtain ⟨size, sent', r, hset', hget', -, hmsg, -⟩ := hu
    rw [hset, Option.some.injEq, Prod.mk.injEq] at hset'
    obtain ⟨rfl, rfl⟩ := hset'
    rw [hget, Option.some.injEq] at hget'
    rw [← hget'] at hmsg
    exact ⟨hne, happend.mp hmsg⟩
  · intro hc
    exact ⟨_, sent, _, hset, hget, rfl, happend.mpr hc.2, rfl⟩

end Undoes

theorem undoes_ping :
    Undoes (CIArchive.fresh.setMode 0) (CIArchive.fresh.setMode 0) .pingFrame [7] 0 :=
  (undoes_iff (CIArchive.ready_fresh 0) (CIArchive.content_fresh 0) rfl (by decide)
    (CIArchive.ready_fresh 0) (by decide) 0).mpr ⟨by decide, rfl, CIArchive.atEnd_fresh 0⟩

/-- A ping without payload is taken for the beginning of a frame. -/
theorem empty_ping_incomplete :
    ¬ Undoes (CIArchive.fresh.setMode 0) (CIArchive.fresh.setMode 0) .pingFrame [] 0 :=
  not_undoes_empty (CIArchive.ready_fresh 0) (CIArchive.content_fresh 0) rfl (by decide) 0

end EventServer.WebSocket
