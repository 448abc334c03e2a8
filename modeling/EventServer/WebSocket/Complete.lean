import EventServer.WebSocket.Frame

/-!
# Complete client frames

The client's side of the format: a first byte, the length in one of three forms
with the mask bit set, the key and the masked payload. Whatever follows the
frame, the decoder unmasks the payload and says where the frame ends.
-/
namespace EventServer.WebSocket

open EventServer.Lib.Blocks EventServer.Lib.CInt EventServer.Lib.ByteOrder
open EventServer.Stream EventServer.Archive

/-- The three forms of the length. -/
inductive LengthForm where
  | bits7
  | bits16
  | bits64
  deriving DecidableEq

namespace LengthForm

/-- The form is able to hold the length. -/
def Holds : LengthForm → Nat → Prop
  | .bits7, n => n ≤ 125
  | .bits16, n => n < 2 ^ 16
  | .bits64, n => n < 2 ^ 64

/-- The second byte, with the mask bit, and the extended length. -/
def encode : LengthForm → Nat → List Byte
  | .bits7, n => [BitVec.ofNat 8 (128 + n)]
  | .bits16, n => 254 :: beBytes 2 n
  | .bits64, n => 255 :: beBytes 8 n

end LengthForm

/-- The key, applied cyclically. -/
def applyMask (key : Fin 4 → Byte) (payload : List Byte) : List Byte :=
  payload.mapIdx fun i b => b ^^^ key ⟨i % 4, Nat.mod_lt i (by omega)⟩

/-- A masked frame: first byte `b₀` (opcode and FIN), length, key, payload. -/
def maskedFrame (b₀ : Byte) (form : LengthForm) (key : Fin 4 → Byte) (payload : List Byte) :
    List Byte :=
  b₀ :: form.encode payload.length ++ (List.ofFn key ++ applyMask key payload)

theorem map_bufferOf {s : List Byte} {a n : Nat} (h : a + n ≤ s.length) :
    (List.range' a n).map (bufferOf s) = (s.drop a).take n := by
  apply List.ext_getElem
  · simp; omega
  · intro i h1 h2
    simp only [List.length_map, List.length_range'] at h1
    simp [bufferOf, List.getD_eq_getElem?_getD, List.getElem?_eq_getElem (show a + i < s.length by omega)]

theorem bufferOf_append_left {s t : List Byte} {i : Nat} (h : i < s.length) :
    bufferOf (s ++ t) i = bufferOf s i := List.getD_append _ _ _ _ h

theorem bufferOf_append_right {s : List Byte} {n : Nat} (h : s.length = n) (t : List Byte)
    (i : Nat) : bufferOf (s ++ t) (n + i) = bufferOf t i := by
  unfold bufferOf
  rw [List.getD_append_right _ _ _ _ (by omega), h, Nat.add_sub_cancel_left]

theorem map_extended {b₀ b₁ : Byte} {bytes rest : List Byte} {k : Nat} (hk : bytes.length = k) :
    (List.range' 2 k).map (bufferOf (b₀ :: b₁ :: (bytes ++ rest))) = bytes := by
  rw [map_bufferOf (by simp; omega), List.drop_succ_cons, List.drop_succ_cons, List.drop_zero,
    List.take_left' hk]

section Header

variable (b₀ : Byte) {b₁ : Byte} {bytes : List Byte} (rest : List Byte)

theorem header_short (h : b₁.toNat % 128 ≤ 125) :
    headerSize (bufferOf (b₀ :: b₁ :: rest)) = 2 ∧
      payloadSize (bufferOf (b₀ :: b₁ :: rest)) = b₁.toNat % 128 := by
  have hf : lengthField (bufferOf (b₀ :: b₁ :: rest)) = b₁.toNat % 128 := rfl
  rw [headerSize, payloadSize, hf, if_pos h, if_pos h]
  exact ⟨rfl, rfl⟩

theorem header_medium (h : b₁.toNat % 128 = 126) (hb : bytes.length = 2) :
    headerSize (bufferOf (b₀ :: b₁ :: (bytes ++ rest))) = 4 ∧
      payloadSize (bufferOf (b₀ :: b₁ :: (bytes ++ rest))) = ofBe bytes := by
  have hf : lengthField (bufferOf (b₀ :: b₁ :: (bytes ++ rest))) = 126 := h
  rw [headerSize, payloadSize, hf, map_extended hb]
  exact ⟨rfl, rfl⟩

theorem header_wide (h : b₁.toNat % 128 = 127) (hb : bytes.length = 8) :
    headerSize (bufferOf (b₀ :: b₁ :: (bytes ++ rest))) = 10 ∧
      payloadSize (bufferOf (b₀ :: b₁ :: (bytes ++ rest))) = ofBe bytes := by
  have hf : lengthField (bufferOf (b₀ :: b₁ :: (bytes ++ rest))) = 127 := h
  rw [headerSize, payloadSize, hf, map_extended hb]
  exact ⟨rfl, rfl⟩

/-- The decoder sees the header that was encoded. -/
theorem header_encoded {form : LengthForm} {n : Nat} (hn : form.Holds n) :
    masked (bufferOf (b₀ :: form.encode n ++ rest)) = true ∧
      headerSize (bufferOf (b₀ :: form.encode n ++ rest)) = 1 + (form.encode n).length ∧
      payloadSize (bufferOf (b₀ :: form.encode n ++ rest)) = n := by
  cases form with
  | bits7 =>
    have hn' : n ≤ 125 := hn
    have hb : (BitVec.ofNat 8 (128 + n)).toNat = 128 + n := by
      rw [BitVec.toNat_ofNat]
      omega
    have hm : masked (bufferOf (b₀ :: BitVec.ofNat 8 (128 + n) :: rest)) =
        decide (128 ≤ (BitVec.ofNat 8 (128 + n)).toNat) := rfl
    obtain ⟨hh, hp⟩ := header_short b₀ rest
      (show (BitVec.ofNat 8 (128 + n)).toNat % 128 ≤ 125 by omega)
    refine ⟨hm.trans (by simp [hb]), hh, hp.trans ?_⟩
    omega
  | bits16 =>
    have hn' : n < 2 ^ 16 := hn
    obtain ⟨hh, hp⟩ := header_medium b₀ rest (show (254 : Byte).toNat % 128 = 126 from rfl)
      (beBytes_length 2 n)
    refine ⟨rfl, hh, hp.trans ?_⟩
    rw [ofBe_beBytes]
    omega
  | bits64 =>
    have hn' : n < 2 ^ 64 := hn
    obtain ⟨hh, hp⟩ := header_wide b₀ rest (show (255 : Byte).toNat % 128 = 127 from rfl)
      (beBytes_length 8 n)
    refine ⟨rfl, hh, hp.trans ?_⟩
    rw [ofBe_beBytes]
    omega

end Header

theorem unmask_payload (pre : List Byte) (key : Fin 4 → Byte) (payload rest : List Byte)
    {inBuffer : Buffer}
    (hbuf : inBuffer = bufferOf (pre ++ (List.ofFn key ++ (applyMask key payload ++ rest)))) :
    ((List.range' 0 payload.length).map fun j => inBuffer (pre.length + 4 + j) ^^^
      maskByte (maskWord inBuffer pre.length) (j % 4)) = payload := by
  apply List.ext_getElem
  · simp
  · intro j h1 h2
    have hj : j % 4 < 4 := Nat.mod_lt j (by omega)
    have hk : maskByte (maskWord inBuffer pre.length) (j % 4) = key ⟨j % 4, hj⟩ := by
      rw [maskByte_maskWord _ _ hj, hbuf, bufferOf_append_right rfl,
        bufferOf_append_left (by simpa using hj), bufferOf,
        List.getD_eq_getElem _ _ (by simpa using hj), List.getElem_ofFn]
    have hc : inBuffer (pre.length + 4 + j) = payload[j] ^^^ key ⟨j % 4, hj⟩ := by
      rw [hbuf, Nat.add_assoc, bufferOf_append_right rfl, bufferOf_append_right List.length_ofFn,
        bufferOf_append_left (by simpa [applyMask] using h2)]
      simp [bufferOf, applyMask, h2]
    rw [List.getElem_map, List.getElem_range', Nat.one_mul, Nat.zero_add, hk, hc, BitVec.xor_assoc,
      BitVec.xor_self, BitVec.xor_zero]

/-- Behind the completeness test a masked frame is unmasked into the message. -/
theorem acceptFrame_unmasks {msg : CLXZMessage} (h : msg.Ready) (hmode : msg.mode = .smWrite)
    {inBuffer : Buffer} (hm : masked inBuffer = true) {hd : Header} {n : Nat}
    (hn : hd.payloadLength = n) (hfit : hd.pos + 4 + n < 2 ^ 31) :
    ∃ msg', acceptFrame msg inBuffer hd =
        some ⟨frameType (inBuffer 0 &&& 0x0F) ((inBuffer 0 >>> 7) &&& 0x01),
          (hd.pos + 4 + n : Nat), msg', [0, 1] ++ hd.reads ++
            (List.range' hd.pos 4 ++ (List.range' 0 n).map (hd.pos + 4 + ·))⟩ ∧
      CIArchive.Wrote msg ((List.range' 0 n).map fun j => inBuffer (hd.pos + 4 + j) ^^^
        maskByte (maskWord inBuffer hd.pos) (j % 4)) msg' := by
  obtain ⟨msg', hun, hw⟩ := unmask_write (fun i => inBuffer (hd.pos + 4 + i))
    (maskWord inBuffer hd.pos) 0 n h hmode
  refine ⟨msg', ?_, hw⟩
  have hcopy : copyPayload msg inBuffer ((inBuffer 1 >>> 7) &&& 0x01) hd =
      some (msg', hd.pos + 4, List.range' hd.pos 4 ++
        (List.range' 0 n).map (hd.pos + 4 + ·)) := by
    rw [copyPayload, if_pos ((msgMasked_iff inBuffer).2 hm), hn, Int.toNat_natCast]
    exact bind_eq_of_some hun rfl
  have hadd : addInt (hd.pos + 4 : Nat) hd.payloadLength = some (hd.pos + 4 + n : Nat) := by
    rw [hn, addInt_of_fits (by omega) (by omega)]
    rfl
  exact bind_eq_of_some hcopy (bind_eq_of_some hadd rfl)

theorem maskedFrame_length (b₀ : Byte) (form : LengthForm) (key : Fin 4 → Byte)
    (payload : List Byte) :
    (maskedFrame b₀ form key payload).length =
      1 + (form.encode payload.length).length + 4 + payload.length := by
  simp [maskedFrame, applyMask]
  omega

/-- A complete masked frame is decoded, whatever follows it, as long as `in_length` can hold the
length of it all. -/
theorem getWebSocketFrame_complete {msg : CLXZMessage} (h : msg.Ready) (hc : msg.content = [])
    (hmode : msg.mode = .smWrite) (b₀ : Byte) {form : LengthForm} (key : Fin 4 → Byte)
    {payload : List Byte} (hform : form.Holds payload.length) (trailing : List Byte) (outLen : Int)
    (htotal : (maskedFrame b₀ form key payload ++ trailing).length < 2 ^ 31) :
    ∃ r, getWebSocketFrame msg (bufferOf (maskedFrame b₀ form key payload ++ trailing))
        (toInt32 (maskedFrame b₀ form key payload ++ trailing).length) outLen = some r ∧
      r.msg.content = payload ∧ r.outLen = (maskedFrame b₀ form key payload).length ∧
      (maskedFrame b₀ form key payload ++ trailing).drop r.outLen.toNat = trailing ∧
      r.type = declaredType (b₀.toNat % 16) (decide (128 ≤ b₀.toNat)) ∧
      ∀ i ∈ r.reads, i < (maskedFrame b₀ form key payload).length := by
  have hlen := maskedFrame_length b₀ form key payload
  have hs : maskedFrame b₀ form key payload ++ trailing =
      b₀ :: form.encode payload.length ++
        (List.ofFn key ++ (applyMask key payload ++ trailing)) := by
    simp [maskedFrame]
  rw [List.length_append] at htotal
  generalize hbuf : bufferOf (maskedFrame b₀ form key payload ++ trailing) = inBuffer
  obtain ⟨hm, hh, hp⟩ := header_encoded b₀ (List.ofFn key ++ (applyMask key payload ++ trailing)) hform
  rw [← hs, hbuf] at hm hh hp
  have hpos : 0 < (form.encode payload.length).length := by cases form <;> simp [LengthForm.encode]
  have hpl : (header inBuffer).payloadLength = payload.length := by
    rw [header_payloadLength, hp, toInt32_of_lt (by omega)]
  -- The completeness test passes.
  have hsize : addInt (toInt32 (payloadSize inBuffer)) (headerSize inBuffer) =
      some ((payload.length : Int) + headerSize inBuffer) := by
    rw [hp, toInt32_of_lt (by omega), addInt_of_fits (by omega) (by omega)]
  have hL : (3 : Int) ≤ (maskedFrame b₀ form key payload ++ trailing).length := by
    rw [List.length_append]; omega
  have he := frame_tested msg outLen hL (by omega) hsize
  rw [if_neg (by rw [List.length_append]; omega)] at he
  obtain ⟨msg', hacc, hw⟩ := acceptFrame_unmasks h hmode hm hpl (by rw [header_pos]; omega)
  have hpay := unmask_payload (b₀ :: form.encode payload.length) key payload trailing
    (hbuf.symm.trans (congrArg bufferOf hs))
  have hpre : (b₀ :: form.encode payload.length).length = (header inBuffer).pos := by
    rw [header_pos, hh, List.length_cons, Nat.add_comm]
  rw [hpre] at hpay
  rw [hpay] at hw
  have hout : (header inBuffer).pos + 4 + payload.length =
      (maskedFrame b₀ form key payload).length := by rw [header_pos, hh, hlen]
  rw [hacc, header_reads, hout] at he
  refine ⟨_, by rw [toInt32_of_lt (by rw [List.length_append]; omega), he], ?_, rfl, ?_, ?_, ?_⟩
  · rw [(hw.append (h.atEnd_of_empty hc)).1, hc, List.nil_append]
  · simp
  · have hb0 : inBuffer 0 = b₀ := by rw [← hbuf, hs]; rfl
    rw [hb0]
    exact frameType_eq b₀
  · intro i hi
    simp only [List.mem_append, List.mem_map, List.mem_range'_1, header_pos] at hi
    obtain hi | hi | ⟨j, hj, rfl⟩ := hi <;> omega

/-- A final text frame with the payload `hi` and a byte of the next frame. -/
theorem getWebSocketFrame_complete_text :
    ∃ r, getWebSocketFrame (CIArchive.fresh.setMode 0)
        (bufferOf (maskedFrame 0x81 .bits7 (fun _ => 5) [104, 105] ++ [0x89]))
        (toInt32 (maskedFrame 0x81 .bits7 (fun _ => 5) [104, 105] ++ [0x89]).length) 0 = some r ∧
      r.msg.content = [104, 105] ∧ r.outLen = 8 ∧
      (maskedFrame 0x81 .bits7 (fun _ => 5) [104, 105] ++ [0x89]).drop r.outLen.toNat = [0x89] ∧
      r.type = .textFrame ∧ ∀ i ∈ r.reads, i < 8 :=
  getWebSocketFrame_complete (CIArchive.ready_fresh 0) (CIArchive.content_fresh 0) rfl 0x81
    (fun _ => 5) (show LengthForm.bits7.Holds [104, 105].length by simp [LengthForm.Holds]) [0x89] 0
    (by decide)

private theorem narrowed_length (s : List Byte) (hs : s.length = 2 ^ 31) (msg : CLXZMessage) :
    luaGetWebSocketFrame msg s = some ⟨.incompleteFrame, 0, msg, []⟩ := by
  have hneg : toInt32 s.length < 3 := by
    rw [hs, toInt32_of_ge (by omega) (by omega)]
    omega
  exact if_pos hneg

/-- No more than the `int` can count is read: with `2^31` bytes in the buffer, which is more than a
Lua string has, `in_length` is negative, and a complete frame in front of them is not found. -/
theorem long_buffer_incomplete :
    ¬ ∃ r, luaGetWebSocketFrame (CIArchive.fresh.setMode 0)
        (maskedFrame 0x81 .bits7 (fun _ => 0) [] ++ List.replicate (2 ^ 31 - 6) 0) = some r ∧
      r.msg.content = [] ∧ r.outLen = (maskedFrame 0x81 .bits7 (fun _ => 0) []).length ∧
      r.type = declaredType 1 true := by
  intro hdecoded
  obtain ⟨r, he, -, -, ht⟩ := hdecoded
  rw [narrowed_length _ (by rw [List.length_append, List.length_replicate, maskedFrame_length]; rfl),
    Option.some.injEq] at he
  subst he
  cases ht

end EventServer.WebSocket
