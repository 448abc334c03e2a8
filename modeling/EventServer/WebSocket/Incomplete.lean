import EventServer.WebSocket.Frame

/-!
# Frames that are not complete

The completeness test leaves the mask out, comes after the length bytes have
been read and is made in `int`. Below the announced size a frame is turned away
as it should exactly when the length bytes are there and header and payload
alone do not fit.
-/
namespace EventServer.WebSocket

open EventServer.Lib.Blocks EventServer.Lib.CInt EventServer.Lib.ByteOrder
open EventServer.Stream EventServer.Archive

/-- The decoder turns the input away, leaves the content alone and reads inside the input. -/
def Rejects (msg : CLXZMessage) (inBuffer : Buffer) (inLength outLen : Int) : Prop :=
  ∃ r, getWebSocketFrame msg inBuffer inLength outLen = some r ∧
    (r.type = .incompleteFrame ∨ r.type = .errorFrame) ∧ r.msg.content = msg.content ∧
    ∀ i ∈ r.reads, (i : Int) < inLength

/-- An opcode without a type. -/
def unknownOpcode (inBuffer : Buffer) : Prop := (inBuffer 0).toNat % 16 ∉ [0, 1, 2, 9, 10]

theorem frameType_error_iff (inBuffer : Buffer) :
    frameType (inBuffer 0 &&& 0x0F) ((inBuffer 0 >>> 7) &&& 0x01) = .errorFrame ↔
      unknownOpcode inBuffer := by
  unfold unknownOpcode
  generalize inBuffer 0 = b
  revert b
  decide

/-- Too short for any header; or the length bytes are there and either header and payload do not
fit, or the payload length is negative as an `int` and nothing is done with it. -/
def Rejectable (msg : CLXZMessage) (inBuffer : Buffer) (inLength : Int) : Prop :=
  inLength < 3 ∨ (headerSize inBuffer ≤ inLength ∧
    ((headerSize inBuffer + payloadSize inBuffer < 2 ^ 31 ∧
        inLength < headerSize inBuffer + payloadSize inBuffer) ∨
      (2 ^ 31 ≤ payloadSize inBuffer ∧ payloadSize inBuffer < 2 ^ 32 ∧ unknownOpcode inBuffer ∧
        if masked inBuffer then 14 ≤ inLength else msg.mode = .smRead)))

section

variable {msg : CLXZMessage} {inBuffer : Buffer} {inLength outLen : Int}

theorem acceptFrame_reads {hd : Header} {r : Decoded} (hm : masked inBuffer = true)
    (h : acceptFrame msg inBuffer hd = some r) :
    r.reads = [0, 1] ++ hd.reads ++ (List.range' hd.pos 4 ++
      (List.range' 0 hd.payloadLength.toNat).map (hd.pos + 4 + ·)) := by
  simp only [acceptFrame, Option.bind_eq_bind, Option.bind_eq_some_iff, Option.pure_def,
    Option.some.injEq] at h
  obtain ⟨⟨msg', pos, more⟩, hcopy, out, -, rfl⟩ := h
  rw [copyPayload, if_pos ((msgMasked_iff inBuffer).2 hm)] at hcopy
  simp only [Option.bind_eq_bind, Option.bind_eq_some_iff, Option.pure_def, Option.some.injEq,
    Prod.mk.injEq] at hcopy
  obtain ⟨⟨msg₁, reads⟩, hun, -, -, rfl⟩ := hcopy
  rw [unmask_reads hun]

/-- A negative payload length: nothing is copied from a masked frame. -/
theorem acceptFrame_negative_masked {hd : Header} (hm : masked inBuffer = true)
    (hn : hd.payloadLength < 0) (hl : -2 ^ 31 ≤ hd.payloadLength) (hpos : hd.pos = 10) :
    acceptFrame msg inBuffer hd =
      some ⟨frameType (inBuffer 0 &&& 0x0F) ((inBuffer 0 >>> 7) &&& 0x01),
        14 + hd.payloadLength, msg, [0, 1] ++ hd.reads ++ List.range' 10 4⟩ := by
  have hz : hd.payloadLength.toNat = 0 := by omega
  have hcopy : copyPayload msg inBuffer ((inBuffer 1 >>> 7) &&& 0x01) hd =
      some (msg, 14, List.range' 10 4) := by
    rw [copyPayload, if_pos ((msgMasked_iff inBuffer).2 hm), hz, hpos]
    rfl
  have hadd : addInt (14 : Nat) hd.payloadLength = some (14 + hd.payloadLength) := by
    rw [addInt_of_fits (by omega) (by omega)]
    rfl
  exact bind_eq_of_some hcopy (bind_eq_of_some hadd rfl)

theorem acceptFrame_negative_plain {hd : Header} (hm : ¬ masked inBuffer = true)
    (hn : hd.payloadLength < 0) (hl : -2 ^ 31 ≤ hd.payloadLength) (hpos : hd.pos = 10) :
    acceptFrame msg inBuffer hd =
      if msg.mode = .smRead then
        some ⟨frameType (inBuffer 0 &&& 0x0F) ((inBuffer 0 >>> 7) &&& 0x01),
          10 + hd.payloadLength, msg, [0, 1] ++ hd.reads⟩
      else none := by
  have hm' : ¬ ((inBuffer 1 >>> 7) &&& 0x01 ≠ 0) := fun h => hm ((msgMasked_iff inBuffer).1 h)
  cases hmode : msg.mode with
  | smRead =>
    have hcopy : copyPayload msg inBuffer ((inBuffer 1 >>> 7) &&& 0x01) hd = some (msg, 10, []) := by
      rw [copyPayload, if_neg hm', hmode, hpos]
      simp [CIArchive.write, hmode]
    have hadd : addInt (10 : Nat) hd.payloadLength = some (10 + hd.payloadLength) := by
      rw [addInt_of_fits (by omega) (by omega)]
      rfl
    rw [if_pos rfl]
    exact bind_eq_of_some hcopy (bind_eq_of_some hadd (by simp))
  | smWrite =>
    have hcopy : copyPayload msg inBuffer ((inBuffer 1 >>> 7) &&& 0x01) hd = none := by
      rw [copyPayload, if_neg hm', hmode]
      simp [CIArchive.write, hmode, CIArchive.streamWrite, CIMemFile.write_of_neg _ _ hn]
    rw [acceptFrame, hcopy]
    rfl

theorem range'_below (inLength : Int) (a : Nat) {n : Nat} (hn : 0 < n) :
    (∀ i ∈ List.range' a n, (i : Int) < inLength) ↔ ((a + n : Nat) : Int) ≤ inLength := by
  constructor
  · intro h
    have := h (a + n - 1) (List.mem_range'_1.mpr ⟨by omega, by omega⟩)
    omega
  · intro h i hi
    have := (List.mem_range'_1.mp hi).2
    omega

theorem frameType_ne_incomplete (o f : Byte) : frameType o f ≠ .incompleteFrame := by
  unfold frameType
  split_ifs <;> simp

theorem rejects_of_some {r : Decoded} (he : getWebSocketFrame msg inBuffer inLength outLen = some r) :
    Rejects msg inBuffer inLength outLen ↔
      (r.type = .incompleteFrame ∨ r.type = .errorFrame) ∧ r.msg.content = msg.content ∧
        ∀ i ∈ r.reads, (i : Int) < inLength := by
  constructor
  · intro hrej
    obtain ⟨r', he', h⟩ := hrej
    rw [he, Option.some.injEq] at he'
    subst he'
    exact h
  · intro h
    exact ⟨r, he, h⟩

theorem rejects_of_none (he : getWebSocketFrame msg inBuffer inLength outLen = none) :
    ¬ Rejects msg inBuffer inLength outLen := by
  intro hrej
  obtain ⟨r, he', -⟩ := hrej
  rw [he] at he'
  cases he'

theorem rejects_short (hL : 3 ≤ inLength) (hp : payloadSize inBuffer < 2 ^ 32) {size : Int}
    (hs : addInt (toInt32 (payloadSize inBuffer)) (headerSize inBuffer) = some size)
    (hlt : inLength < size) :
    Rejects msg inBuffer inLength outLen ↔ headerSize inBuffer ≤ inLength := by
  have he := frame_tested msg outLen hL hp hs
  rw [if_pos hlt] at he
  have hpos : 0 < headerSize inBuffer := by
    obtain ⟨h | h, -⟩ | h := headerSize_cases inBuffer <;> omega
  have hb := range'_below inLength 0 hpos
  rw [Nat.zero_add] at hb
  rw [rejects_of_some he, ← hb]
  simp

theorem rejects_negative (hL : 3 ≤ inLength) (hp : 2 ^ 31 ≤ payloadSize inBuffer)
    (hp' : payloadSize inBuffer < 2 ^ 32) :
    Rejects msg inBuffer inLength outLen ↔
      headerSize inBuffer ≤ inLength ∧ unknownOpcode inBuffer ∧
        if masked inBuffer then 14 ≤ inLength else msg.mode = .smRead := by
  have hh : headerSize inBuffer = 10 := by
    obtain ⟨-, h⟩ | h := headerSize_cases inBuffer
    · omega
    · exact h
  have hneg := toInt32_of_ge hp hp'
  have hs : addInt (toInt32 (payloadSize inBuffer)) (headerSize inBuffer) =
      some ((payloadSize inBuffer : Int) - 2 ^ 32 + 10) := by
    rw [hneg, hh, addInt_of_fits (by omega) (by omega)]; rfl
  have hn : (header inBuffer).payloadLength < 0 := by rw [header_payloadLength]; omega
  have hl : -2 ^ 31 ≤ (header inBuffer).payloadLength := by rw [header_payloadLength]; omega
  by_cases hlt : inLength < (payloadSize inBuffer : Int) - 2 ^ 32 + 10
  · rw [rejects_short hL hp' hs hlt]
    constructor <;> intro h <;> omega
  · have he := frame_tested msg outLen hL hp' hs
    rw [if_neg hlt] at he
    have h10 := range'_below inLength 0 (n := 10) (by omega)
    have h14 := range'_below inLength 10 (n := 4) (by omega)
    have ht := frameType_ne_incomplete (inBuffer 0 &&& 0x0F) ((inBuffer 0 >>> 7) &&& 0x01)
    by_cases hm : masked inBuffer = true
    · rw [acceptFrame_negative_masked hm hn hl hh, header_reads, hh] at he
      rw [rejects_of_some he, if_pos hm, hh]
      simp only [ht, false_or, true_and, List.mem_append, or_imp, forall_and, h10, h14,
        frameType_error_iff]
      constructor
      · intro hrej
        obtain ⟨htype, -, h⟩ := hrej
        exact ⟨by omega, htype, by omega⟩
      · intro hrej
        obtain ⟨-, htype, h⟩ := hrej
        exact ⟨htype, by omega, by omega⟩
    · rw [acceptFrame_negative_plain hm hn hl hh, header_reads, hh] at he
      rw [if_neg hm, hh]
      by_cases hmode : msg.mode = .smRead
      · rw [if_pos hmode] at he
        rw [rejects_of_some he]
        simp only [ht, false_or, true_and, h10, hmode, and_true, frameType_error_iff]
        exact and_comm
      · rw [if_neg hmode] at he
        exact iff_of_false (rejects_of_none he) fun h => hmode h.2.2

/-- Header and payload are there, but not the mask in front of the payload: the mask is read all
the same, and the payload after it, past the end of the input. -/
theorem rejects_unmaskable (hL : 3 ≤ inLength) (hm : masked inBuffer = true)
    (hov : headerSize inBuffer + payloadSize inBuffer < 2 ^ 31)
    (hge : (headerSize inBuffer + payloadSize inBuffer : Int) ≤ inLength)
    (hlt : inLength < headerSize inBuffer + 4 + payloadSize inBuffer) :
    ¬ Rejects msg inBuffer inLength outLen := by
  have hpl := toInt32_of_lt (n := payloadSize inBuffer) (by omega)
  have hs : addInt (toInt32 (payloadSize inBuffer)) (headerSize inBuffer) =
      some ((payloadSize inBuffer : Int) + headerSize inBuffer) := by
    rw [hpl, addInt_of_fits (by omega) (by omega)]
  have he := frame_tested msg outLen hL (by omega) hs
  rw [if_neg (by omega)] at he
  intro hrej
  obtain ⟨r, he', -, -, hr⟩ := hrej
  have hreads := acceptFrame_reads hm (he.symm.trans he')
  rw [header_payloadLength, hpl, Int.toNat_natCast, header_pos] at hreads
  -- The last byte that is read: of the mask, or of the payload if there is any.
  have hlast : headerSize inBuffer + 3 + payloadSize inBuffer ∈ r.reads := by
    rw [hreads]
    apply List.mem_append_right _
    rcases Nat.eq_zero_or_pos (payloadSize inBuffer) with hz | hpos
    · exact List.mem_append_left _ (List.mem_range'_1.mpr ⟨by omega, by omega⟩)
    · refine List.mem_append_right _ (List.mem_map.mpr ⟨payloadSize inBuffer - 1, ?_, by omega⟩)
      exact List.mem_range'_1.mpr ⟨by omega, by omega⟩
  have := hr _ hlast
  omega

/-- Input that ends before the announced size is turned away, without touching the message and
without reading past its end, exactly if it is `Rejectable`. -/
theorem rejects_iff (hshort : inLength < announced inBuffer) :
    Rejects msg inBuffer inLength outLen ↔ Rejectable msg inBuffer inLength := by
  unfold Rejectable
  by_cases h3 : inLength < 3
  · have he : getWebSocketFrame msg inBuffer inLength outLen =
        some ⟨.incompleteFrame, outLen, msg, []⟩ := if_pos h3
    exact iff_of_true ((rejects_of_some he).2 (by simp)) (.inl h3)
  have hL : 3 ≤ inLength := by omega
  by_cases hp32 : payloadSize inBuffer < 2 ^ 32
  · by_cases hp31 : payloadSize inBuffer < 2 ^ 31
    · by_cases hov : headerSize inBuffer + payloadSize inBuffer < 2 ^ 31
      · have hs : addInt (toInt32 (payloadSize inBuffer)) (headerSize inBuffer) =
            some ((payloadSize inBuffer : Int) + headerSize inBuffer) := by
          rw [toInt32_of_lt hp31, addInt_of_fits (by omega) (by omega)]
        by_cases hlt : inLength < payloadSize inBuffer + headerSize inBuffer
        · rw [rejects_short hL hp32 hs hlt]
          constructor
          · intro h
            exact .inr ⟨h, .inl ⟨hov, by omega⟩⟩
          · rintro (h | ⟨h, -⟩)
            · omega
            · exact h
        · have hm : masked inBuffer = true := by
            by_contra hm
            rw [announced, if_neg hm] at hshort
            omega
          rw [announced, if_pos hm] at hshort
          apply iff_of_false (rejects_unmaskable hL hm hov (by omega) (by omega))
          rintro (h | ⟨-, ⟨-, h⟩ | ⟨h, -⟩⟩) <;> omega
      · apply iff_of_false (rejects_of_none (frame_overflows hL hp31 (by omega)))
        rintro (h | ⟨-, ⟨h, -⟩ | ⟨h, -⟩⟩) <;> omega
    · rw [rejects_negative hL (by omega) hp32]
      constructor
      · intro hrej
        obtain ⟨hh, ho, hc⟩ := hrej
        exact .inr ⟨hh, .inr ⟨by omega, hp32, ho, hc⟩⟩
      · rintro (h | ⟨hh, ⟨h, -⟩ | ⟨-, -, ho, hc⟩⟩)
        · omega
        · omega
        · exact ⟨hh, ho, hc⟩
  · apply iff_of_false (rejects_of_none (frame_undefined hL hp32))
    rintro (h | ⟨-, ⟨h, -⟩ | ⟨-, h, -⟩⟩) <;> omega

end

theorem rejects_cut_header :
    Rejects (CIArchive.fresh.setMode 0) (bufferOf [0x81, 0x81, 7, 7, 7, 7]) 2 0 :=
  (rejects_iff (by decide)).2 (.inl (by decide))

/-- Of a masked frame with one byte of payload three bytes have arrived: the test passes and the
mask is read at 2, 3, 4 and 5. -/
theorem rejects_fails_on_mask :
    (3 : Int) < announced (bufferOf [0x81, 0x81, 7]) ∧
      ¬ Rejects (CIArchive.fresh.setMode 0) (bufferOf [0x81, 0x81, 7]) 3 0 := by
  refine ⟨by decide, ?_⟩
  intro hrej
  obtain ⟨r, he, -, -, hr⟩ := hrej
  have hreads : (getWebSocketFrame (CIArchive.fresh.setMode 0) (bufferOf [0x81, 0x81, 7])
      3 0).map (·.reads) = some [0, 1, 2, 3, 4, 5, 6] := by decide +kernel
  rw [he, Option.map_some, Option.some.injEq] at hreads
  have := hr 3 (by rw [hreads]; decide)
  omega

end EventServer.WebSocket
