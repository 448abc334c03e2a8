import EventServer.Archive.SerialMsg

/-!
# Lengths from the wire

The functions that read a length and then that many bytes take the length as an
`int` and compare it with the size of the buffer as it is. A negative one passes
the comparison, becomes a `size_t`, and whether `Read` then stops it depends on
the sum with the cursor, which wraps.
-/
namespace EventServer.Archive.CIArchive

open EventServer.Lib.Blocks EventServer.Lib.CInt EventServer.Lib.ByteOrder EventServer.Stream

/-- The `int` that `Serial(l)` gives at position `pos`. It keeps its 0 where there are no four
bytes to read. -/
def announcedAt (ar : CIArchive) (pos : Nat) : Int :=
  if pos + 4 ≤ ar.content.length then
    (ar.longSwapFn (fromLe 32 ((ar.content.drop pos).take 4))).toInt
  else 0

def announced (ar : CIArchive) : Int := ar.announcedAt ar.stream.curPos

/-- The length at `pos` is negative and the wrapped sum passes the test of `Read`. -/
def WrapsBackAt (ar : CIArchive) (pos : Nat) : Prop :=
  ar.announcedAt pos < 0 ∧ addSize (pos + 4) (ar.announcedAt pos) ≤ ar.content.length

def WrapsBack (ar : CIArchive) : Prop := ar.WrapsBackAt ar.stream.curPos

/-- In a content that memory can hold, that is a length that leads back to a byte in front of the
cursor. -/
theorem wrapsBackAt_iff {ar : CIArchive} {pos : Nat} (hpos : pos ≤ ar.content.length)
    (hsize : ar.content.length < 2 ^ 63) :
    ar.WrapsBackAt pos ↔ ar.announcedAt pos < 0 ∧ -(pos + 4 : Int) ≤ ar.announcedAt pos := by
  have hlow : -2 ^ 31 ≤ ar.announcedAt pos := by
    unfold announcedAt
    split
    · exact BitVec.le_toInt _
    · decide
  apply and_congr_right
  intro hneg
  constructor
  · intro h
    unfold addSize toSizeT at h
    split_ifs at h <;> omega
  · intro h
    have hfour : pos + 4 ≤ ar.content.length := by
      by_contra hshort
      rw [announcedAt, if_neg hshort] at hneg
      omega
    unfold addSize toSizeT
    split_ifs <;> omega

/-- An archive over these bytes, to be read from their start. -/
def holding (bytes : List Byte) : CIArchive :=
  (((CIArchive.fresh.setMode 0).streamWrite bytes bytes.length).getD .fresh).setMode 1

theorem ready_holding (bytes : List Byte) : (holding bytes).Ready := by
  obtain ⟨ar, he, hw⟩ := streamWrite_all (ready_fresh 0) bytes rfl
  rw [holding, he, Option.getD_some]
  exact ready_setMode hw.ready.wf 1

theorem content_holding (bytes : List Byte) : (holding bytes).content = bytes := by
  obtain ⟨ar, he, hw⟩ := streamWrite_all (ready_fresh 0) bytes rfl
  rw [holding, he, Option.getD_some, content_setMode, (hw.append (atEnd_fresh 0)).1, content_fresh,
    List.nil_append]

theorem streamRead_cases {ar : CIArchive} (h : ar.Ready) (n : Nat) :
    (ar.stream.curPos + n ≤ ar.content.length ∧ ∃ ar',
        ar.streamRead n = some (toInt32 n, ar.remaining.take n, ar') ∧ Moved ar ar' ∧
        ar'.stream.curPos = ar.stream.curPos + n) ∨
      (ar.content.length < ar.stream.curPos + n ∧ ∃ ar',
        ar.streamRead n = some (-1, [], ar') ∧ Moved ar ar' ∧
        ar'.stream.curPos = ar.stream.curPos) := by
  have hread := CIMemFile.read_spec h.wf n
  by_cases hn : ar.stream.curPos + n ≤ ar.stream.content.length
  · rw [if_pos hn] at hread
    have he : ar.streamRead n = some (toInt32 n, ar.remaining.take n,
        { ar with stream := { ar.stream with curPos := ar.stream.curPos + n } }) := by
      simp only [streamRead, h.attached, ↓reduceIte, hread, Option.bind_eq_bind, Option.bind_some]
      rfl
    exact .inl ⟨hn, _, he, streamRead_moved h he, rfl⟩
  · rw [if_neg hn] at hread
    have he : ar.streamRead n = some (-1, [],
        { ar with stream := { ar.stream with errorCode := .errRead } }) := by
      simp [streamRead, h.attached, hread]
    exact .inr ⟨Nat.lt_of_not_le hn, _, he, streamRead_moved h he, rfl⟩

/-- A negative size either goes through as a copy no object has room for, or is a failed read. -/
theorem streamRead_neg {ar : CIArchive} (h : ar.Ready) {n : Int} (hn : n < 0) :
    (addSize ar.stream.curPos n ≤ ar.content.length ∧ ar.streamRead n = none) ∨
      (ar.content.length < addSize ar.stream.curPos n ∧ ∃ ar',
        ar.streamRead n = some (-1, [], ar') ∧ Moved ar ar') := by
  have hcp := h.content_length
  by_cases hle : addSize ar.stream.curPos n ≤ ar.stream.fastBuf.cpLen
  · refine .inl ⟨by omega, ?_⟩
    have hcopy : CIMemFile.copyLen n = none := if_neg (by omega)
    simp [streamRead, h.attached, CIMemFile.read, hle, hcopy]
  · have he : ar.streamRead n = some (-1, [],
        { ar with stream := { ar.stream with errorCode := .errRead } }) := by
      simp [streamRead, h.attached, CIMemFile.read, hle]
    exact .inr ⟨by omega, _, he, streamRead_moved h he⟩

/-- An integer is taken whole or not at all; in the second case the variable stays as it was. -/
theorem serialWord_cases {w : Nat} {ar : CIArchive} (h : ar.Ready) (hm : ar.mode = .smRead)
    (hw : 0 < w / 8) (hw' : w / 8 < 2 ^ 31) (swap : BitVec w → BitVec w) :
    (ar.stream.curPos + w / 8 ≤ ar.content.length ∧ ∃ ar',
        (∀ l, ar.serialWord swap l = some (swap (fromLe w (ar.remaining.take (w / 8))), ar')) ∧
        Moved ar ar' ∧ ar'.stream.curPos = ar.stream.curPos + w / 8) ∨
      (ar.content.length < ar.stream.curPos + w / 8 ∧ ∃ ar',
        (∀ l, ar.serialWord swap l = some (l, ar')) ∧ Moved ar ar' ∧
        ar'.stream.curPos = ar.stream.curPos) := by
  have hret : 0 < toInt32 (w / 8) := by
    rw [toInt32_of_lt hw']
    omega
  rcases streamRead_cases h (w / 8) with ⟨hfit, ar', he, hmv, hpos⟩ | ⟨hshort, ar', he, hmv, hpos⟩
  · refine .inl ⟨hfit, ar', fun l => ?_, hmv, hpos⟩
    simp only [serialWord, hm]
    exact bind_eq_of_some he (by rw [if_pos hret]; rfl)
  · refine .inr ⟨hshort, ar', fun l => ?_, hmv, hpos⟩
    simp only [serialWord, hm]
    exact bind_eq_of_some he rfl

/-- `int l = 0; Serial(l);` -/
theorem serialInt_announced {ar : CIArchive} (h : ar.Ready) (hm : ar.mode = .smRead) :
    ∃ l ar', ar.serialInt 0 = some (l, ar') ∧ l.toInt = ar.announced ∧ Moved ar ar' ∧
      (ar.stream.curPos + 4 ≤ ar.content.length →
        ar'.stream.curPos = ar.stream.curPos + 4) := by
  rcases serialWord_cases h hm (by decide) (by decide) ar.longSwapFn with
    ⟨hfit, ar', he, hmv, hpos⟩ | ⟨hshort, ar', he, hmv, hpos⟩
  · refine ⟨_, ar', he 0, ?_, hmv, fun _ => hpos⟩
    rw [announced, announcedAt, if_pos hfit]
    rfl
  · have hnot := Nat.not_le.mpr hshort
    exact ⟨0, ar', he 0, (if_neg hnot).symm, hmv, fun hfit => absurd hfit hnot⟩

theorem four_of_announced {ar : CIArchive} (h : ar.announced ≠ 0) :
    ar.stream.curPos + 4 ≤ ar.content.length := by
  by_contra hnot
  exact h (if_neg hnot)

theorem announced_of_remaining {ar : CIArchive} (h : ar.Ready) {l : BitVec 32} {rest : List Byte}
    (hr : ar.remaining = leBytes 4 l.toNat ++ rest) :
    ar.announced = (ar.longSwapFn l).toInt ∧ ar.stream.curPos + 4 ≤ ar.content.length := by
  have hlen := congrArg List.length hr
  rw [remaining, List.length_drop, List.length_append, leBytes_length] at hlen
  have hfit : ar.stream.curPos + 4 ≤ ar.content.length := by
    have hpos := h.pos_le
    omega
  have htake : (ar.content.drop ar.stream.curPos).take 4 = leBytes 4 l.toNat := by
    rw [show ar.content.drop ar.stream.curPos = _ from hr, List.take_left' (leBytes_length 4 _)]
  refine ⟨?_, hfit⟩
  rw [announced, announcedAt, if_pos hfit, htake, fromLe_leBytes (k := 4) rfl]

/-- Reading `n` bytes into a buffer that has room for them leaves what lies behind. -/
theorem serialBuf_inside {ar : CIArchive} (h : ar.Ready) (hm : ar.mode = .smRead)
    (str : List Byte) {n : Nat} (hn : n ≤ str.length) :
    ∃ str' ar', ar.serialBuf str n = some (str', ar') ∧ str'.length = str.length ∧
      str'.drop n = str.drop n ∧
      (ar'.stream.curPos = ar.stream.curPos + n ∨ ar'.stream.curPos = ar.stream.curPos) := by
  obtain ⟨ret, bytes, ar', he, hb, hpos⟩ : ∃ ret bytes ar',
      ar.streamRead n = some (ret, bytes, ar') ∧ bytes.length ≤ n ∧
      (ar'.stream.curPos = ar.stream.curPos + n ∨ ar'.stream.curPos = ar.stream.curPos) := by
    rcases streamRead_cases h n with ⟨-, ar', he, -, hpos⟩ | ⟨-, ar', he, -, hpos⟩
    · exact ⟨_, _, ar', he, List.length_take_le n _, .inl hpos⟩
    · exact ⟨_, [], ar', he, Nat.zero_le n, .inr hpos⟩
  have hfit : 0 + bytes.length ≤ str.length := by omega
  refine ⟨splice str 0 bytes, ar', ?_, ?_, drop_splice bytes (Nat.zero_le _) (by omega), hpos⟩
  · simp only [serialBuf, hm]
    exact bind_eq_of_some he (bind_eq_of_some (blit_of_fits hfit) rfl)
  · rw [splice_length (Nat.zero_le _)]
    omega

/-! ## `SerialStr` -/

/-- `SerialStr` with a buffer of `len + 1` bytes writes to none but these, and leaves a terminator
among them. -/
def StrInside (ar : CIArchive) (str : List Byte) (len : Nat) : Prop :=
  ∃ str' ar', ar.serialStr str len = some (str', ar') ∧ str'.length = str.length ∧ 0 ∈ str'

/-- `str[l] = 0`. -/
def terminate (l : Int) (r : List Byte × CIArchive) : Option (List Byte × CIArchive) := do
  let i ← CIMemFile.copyLen l
  let str ← blit r.1 i [0]
  return (str, r.2)

theorem serialStr_read {ar : CIArchive} (h : ar.Ready) (hm : ar.mode = .smRead) (str : List Byte)
    (len : Int) : ∃ ar₁, Moved ar ar₁ ∧
      (ar.stream.curPos + 4 ≤ ar.content.length →
        ar₁.stream.curPos = ar.stream.curPos + 4) ∧
      ar.serialStr str len =
        if ar.announced < len then
          (ar₁.serialBuf str ar.announced).bind (terminate ar.announced)
        else terminate ar.announced (str, ar₁) := by
  obtain ⟨l, ar₁, he₁, hann, hmv, hpos⟩ := serialInt_announced h hm
  refine ⟨ar₁, hmv, hpos, ?_⟩
  simp only [serialStr, hm, he₁, Option.bind_eq_bind, Option.bind_some, hann]
  rfl

theorem terminate_of_neg {l : Int} (hl : l < 0) : terminate l = fun _ => none := by
  funext r
  rw [terminate, CIMemFile.copyLen, if_neg (by omega)]
  rfl

theorem terminate_natCast (i : Nat) (str : List Byte) (ar : CIArchive) :
    terminate i (str, ar) = if i < str.length then some (splice str i [0], ar) else none := by
  simp only [terminate, CIMemFile.copyLen_natCast, Option.bind_eq_bind, Option.bind_some, blit,
    List.length_singleton, Nat.succ_le_iff]
  split <;> rfl

/-- Where `SerialStr` is defined at all, the announced length is an index of the buffer. The
terminator is there, and the cursor moved over that many bytes or over none. -/
theorem serialStr_defined {ar : CIArchive} (h : ar.Ready) (hm : ar.mode = .smRead)
    {str str' : List Byte} {ar' : CIArchive} {len : Nat} (hl : len ≤ str.length)
    (he : ar.serialStr str len = some (str', ar')) :
    ∃ i : Nat, ar.announced = i ∧ i < str.length ∧ str'[i]? = some 0 ∧
      (ar.stream.curPos + 4 ≤ ar.content.length →
        ar'.stream.curPos = ar.stream.curPos + 4 ∨
          i < len ∧ ar'.stream.curPos = ar.stream.curPos + 4 + i) := by
  obtain ⟨ar₁, hmv, hpos, hread⟩ := serialStr_read h hm str len
  rw [hread] at he
  rcases Int.lt_or_le ar.announced 0 with hneg | hnonneg
  · simp [terminate_of_neg hneg] at he
  obtain ⟨i, hi⟩ := Int.eq_ofNat_of_zero_le hnonneg
  rw [hi] at he
  have hterm : ∀ (s : List Byte) (ar₂ : CIArchive), s.length = str.length →
      terminate i (s, ar₂) = some (str', ar') →
      i < str.length ∧ str'[i]? = some 0 ∧ ar₂ = ar' := by
    intro s ar₂ hs ht
    rw [terminate_natCast, Option.ite_none_right_eq_some, Option.some.injEq, Prod.mk.injEq] at ht
    obtain ⟨hlt, rfl, rfl⟩ := ht
    refine ⟨by omega, ?_, rfl⟩
    rw [getElem?_splice (by omega), if_neg (by omega), if_pos (by simp)]
    simp
  split at he
  · obtain ⟨s, ar₂, hs, hlen, -, hcur⟩ := serialBuf_inside hmv.ready (hmv.mode.trans hm) str
      (n := i) (by omega)
    rw [hs, Option.bind_some] at he
    obtain ⟨hlt, hzero, rfl⟩ := hterm s ar₂ hlen he
    refine ⟨i, hi, hlt, hzero, fun hfour => ?_⟩
    rw [hpos hfour] at hcur
    exact hcur.symm.imp_right fun hc => ⟨by omega, hc⟩
  · obtain ⟨hlt, hzero, rfl⟩ := hterm str ar₁ rfl he
    exact ⟨i, hi, hlt, hzero, fun hfour => .inl (hpos hfour)⟩

/-- The terminator is stored at the announced length whether or not the bytes were read. -/
theorem serialStr_inside_iff {ar : CIArchive} (h : ar.Ready) (hm : ar.mode = .smRead)
    {str : List Byte} {len : Nat} (hl : str.length = len + 1) :
    ar.StrInside str len ↔ 0 ≤ ar.announced ∧ ar.announced ≤ len := by
  constructor
  · intro hin
    obtain ⟨str', ar', he, -, -⟩ := hin
    obtain ⟨i, hi, hlt, -⟩ := serialStr_defined h hm (by omega) he
    omega
  · intro hin
    obtain ⟨hpos, hle⟩ := hin
    obtain ⟨ar₁, hmv, -, hread⟩ := serialStr_read h hm str len
    obtain ⟨i, hi⟩ := Int.eq_ofNat_of_zero_le hpos
    unfold StrInside
    rw [hread, hi]
    rw [hi] at hle
    have hterm : ∀ (s : List Byte) (ar₂ : CIArchive), s.length = str.length →
        ∃ str' ar', terminate i (s, ar₂) = some (str', ar') ∧ str'.length = str.length ∧
          0 ∈ str' := by
      intro s ar₂ hs
      refine ⟨splice s i [0], ar₂, ?_, ?_, by simp [splice]⟩
      · rw [terminate_natCast, if_pos (by omega)]
      · rw [splice_length (by omega), List.length_singleton]
        omega
    split
    · obtain ⟨s, ar₂, hs, hlen, -, -⟩ := serialBuf_inside hmv.ready (hmv.mode.trans hm) str
        (n := i) (by omega)
      rw [hs, Option.bind_some]
      exact hterm s ar₂ hlen
    · exact hterm str ar₁ rfl

/-- Three bytes are announced and there. -/
theorem serialStr_inside_three : (holding [3, 0, 0, 0, 97, 98, 99]).StrInside
    (List.replicate 256 1) 255 :=
  (serialStr_inside_iff (ready_holding _) rfl List.length_replicate).mpr (by decide +kernel)

/-- A length of 256 is not read, but its terminator is stored behind the 256 bytes. -/
theorem serialStr_stores_behind :
    ¬ (holding [0, 1, 0, 0]).StrInside (List.replicate 256 1) 255 := by
  have hnone : (holding [0, 1, 0, 0]).serialStr (List.replicate 256 1) 255 = none := by
    decide +kernel
  intro hin
  obtain ⟨str', ar', he, -⟩ := hin
  rw [Nat.cast_ofNat, hnone] at he
  cases he

/-! ## Blocks -/

/-- The three-argument `Serial` copies at most `nMaxBuf` bytes: in a buffer that has them, nothing
behind them changes. -/
def BlockInside (ar : CIArchive) (str : List Byte) (len : Int) (nMaxBuf : Nat) : Prop :=
  ∃ str' ar', ar.serialBlock str len nMaxBuf = some (str', ar') ∧ str'.length = str.length ∧
    str'.drop nMaxBuf = str.drop nMaxBuf

theorem serialBlock_read {ar : CIArchive} (h : ar.Ready) (hm : ar.mode = .smRead)
    {str : List Byte} (len : Int) {nMaxBuf : Nat} (hroom : nMaxBuf ≤ str.length) :
    ∃ str₀ ar₁, str₀.length = str.length ∧ str₀.drop nMaxBuf = str.drop nMaxBuf ∧ Moved ar ar₁ ∧
      (ar.stream.curPos + 4 ≤ ar.content.length →
        ar₁.stream.curPos = ar.stream.curPos + 4) ∧
      ar.serialBlock str len nMaxBuf =
        if ar.announced ≤ nMaxBuf then ar₁.serialBuf str₀ ar.announced else some (str₀, ar₁) := by
  obtain ⟨l, ar₁, he₁, hann, hmv, hpos⟩ := serialInt_announced h hm
  have hzero : blit str 0 (List.replicate nMaxBuf 0) =
      some (splice str 0 (List.replicate nMaxBuf 0)) := blit_of_fits (by simpa using hroom)
  refine ⟨splice str 0 (List.replicate nMaxBuf 0), ar₁, ?_, ?_, hmv, hpos, ?_⟩
  · rw [splice_length (Nat.zero_le _), List.length_replicate]
    omega
  · exact drop_splice _ (Nat.zero_le _) (by simp)
  · simp only [serialBlock, hm, Int.toNat_natCast, hzero, he₁, Option.bind_eq_bind,
      Option.bind_some, hann, Option.pure_def]

theorem serialBlock_wrapsBack {ar : CIArchive} (h : ar.Ready) (hm : ar.mode = .smRead)
    {str : List Byte} (len : Int) {nMaxBuf : Nat} (hroom : nMaxBuf ≤ str.length)
    (hw : ar.WrapsBack) : ar.serialBlock str len nMaxBuf = none := by
  obtain ⟨hneg, hle⟩ : ar.announced < 0 ∧ _ := hw
  obtain ⟨str₀, ar₁, -, -, hmv, hpos, hread⟩ := serialBlock_read h hm len hroom
  have hp : ar₁.stream.curPos = ar.stream.curPos + 4 := hpos (four_of_announced (by omega))
  rw [hread, if_pos (by omega)]
  rcases streamRead_neg hmv.ready hneg with ⟨-, hnone⟩ | ⟨hgt, -⟩
  · simp [serialBuf, hmv.mode.trans hm, hnone]
  · rw [hp, hmv.content] at hgt
    exact absurd hle (Nat.not_le.mpr hgt)

theorem serialBlock_inside {ar : CIArchive} (h : ar.Ready) (hm : ar.mode = .smRead)
    {str : List Byte} (len : Int) {nMaxBuf : Nat} (hroom : nMaxBuf ≤ str.length)
    (hw : ¬ ar.WrapsBack) : ar.BlockInside str len nMaxBuf := by
  obtain ⟨str₀, ar₁, hlen, hdrop, hmv, hpos, hread⟩ := serialBlock_read h hm len hroom
  have hm₁ : ar₁.mode = .smRead := hmv.mode.trans hm
  unfold BlockInside
  rw [hread]
  rcases Int.lt_or_le ar.announced 0 with hneg | hnonneg
  · have hp : ar₁.stream.curPos = ar.stream.curPos + 4 := hpos (four_of_announced (by omega))
    rw [if_pos (by omega)]
    rcases streamRead_neg hmv.ready hneg with ⟨hle, -⟩ | ⟨-, ar₂, hfail, -⟩
    · rw [hp, hmv.content] at hle
      exact absurd ⟨hneg, hle⟩ hw
    · exact ⟨str₀, ar₂, by simp [serialBuf, hm₁, hfail, blit], hlen, hdrop⟩
  · split
    · obtain ⟨n, hn⟩ := Int.eq_ofNat_of_zero_le hnonneg
      obtain ⟨str', ar', he, hl, hd, -⟩ := serialBuf_inside hmv.ready hm₁ str₀ (n := n)
        (by omega)
      have hsplit : ∀ cells : List Byte, cells.drop nMaxBuf = (cells.drop n).drop (nMaxBuf - n) := by
        intro cells
        rw [List.drop_drop]
        congr 1
        omega
      refine ⟨str', ar', by rw [hn, he], hl.trans hlen, ?_⟩
      rw [← hdrop, hsplit, hd, ← hsplit]
    · exact ⟨str₀, ar₁, rfl, hlen, hdrop⟩

/-! ## Framed messages -/

/-- The lengths at the cursor are harmless for `SerialMsg`: the second one does not lead back, or
the first one is out of range and `Read(NULL, 0x0FFFFFFF)` fails. -/
def FrameHarmless (msg ar : CIArchive) : Prop :=
  if 0 ≤ ar.announced ∧ ar.announced < maxMsgLen then
    0 < ar.announced → ¬ ar.WrapsBackAt (ar.stream.curPos + 4)
  else msg.content.length < msg.stream.curPos + 0x0FFFFFFF

theorem announcedAt_congr {ar ar' : CIArchive} (h : Moved ar ar') (pos : Nat) :
    ar'.announcedAt pos = ar.announcedAt pos := by
  rw [announcedAt, announcedAt, h.content, longSwapFn, longSwapFn, h.swapped]

theorem wrapsBack_of_moved {ar ar' : CIArchive} (h : Moved ar ar') :
    ar'.WrapsBack ↔ ar.WrapsBackAt ar'.stream.curPos := by
  rw [WrapsBack, WrapsBackAt, WrapsBackAt, announcedAt_congr h, h.content]

theorem recvBody_wrapsBack (u : Nat → Byte) (msg : CLXZMessage) {ar : CIArchive} (h : ar.Ready)
    (hm : ar.mode = .smRead) {n : Nat} (hn : 0 < n) (hw : ar.WrapsBack) :
    recvBody u msg ar n = none := by
  have hroom : n ≤ ((List.range n).map u).length := by simp
  have hnone := serialBlock_wrapsBack h hm n hroom hw
  simp [recvBody, hn, hnone]

theorem recvBody_inside (u : Nat → Byte) {msg : CLXZMessage} (hmsg : msg.Ready) {ar : CIArchive}
    (h : ar.Ready) (hm : ar.mode = .smRead) {n : Nat} (hn : 0 < n) (hw : ¬ ar.WrapsBack) :
    ∃ msg' ar', recvBody u msg ar n = some (msg', ar') ∧ msg'.Ready := by
  have hroom : n ≤ ((List.range n).map u).length := by simp
  obtain ⟨buf, ar₁, hblock, hlen, -⟩ := serialBlock_inside h hm n hroom hw
  have hl : n ≤ buf.length := by rw [hlen]; exact hroom
  obtain ⟨msg₁, he₁, hw₁⟩ := streamWrite_spec (ready_setMode hmsg.wf 0) buf hl
  refine ⟨msg₁, ar₁, ?_, hw₁.ready⟩
  simp only [recvBody, Nat.cast_pos, hn, ↓reduceIte, Int.toNat_natCast, hblock, hmsg.baseSetMode,
    Option.bind_eq_bind, Option.bind_some, serialBuf, mode_setMode, SerialMode.ofInt, he₁,
    Option.pure_def, zero_ne_one]

/-- Null has no room for a byte, so only a read that fails is defined. -/
theorem readNull_cases {msg : CLXZMessage} (h : msg.Ready) {n : Nat} (hn : 0 < n) :
    (msg.stream.curPos + n ≤ msg.content.length ∧ msg.readNull n = none) ∨
      (msg.content.length < msg.stream.curPos + n ∧ ∃ msg', msg.readNull n = some msg' ∧
        msg'.Ready) := by
  have hread := CIMemFile.read_spec h.wf n
  by_cases hfit : msg.stream.curPos + n ≤ msg.stream.content.length
  · rw [if_pos hfit] at hread
    have hlen : ((msg.stream.content.drop msg.stream.curPos).take n).length = n := by
      rw [List.length_take, List.length_drop]
      omega
    have hblit : blit [] 0 ((msg.stream.content.drop msg.stream.curPos).take n) = none :=
      if_neg (by rw [hlen, List.length_nil]; omega)
    exact .inl ⟨hfit, by simp [readNull, hread, hblit]⟩
  · rw [if_neg hfit] at hread
    have hblit : blit ([] : List Byte) 0 [] = some [] := rfl
    exact .inr ⟨Nat.lt_of_not_le hfit, _, bind_eq_of_some hread (bind_eq_of_some hblit rfl),
      h.attached, h.wf.fastBuf, h.wf.pos⟩

theorem serialMsg_isSome_iff (u : Nat → Byte) {msg ar : CIArchive} (hmsg : msg.Ready)
    (h : ar.Ready) (hm : ar.mode = .smRead) :
    (serialMsg u msg ar).isSome ↔ FrameHarmless msg ar := by
  obtain ⟨l, ar₁, he₁, hann, hmv, hpos⟩ := serialInt_announced h hm
  have hm₁ : ar₁.mode = .smRead := hmv.mode.trans hm
  by_cases hin : 0 ≤ ar.announced ∧ ar.announced < maxMsgLen
  · have hbody : serialMsg u msg ar = (recvBody u msg ar₁ ar.announced).bind fun r =>
        (r.1.baseSetMode 1).bind fun msg => some (msg, r.2) := by
      simp only [serialMsg, hm, he₁, Option.bind_eq_bind, Option.bind_some, hann]
      rw [if_pos hin]
      rfl
    obtain ⟨n, hn⟩ := Int.eq_ofNat_of_zero_le hin.1
    rw [FrameHarmless, if_pos hin, hbody, hn]
    rcases Nat.eq_zero_or_pos n with rfl | hn0
    · have hempty : recvBody u msg ar₁ (0 : Nat) = some (msg, ar₁) := rfl
      rw [hempty, Option.bind_some, hmsg.baseSetMode]
      simp
    · have hp : ar₁.stream.curPos = ar.stream.curPos + 4 := hpos (four_of_announced (by omega))
      rw [← hp, ← wrapsBack_of_moved hmv]
      by_cases hw : ar₁.WrapsBack
      · rw [recvBody_wrapsBack u msg hmv.ready hm₁ hn0 hw]
        simp [hn0, hw]
      · obtain ⟨msg', ar', he, hr⟩ := recvBody_inside u hmsg hmv.ready hm₁ hn0 hw
        simp [he, hr.baseSetMode, hw]
  · have hnull : serialMsg u msg ar = ((msg.readNull 0x0FFFFFFF).map fun msg => (msg, ar₁)).bind
        fun r => (r.1.baseSetMode 1).bind fun msg => some (msg, r.2) := by
      simp only [serialMsg, hm, he₁, Option.bind_eq_bind, Option.bind_some, hann]
      rw [if_neg hin]
      rfl
    rw [FrameHarmless, if_neg hin, hnull]
    rcases readNull_cases hmsg (n := 0x0FFFFFFF) (by decide) with ⟨hfit, hnone⟩ | ⟨hlt, msg', he, hr⟩
    · refine iff_of_false ?_ (Nat.not_lt.mpr hfit)
      rw [Nat.cast_ofNat] at hnone
      simp [hnone]
    · refine iff_of_true ?_ hlt
      rw [Nat.cast_ofNat] at he
      simp [he, hr.baseSetMode]

/-- Both reads stay inside their buffers exactly when no length that gets that far leads back in
front of the cursor. -/
theorem blocks_inside_iff {ar : CIArchive} (h : ar.Ready) (hm : ar.mode = .smRead) :
    (∀ (str : List Byte) (len : Int) (nMaxBuf : Nat), nMaxBuf ≤ str.length →
      (ar.BlockInside str len nMaxBuf ↔ ¬ ar.WrapsBack)) ∧
    ∀ (u : Nat → Byte) (msg : CLXZMessage), msg.Ready →
      ((serialMsg u msg ar).isSome ↔ FrameHarmless msg ar) := by
  refine ⟨?_, fun u msg hmsg => serialMsg_isSome_iff u hmsg h hm⟩
  intro str len nMaxBuf hroom
  refine ⟨?_, serialBlock_inside h hm len hroom⟩
  intro hin hw
  obtain ⟨str', ar', he, -⟩ := hin
  rw [serialBlock_wrapsBack h hm len hroom hw] at he
  cases he

theorem blocks_inside_two :
    (holding [2, 0, 0, 0, 5, 6]).BlockInside [9, 9, 9] 3 3 ∧
      (serialMsg (fun _ => 1) (CIArchive.fresh.setMode 0)
        (holding [1, 0, 0, 0, 1, 0, 0, 0, 5])).isSome := by
  constructor
  · apply ((blocks_inside_iff (ready_holding _) rfl).1 [9, 9, 9] 3 3 (by decide)).mpr
    rw [WrapsBack, WrapsBackAt, not_and_or]
    exact .inl (by decide +kernel)
  · apply ((blocks_inside_iff (ready_holding _) rfl).2 _ _ (ready_fresh 0)).mpr
    rw [FrameHarmless, if_pos (by decide +kernel), WrapsBackAt]
    exact fun _ hw => absurd hw.1 (by decide +kernel)

/-- Minus one passes both tests of the block, and the copy into a buffer of one byte has `2^64 - 1`
bytes. -/
theorem block_length_wraps :
    ¬ (holding [255, 255, 255, 255]).BlockInside [9] 1 1 ∧
      serialMsg (fun _ => 0) (CIArchive.fresh.setMode 0)
        (holding [1, 0, 0, 0, 255, 255, 255, 255]) = none := by
  refine ⟨?_, by decide +kernel⟩
  have hnone : (holding [255, 255, 255, 255]).serialBlock [9] 1 1 = none := by decide +kernel
  intro hin
  obtain ⟨str', ar', he, -⟩ := hin
  rw [Nat.cast_one, hnone] at he
  cases he

end EventServer.Archive.CIArchive
