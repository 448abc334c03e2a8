import EventServer.Archive.RoundTrip

/-!
# Messages inside an archive

`SerialMsg` writes a message as its length and a length-prefixed block, so that
the length of a message that is not empty is there twice. Reading goes through a
temporary buffer and the write path of the receiving message. The version that
is copied from the archive is not modelled: nothing reads it.
-/
namespace EventServer.Archive

open EventServer.Lib.Blocks EventServer.Lib.CInt EventServer.Lib.ByteOrder EventServer.Stream

/-- The length from which on `SerialMsg` rejects a message. -/
def maxMsgLen : Nat := 104857600

namespace CIArchive

/-- `CIArchive::setMode()`, which leaves `m_pISerial` as it is. -/
def baseSetMode (ar : CIArchive) (nMode : Int) : Option CIArchive :=
  if ar.attached then some { ar with stream := ar.stream.setPos 0, mode := .ofInt nMode } else none

/-- `m_IMemStream.Read(NULL, nSize)`. -/
def readNull (msg : CLXZMessage) (nSize : Int) : Option CLXZMessage := do
  let (_, bytes, f) ← msg.stream.read nSize
  let _ ← blit [] 0 bytes
  return { msg with stream := f }

/-- The branch of `SerialMsg()` for a length in range: `u` is what `new char[len]` holds. -/
def recvBody (u : Nat → Byte) (msg : CLXZMessage) (ar : CIArchive) (len : Int) :
    Option (CLXZMessage × CIArchive) :=
  if 0 < len then do
    let (buf, ar) ← ar.serialBlock ((List.range len.toNat).map u) len len
    let msg ← msg.baseSetMode 0
    let (_, msg) ← msg.serialBuf buf len
    return (msg, ar)
  else some (msg, ar)

def serialMsg (u : Nat → Byte) (msg : CLXZMessage) (ar : CIArchive) :
    Option (CLXZMessage × CIArchive) :=
  match ar.mode with
  | .smRead => do
    let (len, ar) ← ar.serialInt 0
    let (msg, ar) ←
      if 0 ≤ len.toInt ∧ len.toInt < maxMsgLen then recvBody u msg ar len.toInt
      else (msg.readNull 0x0FFFFFFF).map fun msg => (msg, ar)
    let msg ← msg.baseSetMode 1
    return (msg, ar)
  | .smWrite => do
    let len := msg.getMsgSize
    let (_, ar) ← ar.serialInt (BitVec.ofInt 32 len)
    if 0 < len then do
      let blk ← msg.stream.fastBuf.buf
      let (_, ar) ← ar.serialBlock blk len len
      return (msg, ar)
    else return (msg, ar)

/-- One `SerialMsg` after the other on the same archive. -/
def serialMsgs (u : Nat → Byte) (ar : CIArchive) :
    List CLXZMessage → Option (List CLXZMessage × CIArchive)
  | [] => some ([], ar)
  | msg :: msgs => do
    let (msg, ar) ← serialMsg u msg ar
    let (msgs, ar) ← serialMsgs u ar msgs
    return (msg :: msgs, ar)

/-! ## The frame -/

/-- The frame of a message with these bytes. -/
def frame (bytes : List Byte) : List Byte :=
  if bytes = [] then leBytes 4 0
  else leBytes 4 bytes.length ++ (leBytes 4 bytes.length ++ bytes)

theorem Ready.baseSetMode {msg : CLXZMessage} (h : msg.Ready) (nMode : Int) :
    msg.baseSetMode nMode = some (msg.setMode nMode) := by
  rw [CIArchive.baseSetMode, if_pos h.attached, setMode, h.attached]

theorem getMsgSize_of_short {msg : CLXZMessage} (h : msg.stream.Wf)
    (hlt : msg.content.length < maxMsgLen) : msg.getMsgSize = msg.content.length := by
  have hl : msg.stream.fastBuf.cpLen = msg.content.length := h.content_length.symm
  rw [getMsgSize, CIMemFile.getValidCount, hl]
  unfold maxMsgLen at hlt
  exact toInt32_of_lt (by omega)

/-- The block behind `getMsgPtr()` starts with the content. -/
theorem buf_of_wf {msg : CLXZMessage} (h : msg.stream.Wf) :
    ∃ blk, msg.stream.fastBuf.buf = some blk ∧ msg.content.length ≤ blk.length ∧
      blk.take msg.content.length = msg.content := by
  obtain ⟨blk, hblk, hl⟩ := h.fastBuf.buf_eq
  have hle := h.fastBuf.le
  have hcp : msg.content.length = msg.stream.fastBuf.cpLen := h.content_length
  refine ⟨blk, hblk, by omega, ?_⟩
  rw [hcp]
  exact (FastBufAlloc.content_of_buf hblk).symm

/-- Writing a message puts its frame at the cursor. -/
theorem serialMsg_write (u : Nat → Byte) {msg : CLXZMessage} (hmsg : msg.stream.Wf)
    (hlt : msg.content.length < maxMsgLen) {ar : CIArchive} (h : ar.Ready)
    (hm : ar.mode = .smWrite) :
    ∃ ar', serialMsg u msg ar = some (msg, ar') ∧ Wrote ar (frame msg.content) ar' := by
  have hsize := getMsgSize_of_short hmsg hlt
  unfold maxMsgLen at hlt
  obtain ⟨ar₁, he₁, hw₁⟩ := serialWord_write h hm ar.longSwapFn (BitVec.ofNat 32 msg.content.length)
  rw [Field.toNat_len (by omega)] at hw₁
  by_cases hc : msg.content = []
  · refine ⟨ar₁, ?_, ?_⟩
    · have hnot : ¬ 0 < msg.content.length := by simp [hc]
      simp only [serialMsg, hm, hsize, serialInt, BitVec.ofInt_natCast, he₁, Option.bind_eq_bind,
        Option.bind_some, Nat.cast_pos, hnot, ↓reduceIte, Option.pure_def]
    · rw [hc] at hw₁
      rw [frame, if_pos hc]
      exact hw₁
  · have hpos : 0 < msg.content.length := List.length_pos_iff.mpr hc
    obtain ⟨blk, hblk, hle, htake⟩ := buf_of_wf hmsg
    obtain ⟨ar₂, he₂, hw₂⟩ := Field.serialBlock_write hw₁.ready (hw₁.mode.trans hm) _ hle (by omega)
      msg.content.length
    rw [htake] at hw₂
    refine ⟨ar₂, ?_, ?_⟩
    · simp only [serialMsg, hm, hsize, serialInt, BitVec.ofInt_natCast, he₁, Option.bind_eq_bind,
        Option.bind_some, Nat.cast_pos, hpos, ↓reduceIte, hblk, he₂, Option.pure_def]
    · rw [frame, if_neg hc]
      exact hw₁.trans h hw₂

/-- A message that took in a frame with these bytes. -/
structure Received (msg : CLXZMessage) (bytes : List Byte) (msg' : CLXZMessage) : Prop where
  ready : msg'.Ready
  content : msg'.content = splice msg.content 0 bytes
  mode : msg'.mode = .smRead
  pos : msg'.stream.curPos = 0

theorem received_setMode {msg msg' : CLXZMessage} {bytes : List Byte} (h : msg'.Ready)
    (hc : msg'.content = splice msg.content 0 bytes) : Received msg bytes (msg'.setMode 1) :=
  ⟨ready_setMode h.wf 1, by rw [content_setMode, hc], rfl, curPos_setMode _ _⟩

/-- The temporary buffer is filled and written over the front of the message. -/
theorem recvBody_spec (u : Nat → Byte) {msg : CLXZMessage} (hmsg : msg.Ready) {ar : CIArchive}
    (h : ar.Ready) (hm : ar.mode = .smRead) {bytes : List Byte} (hk : ar.KeepsLength bytes.length)
    (hpos : 0 < bytes.length) (hlt : bytes.length < 2 ^ 31) {rest : List Byte}
    (hr : ar.remaining = leBytes 4 bytes.length ++ (bytes ++ rest)) :
    ∃ msg' ar', recvBody u msg ar bytes.length = some (msg', ar') ∧
      Consumed ar (4 + bytes.length) rest ar' ∧ msg'.Ready ∧
      msg'.content = splice msg.content 0 bytes := by
  have hroom : bytes.length ≤ ((List.range bytes.length).map u).length := by simp
  have hr' : ar.remaining = leBytes 4 bytes.length ++ (bytes.take bytes.length ++ rest) := by
    rwa [List.take_length]
  obtain ⟨ar', he, hc⟩ := Field.serialBlock_readBack h hm hk bytes.length (Nat.le_refl _)
    (Nat.le_refl _) hlt hroom hr'
  have hbuf : bytes.take bytes.length ++ (List.replicate (bytes.length - bytes.length) 0 ++
      ((List.range bytes.length).map u).drop bytes.length) = bytes := by
    simp
  rw [hbuf] at he
  obtain ⟨msg₁, he₁, hw₁⟩ := streamWrite_all (n := bytes.length) (ready_setMode hmsg.wf 0) bytes rfl
  refine ⟨msg₁, ar', ?_, hc, hw₁.ready, ?_⟩
  · simp only [recvBody, Nat.cast_pos, hpos, ↓reduceIte, Int.toNat_natCast, he, hmsg.baseSetMode,
      Option.bind_eq_bind, Option.bind_some, serialBuf, mode_setMode, SerialMode.ofInt, he₁,
      Option.pure_def, zero_ne_one]
  · rw [hw₁.content, content_setMode, curPos_setMode]

/-- Reading takes a frame back, into whatever message receives it. -/
theorem serialMsg_read (u : Nat → Byte) {msg : CLXZMessage} (hmsg : msg.Ready) {ar : CIArchive}
    (h : ar.Ready) (hm : ar.mode = .smRead) {bytes : List Byte} (hk : ar.KeepsLength bytes.length)
    (hlt : bytes.length < maxMsgLen) {rest : List Byte} (hr : ar.remaining = frame bytes ++ rest) :
    ∃ msg' ar', serialMsg u msg ar = some (msg', ar') ∧
      Consumed ar (frame bytes).length rest ar' ∧ Received msg bytes msg' := by
  have hlt' : bytes.length < 2 ^ 31 := by unfold maxMsgLen at hlt; omega
  have hrange : (0 : Int) ≤ bytes.length ∧ (bytes.length : Int) < maxMsgLen := by omega
  by_cases hb : bytes = []
  · rw [frame, if_pos hb] at hr ⊢
    rw [hb] at hk
    have hid : ar.longSwapFn 0 = 0 := hk
    obtain ⟨ar', he, hc⟩ := serialInt_readBack h hm hid 0 hr
    refine ⟨msg.setMode 1, ar', ?_, hc, received_setMode hmsg (by rw [hb, splice_nil])⟩
    have hin : 0 ≤ (0 : BitVec 32).toInt ∧ (0 : BitVec 32).toInt < maxMsgLen := by decide
    have hbody : recvBody u msg ar' (0 : BitVec 32).toInt = some (msg, ar') := rfl
    simp only [serialMsg, hm]
    apply bind_eq_of_some he
    rw [if_pos hin]
    exact bind_eq_of_some hbody (bind_eq_of_some (hmsg.baseSetMode 1) rfl)
  · have hpos : 0 < bytes.length := List.length_pos_iff.mpr hb
    rw [frame, if_neg hb, List.append_assoc, List.append_assoc] at hr
    rw [← Field.toNat_len hlt'] at hr
    obtain ⟨ar₁, he₁, hc₁⟩ := serialInt_readBack h hm hk 0 hr
    rw [Field.toNat_len hlt'] at hc₁
    obtain ⟨msg', ar₂, he₂, hc₂, hr₂, hcont⟩ := recvBody_spec u hmsg hc₁.moved.ready
      (hc₁.moved.mode.trans hm) (hk.congr hc₁.moved.swapped) hpos hlt' hc₁.remaining
    refine ⟨msg'.setMode 1, ar₂, ?_, ?_, received_setMode hr₂ hcont⟩
    · simp only [serialMsg, hm, he₁, Option.bind_eq_bind, Option.bind_some, Field.toInt_len hlt',
        hrange, and_self, ↓reduceIte, he₂, hr₂.baseSetMode, Option.pure_def]
    · have hlen : (frame bytes).length = 4 + (4 + bytes.length) := by
        rw [frame, if_neg hb, List.length_append, List.length_append, leBytes_length]
      rw [hlen]
      exact hc₁.trans hc₂

/-! ## Lists of messages -/

def frames (msgs : List CLXZMessage) : List Byte := msgs.flatMap fun msg => frame msg.content

theorem serialMsgs_write (u : Nat → Byte) (msgs : List CLXZMessage) {ar : CIArchive} (h : ar.Ready)
    (hm : ar.mode = .smWrite)
    (hmsgs : ∀ msg ∈ msgs, msg.stream.Wf ∧ msg.content.length < maxMsgLen) :
    ∃ ar', serialMsgs u ar msgs = some (msgs, ar') ∧ Wrote ar (frames msgs) ar' := by
  induction msgs generalizing ar with
  | nil => exact ⟨ar, rfl, h, (splice_nil _ _).symm, rfl, rfl, rfl, rfl⟩
  | cons msg msgs ih =>
    obtain ⟨hwf, hlt⟩ := hmsgs msg List.mem_cons_self
    obtain ⟨ar₁, he₁, hw₁⟩ := serialMsg_write u hwf hlt h hm
    obtain ⟨ar₂, he₂, hw₂⟩ := ih hw₁.ready (hw₁.mode.trans hm)
      fun m hmem => hmsgs m (List.mem_cons_of_mem msg hmem)
    exact ⟨ar₂, bind_eq_of_some he₁ (bind_eq_of_some he₂ rfl), hw₁.trans h hw₂⟩

/-- The frames come back one by one, each into the next receiver. -/
theorem serialMsgs_read (u : Nat → Byte) {msgs receivers : List CLXZMessage}
    (hr : receivers.length = msgs.length) (hready : ∀ r ∈ receivers, r.Ready)
    (hlt : ∀ msg ∈ msgs, msg.content.length < maxMsgLen) {ar : CIArchive} (h : ar.Ready)
    (hm : ar.mode = .smRead) (hs : ar.swapped = false) {rest : List Byte}
    (hrem : ar.remaining = frames msgs ++ rest) :
    ∃ received ar', serialMsgs u ar receivers = some (received, ar') ∧
      Consumed ar (frames msgs).length rest ar' ∧
      List.Forall₂ (fun rm r' => Received rm.1 rm.2.content r') (receivers.zip msgs) received := by
  induction msgs generalizing ar receivers with
  | nil =>
    obtain rfl := List.length_eq_zero_iff.mp hr
    exact ⟨[], ar, rfl, ⟨.refl h, hrem, rfl, rfl⟩, .nil⟩
  | cons msg msgs ih =>
    obtain ⟨r, receivers, rfl⟩ := List.exists_of_length_succ receivers hr
    rw [frames, List.flatMap_cons, List.append_assoc] at hrem
    obtain ⟨r', ar₁, he₁, hc₁, hrec⟩ := serialMsg_read u (hready r List.mem_cons_self) h hm
      (keepsLength_default hs _) (hlt msg List.mem_cons_self) hrem
    obtain ⟨received, ar₂, he₂, hc₂, hall⟩ := ih (by simpa using hr)
      (fun x hx => hready x (List.mem_cons_of_mem r hx))
      (fun m hmem => hlt m (List.mem_cons_of_mem msg hmem)) hc₁.moved.ready
      (hc₁.moved.mode.trans hm) (hc₁.moved.swapped.trans hs) hc₁.remaining
    refine ⟨r' :: received, ar₂, bind_eq_of_some he₁ (bind_eq_of_some he₂ rfl), ?_,
      .cons hrec hall⟩
    rw [frames, List.flatMap_cons, List.length_append]
    exact hc₁.trans hc₂

/-- A receiver that has nothing yet ends up with the bytes of the message. -/
theorem contents_received {msgs receivers received : List CLXZMessage}
    (hr : receivers.length = msgs.length) (hempty : ∀ r ∈ receivers, r.content = [])
    (hall : List.Forall₂ (fun rm r' => Received rm.1 rm.2.content r') (receivers.zip msgs)
      received) :
    received.map content = msgs.map content ∧
      ∀ r ∈ received, r.getMode = SerialMode.smRead.toInt ∧ r.getPos = some 0 := by
  induction msgs generalizing receivers received with
  | nil =>
    obtain rfl := List.length_eq_zero_iff.mp hr
    cases hall
    exact ⟨rfl, nofun⟩
  | cons msg msgs ih =>
    obtain ⟨r, receivers, rfl⟩ := List.exists_of_length_succ receivers hr
    cases hall with
    | @cons _ r' _ received hrec hrest =>
      obtain ⟨hmap, hmodes⟩ := ih (by simpa using hr)
        (fun x hx => hempty x (List.mem_cons_of_mem r hx)) hrest
      refine ⟨?_, List.forall_mem_cons.mpr ⟨⟨?_, ?_⟩, hmodes⟩⟩
      · rw [List.map_cons, List.map_cons, hmap, hrec.content, hempty r List.mem_cons_self]
        simp [splice]
      · rw [getMode, hrec.mode]
      · rw [hrec.ready.getPos, hrec.pos]

/-- Messages written one after the other into a new archive come back from its start, in order, and
nothing is left over. -/
theorem messages_framed (u v : Nat → Byte) (msgs : List CLXZMessage)
    (hmsgs : ∀ msg ∈ msgs, msg.stream.Wf ∧ msg.content.length < maxMsgLen)
    (receivers : List CLXZMessage) (hr : receivers.length = msgs.length)
    (hfresh : ∀ r ∈ receivers, ∃ nMode, r = CIArchive.fresh.setMode nMode) :
    ∃ ar, serialMsgs u (CIArchive.fresh.setMode SerialMode.smWrite.toInt) msgs = some (msgs, ar) ∧
      ∃ received ar',
        serialMsgs v (ar.setMode SerialMode.smRead.toInt) receivers = some (received, ar') ∧
        received.map content = msgs.map content ∧
        (∀ r ∈ received, r.getMode = SerialMode.smRead.toInt ∧ r.getPos = some 0) ∧
        ar'.content = ar.content ∧ ar'.getPos = some ar'.content.length := by
  obtain ⟨ar, he, hw⟩ := serialMsgs_write u msgs (ready_fresh 0) rfl hmsgs
  have hcont : ar.content = frames msgs := by
    rw [(hw.append (atEnd_fresh 0)).1, content_fresh, List.nil_append]
  have hrem : (ar.setMode 1).remaining = frames msgs ++ [] := by
    rw [remaining, curPos_setMode, content_setMode, hcont, List.drop_zero, List.append_nil]
  have hready : ∀ r ∈ receivers, r.Ready := by
    intro r hmem
    obtain ⟨nMode, rfl⟩ := hfresh r hmem
    exact ready_fresh nMode
  have hempty : ∀ r ∈ receivers, r.content = [] := by
    intro r hmem
    obtain ⟨nMode, rfl⟩ := hfresh r hmem
    exact content_fresh nMode
  obtain ⟨received, ar', he', hc, hall⟩ := serialMsgs_read v hr hready
    (fun m hmem => (hmsgs m hmem).2) (ready_setMode hw.ready.wf 1) rfl
    (by rw [swapped_setMode, hw.swapped]; rfl) hrem
  obtain ⟨hmap, hmodes⟩ := contents_received hr hempty hall
  have hsame : ar'.content = ar.content := by rw [hc.moved.content, content_setMode]
  refine ⟨ar, he, received, ar', he', hmap, hmodes, hsame, ?_⟩
  rw [hc.moved.ready.getPos, hc.pos, curPos_setMode, Nat.zero_add, hsame, hcont]

/-- A message that holds the byte 7. -/
def holdsSeven : CLXZMessage :=
  ⟨⟨⟨none, 7 :: List.replicate 32 0, 1, 32⟩, 1, .errNo⟩, true, .smWrite, false⟩

theorem wf_holdsSeven : holdsSeven.stream.Wf := by
  refine ⟨⟨by decide, ?_, by decide, by decide, by decide⟩, by decide⟩
  intro h hh
  cases hh

/-- Three messages, the second empty. -/
theorem messages_framed_three :
    ∃ ar received ar',
      serialMsgs (fun _ => 0) (CIArchive.fresh.setMode 0) [holdsSeven, .fresh, holdsSeven] =
        some ([holdsSeven, .fresh, holdsSeven], ar) ∧
      serialMsgs (fun _ => 0) (ar.setMode 1) [CIArchive.fresh.setMode 0, CIArchive.fresh.setMode 1,
        CIArchive.fresh.setMode 0] = some (received, ar') ∧
      received.map content = [[7], [], [7]] := by
  obtain ⟨ar, he, received, ar', he', hmap, -⟩ := messages_framed (fun _ => 0) (fun _ => 0)
    [holdsSeven, .fresh, holdsSeven] (by
      intro msg hmem
      simp only [List.mem_cons, List.not_mem_nil, or_false] at hmem
      rcases hmem with rfl | rfl | rfl
      · exact ⟨wf_holdsSeven, by decide⟩
      · exact ⟨CIMemFile.wf_fresh, by decide⟩
      · exact ⟨wf_holdsSeven, by decide⟩)
    [CIArchive.fresh.setMode 0, CIArchive.fresh.setMode 1, CIArchive.fresh.setMode 0] rfl (by
      intro r hmem
      simp only [List.mem_cons, List.not_mem_nil, or_false] at hmem
      rcases hmem with rfl | rfl | rfl
      · exact ⟨0, rfl⟩
      · exact ⟨1, rfl⟩
      · exact ⟨0, rfl⟩)
  exact ⟨ar, received, ar', he, he', hmap.trans (by decide)⟩

end CIArchive
end EventServer.Archive
