import EventServer.Archive.IArchive

/-!
# The receive callbacks

`read_cb` serves accepted connections, `read_cb2` those made by `Connect`. Both
switch the connection's message to writing, write what `bufferevent_read`
returns piece by piece and put mode and cursor back. Only `read_cb` moves the
cursor behind the bytes that are already there.
-/
namespace EventServer.Net

open EventServer.Lib.Blocks EventServer.Lib.CInt EventServer.Stream EventServer.Archive

def maxLine : Nat := 1023

/-- What one call of `bufferevent_read(bev, line, MAX_LINE)` returns while there is input:
the next bytes, at least one and at most `MAX_LINE`. -/
structure Piece where
  bytes : List Byte
  pos : 0 < bytes.length
  le : bytes.length ≤ maxLine

/-- The bytes that the calls of one callback return, until one returns 0. -/
def inputBytes (input : List Piece) : List Byte := input.flatMap Piece.bytes

/-- `char line[MAX_LINE+1]`, not initialised. -/
structure Line where
  cells : List Byte
  length_eq : cells.length = maxLine + 1

/-- The loop of both callbacks over the pieces. -/
def recvLoop (line : List Byte) : List Piece → CLXZMessage → Option CLXZMessage
  | [], msg => some msg
  | p :: input, msg => do
    let n := p.bytes.length
    let line ← blit line 0 p.bytes
    let line ← blit line n [0]
    let msg ← msg.write line n
    recvLoop line input msg

/-- The common end of both callbacks: the loop, then mode and cursor are put back. Also
returned is whether the handler is called. -/
def receive (line : Line) (input : List Piece) (oldMode oldPos : Int) (msg : CLXZMessage) :
    Option (CLXZMessage × Bool) := do
  let msg ← recvLoop line.cells input msg
  let msg := msg.setMode oldMode
  let msg ← msg.setPos (toSizeT oldPos)
  return (msg, decide (0 < msg.getMsgSize))

def readCb (line : Line) (input : List Piece) (msg : CLXZMessage) :
    Option (CLXZMessage × Bool) := do
  let oldMode := msg.getMode
  let oldPos := toInt32 (← msg.getPos)
  let pos := msg.getMsgSize
  let msg := msg.setMode 0
  let msg ← msg.setPos (toSizeT pos)
  receive line input oldMode oldPos msg

/-- The size is taken here too, but the cursor is not moved there. -/
def readCb2 (line : Line) (input : List Piece) (msg : CLXZMessage) :
    Option (CLXZMessage × Bool) := do
  let oldMode := msg.getMode
  let oldPos := toInt32 (← msg.getPos)
  let _pos := msg.getMsgSize
  let msg := msg.setMode 0
  receive line input oldMode oldPos msg

/-- The loop writes the pieces one behind the other and stays inside `line`. -/
theorem recvLoop_spec (input : List Piece) {line : List Byte} (hl : line.length = maxLine + 1)
    {msg : CLXZMessage} (h : msg.Ready) (hm : msg.mode = .smWrite) :
    ∃ msg', recvLoop line input msg = some msg' ∧ CIArchive.Wrote msg (inputBytes input) msg' := by
  induction input generalizing line msg with
  | nil => exact ⟨msg, rfl, h, (splice_nil _ _).symm, rfl, rfl, rfl, rfl⟩
  | cons p input ih =>
    have hle := p.le
    have hblit : blit line 0 p.bytes = some (splice line 0 p.bytes) := blit_of_fits (by omega)
    have hlen : (splice line 0 p.bytes).length = maxLine + 1 := by
      rw [splice_length (Nat.zero_le _)]; omega
    have hterm : blit (splice line 0 p.bytes) p.bytes.length [0] =
        some (splice (splice line 0 p.bytes) p.bytes.length [0]) :=
      blit_of_fits (by simp only [List.length_singleton]; omega)
    have hlen' : (splice (splice line 0 p.bytes) p.bytes.length [0]).length = maxLine + 1 := by
      rw [splice_length (by omega), List.length_singleton]; omega
    have htake : (splice (splice line 0 p.bytes) p.bytes.length [0]).take p.bytes.length =
        p.bytes := by
      rw [take_splice_of_le _ (Nat.le_refl _) (by omega)]
      simp [splice]
    obtain ⟨msg₁, he₁, hw₁⟩ := CIArchive.streamWrite_spec h
      (splice (splice line 0 p.bytes) p.bytes.length [0]) (n := p.bytes.length) (by omega)
    rw [htake] at hw₁
    obtain ⟨msg₂, he₂, hw₂⟩ := ih hlen' hw₁.ready (hw₁.mode.trans hm)
    refine ⟨msg₂, ?_, hw₁.trans h hw₂⟩
    simp only [recvLoop, hblit, hterm, CIArchive.write, hm, he₁, he₂, Option.bind_eq_bind,
      Option.bind_some]

/-- What a callback leaves, when it has written the input at position `at'` of the content. -/
structure Received (msg : CLXZMessage) (at' : Nat) (input : List Piece) (msg' : CLXZMessage) :
    Prop where
  ready : msg'.Ready
  content : msg'.content = splice msg.content at' (inputBytes input)
  size : msg'.getMsgSize = toInt32 msg'.content.length
  mode : msg'.mode = msg.mode
  swapped : msg'.swapped = msg.swapped
  errorCode : msg'.stream.errorCode = msg.stream.errorCode
  pos : msg'.stream.curPos =
    if toSizeT (toInt32 msg.stream.curPos) ≤ msg'.content.length then
      toSizeT (toInt32 msg.stream.curPos) else 0

theorem receive_spec (line : Line) (input : List Piece) (msg : CLXZMessage) {msg₁ : CLXZMessage}
    (h : msg₁.Ready) (hm : msg₁.mode = .smWrite) (hc : msg₁.content = msg.content)
    (hs : msg₁.swapped = msg.swapped) (he : msg₁.stream.errorCode = msg.stream.errorCode) :
    ∃ msg', receive line input msg.getMode (toInt32 msg.stream.curPos) msg₁ =
        some (msg', decide (0 < msg'.getMsgSize)) ∧
      Received msg msg₁.stream.curPos input msg' := by
  obtain ⟨msg₂, he₂, hw⟩ := recvLoop_spec input line.length_eq h hm
  have hr : (msg₂.setMode msg.getMode).Ready := CIArchive.ready_setMode hw.ready.wf _
  obtain ⟨msg₃, he₃, hmv, herr, hpos⟩ :=
    CIArchive.setPos_spec hr (toSizeT (toInt32 msg.stream.curPos))
  have hcont : msg₃.content = msg₂.content := by rw [hmv.content, CIArchive.content_setMode]
  refine ⟨msg₃, ?_, hmv.ready, ?_, ?_, ?_, ?_, ?_, ?_⟩
  · exact bind_eq_of_some he₂ (bind_eq_of_some he₃ rfl)
  · rw [hcont, hw.content, hc]
  · rw [CIArchive.getMsgSize, CIMemFile.getValidCount, hmv.ready.content_length]
  · rw [hmv.mode, CIArchive.mode_setMode, CIArchive.getMode, SerialMode.ofInt_toInt]
  · rw [hmv.swapped, CIArchive.swapped_setMode, hw.swapped, hs]
  · rw [herr, CIArchive.errorCode_setMode, hw.errorCode, he]
  · rw [hpos, CIArchive.content_setMode, CIArchive.curPos_setMode, hcont]

/-- Where `read_cb` writes: behind the content as long as `int` can hold its length. -/
def writePos (msg : CLXZMessage) : Nat :=
  if toSizeT (toInt32 msg.content.length) ≤ msg.content.length then
    toSizeT (toInt32 msg.content.length) else 0

theorem writePos_of_lt {msg : CLXZMessage} (h : msg.content.length < 2 ^ 31) :
    writePos msg = msg.content.length := by
  rw [writePos, toInt32_of_lt h, toSizeT_natCast, if_pos (Nat.le_refl _)]

theorem readCb_spec (line : Line) (input : List Piece) {msg : CLXZMessage} (h : msg.Ready) :
    ∃ msg', readCb line input msg = some (msg', decide (0 < msg'.getMsgSize)) ∧
      Received msg (writePos msg) input msg' := by
  have hr : (msg.setMode 0).Ready := CIArchive.ready_setMode h.wf 0
  obtain ⟨msg₁, he₁, hmv, herr, hpos⟩ := CIArchive.setPos_spec hr (toSizeT msg.getMsgSize)
  have hw : msg₁.stream.curPos = writePos msg := by
    rw [hpos, CIArchive.content_setMode, CIArchive.curPos_setMode, writePos, CIArchive.getMsgSize,
      CIMemFile.getValidCount, h.content_length]
  obtain ⟨msg', he, hrec⟩ := receive_spec line input msg hmv.ready hmv.mode
    (by rw [hmv.content, CIArchive.content_setMode]) hmv.swapped
    (by rw [herr, CIArchive.errorCode_setMode])
  refine ⟨msg', ?_, hw ▸ hrec⟩
  exact bind_eq_of_some h.getPos (bind_eq_of_some he₁ he)

theorem readCb2_spec (line : Line) (input : List Piece) {msg : CLXZMessage} (h : msg.Ready) :
    ∃ msg', readCb2 line input msg = some (msg', decide (0 < msg'.getMsgSize)) ∧
      Received msg 0 input msg' := by
  have hr : (msg.setMode 0).Ready := CIArchive.ready_setMode h.wf 0
  obtain ⟨msg', he, hrec⟩ := receive_spec line input msg hr rfl
    (CIArchive.content_setMode _ _) rfl (CIArchive.errorCode_setMode _ _)
  refine ⟨msg', ?_, CIArchive.curPos_setMode msg 0 ▸ hrec⟩
  simp only [readCb2, h.getPos, Option.bind_eq_bind, Option.bind_some, he]

/-- Both callbacks leave the same message, with the input behind what was there. -/
def CallbacksAgree (line line2 : Line) (input : List Piece) (msg : CLXZMessage) : Prop :=
  ∃ m m2 called called2, readCb line input msg = some (m, called) ∧
    readCb2 line2 input msg = some (m2, called2) ∧
    m2.content = m.content ∧ m2.getMsgSize = m.getMsgSize ∧ m2.getMode = m.getMode ∧
    m2.getPos = m.getPos ∧ m2.content = msg.content ++ inputBytes input

theorem Received.same {msg m m2 : CLXZMessage} {pos pos2 : Nat} {input : List Piece}
    (h : Received msg pos input m) (h2 : Received msg pos2 input m2) (hc : m2.content = m.content) :
    m2.getMsgSize = m.getMsgSize ∧ m2.getMode = m.getMode ∧ m2.getPos = m.getPos := by
  refine ⟨by rw [h.size, h2.size, hc], by rw [CIArchive.getMode, h2.mode, ← h.mode]; rfl, ?_⟩
  rw [h.ready.getPos, h2.ready.getPos, h.pos, h2.pos, hc]

theorem inputBytes_pos {input : List Piece} (h : input ≠ []) : 0 < (inputBytes input).length := by
  obtain ⟨p, input, rfl⟩ := List.exists_cons_of_ne_nil h
  have hp := p.pos
  simp only [inputBytes, List.flatMap_cons, List.length_append]
  omega

/-- The callbacks agree exactly when nothing is left from before or nothing arrives. -/
theorem callbacksAgree_iff (line line2 : Line) (input : List Piece) {msg : CLXZMessage}
    (h : msg.Ready) :
    CallbacksAgree line line2 input msg ↔ msg.content = [] ∨ input = [] := by
  obtain ⟨m, he, hm⟩ := readCb_spec line input h
  obtain ⟨m2, he2, hm2⟩ := readCb2_spec line2 input h
  constructor
  · intro hagree
    obtain ⟨m', m2', c, c2, -, he2', -, -, -, -, happ⟩ := hagree
    rw [he2, Option.some.injEq, Prod.mk.injEq] at he2'
    obtain ⟨rfl, -⟩ := he2'
    -- Written over the front, the input leaves fewer bytes than appending it.
    have hlen : (msg.content ++ inputBytes input).length =
        max msg.content.length (0 + (inputBytes input).length) := by
      rw [← happ, hm2.content, splice_length (Nat.zero_le _)]
    rw [List.length_append] at hlen
    by_contra hne
    simp only [not_or] at hne
    have hin := inputBytes_pos hne.2
    have hold := List.length_pos_iff.mpr hne.1
    omega
  · intro hor
    have hc : m.content = msg.content ++ inputBytes input := by
      rw [hm.content]
      obtain h0 | rfl := hor
      · simp [h0, splice]
      · simp [inputBytes]
    have hc2 : m2.content = msg.content ++ inputBytes input := by
      rw [hm2.content]
      obtain h0 | rfl := hor
      · simp [h0, splice]
      · simp [inputBytes]
    obtain ⟨hsize, hmode, hpos⟩ := hm.same hm2 (hc2.trans hc.symm)
    exact ⟨m, m2, _, _, he, he2, hc2.trans hc.symm, hsize, hmode, hpos, hc2⟩

/-- An uninitialised line, for runs on fixed inputs. -/
def Line.zeros : Line := ⟨List.replicate (maxLine + 1) 0, List.length_replicate⟩

def Piece.byte (b : Byte) : Piece := ⟨[b], Nat.one_pos, by simp [maxLine]⟩

theorem callbacksAgree_first :
    CallbacksAgree .zeros .zeros [.byte 7] (CIArchive.fresh.setMode 0) :=
  (callbacksAgree_iff .zeros .zeros [.byte 7] (CIArchive.ready_fresh 0)).2
    (.inl (CIArchive.content_fresh 0))

/-- A message that holds the byte 1, as the first callback left it. -/
def holdsOne : CLXZMessage :=
  ((CIArchive.fresh.setMode 0).write [1] 1).getD CIArchive.fresh

/-- `read_cb2` puts the next byte over the one that was not consumed yet. -/
theorem readCb2_overwrites :
    ¬ CallbacksAgree .zeros .zeros [.byte 2] holdsOne := by
  intro hagree
  obtain ⟨m, m2, c, c2, -, he2, -, -, -, -, happ⟩ := hagree
  have hw : (readCb2 .zeros [.byte 2] holdsOne).map (fun r => r.1.content) = some [2] := by
    decide +kernel
  rw [he2, Option.map_some, happ] at hw
  revert hw
  decide

end EventServer.Net
