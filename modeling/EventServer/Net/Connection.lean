import EventServer.Archive.Reading
import EventServer.Lib.Transition
import EventServer.Net.ReadCb

/-!
# The byte stream of a connection

A run of an accepted connection: calls of `read_cb` with whatever has arrived,
and between them the handler's work on the message. The message should be a
queue of bytes, filled at the end by `read_cb` and emptied at the front by
`removeHeadBuffer`.
-/
namespace EventServer.Net

open EventServer.Lib.Blocks EventServer.Lib.CInt EventServer.Lib.Transition
open EventServer.Stream EventServer.Archive

/-- A connection: its message and, for the statements, what it received and how many bytes of
that were removed. -/
structure Conn where
  msg : CLXZMessage
  received : List Byte
  removed : Nat

/-- The connection as it is accepted. -/
def Conn.accepted : Conn := ⟨CIArchive.fresh.setMode 0, [], 0⟩

/-- The bytes received and not removed. -/
def Conn.pending (c : Conn) : List Byte := c.received.drop c.removed

/-- The steps of a connection. Those of `read_cb` are taken when `ok` admits the input. A typed
read that leaves its own variable is undefined and no step. -/
inductive Conn.Step (ok : Conn → List Piece → Prop) : Conn → Conn → Prop where
  | readCb {c : Conn} {line : Line} {input : List Piece} {msg : CLXZMessage} {called : Bool}
      (hok : ok c input) (h : readCb line input c.msg = some (msg, called)) :
      Step ok c ⟨msg, c.received ++ inputBytes input, c.removed⟩
  | setMode (c : Conn) (nMode : Int) : Step ok c { c with msg := c.msg.setMode nMode }
  | setMsgPos {c : Conn} (pos : BitVec 32) {msg : CLXZMessage}
      (h : c.msg.setPos pos.toNat = some msg) : Step ok c { c with msg }
  | typedRead {c : Conn} (r : TypedRead) {msg : CLXZMessage} (hm : c.msg.mode = .smRead)
      (h : r.run c.msg = some msg) : Step ok c { c with msg }
  | removeHeadBuffer {c : Conn} (size : Nat) {msg : CLXZMessage}
      (h : c.msg.removeHeadBuffer size = some msg) :
      Step ok c ⟨msg, c.received, c.removed + min size c.pending.length⟩

def connection (ok : Conn → List Piece → Prop) : Lts Conn where
  init c := c = .accepted
  step := Conn.Step ok

/-- The message holds exactly the pending bytes. -/
structure Conn.Queue (c : Conn) : Prop where
  ready : c.msg.Ready
  content : c.msg.content = c.pending
  removed : c.removed ≤ c.received.length

/-- The bytes a handler sees through `getMsgPtr()` and `getMsgSize()`. -/
def held (msg : CLXZMessage) : List Byte := msg.content.take msg.getMsgSize.toNat

/-- The pending bytes and the new ones are fewer than `2^31`. -/
def Conn.Small (c : Conn) (input : List Piece) : Prop :=
  c.pending.length + (inputBytes input).length < 2 ^ 31

theorem pending_append {c : Conn} (h : c.removed ≤ c.received.length) (bytes : List Byte) :
    (c.received ++ bytes).drop c.removed = c.pending ++ bytes :=
  List.drop_append_of_le_length h

/-- `read_cb` on a queue that stays small appends and gives mode and cursor back. -/
theorem readCb_appends {c : Conn} (h : c.Queue) (line : Line) {input : List Piece}
    (hs : c.Small input) :
    ∃ msg', readCb line input c.msg = some (msg', decide (0 < msg'.getMsgSize)) ∧ msg'.Ready ∧
      msg'.content = c.pending ++ inputBytes input ∧ msg'.getMsgSize = msg'.content.length ∧
      msg'.mode = c.msg.mode ∧ msg'.getPos = c.msg.getPos := by
  have hlen : c.msg.content.length = c.pending.length := by rw [h.content]
  unfold Conn.Small at hs
  obtain ⟨msg', he, hr⟩ := readCb_spec line input h.ready
  have hc : msg'.content = c.pending ++ inputBytes input := by
    rw [hr.content, writePos_of_lt (by omega), splice_at_end, h.content]
  have hlen' : msg'.content.length < 2 ^ 31 := by
    rw [hc, List.length_append]; exact hs
  have hpos := h.ready.pos_le
  refine ⟨msg', he, hr.ready, hc, ?_, hr.mode, ?_⟩
  · rw [hr.size, toInt32_of_lt hlen']
  · rw [hr.ready.getPos, h.ready.getPos, hr.pos, toInt32_of_lt (by omega), toSizeT_natCast, if_pos]
    rw [hc, List.length_append]
    omega

theorem queue_accepted : Conn.accepted.Queue :=
  ⟨CIArchive.ready_fresh 0, CIArchive.content_fresh 0, Nat.le_refl _⟩

theorem queue_moved {c : Conn} (h : c.Queue) {msg : CLXZMessage} (hm : CIArchive.Moved c.msg msg) :
    Conn.Queue { c with msg } :=
  ⟨hm.ready, hm.content.trans h.content, h.removed⟩

theorem queue_step {c c' : Conn} (h : c.Queue) (hstep : Conn.Step Conn.Small c c') : c'.Queue := by
  cases hstep with
  | @readCb line input msg called hs he =>
    obtain ⟨msg', he', hr, hc, -⟩ := readCb_appends h line hs
    rw [he, Option.some.injEq, Prod.mk.injEq] at he'
    obtain ⟨rfl, -⟩ := he'
    have hle := h.removed
    refine ⟨hr, ?_, by simp only [List.length_append]; omega⟩
    rw [hc]
    exact (pending_append h.removed _).symm
  | setMode nMode =>
    exact ⟨CIArchive.ready_setMode h.ready.wf nMode, (CIArchive.content_setMode _ _).trans h.content,
      h.removed⟩
  | setMsgPos pos he =>
    obtain ⟨msg', he', hmv, -⟩ := CIArchive.setPos_spec h.ready pos.toNat
    rw [he, Option.some.injEq] at he'
    subst he'
    exact queue_moved h hmv
  | typedRead r hm he => exact queue_moved h (CIArchive.typedRead_moved h.ready hm he)
  | @removeHeadBuffer size msg he =>
    obtain ⟨f, hf, hw, hc, -⟩ := CIMemFile.removeHeadBuffer_spec h.ready.wf size
    obtain ⟨f', hf', rfl⟩ : ∃ f', c.msg.stream.removeHeadBuffer size = some f' ∧
        { c.msg with stream := f' } = msg := by
      simpa [CIArchive.removeHeadBuffer, Option.bind_eq_some_iff] using he
    rw [hf, Option.some.injEq] at hf'
    subst hf'
    have hle := h.removed
    have hp : c.pending.length = c.received.length - c.removed := List.length_drop
    refine ⟨⟨h.ready.attached, hw⟩, ?_, by simp only; omega⟩
    have hd : f.content = c.pending.drop (min size c.pending.length) := by
      rw [hc]
      change c.msg.content.drop size = _
      rw [h.content]
      exact drop_min c.pending size
    change f.content = c.received.drop (c.removed + min size c.pending.length)
    rw [hd, Conn.pending, List.drop_drop]

theorem queue_of_reachable {c : Conn} (h : Reachable (connection Conn.Small) c) : c.Queue := by
  refine Reachable.invariant (P := Conn.Queue) ?_ ?_ h
  · rintro c rfl
    exact queue_accepted
  · intro c c' _ hq hstep
    exact queue_step hq hstep

/-- This call of `read_cb` appends the new bytes to the pending ones. It calls the handler exactly if
there are any, with a message that holds all bytes received and not removed, and with mode and
cursor as before. -/
def HandsOver (c : Conn) (line : Line) (input : List Piece) : Prop :=
  ∃ msg called, readCb line input c.msg = some (msg, called) ∧
    msg.content = c.pending ++ inputBytes input ∧
    held msg = (c.received ++ inputBytes input).drop c.removed ∧
    called = decide (0 < (held msg).length) ∧
    msg.getMode = c.msg.getMode ∧ msg.getPos = c.msg.getPos

/-- In every run in which no call of `read_cb` brings the message to `2^31` bytes, nothing is
lost, duplicated or reordered; and no call of `setMsgPos` or `removeHeadBuffer` is undefined. -/
theorem connection_hands_over {c : Conn} (h : Reachable (connection Conn.Small) c) (line : Line)
    {input : List Piece} (hs : c.Small input) :
    HandsOver c line input ∧ (∀ pos : BitVec 32, (c.msg.setPos pos.toNat).isSome) ∧
      ∀ size, (c.msg.removeHeadBuffer size).isSome := by
  have hq := queue_of_reachable h
  obtain ⟨msg, he, -, hc, hsize, hmode, hpos⟩ := readCb_appends hq line hs
  have hheld : held msg = msg.content := by
    rw [held, hsize, Int.toNat_natCast, List.take_length]
  have hcalled : decide (0 < msg.getMsgSize) = decide (0 < (held msg).length) := by
    rw [hheld, hsize, decide_eq_decide]
    exact Int.natCast_pos
  refine ⟨⟨msg, _, he, hc, ?_, hcalled, by rw [CIArchive.getMode, hmode]; rfl, hpos⟩,
    fun pos => ?_, fun size => ?_⟩
  · rw [hheld, hc, pending_append hq.removed]
  · obtain ⟨msg', he', -⟩ := CIArchive.setPos_spec hq.ready pos.toNat
    exact Option.isSome_iff_exists.mpr ⟨msg', he'⟩
  · obtain ⟨f, hf, -⟩ := CIMemFile.removeHeadBuffer_spec hq.ready.wf size
    rw [CIArchive.removeHeadBuffer, hf]
    rfl

/-- Four bytes in two pieces, of which the handler removes one and reads two. -/
def halfRead : Option Conn := do
  let (msg, _) ← readCb .zeros [⟨[1, 2, 3], by decide, by decide⟩, .byte 4] Conn.accepted.msg
  let msg ← msg.removeHeadBuffer 1
  let msg ← (TypedRead.uint16 0).run (msg.setMode 1)
  return ⟨msg, [1, 2, 3, 4], 1⟩

theorem reachable_halfRead {c : Conn} (h : halfRead = some c) :
    Reachable (connection Conn.Small) c := by
  simp only [halfRead, Option.bind_eq_bind, Option.bind_eq_some_iff, Option.pure_def,
    Option.some.injEq] at h
  obtain ⟨⟨msg, called⟩, hread, msg₁, hremove, msg₂, htyped, rfl⟩ := h
  have hsmall : Conn.accepted.Small [⟨[1, 2, 3], by decide, by decide⟩, .byte 4] := by
    unfold Conn.Small
    decide
  have hreceived : Reachable (connection Conn.Small) ⟨msg, [1, 2, 3, 4], 0⟩ :=
    .step (.init rfl) (Conn.Step.readCb hsmall hread)
  have htrimmed : Reachable (connection Conn.Small) ⟨msg₁, [1, 2, 3, 4], 1⟩ :=
    .step hreceived (Conn.Step.removeHeadBuffer 1 hremove)
  have hmode : Reachable (connection Conn.Small) ⟨msg₁.setMode 1, [1, 2, 3, 4], 1⟩ :=
    .step htrimmed (Conn.Step.setMode _ 1)
  exact .step hmode (Conn.Step.typedRead (.uint16 0) rfl htyped)

/-- The next two bytes come behind the three that are left, and the cursor stays among these. -/
theorem connection_hands_over_half_read : ∃ c, halfRead = some c ∧ c.pending = [2, 3, 4] ∧
    c.msg.getPos = some 2 ∧ c.msg.mode = .smRead ∧
    HandsOver c .zeros [.byte 5, .byte 6] := by
  have hsome : halfRead.isSome = true := by decide +kernel
  obtain ⟨c, hc⟩ := Option.isSome_iff_exists.mp hsome
  have hstate : halfRead.map (fun c => (c.pending, c.msg.getPos, c.msg.mode)) =
      some ([2, 3, 4], some 2, .smRead) := by decide +kernel
  rw [hc] at hstate
  obtain ⟨hpending, hpos, hmode⟩ : c.pending = [2, 3, 4] ∧ c.msg.getPos = some 2 ∧
      c.msg.mode = .smRead := by simpa using hstate
  have hsmall : c.Small [.byte 5, .byte 6] := by
    unfold Conn.Small
    rw [hpending]
    decide
  exact ⟨c, hc, hpending, hpos, hmode,
    (connection_hands_over (reachable_halfRead hc) .zeros hsmall).1⟩

/-- Input as libevent cuts it: `MAX_LINE` bytes at a time. -/
def cut (bytes : List Byte) : List Piece :=
  if h : bytes = [] then []
  else
    ⟨bytes.take maxLine, by
      have hp := List.length_pos_iff.mpr h
      rw [List.length_take, maxLine]; omega, List.length_take_le _ _⟩ :: cut (bytes.drop maxLine)
termination_by bytes.length
decreasing_by
  have hp := List.length_pos_iff.mpr h
  rw [List.length_drop, maxLine]
  omega

theorem inputBytes_cut (bytes : List Byte) : inputBytes (cut bytes) = bytes := by
  induction bytes using cut.induct with
  | case1 => simp [cut, inputBytes]
  | case2 bytes h ih =>
    rw [cut, dif_neg h, inputBytes, List.flatMap_cons]
    change bytes.take maxLine ++ inputBytes (cut (bytes.drop maxLine)) = bytes
    rw [ih, List.take_append_drop]

private theorem held_of_large {n : Nat} (hn : n = 2 ^ 32 + 1) :
    ¬ HandsOver .accepted .zeros (cut (List.replicate n 0)) := by
  intro hover
  obtain ⟨msg, called, he, -, hheld, -⟩ := hover
  obtain ⟨msg', he', hr⟩ := readCb_spec .zeros (cut (List.replicate n 0)) queue_accepted.ready
  rw [he, Option.some.injEq, Prod.mk.injEq] at he'
  obtain ⟨rfl, -⟩ := he'
  have hempty : Conn.accepted.msg.content = [] := queue_accepted.content
  have hc : msg.content = List.replicate n 0 := by
    rw [hr.content, hempty, inputBytes_cut]
    simp [splice]
  have hsize : msg.getMsgSize = 1 := by
    rw [hr.size, hc, List.length_replicate, hn]
    decide +kernel
  have hlen := congrArg List.length hheld
  rw [held, hsize, inputBytes_cut, hc] at hlen
  simp [Conn.accepted] at hlen
  omega

/-- After `2^32 + 1` bytes `getMsgSize()` is 1, and the handler is called with one byte. -/
theorem readCb_size_narrowed :
    ¬ HandsOver .accepted .zeros (cut (List.replicate (2 ^ 32 + 1) 0)) := held_of_large rfl

end EventServer.Net
