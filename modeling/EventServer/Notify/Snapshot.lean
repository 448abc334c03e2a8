import EventServer.Archive.RoundTrip
import EventServer.Lua.Message

/-!
# The copy that `Notify` queues

`new CLXZMessage(msg)` runs the copy constructors that the compiler generates,
over the one that `FastBufAlloc` has. The stream pointer of the archive is copied
as it is. Messages are therefore objects at addresses here, and an archive
operation goes to the stream of the object that `m_pISerial` points into.
-/
namespace EventServer.Notify

open EventServer.Lib.Blocks EventServer.Stream EventServer.Archive EventServer.Lua

abbrev Addr := Nat

/-- A `CLXZMessage` in memory. -/
structure MessageObject where
  /-- `m_IMemStream`. -/
  stream : CIMemFile
  /-- The object whose `m_IMemStream` is behind `m_pISerial`; null before the first `setMode`. -/
  pISerial : Option Addr
  mode : SerialMode
  swapped : Bool
  members : Members

/-- The messages that are allocated. -/
abbrev Heap := Addr → Option MessageObject

/-- A call on the archive of a message. -/
inductive ArchiveOp where
  | serial (f : Field)
  | serialLong (l : BitVec 64)
  | serialStr (str : List Byte) (len : Int)
  | serialPtrNamed (v ptr : BitVec 64) (name : List Byte)
  | write (buf : List Byte) (len : Int)
  | setPos (pos : Nat)
  | getPos
  | setMode (nMode : Int)

/-- What a call returns, or leaves in its variable. -/
inductive Answer where
  | done
  | field (f : Field)
  | long (l : BitVec 64)
  | str (s : List Byte)
  | ptr (p : BitVec 64)
  | pos (n : Nat)

/-- The call on an archive that is attached to a stream. -/
def ArchiveOp.run (ar : CIArchive) : ArchiveOp → Option (Answer × CIArchive)
  | .serial f => (f.serial ar).map (Prod.map .field id)
  | .serialLong l => (ar.serialLong l).map (Prod.map .long id)
  | .serialStr str len => (ar.serialStr str len).map (Prod.map .str id)
  | .serialPtrNamed v ptr name => (ar.serialPtrNamed v ptr name).map (Prod.map .ptr id)
  | .write buf len => (ar.write buf len).map (Prod.mk .done)
  | .setPos pos => (ar.setPos pos).map (Prod.mk .done)
  | .getPos => ar.getPos.map fun n => (.pos n, ar)
  | .setMode nMode => some (.done, ar.setMode nMode)

namespace Heap

/-- The call on the message at `a`, with the stream of the message at `b`. -/
def callOn (h : Heap) (a b : Addr) (op : ArchiveOp) : Option (Heap × Answer) := do
  let o ← h a
  let target ← h b
  let (ans, ar) ← op.run ⟨target.stream, true, o.mode, o.swapped⟩
  let h := Function.update h b (some { target with stream := ar.stream })
  let o ← h a
  return (Function.update h a (some { o with mode := ar.mode, swapped := ar.swapped }), ans)

/-- The call. `CLXZMessage::setMode` attaches the message's own stream; every other call goes
through `m_pISerial`, and is undefined when nothing is there. -/
def call (h : Heap) (a : Addr) : ArchiveOp → Option (Heap × Answer)
  | .setMode nMode => do
    let o ← h a
    callOn (Function.update h a (some { o with pISerial := some a })) a a (.setMode nMode)
  | op => do
    let o ← h a
    let b ← o.pISerial
    h.callOn a b op

/-- The same call on a message that uses its own stream. -/
def callOwn (h : Heap) (a : Addr) : ArchiveOp → Option (Heap × Answer)
  | .setMode nMode => h.call a (.setMode nMode)
  | op => h.callOn a a op

/-- `new CLXZMessage(msg)` of the message at `src`, at address `pMsg`. -/
def copyConstruct (junk : FastBufAlloc.Uninit Byte) (h : Heap) (src pMsg : Addr) : Option Heap := do
  let o ← h src
  let f ← o.stream.copy junk
  return Function.update h pMsg (some { o with stream := f })

end Heap

/-- Whatever the other objects are, the calls on the message at `a` use its own stream: they return
what it holds and change nothing else. -/
def UsesOwnStream (a : Addr) (o : MessageObject) : Prop :=
  ∀ h : Heap, h a = some o → ∀ op, h.call a op = h.callOwn a op

/-- The capacity covers the size, and there is a heap block exactly when it exceeds the array. -/
def BufferInvariant (b : FastBufAlloc Byte 32) : Prop :=
  b.cpLen ≤ b.allocLen ∧ (b.heapbuf.isSome ↔ 32 < b.allocLen)

/-- The copy of the message at `src` has its size and bytes, a buffer in order, and its own
stream, whatever was in the memory it is constructed in. -/
def IndependentSnapshot (h : Heap) (src pMsg : Addr) : Prop :=
  ∀ junk, ∃ h' o o', Heap.copyConstruct junk h src pMsg = some h' ∧ h src = some o ∧
    h' pMsg = some o' ∧ o'.stream.getValidCount = o.stream.getValidCount ∧
    o'.stream.content = o.stream.content ∧ BufferInvariant o'.stream.fastBuf ∧ UsesOwnStream pMsg o'

/-- A message that is alone in memory and not attached to itself can not even tell its position. -/
theorem UsesOwnStream.pISerial_eq {a : Addr} {o : MessageObject} (h : UsesOwnStream a o) :
    o.pISerial = some a := by
  let alone : Heap := fun x => if x = a then some o else none
  have hat : alone a = some o := if_pos rfl
  have hpos := h alone hat .getPos
  have hown : alone.callOwn a .getPos ≠ none := by
    simp [Heap.callOwn, Heap.callOn, hat, ArchiveOp.run, CIArchive.getPos]
  cases hp : o.pISerial with
  | none =>
    refine absurd (hpos.symm.trans ?_) hown
    simp [Heap.call, hat, hp]
  | some b =>
    by_cases hb : b = a
    · rw [hb]
    · have hnone : alone b = none := if_neg hb
      refine absurd (hpos.symm.trans ?_) hown
      simp [Heap.call, hat, hp, Heap.callOn, hnone]

theorem usesOwnStream_of_eq {a : Addr} {o : MessageObject} (h : o.pISerial = some a) :
    UsesOwnStream a o := by
  intro g hg op
  cases op <;> simp [Heap.call, Heap.callOwn, hg, h]

theorem heapbuf_of_invariant {f : CIMemFile}
    (h : ∀ junk, ∃ f', f.copy junk = some f' ∧ BufferInvariant f'.fastBuf) :
    f.fastBuf.heapbuf.isSome := by
  cases hb : f.fastBuf.heapbuf with
  | some blk => rfl
  | none =>
    obtain ⟨f', hcopy, -, hiff⟩ := h ⟨none, 33⟩
    simp only [CIMemFile.copy, FastBufAlloc.copy, hb, Option.bind_eq_bind, Option.bind_some, pure,
      Option.some.injEq] at hcopy
    subst hcopy
    exact absurd (hiff.mpr (show 32 < (33 : BitVec 64).toNat by decide)) (by simp)

/-- The copy is the source with its stream copied. -/
theorem copyConstruct_eq_some {h h' : Heap} {src pMsg : Addr} {o : MessageObject}
    (ho : h src = some o) (junk : FastBufAlloc.Uninit Byte) :
    Heap.copyConstruct junk h src pMsg = some h' ↔
      ∃ f, o.stream.copy junk = some f ∧
        Function.update h pMsg (some { o with stream := f }) = h' := by
  simp [Heap.copyConstruct, ho, Option.bind_eq_some_iff]

theorem IndependentSnapshot.copied {h : Heap} {src pMsg : Addr} {o : MessageObject}
    (hs : IndependentSnapshot h src pMsg) (ho : h src = some o) (junk : FastBufAlloc.Uninit Byte) :
    ∃ f, o.stream.copy junk = some f ∧ BufferInvariant f.fastBuf ∧
      UsesOwnStream pMsg { o with stream := f } := by
  obtain ⟨h', o₁, o', hc, -, ho', -, -, hinv, huse⟩ := hs junk
  obtain ⟨f, hf, rfl⟩ := (copyConstruct_eq_some ho junk).mp hc
  rw [Function.update_self, Option.some.injEq] at ho'
  subst ho'
  exact ⟨f, hf, hinv, huse⟩

theorem IndependentSnapshot.heapbuf {h : Heap} {src pMsg : Addr} {o : MessageObject}
    (hs : IndependentSnapshot h src pMsg) (ho : h src = some o) :
    o.stream.fastBuf.heapbuf.isSome := by
  apply heapbuf_of_invariant
  intro junk
  obtain ⟨f, hf, hinv, -⟩ := hs.copied ho junk
  exact ⟨f, hf, hinv⟩

theorem IndependentSnapshot.pISerial {h : Heap} {src pMsg : Addr} {o : MessageObject}
    (hs : IndependentSnapshot h src pMsg) (ho : h src = some o) : o.pISerial = some pMsg := by
  obtain ⟨f, -, -, huse⟩ := hs.copied ho ⟨none, 0⟩
  exact huse.pISerial_eq

/-- The copy that `Notify` queues is an independent snapshot exactly when the content of the source
is in a heap block and its stream pointer, left over from another object, happens to point to where
the copy is constructed. -/
theorem notify_snapshot_iff (h : Heap) (src pMsg : Addr) {o : MessageObject} (ho : h src = some o)
    (hwf : o.stream.Wf) :
    IndependentSnapshot h src pMsg ↔
      o.stream.fastBuf.heapbuf.isSome ∧ o.pISerial = some pMsg := by
  constructor
  · intro hs
    exact ⟨hs.heapbuf ho, hs.pISerial ho⟩
  · intro hcond junk
    obtain ⟨hheap, hp⟩ := hcond
    obtain ⟨b, hb, hbwf, hcp, hcontent⟩ := FastBufAlloc.copy_spec hwf.fastBuf hheap junk
    refine ⟨_, o, _, (copyConstruct_eq_some ho junk).mpr ⟨_, bind_eq_of_some hb rfl, rfl⟩, ho,
      Function.update_self .., ?_, hcontent, ⟨hbwf.le, hbwf.heap_iff.symm⟩, usesOwnStream_of_eq hp⟩
    simp only [CIMemFile.getValidCount, hcp]

/-- A message with a heap block of 40 bytes whose stream pointer was copied from an object at 1
that is gone; its own copy is then constructed there. -/
theorem notify_snapshot_reused_address :
    let f : CIMemFile := ⟨⟨some (List.replicate 41 0), List.replicate 33 0, 40, 40⟩, 0, .errNo⟩
    let h : Heap := Function.update (fun _ => none) 0 (some ⟨f, some 1, .smRead, false, .fresh⟩)
    IndependentSnapshot h 0 1 := by
  intro f h
  have hwf : f.Wf := by
    refine ⟨⟨rfl, ?_, by decide, by decide, by decide⟩, by decide⟩
    intro b hb
    rw [← Option.some.inj hb]
    rfl
  exact (notify_snapshot_iff h 0 1 (Function.update_self ..) hwf).mpr ⟨rfl, rfl⟩

/-- A message of one byte, attached to its own stream by `setMode`. -/
theorem notify_snapshot_inline :
    let f : CIMemFile := ⟨⟨none, 7 :: List.replicate 32 0, 1, 32⟩, 1, .errNo⟩
    let h : Heap := Function.update (fun _ => none) 0 (some ⟨f, some 0, .smWrite, false, .fresh⟩)
    ¬ IndependentSnapshot h 0 1 := by
  intro f h hs
  exact absurd (hs.heapbuf (Function.update_self ..)) (by decide)

end EventServer.Notify
