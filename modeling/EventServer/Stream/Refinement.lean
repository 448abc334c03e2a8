import EventServer.Lib.Transition
import EventServer.Stream.IMemFile

/-!
# The memory file refines a byte list with a cursor

`File` says what the component is for: a byte list, a cursor inside it and a
flag that a read has failed. `CIMemFile` matches it along every sequence of
operations, with the same outputs, as long as no `grown` asks for `SIZE_MAX`
cells: there `newsize+1` is zero and the old content is copied into an empty
block.
-/
namespace EventServer.Stream

open EventServer.Lib.Blocks EventServer.Lib.CInt EventServer.Lib.Transition

/-- The operations reachable from `CLXZMessage`. -/
inductive FileOp where
  | write (bytes : List Byte)
  | read (nSize : Nat)
  | setPos (pos : Nat)
  | rollback (offset : Int)
  | setMode
  | removeHeadBuffer (size : Nat)
  | grown (size : Nat)
  | release
  deriving DecidableEq

/-- What a caller sees of an operation: of a read its return value and its bytes. -/
inductive FileOut where
  | done
  | read (ret : Int) (bytes : List Byte)
  deriving DecidableEq

namespace CIMemFile

/-- One operation on the memory file. `setMode` reaches it as `SetPos(0)`. -/
def step (f : CIMemFile) : FileOp → Option (CIMemFile × FileOut)
  | .write bytes => do
    let (_, f) ← f.write bytes bytes.length
    return (f, .done)
  | .read nSize => do
    let (ret, bytes, f) ← f.read nSize
    return (f, .read ret bytes)
  | .setPos pos => some (f.setPos pos, .done)
  | .rollback offset => some (f.rollback offset, .done)
  | .setMode => some (f.setPos 0, .done)
  | .removeHeadBuffer size => do
    let f ← f.removeHeadBuffer size
    return (f, .done)
  | .grown size => do
    let f ← f.grown size
    return (f, .done)
  | .release => some (f.release, .done)

end CIMemFile

/-- A byte list, a cursor and whether a read has failed. -/
structure File where
  bytes : List Byte
  pos : Nat
  failed : Bool

namespace File

def empty : File := ⟨[], 0, false⟩

/-- A cursor outside the content is not set. -/
def seek (f : File) (pos : Nat) : File := if pos ≤ f.bytes.length then { f with pos } else f

@[simp] theorem seek_failed (f : File) (pos : Nat) : (f.seek pos).failed = f.failed := by
  unfold seek; split <;> rfl

/-- A read of `n` bytes at the cursor fails. -/
def ReadFails (f : File) (n : Nat) : Prop := f.bytes.length < f.pos + n

instance (f : File) (n : Nat) : Decidable (f.ReadFails n) := inferInstanceAs (Decidable (_ < _))

def step (f : File) : FileOp → File × FileOut
  | .write bytes =>
    ({ f with bytes := splice f.bytes f.pos bytes, pos := f.pos + bytes.length }, .done)
  | .read n =>
    if f.ReadFails n then ({ f with failed := true }, .read (-1) [])
    else ({ f with pos := f.pos + n }, .read (toInt32 n) ((f.bytes.drop f.pos).take n))
  | .setPos pos => (f.seek pos, .done)
  | .rollback offset => (f.seek (addSize f.pos (-offset)), .done)
  | .setMode => (f.seek 0, .done)
  | .removeHeadBuffer n => ({ f with bytes := f.bytes.drop (min n f.bytes.length), pos := 0 }, .done)
  | .grown _ => (f, .done)
  | .release => (empty, .done)

/-- The file after a sequence of operations on an empty one. -/
def after (ops : List FileOp) : File := (runSpec step empty ops).1

end File

/-- The memory file stands for the abstract one. -/
structure Refines (f : CIMemFile) (a : File) : Prop where
  wf : f.Wf
  bytes : f.content = a.bytes
  pos : f.curPos = a.pos
  code : f.errorCode = if a.failed then .errRead else .errNo

theorem refines_fresh : Refines .fresh .empty := ⟨CIMemFile.wf_fresh, by simp [File.empty], rfl, rfl⟩

theorem refines_setPos {f : CIMemFile} {a : File} (h : Refines f a) (pos : Nat) :
    Refines (f.setPos pos) (a.seek pos) := by
  have hl := h.wf.content_length
  rw [h.bytes] at hl
  by_cases hp : pos ≤ f.fastBuf.cpLen
  · have ha : a.seek pos = { a with pos } := if_pos (by omega)
    rw [ha]
    exact ⟨CIMemFile.wf_setPos h.wf pos, by simpa using h.bytes,
      by simp [CIMemFile.setPos_curPos, hp], by simpa using h.code⟩
  · have ha : a.seek pos = a := if_neg (by omega)
    have hf : f.setPos pos = f := if_neg hp
    rw [ha, hf]
    exact h

/-- One operation of the memory file is one operation of the abstract file. -/
theorem step_refines (f : CIMemFile) (a : File) (op : FileOp) (hop : op ≠ .grown sizeMax)
    (h : Refines f a) :
    ∃ f', f.step op = some (f', (a.step op).2) ∧ Refines f' (a.step op).1 := by
  cases op with
  | write bytes =>
    obtain ⟨r, f', he, hw, hc, hp, hr⟩ := CIMemFile.write_spec h.wf bytes
    refine ⟨f', by simp [CIMemFile.step, File.step, he], hw, ?_, ?_, ?_⟩
    · rw [hc, h.bytes, h.pos]; rfl
    · rw [hp, h.pos]; rfl
    · rw [hr, h.code]; rfl
  | read n =>
    have hr := CIMemFile.read_spec h.wf n
    have hlen := h.wf.content_length
    rw [h.bytes] at hr hlen
    have hp := h.pos
    by_cases hn : a.ReadFails n
    · have hn' : ¬ f.curPos + n ≤ a.bytes.length := by unfold File.ReadFails at hn; omega
      have hs : a.step (.read n) = ({ a with failed := true }, .read (-1) []) := if_pos hn
      rw [hs]
      refine ⟨{ f with errorCode := .errRead }, ?_, ⟨h.wf.fastBuf, h.wf.pos⟩, h.bytes, hp, rfl⟩
      simp [CIMemFile.step, hr, hn']
    · have hn' : f.curPos + n ≤ a.bytes.length := by unfold File.ReadFails at hn; omega
      have hs : a.step (.read n) = ({ a with pos := a.pos + n },
          .read (toInt32 n) ((a.bytes.drop a.pos).take n)) := if_neg hn
      rw [if_pos hn', hp] at hr
      rw [hs]
      refine ⟨{ f with curPos := a.pos + n }, ?_, ⟨h.wf.fastBuf, by simp only; omega⟩, h.bytes,
        rfl, h.code⟩
      simp [CIMemFile.step, hr]
  | setPos pos => exact ⟨_, rfl, refines_setPos h pos⟩
  | rollback offset =>
    have hr := refines_setPos h (addSize f.curPos (-offset))
    rw [h.pos] at hr
    exact ⟨_, by rw [CIMemFile.step, CIMemFile.rollback, h.pos]; rfl, hr⟩
  | setMode => exact ⟨_, rfl, refines_setPos h 0⟩
  | removeHeadBuffer size =>
    obtain ⟨f', he, hw, hc, hp, hr⟩ := CIMemFile.removeHeadBuffer_spec h.wf size
    refine ⟨f', by simp [CIMemFile.step, File.step, he], hw, ?_, hp, by rw [hr, h.code]; rfl⟩
    rw [hc, h.bytes]
    exact drop_min a.bytes size
  | grown size =>
    obtain ⟨f', he, hw, hc, hp, hr⟩ := CIMemFile.grown_spec h.wf size (by simpa using hop)
    exact ⟨f', by simp [CIMemFile.step, File.step, he], hw, hc.trans h.bytes, hp.trans h.pos,
      hr.trans h.code⟩
  | release => exact ⟨_, rfl, refines_fresh⟩

/-- Some read failed since the start or the last `Release`. -/
def FailedSinceRelease (ops : List FileOp) : Prop :=
  ∃ pre n post, ops = pre ++ .read n :: post ∧ .release ∉ post ∧ (File.after pre).ReadFails n

theorem failedSinceRelease_snoc (ops : List FileOp) (op : FileOp) :
    FailedSinceRelease (ops ++ [op]) ↔
      (∃ n, op = .read n ∧ (File.after ops).ReadFails n) ∨
        (op ≠ .release ∧ FailedSinceRelease ops) := by
  constructor
  · intro hfailed
    obtain ⟨pre, n, post, he, hr, hf⟩ := hfailed
    rcases List.eq_nil_or_concat post with rfl | ⟨post, last, rfl⟩
    · obtain ⟨rfl, h⟩ := List.append_inj' he rfl
      exact .inl ⟨n, by simpa using h, hf⟩
    · rw [List.concat_eq_append, ← List.cons_append, ← List.append_assoc] at he
      obtain ⟨rfl, h⟩ := List.append_inj' he rfl
      obtain rfl : op = last := by simpa using h
      simp only [List.concat_eq_append, List.mem_append, List.mem_singleton, not_or] at hr
      exact .inr ⟨fun h => hr.2 h.symm, pre, n, post, rfl, hr.1, hf⟩
  · rintro (⟨n, rfl, hf⟩ | ⟨hne, pre, n, post, rfl, hr, hf⟩)
    · exact ⟨ops, n, [], rfl, by simp, hf⟩
    · refine ⟨pre, n, post ++ [op], by simp, ?_, hf⟩
      simp only [List.mem_append, List.mem_singleton, not_or]
      exact ⟨hr, fun h => hne h.symm⟩

theorem after_snoc (ops : List FileOp) (op : FileOp) :
    File.after (ops ++ [op]) = ((File.after ops).step op).1 := by
  simp [File.after, runSpec_append, runSpec]

/-- The flag of the abstract file is exactly that. -/
theorem after_failed_iff (ops : List FileOp) :
    (File.after ops).failed = true ↔ FailedSinceRelease ops := by
  induction ops using List.reverseRecOn with
  | nil => simp [File.after, runSpec, File.empty, FailedSinceRelease]
  | append_singleton ops op ih =>
    rw [after_snoc, failedSinceRelease_snoc, ← ih]
    cases op with
    | read n => by_cases hn : (File.after ops).ReadFails n <;> simp [File.step, hn]
    | write bytes => simp [File.step]
    | setPos pos => simp [File.step]
    | rollback offset => simp [File.step]
    | setMode => simp [File.step]
    | removeHeadBuffer size => simp [File.step]
    | grown size => simp [File.step]
    | release => simp [File.step, File.empty]

/-- Along every run without `grown(SIZE_MAX)` the memory file is the abstract
file: same bytes, cursor, outputs and error code, and the buffer keeps its shape. -/
theorem memFile_refines (ops : List FileOp) (hops : ∀ op ∈ ops, op ≠ .grown sizeMax) :
    ∃ f, run CIMemFile.step .fresh ops = some (f, (runSpec File.step .empty ops).2) ∧
      f.content = (File.after ops).bytes ∧ f.curPos = (File.after ops).pos ∧
      f.curPos ≤ f.fastBuf.cpLen ∧ f.fastBuf.cpLen ≤ f.fastBuf.allocLen ∧
      (32 < f.fastBuf.allocLen ↔ f.fastBuf.heapbuf.isSome) ∧
      (f.errorCode = .errRead ∨ f.errorCode = .errNo) ∧
      (f.errorCode = .errRead ↔ FailedSinceRelease ops) := by
  obtain ⟨f, hrun, hR⟩ := run_simulates step_refines ops hops refines_fresh
  refine ⟨f, hrun, hR.bytes, hR.pos, hR.wf.pos, hR.wf.fastBuf.le, hR.wf.fastBuf.heap_iff, ?_, ?_⟩
  · rw [hR.code]; split <;> simp
  · rw [← after_failed_iff, hR.code]
    unfold File.after
    split <;> simp [*]

theorem memFile_refines_growing : ∃ f,
    run CIMemFile.step .fresh [.write (List.replicate 40 7), .grown 100, .read 1] =
      some (f, [.done, .done, .read (-1) []]) ∧ f.content = List.replicate 40 7 := by
  obtain ⟨f, hrun, hc, _⟩ := memFile_refines [.write (List.replicate 40 7), .grown 100, .read 1]
    (by decide)
  have ho : (runSpec File.step .empty [.write (List.replicate 40 7), .grown 100, .read 1]).2 =
      [.done, .done, .read (-1) []] := by decide
  exact ⟨f, by rw [hrun, ho], hc.trans (by decide)⟩

/-- At `SIZE_MAX` the new block has no cell for the old content. -/
theorem grown_sizeMax_undefined :
    run CIMemFile.step .fresh [.write [1], .grown sizeMax] = none := by decide

end EventServer.Stream
