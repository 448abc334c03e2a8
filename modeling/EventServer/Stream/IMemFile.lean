import Mathlib.Data.BitVec
import EventServer.Stream.FastBufAlloc

/-!
# The memory file

`CIMemFile` is a cursor and an error code over `FastBufAlloc<unsigned char,32>`.
Sizes handed to `Read` and `Write` are the signed numbers the callers pass; their
conversion to `size_t` is in the bounds tests (`addSize`) and in the length of
the copy, which no object has when the number is negative.
-/
namespace EventServer.Stream

open EventServer.Lib.Blocks EventServer.Lib.CInt

abbrev Byte := BitVec 8

/-- `CISerial`'s error codes. -/
inductive SerialErr where
  | errNo
  | errHandle
  | errRead
  | errWrite
  deriving DecidableEq

structure CIMemFile where
  fastBuf : FastBufAlloc Byte 32
  curPos : Nat
  errorCode : SerialErr
  deriving DecidableEq

namespace CIMemFile

def fresh : CIMemFile := ⟨.fresh, 0, .errNo⟩

def release (f : CIMemFile) : CIMemFile := ⟨f.fastBuf.release, 0, .errNo⟩

/-- `GetValidCount()`: the length, narrowed to `int`. -/
def getValidCount (f : CIMemFile) : Int := toInt32 f.fastBuf.cpLen

/-- The length of a `memcpy`; no object has the `2^64 - |n|` bytes of a negative one. -/
def copyLen (nSize : Int) : Option Nat := if 0 ≤ nSize then some nSize.toNat else none

/-- `Read()`: the returned number, the bytes copied out, and the file. -/
def read (f : CIMemFile) (nSize : Int) : Option (Int × List Byte × CIMemFile) :=
  if addSize f.curPos nSize ≤ f.fastBuf.cpLen then do
    let n ← copyLen nSize
    let blk ← f.fastBuf.buf
    let bytes ← slice blk f.curPos n
    return (toInt32 (toSizeT nSize), bytes, { f with curPos := addSize f.curPos nSize })
  else
    some (-1, [], { f with errorCode := .errRead })

/-- `SetPos()`: a position behind the content is ignored. -/
def setPos (f : CIMemFile) (pos : Nat) : CIMemFile :=
  if pos ≤ f.fastBuf.cpLen then { f with curPos := pos } else f

def removeHeadBuffer (f : CIMemFile) (size : Nat) : Option CIMemFile :=
  if f.fastBuf.cpLen ≤ size then do
    let fb ← f.fastBuf.setcplen 0
    return { f with fastBuf := fb, curPos := 0 }
  else do
    let blk ← f.fastBuf.buf
    let tail ← slice blk size (f.fastBuf.cpLen - size)
    let fb ← f.fastBuf.poke 0 tail
    let fb ← fb.setcplen (fb.cpLen - size)
    return { f with fastBuf := fb, curPos := 0 }

/-- The copy, the cursor and the length of either branch of `Write()`. -/
def put (f : CIMemFile) (pBuf : List Byte) (nSize : Int) : Option CIMemFile := do
  let n ← copyLen nSize
  let src ← slice pBuf 0 n
  let fb ← f.fastBuf.poke f.curPos src
  let cur := addSize f.curPos nSize
  let fb ← if fb.cpLen < cur then fb.setcplen cur else some fb
  return { f with fastBuf := fb, curPos := cur }

/-- `Write()`. The branch that grows returns `-1` although it wrote. -/
def write (f : CIMemFile) (pBuf : List Byte) (nSize : Int) : Option (Int × CIMemFile) :=
  if addSize f.curPos nSize ≤ f.fastBuf.allocLen then do
    let f ← f.put pBuf nSize
    return (toInt32 (toSizeT nSize), f)
  else do
    let fb ← f.fastBuf.grow ((addSize f.fastBuf.allocLen nSize) * 2)
    let f ← { f with fastBuf := fb }.put pBuf nSize
    return (-1, f)

def grown (f : CIMemFile) (size : Nat) : Option CIMemFile := do
  let fb ← f.fastBuf.grow size
  return { f with fastBuf := fb }

/-- `CLXZMessage::rollback()`. -/
def rollback (f : CIMemFile) (offset : Int) : CIMemFile := f.setPos (addSize f.curPos (-offset))

/-- The copy constructor the compiler generates. -/
def copy (junk : FastBufAlloc.Uninit Byte) (f : CIMemFile) : Option CIMemFile := do
  let fb ← f.fastBuf.copy junk
  return { f with fastBuf := fb }

def content (f : CIMemFile) : List Byte := f.fastBuf.content

structure Wf (f : CIMemFile) : Prop where
  fastBuf : f.fastBuf.Wf
  pos : f.curPos ≤ f.fastBuf.cpLen

theorem wf_fresh : fresh.Wf := ⟨FastBufAlloc.wf_fresh, Nat.zero_le _⟩

@[simp] theorem content_fresh : fresh.content = [] := FastBufAlloc.content_fresh

theorem Wf.content_length {f : CIMemFile} (hf : f.Wf) : f.content.length = f.fastBuf.cpLen :=
  hf.fastBuf.content_length

theorem Wf.pos_le {f : CIMemFile} (hf : f.Wf) : f.curPos ≤ f.content.length := by
  rw [hf.content_length]; exact hf.pos

theorem copyLen_natCast (n : Nat) : copyLen n = some n := by simp [copyLen]

theorem wf_setPos {f : CIMemFile} (hf : f.Wf) (pos : Nat) : (f.setPos pos).Wf := by
  unfold setPos
  split
  · exact ⟨hf.fastBuf, by assumption⟩
  · exact hf

@[simp] theorem setPos_fastBuf (f : CIMemFile) (pos : Nat) :
    (f.setPos pos).fastBuf = f.fastBuf := by
  unfold setPos; split <;> rfl

@[simp] theorem setPos_errorCode (f : CIMemFile) (pos : Nat) :
    (f.setPos pos).errorCode = f.errorCode := by
  unfold setPos; split <;> rfl

@[simp] theorem setPos_content (f : CIMemFile) (pos : Nat) : (f.setPos pos).content = f.content := by
  simp [content]

theorem setPos_curPos (f : CIMemFile) (pos : Nat) :
    (f.setPos pos).curPos = if pos ≤ f.fastBuf.cpLen then pos else f.curPos := by
  unfold setPos; split <;> rfl

theorem read_spec {f : CIMemFile} (hf : f.Wf) (n : Nat) :
    f.read n = some (if f.curPos + n ≤ f.content.length then
      (toInt32 n, (f.content.drop f.curPos).take n, { f with curPos := f.curPos + n })
      else (-1, [], { f with errorCode := .errRead })) := by
  obtain ⟨blk, hblk, hl⟩ := hf.fastBuf.buf_eq
  have hle := hf.fastBuf.le
  rw [hf.content_length]
  by_cases h : f.curPos + n ≤ f.fastBuf.cpLen
  · have hc : f.content = blk.take f.fastBuf.cpLen := FastBufAlloc.content_of_buf hblk
    have hs : slice blk f.curPos n = some ((blk.drop f.curPos).take n) :=
      slice_of_fits (by omega)
    simp only [read, addSize_natCast, h, ↓reduceIte, copyLen_natCast, hblk, hs, toSizeT_natCast,
      Option.bind_eq_bind, Option.bind_some, Option.pure_def, Option.some.injEq, Prod.mk.injEq,
      true_and, and_true]
    rw [hc, List.drop_take, List.take_take, Nat.min_eq_left (by omega)]
  · simp only [read, addSize_natCast, h, ↓reduceIte]

theorem put_spec {f : CIMemFile} (hf : f.Wf) (bytes : List Byte)
    (hfit : f.curPos + bytes.length ≤ f.fastBuf.allocLen) :
    ∃ f', f.put bytes bytes.length = some f' ∧ f'.Wf ∧
      f'.content = splice f.content f.curPos bytes ∧
      f'.curPos = f.curPos + bytes.length ∧ f'.errorCode = f.errorCode := by
  obtain ⟨blk, hblk, hl⟩ := hf.fastBuf.buf_eq
  have hle := hf.fastBuf.le
  have hpos := hf.pos
  obtain ⟨fb, hpoke, hw, hcp, hal, hbuf⟩ :=
    FastBufAlloc.poke_spec hf.fastBuf hblk f.curPos bytes (by omega)
  have hcontent : f.content = blk.take f.fastBuf.cpLen := FastBufAlloc.content_of_buf hblk
  have hsplice := take_splice blk bytes hpos (by omega)
  rw [← hcontent] at hsplice
  by_cases h : fb.cpLen < f.curPos + bytes.length
  · obtain ⟨fb', hset, hw', hcp', hal', hc'⟩ :=
      FastBufAlloc.setcplen_spec hw hbuf (f.curPos + bytes.length) (by omega)
    refine ⟨⟨fb', f.curPos + bytes.length, f.errorCode⟩, ?_, ⟨hw', by simp only; omega⟩, ?_, rfl,
      rfl⟩
    · simp [put, copyLen_natCast, slice_self, hpoke, h, hset]
    · rw [content, hc', ← hsplice]
      congr 1
      omega
  · refine ⟨⟨fb, f.curPos + bytes.length, f.errorCode⟩, ?_, ⟨hw, by simp only; omega⟩, ?_, rfl,
      rfl⟩
    · simp [put, copyLen_natCast, slice_self, hpoke, h]
    · rw [content, FastBufAlloc.content_of_buf hbuf, ← hsplice]
      congr 1
      omega

theorem write_of_neg (f : CIMemFile) (pBuf : List Byte) {nSize : Int} (h : nSize < 0) :
    f.write pBuf nSize = none := by
  have hput : ∀ f : CIMemFile, f.put pBuf nSize = none := by
    intro f
    rw [put, copyLen, if_neg (by omega)]
    rfl
  simp [write, hput]

theorem write_take (f : CIMemFile) {pBuf : List Byte} {n : Nat} (h : n ≤ pBuf.length) :
    f.write pBuf n = f.write (pBuf.take n) n := by
  have hs : slice (pBuf.take n) 0 n = slice pBuf 0 n := by simp [slice, h]
  simp only [write, put, copyLen_natCast, Option.bind_eq_bind, Option.bind_some, hs]

/-- Writing replaces the bytes at the cursor, extends the content if needed and
moves the cursor behind them. -/
theorem write_spec {f : CIMemFile} (hf : f.Wf) (bytes : List Byte) :
    ∃ r f', f.write bytes bytes.length = some (r, f') ∧ f'.Wf ∧
      f'.content = splice f.content f.curPos bytes ∧
      f'.curPos = f.curPos + bytes.length ∧ f'.errorCode = f.errorCode := by
  have hle := hf.fastBuf.le
  have hpos := hf.pos
  by_cases h : f.curPos + bytes.length ≤ f.fastBuf.allocLen
  · obtain ⟨f', he, hf'⟩ := put_spec hf bytes h
    exact ⟨toInt32 bytes.length, f', by simp [write, h, he], hf'⟩
  · -- The requested size is even, so it is not the size that wraps.
    have hne : (f.fastBuf.allocLen + bytes.length) * 2 ≠ sizeMax := by
      unfold sizeMax; omega
    obtain ⟨fb, hgrow, hw, hcp, hal, hc⟩ := FastBufAlloc.grow_spec hf.fastBuf _ hne
    have hf' : (⟨fb, f.curPos, f.errorCode⟩ : CIMemFile).Wf := ⟨hw, by simp only; omega⟩
    obtain ⟨f', he, hres⟩ := put_spec hf' bytes (by simp only; omega)
    refine ⟨-1, f', ?_, ?_⟩
    · simp [write, h, hgrow, he]
    · simpa [content, hc] using hres

theorem grown_spec {f : CIMemFile} (hf : f.Wf) (size : Nat) (hs : size ≠ sizeMax) :
    ∃ f', f.grown size = some f' ∧ f'.Wf ∧ f'.content = f.content ∧ f'.curPos = f.curPos ∧
      f'.errorCode = f.errorCode := by
  obtain ⟨fb, hgrow, hw, hcp, _, hc⟩ := FastBufAlloc.grow_spec hf.fastBuf size hs
  have hpos := hf.pos
  exact ⟨⟨fb, f.curPos, f.errorCode⟩, by simp [grown, hgrow], ⟨hw, by simp only; omega⟩, hc, rfl,
    rfl⟩

/-- Removing the head drops that many bytes, all of them if there are fewer. -/
theorem removeHeadBuffer_spec {f : CIMemFile} (hf : f.Wf) (size : Nat) :
    ∃ f', f.removeHeadBuffer size = some f' ∧ f'.Wf ∧ f'.content = f.content.drop size ∧
      f'.curPos = 0 ∧ f'.errorCode = f.errorCode := by
  obtain ⟨blk, hblk, hl⟩ := hf.fastBuf.buf_eq
  have hle := hf.fastBuf.le
  have hlen := hf.content_length
  have hcontent : f.content = blk.take f.fastBuf.cpLen := FastBufAlloc.content_of_buf hblk
  by_cases h : f.fastBuf.cpLen ≤ size
  · obtain ⟨fb, hset, hw, hcp, _, hc⟩ :=
      FastBufAlloc.setcplen_spec hf.fastBuf hblk 0 (Nat.zero_le _)
    refine ⟨⟨fb, 0, f.errorCode⟩, by simp [removeHeadBuffer, h, hset], ⟨hw, Nat.zero_le _⟩, ?_,
      rfl, rfl⟩
    rw [content, hc, List.take_zero, List.drop_eq_nil_of_le (by omega)]
  · have hs : slice blk size (f.fastBuf.cpLen - size) =
        some ((blk.drop size).take (f.fastBuf.cpLen - size)) := slice_of_fits (by omega)
    have htl : ((blk.drop size).take (f.fastBuf.cpLen - size)).length = f.fastBuf.cpLen - size := by
      rw [List.length_take, List.length_drop]; omega
    obtain ⟨fb, hpoke, hw, hcp, hal, hbuf⟩ :=
      FastBufAlloc.poke_spec hf.fastBuf hblk 0
        ((blk.drop size).take (f.fastBuf.cpLen - size)) (by omega)
    obtain ⟨fb', hset, hw', hcp', _, hc'⟩ :=
      FastBufAlloc.setcplen_spec hw hbuf (fb.cpLen - size) (by omega)
    refine ⟨⟨fb', 0, f.errorCode⟩, by simp [removeHeadBuffer, h, hblk, hs, hpoke, hset],
      ⟨hw', Nat.zero_le _⟩, ?_, rfl, rfl⟩
    rw [content, hc', hcontent, hcp, List.drop_take, splice, List.take_zero, List.nil_append,
      List.take_append_of_le_length (by omega), List.take_take, Nat.min_self]

end CIMemFile
end EventServer.Stream
