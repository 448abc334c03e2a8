import Mathlib.Algebra.Group.Defs
import EventServer.Lib.Blocks
import EventServer.Lib.CInt

/-!
# The growable buffer

`FastBufAlloc<T, maxcachesize>` keeps its cells in an inline array until they
outgrow it and in a heap block afterwards. Blocks have one cell more than the
capacity, for the terminator that `setcplen` writes. `none` is an access outside
a block; allocation itself is taken to succeed.
-/
namespace EventServer.Stream

open EventServer.Lib.Blocks EventServer.Lib.CInt

structure FastBufAlloc (T : Type) (maxcachesize : Nat) where
  heapbuf : Option (List T)
  arrbuf : List T
  cpLen : Nat
  allocLen : Nat
  deriving DecidableEq

namespace FastBufAlloc

variable {T : Type} {maxcachesize : Nat}

def fresh [Zero T] : FastBufAlloc T maxcachesize where
  heapbuf := none
  arrbuf := List.replicate (maxcachesize + 1) 0
  cpLen := 0
  allocLen := maxcachesize

/-- The block that `buf()` points to. -/
def buf (b : FastBufAlloc T maxcachesize) : Option (List T) :=
  if maxcachesize < b.allocLen then b.heapbuf else some b.arrbuf

/-- Replace the cells of the block that `buf()` points to. -/
def store (b : FastBufAlloc T maxcachesize) (blk : List T) : FastBufAlloc T maxcachesize :=
  if maxcachesize < b.allocLen then { b with heapbuf := some blk } else { b with arrbuf := blk }

/-- `memcpy(buf() + pos, src, n)`. -/
def poke (b : FastBufAlloc T maxcachesize) (pos : Nat) (src : List T) :
    Option (FastBufAlloc T maxcachesize) := do
  let blk ← b.buf
  let blk ← blit blk pos src
  return b.store blk

def release [Zero T] (_ : FastBufAlloc T maxcachesize) : FastBufAlloc T maxcachesize := fresh

/-- The cells of `new T[newsize+1]`: `newsize+1` is a `size_t`, so `SIZE_MAX` asks for none. -/
def newCells (newsize : Nat) : Nat := if newsize = sizeMax then 0 else newsize + 1

/-- What `grow()` copies: the heap block whole, the inline array up to `cp_len`. -/
def kept (b : FastBufAlloc T maxcachesize) : Option (List T) :=
  match b.heapbuf with
  | some h => slice h 0 b.allocLen
  | none => do
    let arr ← b.buf
    slice arr 0 b.cpLen

def grow [Zero T] (b : FastBufAlloc T maxcachesize) (newsize : Nat) :
    Option (FastBufAlloc T maxcachesize) :=
  if newsize ≤ b.allocLen then some b
  else do
    let old ← b.kept
    let blk ← blit (List.replicate (newCells newsize) 0) 0 old
    return { b with heapbuf := some blk, allocLen := newsize }

/-- `setcplen()`: the cell behind the content becomes zero. -/
def setcplen [Zero T] (b : FastBufAlloc T maxcachesize) (len : Nat) :
    Option (FastBufAlloc T maxcachesize) :=
  { b with cpLen := len }.poke len [0]

/-- What `heapbuf` and `alloc_len` hold before they are set: whatever block the pointer happens to
point to, and any number. -/
structure Uninit (T : Type) where
  heapbuf : Option (List T)
  allocLen : BitVec 64

/-- The copy constructor. For a source without a heap block it sets neither `heapbuf` nor
`alloc_len`. -/
def copy [Zero T] (junk : Uninit T) (b : FastBufAlloc T maxcachesize) :
    Option (FastBufAlloc T maxcachesize) :=
  match b.heapbuf with
  | some h => do
    let old ← slice h 0 b.allocLen
    let blk ← blit (List.replicate (b.allocLen + 1) 0) 0 old
    return ⟨some blk, b.arrbuf, b.cpLen, b.allocLen⟩
  | none => some ⟨junk.heapbuf, b.arrbuf, b.cpLen, junk.allocLen.toNat⟩

def content (b : FastBufAlloc T maxcachesize) : List T := (b.buf.getD []).take b.cpLen

/-- Where the cells are, and that the content fits. -/
structure Wf (b : FastBufAlloc T maxcachesize) : Prop where
  arr : b.arrbuf.length = maxcachesize + 1
  heap : ∀ h, b.heapbuf = some h → h.length = b.allocLen + 1
  heap_iff : maxcachesize < b.allocLen ↔ b.heapbuf.isSome
  cap : maxcachesize ≤ b.allocLen
  le : b.cpLen ≤ b.allocLen

theorem wf_fresh [Zero T] : (fresh : FastBufAlloc T maxcachesize).Wf := by
  constructor <;> simp [fresh]

@[simp] theorem content_fresh [Zero T] : (fresh : FastBufAlloc T maxcachesize).content = [] := by
  simp [content, fresh]

theorem content_of_buf {b : FastBufAlloc T maxcachesize} {blk : List T} (h : b.buf = some blk) :
    b.content = blk.take b.cpLen := by
  rw [content, h, Option.getD_some]

theorem Wf.buf_eq {b : FastBufAlloc T maxcachesize} (hb : b.Wf) :
    ∃ blk, b.buf = some blk ∧ blk.length = b.allocLen + 1 := by
  by_cases h : maxcachesize < b.allocLen
  · obtain ⟨blk, hblk⟩ := Option.isSome_iff_exists.mp (hb.heap_iff.mp h)
    exact ⟨blk, by simp [buf, h, hblk], hb.heap blk hblk⟩
  · have hc := hb.cap
    exact ⟨b.arrbuf, by simp [buf, h], by rw [hb.arr]; omega⟩

theorem Wf.content_length {b : FastBufAlloc T maxcachesize} (hb : b.Wf) :
    b.content.length = b.cpLen := by
  obtain ⟨blk, hblk, hl⟩ := hb.buf_eq
  have hle := hb.le
  rw [content_of_buf hblk, List.length_take_of_le (by omega)]

theorem wf_store {b : FastBufAlloc T maxcachesize} (hb : b.Wf) {blk : List T}
    (hl : blk.length = b.allocLen + 1) :
    (b.store blk).Wf ∧ (b.store blk).buf = some blk := by
  have hc := hb.cap
  by_cases h : maxcachesize < b.allocLen
  · constructor
    · constructor <;> simp [store, h, hb.arr, hb.le, hl, hc]
    · simp [store, h, buf]
  · have hn : ¬ b.heapbuf.isSome := fun hs => h (hb.heap_iff.mpr hs)
    constructor
    · constructor
      · simp only [store, h, ↓reduceIte]; omega
      · simpa only [store, h, ↓reduceIte] using hb.heap
      · simpa only [store, h, ↓reduceIte] using hb.heap_iff
      · simpa only [store, h, ↓reduceIte] using hb.cap
      · simpa only [store, h, ↓reduceIte] using hb.le
    · simp [store, h, buf]

@[simp] theorem store_cpLen (b : FastBufAlloc T maxcachesize) (blk : List T) :
    (b.store blk).cpLen = b.cpLen := by
  unfold store; split <;> rfl

@[simp] theorem store_allocLen (b : FastBufAlloc T maxcachesize) (blk : List T) :
    (b.store blk).allocLen = b.allocLen := by
  unfold store; split <;> rfl

theorem poke_spec {b : FastBufAlloc T maxcachesize} (hb : b.Wf) {blk : List T}
    (hblk : b.buf = some blk) (pos : Nat) (src : List T)
    (hfit : pos + src.length ≤ b.allocLen + 1) :
    ∃ b', b.poke pos src = some b' ∧ b'.Wf ∧ b'.cpLen = b.cpLen ∧ b'.allocLen = b.allocLen ∧
      b'.buf = some (splice blk pos src) := by
  obtain ⟨blk', hblk', hl⟩ := hb.buf_eq
  rw [hblk, Option.some.injEq] at hblk'
  subst blk'
  have hs : (splice blk pos src).length = b.allocLen + 1 := by
    rw [splice_length (by omega)]; omega
  obtain ⟨hw, hbuf⟩ := wf_store hb hs
  refine ⟨b.store (splice blk pos src), ?_, hw, store_cpLen _ _, store_allocLen _ _, hbuf⟩
  simp [poke, hblk, blit_of_fits (show pos + src.length ≤ blk.length by omega)]

theorem setcplen_spec [Zero T] {b : FastBufAlloc T maxcachesize} (hb : b.Wf) {blk : List T}
    (hblk : b.buf = some blk) (len : Nat) (hlen : len ≤ b.allocLen) :
    ∃ b', b.setcplen len = some b' ∧ b'.Wf ∧ b'.cpLen = len ∧ b'.allocLen = b.allocLen ∧
      b'.content = blk.take len := by
  have hb' : ({ b with cpLen := len } : FastBufAlloc T maxcachesize).Wf :=
    ⟨hb.arr, hb.heap, hb.heap_iff, hb.cap, hlen⟩
  obtain ⟨blk', hblk', hl⟩ := hb.buf_eq
  rw [hblk, Option.some.injEq] at hblk'
  subst blk'
  obtain ⟨b', he, hw, hc, ha, hbuf⟩ := poke_spec hb' hblk len [0] (by simpa using hlen)
  refine ⟨b', he, hw, hc, ha, ?_⟩
  rw [content_of_buf hbuf, hc]
  exact take_splice_of_le [0] (Nat.le_refl len) (by omega)

/-- Either branch of `grow()` keeps a prefix of the block that covers the content. -/
theorem kept_spec {b : FastBufAlloc T maxcachesize} (hb : b.Wf) {blk : List T}
    (hblk : b.buf = some blk) (hl : blk.length = b.allocLen + 1) :
    ∃ k, b.cpLen ≤ k ∧ k ≤ b.allocLen ∧ b.kept = some (blk.take k) := by
  have hle := hb.le
  cases hh : b.heapbuf with
  | some h =>
    have hgt : maxcachesize < b.allocLen := hb.heap_iff.mpr (by simp [hh])
    have heq : h = blk := by simpa [buf, hgt, hh] using hblk
    subst heq
    refine ⟨b.allocLen, hle, Nat.le_refl _, ?_⟩
    simp [kept, hh, slice_of_fits (show 0 + b.allocLen ≤ h.length by omega)]
  | none =>
    refine ⟨b.cpLen, Nat.le_refl _, hle, ?_⟩
    simp [kept, hh, hblk, slice_of_fits (show 0 + b.cpLen ≤ blk.length by omega)]

/-- Growing keeps the content, except for the one size at which `newsize+1` wraps. -/
theorem grow_spec [Zero T] {b : FastBufAlloc T maxcachesize} (hb : b.Wf) (newsize : Nat)
    (hn : newsize ≠ sizeMax) :
    ∃ b', b.grow newsize = some b' ∧ b'.Wf ∧ b'.cpLen = b.cpLen ∧
      b'.allocLen = max b.allocLen newsize ∧ b'.content = b.content := by
  have hle := hb.le
  have hcap := hb.cap
  by_cases h : newsize ≤ b.allocLen
  · exact ⟨b, by simp [grow, h], hb, rfl, by omega, rfl⟩
  have hcells : newCells newsize = newsize + 1 := if_neg hn
  obtain ⟨blk, hblk, hl⟩ := hb.buf_eq
  obtain ⟨k, hk, hk', hkept⟩ := kept_spec hb hblk hl
  have htl : (blk.take k).length = k := List.length_take_of_le (by omega)
  have hfit : 0 + (blk.take k).length ≤ (List.replicate (newCells newsize) (0 : T)).length := by
    rw [htl, List.length_replicate, hcells]; omega
  refine ⟨{ b with
    heapbuf := some (splice (List.replicate (newCells newsize) 0) 0 (blk.take k))
    allocLen := newsize }, ?_, ?_, rfl, ?_, ?_⟩
  · simp [grow, h, hkept, blit_of_fits hfit]
  · constructor
    · exact hb.arr
    · rintro _ ⟨rfl⟩
      rw [splice_length (Nat.zero_le _), List.length_replicate, htl, hcells]
      simp only; omega
    · simp; omega
    · simp only; omega
    · simp only; omega
  · simp only; omega
  · have hgt : maxcachesize < newsize := by omega
    rw [content, content, hblk]
    simp only [buf, hgt, ↓reduceIte, Option.getD_some, splice, List.take_zero, List.nil_append]
    rw [List.take_append_of_le_length (by omega), List.take_take, Nat.min_eq_left hk]

/-- A heap block is copied whole but for its terminator cell, which is zero in the copy. -/
theorem copy_spec [Zero T] {b : FastBufAlloc T maxcachesize} (hb : b.Wf)
    (hheap : b.heapbuf.isSome) (junk : Uninit T) :
    ∃ b', b.copy junk = some b' ∧ b'.Wf ∧ b'.cpLen = b.cpLen ∧ b'.content = b.content := by
  obtain ⟨h, hh⟩ := Option.isSome_iff_exists.mp hheap
  have hgt : maxcachesize < b.allocLen := hb.heap_iff.mpr hheap
  have hl := hb.heap h hh
  have hle := hb.le
  have htl : (h.take b.allocLen).length = b.allocLen := List.length_take_of_le (by omega)
  have hold : slice h 0 b.allocLen = some (h.take b.allocLen) := slice_of_fits (by omega)
  have hfit : 0 + (h.take b.allocLen).length ≤ (List.replicate (b.allocLen + 1) (0 : T)).length := by
    rw [htl, List.length_replicate]; omega
  have hlen : (splice (List.replicate (b.allocLen + 1) 0) 0 (h.take b.allocLen)).length =
      b.allocLen + 1 := by
    rw [splice_length (Nat.zero_le _), htl, List.length_replicate]; omega
  refine ⟨⟨some (splice (List.replicate (b.allocLen + 1) 0) 0 (h.take b.allocLen)), b.arrbuf,
    b.cpLen, b.allocLen⟩, ?_, ⟨hb.arr, ?_, ?_, hb.cap, hle⟩, rfl, ?_⟩
  · rw [copy, hh]
    exact bind_eq_of_some hold (bind_eq_of_some (blit_of_fits hfit) rfl)
  · intro h' he
    rw [← Option.some.inj he, hlen]
  · simpa using hgt
  · simp only [content, buf, hgt, ↓reduceIte, hh, Option.getD_some, splice, List.take_zero,
      List.nil_append]
    rw [List.take_append_of_le_length (by omega), List.take_take, Nat.min_eq_left hle]

end FastBufAlloc
end EventServer.Stream
