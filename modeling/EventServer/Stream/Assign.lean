import Mathlib.Algebra.GroupWithZero.Nat
import EventServer.Lib.Transition
import EventServer.Stream.FastBufAlloc

/-!
# Buffers assigned to each other

`operator=` copies the inline array and the length of its source; capacity and heap
block only of a source that has one. `buf()` goes by the capacity, so a target with a
heap block shows its own old cells as the content of a source without one.
-/
namespace EventServer.Stream

open EventServer.Lib.Blocks EventServer.Lib.CInt EventServer.Lib.Transition

namespace FastBufAlloc

variable {T : Type} {maxcachesize : Nat} [Zero T]

def append (b : FastBufAlloc T maxcachesize) (arr : List T) :
    Option (FastBufAlloc T maxcachesize) := do
  let b ← b.grow (b.cpLen + arr.length)
  let b ← b.poke b.cpLen arr
  b.setcplen (b.cpLen + arr.length)

/-- `operator=`, of two objects. The block that the target had is not given back. -/
def assign (a buf : FastBufAlloc T maxcachesize) : Option (FastBufAlloc T maxcachesize) :=
  match buf.heapbuf with
  | some h => do
    let old ← slice h 0 buf.allocLen
    let blk ← blit (List.replicate (newCells buf.allocLen) 0) 0 old
    return ⟨some blk, buf.arrbuf, buf.cpLen, buf.allocLen⟩
  | none => some { a with arrbuf := buf.arrbuf, cpLen := buf.cpLen }

end FastBufAlloc

/-! ## Objects and what is called on them -/

section

variable (ι T : Type) (maxcachesize : Nat)

abbrev Buffers := ι → FastBufAlloc T maxcachesize

variable {ι T maxcachesize} [Zero T] [DecidableEq ι]

/-- One call. A request is a `size_t`, a length is set within the capacity, and an object is not
assigned to itself, where `memcpy` would get the same array twice. -/
inductive Buffers.Step : Buffers ι T maxcachesize → Buffers ι T maxcachesize → Prop
  | grow {s} (i : ι) (newsize : Nat) (hs : newsize ≤ sizeMax) {b : FastBufAlloc T maxcachesize}
      (h : (s i).grow newsize = some b) : Step s (Function.update s i b)
  | append {s} (i : ι) (arr : List T) (hs : (s i).cpLen + arr.length ≤ sizeMax)
      {b : FastBufAlloc T maxcachesize} (h : (s i).append arr = some b) :
      Step s (Function.update s i b)
  | setcplen {s} (i : ι) (len : Nat) (hl : len ≤ (s i).allocLen) {b : FastBufAlloc T maxcachesize}
      (h : (s i).setcplen len = some b) : Step s (Function.update s i b)
  | release {s} (i : ι) : Step s (Function.update s i (s i).release)
  | assign {s} (i j : ι) (hij : i ≠ j) {b : FastBufAlloc T maxcachesize}
      (h : (s i).assign (s j) = some b) : Step s (Function.update s i b)

/-- All objects start as their constructor leaves them. -/
def Buffers.lts (ι T : Type) (maxcachesize : Nat) [Zero T] [DecidableEq ι] :
    Lts (Buffers ι T maxcachesize) where
  init s := s = fun _ => .fresh
  step := Buffers.Step

end

namespace FastBufAlloc

variable {T : Type} {maxcachesize : Nat}

/-- A call on an object that was assigned to. -/
inductive Call (T : Type) where
  | grow (newsize : Nat)
  | append (arr : List T)
  | release

def call [Zero T] (b : FastBufAlloc T maxcachesize) : Call T → Option (FastBufAlloc T maxcachesize)
  | .grow newsize => b.grow newsize
  | .append arr => b.append arr
  | .release => some b.release

/-- What a call does to a content. -/
def Call.spec (l : List T) : Call T → List T
  | .grow _ => l
  | .append arr => l ++ arr
  | .release => []

/-- What a call asks `grow` for, on a buffer with this content. -/
def Call.request (l : List T) : Call T → Nat
  | .grow newsize => newsize
  | .append arr => l.length + arr.length
  | .release => 0

/-- No request along the calls is for `SIZE_MAX` cells or more. -/
def Call.Fit : List T → List (Call T) → Prop
  | _, [] => True
  | l, c :: cs => c.request l < sizeMax ∧ Fit (c.spec l) cs

/-- Under all further calls the object is a buffer with this content. -/
def BehavesAs [Zero T] (b : FastBufAlloc T maxcachesize) (l : List T) : Prop :=
  ∀ cs, Call.Fit l cs → ∃ b', cs.foldlM call b = some b' ∧ b'.cpLen = (cs.foldl Call.spec l).length ∧
    b'.content = cs.foldl Call.spec l

end FastBufAlloc

/-- Object `i`, assigned from object `j`, has its length and content from then on, in the shape of a
buffer, and `j` is as it was. -/
def Buffers.AssignCopies {ι T : Type} {maxcachesize : Nat} [Zero T] [DecidableEq ι]
    (s : Buffers ι T maxcachesize) (i j : ι) : Prop :=
  ∃ a, (s i).assign (s j) = some a ∧ a.cpLen = (s j).cpLen ∧ a.content = (s j).content ∧
    a.cpLen ≤ a.allocLen ∧ (maxcachesize < a.allocLen ↔ a.heapbuf.isSome) ∧
    Function.update s i a j = s j ∧ a.BehavesAs (s j).content

namespace FastBufAlloc

variable {T : Type} {maxcachesize : Nat} [Zero T]

/-- The block that `buf()` selects was made with all its cells. -/
structure Sound (b : FastBufAlloc T maxcachesize) : Prop where
  wf : b.Wf
  lt : b.allocLen < sizeMax

/-- After `grow(SIZE_MAX)` on an empty inline buffer: `newsize + 1` was 0. -/
structure Hollow (b : FastBufAlloc T maxcachesize) : Prop where
  arr : b.arrbuf.length = maxcachesize + 1
  heap : b.heapbuf = some []
  alloc : b.allocLen = sizeMax
  le : b.cpLen ≤ maxcachesize

section

variable {b b' : FastBufAlloc T maxcachesize}

omit [Zero T] in
theorem Wf.inline_alloc (hb : b.Wf) (hi : b.heapbuf = none) : b.allocLen = maxcachesize := by
  have hcap := hb.cap
  by_contra hne
  have hs := hb.heap_iff.mp (by omega)
  simp [hi] at hs

omit [Zero T] in
theorem poke_of_no_cells (hheap : b.heapbuf = some []) (halloc : b.allocLen = sizeMax)
    (hmax : maxcachesize < sizeMax) (pos : Nat) {src : List T} (hsrc : src ≠ []) :
    b.poke pos src = none := by
  have hbuf : b.buf = some [] := by rw [buf, halloc, if_pos hmax, hheap]
  have hpos := List.length_pos_iff.mpr hsrc
  have hblit : blit ([] : List T) pos src = none := if_neg (by rw [List.length_nil]; omega)
  simp [poke, hbuf, hblit]

theorem Hollow.setcplen_eq (hb : b.Hollow) (hmax : maxcachesize < sizeMax) (len : Nat) :
    b.setcplen len = none :=
  poke_of_no_cells (b := { b with cpLen := len }) hb.heap hb.alloc hmax len (List.cons_ne_nil 0 [])

theorem Hollow.grow_eq (hb : b.Hollow) {newsize : Nat} (hs : newsize ≤ sizeMax) :
    b.grow newsize = some b := if_pos (by rw [hb.alloc]; exact hs)

/-- There is not even room for a terminator. -/
theorem Hollow.append_eq (hb : b.Hollow) (hmax : maxcachesize < sizeMax) {arr : List T}
    (hs : b.cpLen + arr.length ≤ sizeMax) : b.append arr = none := by
  by_cases harr : arr = []
  · have hpoke : ∀ b', b.poke b.cpLen [] = some b' → b' = b := by
      intro b' he
      have hbuf : b.buf = some [] := by rw [buf, hb.alloc, if_pos hmax, hb.heap]
      simp only [poke, hbuf, blit, Option.bind_eq_bind, Option.bind_some, splice_nil] at he
      split at he
      · obtain rfl := Option.some.inj he
        rw [store, hb.alloc, if_pos hmax, ← hb.alloc, ← hb.heap]
      · simp at he
    subst harr
    simp only [append, hb.grow_eq hs, Option.bind_eq_bind, Option.bind_some]
    cases he : b.poke b.cpLen [] with
    | none => rfl
    | some b' =>
      obtain rfl := hpoke b' he
      exact hb.setcplen_eq hmax _
  · simp [append, hb.grow_eq hs, poke_of_no_cells hb.heap hb.alloc hmax b.cpLen harr]

theorem append_spec (hb : b.Wf) (arr : List T) (hs : b.cpLen + arr.length ≠ sizeMax) :
    ∃ b', b.append arr = some b' ∧ b'.Wf ∧ b'.allocLen = max b.allocLen (b.cpLen + arr.length) ∧
      b'.content = b.content ++ arr := by
  obtain ⟨b₁, hgrow, hw₁, hc₁, ha₁, hcont₁⟩ := grow_spec hb _ hs
  obtain ⟨blk, hblk, hl⟩ := hw₁.buf_eq
  have hle := hw₁.le
  obtain ⟨b₂, hpoke, hw₂, hc₂, ha₂, hbuf₂⟩ := poke_spec hw₁ hblk b₁.cpLen arr (by omega)
  obtain ⟨b₃, hset, hw₃, -, ha₃, hcont₃⟩ := setcplen_spec hw₂ hbuf₂ (b₂.cpLen + arr.length)
    (by omega)
  refine ⟨b₃, by simp [append, hgrow, hpoke, hset], hw₃, by omega, ?_⟩
  have hfront : (blk.take b₁.cpLen).length = b₁.cpLen := List.length_take_of_le (by omega)
  have hlen : b₂.cpLen + arr.length = (blk.take b₁.cpLen ++ arr).length := by
    rw [List.length_append, hfront, hc₂]
  rw [hcont₃, splice, hlen, List.take_left, ← hcont₁, content_of_buf hblk]

/-! ## What an assignment leaves -/

/-- A source with a heap block is copied whole, as by the copy constructor. -/
theorem assign_of_heap (a : FastBufAlloc T maxcachesize) (hb : b.Sound)
    (hheap : b.heapbuf.isSome) :
    ∃ a', a.assign b = some a' ∧ a'.Sound ∧ a'.cpLen = b.cpLen ∧ a'.content = b.content := by
  obtain ⟨h, hh⟩ := Option.isSome_iff_exists.mp hheap
  have hlt := hb.lt
  have hsame : a.assign b = b.copy ⟨none, 0⟩ := by
    simp only [assign, copy, hh, newCells, if_neg hlt.ne]
  obtain ⟨a', he, hw, hc, hcont⟩ := copy_spec hb.wf hheap ⟨none, 0⟩
  have halloc : a'.allocLen = b.allocLen := by
    simp only [copy, hh, Option.bind_eq_bind, Option.bind_eq_some_iff, Option.pure_def,
      Option.some.injEq] at he
    obtain ⟨_, -, _, -, rfl⟩ := he
    rfl
  exact ⟨a', hsame.trans he, ⟨hw, halloc ▸ hlt⟩, hc, hcont⟩

omit [Zero T] in
/-- From a source without one, the target keeps its capacity and its block. -/
theorem sound_inline {a : FastBufAlloc T maxcachesize} (ha : a.Sound) (hb : b.Sound)
    (hi : b.heapbuf = none) :
    ({ a with arrbuf := b.arrbuf, cpLen := b.cpLen } : FastBufAlloc T maxcachesize).Sound := by
  have hle := hb.wf.le
  have hcap := ha.wf.cap
  rw [hb.wf.inline_alloc hi] at hle
  exact ⟨⟨hb.wf.arr, ha.wf.heap, ha.wf.heap_iff, hcap, hle.trans hcap⟩, ha.lt⟩

theorem call_spec (hb : b.Wf) (c : Call T) (hc : c.request b.content < sizeMax) :
    ∃ b', b.call c = some b' ∧ b'.Wf ∧ b'.content = c.spec b.content := by
  cases c with
  | grow newsize =>
    obtain ⟨b', he, hw, -, -, hcont⟩ := grow_spec hb newsize (Nat.ne_of_lt hc)
    exact ⟨b', he, hw, hcont⟩
  | append arr =>
    rw [Call.request, hb.content_length] at hc
    obtain ⟨b', he, hw, -, hcont⟩ := append_spec hb arr (Nat.ne_of_lt hc)
    exact ⟨b', he, hw, hcont⟩
  | release => exact ⟨fresh, rfl, wf_fresh, content_fresh⟩

theorem Wf.behavesAs (hb : b.Wf) : b.BehavesAs b.content := by
  intro cs
  induction cs generalizing b with
  | nil => exact fun _ => ⟨b, rfl, hb.content_length.symm, rfl⟩
  | cons c cs ih =>
    intro hfit
    obtain ⟨b₁, he, hw₁, hcont⟩ := call_spec hb c hfit.1
    have hfit₁ : Call.Fit b₁.content cs := hcont ▸ hfit.2
    obtain ⟨b₂, hrest, hlen, hcont₂⟩ := ih hw₁ hfit₁
    refine ⟨b₂, ?_, ?_, ?_⟩
    · simpa [List.foldlM_cons, he] using hrest
    · rw [List.foldl_cons, ← hcont, hlen]
    · rw [List.foldl_cons, ← hcont, hcont₂]

/-- A hollow buffer behaves as no buffer: it cannot take nothing. -/
theorem Hollow.not_behavesAs (hb : b.Hollow) (hmax : maxcachesize < sizeMax) {l : List T}
    (hl : l.length < sizeMax) : ¬ b.BehavesAs l := by
  intro hbeh
  obtain ⟨b', he, -⟩ := hbeh [.append []] ⟨by simpa [Call.request] using hl, trivial⟩
  have hle := hb.le
  have hnone : b.append ([] : List T) = none := hb.append_eq hmax (by rw [List.length_nil]; omega)
  simp [call, hnone] at he

/-! ## Reachable objects -/

theorem sound_fresh (hmax : maxcachesize < sizeMax) :
    (fresh : FastBufAlloc T maxcachesize).Sound := ⟨wf_fresh, hmax⟩

theorem grow_fields {newsize : Nat} (he : b.grow newsize = some b') :
    b'.cpLen = b.cpLen ∧ b'.allocLen = max b.allocLen newsize := by
  unfold FastBufAlloc.grow at he
  split at he
  · obtain rfl := Option.some.inj he
    exact ⟨rfl, by omega⟩
  · simp only [Option.bind_eq_bind, Option.bind_eq_some_iff, Option.pure_def,
      Option.some.injEq] at he
    obtain ⟨_, -, _, -, rfl⟩ := he
    exact ⟨rfl, by simp only; omega⟩

/-- Only `grow(SIZE_MAX)` on an empty inline buffer leaves a hollow one. -/
theorem Sound.grow (hb : b.Sound) {newsize : Nat} (hs : newsize ≤ sizeMax)
    (he : b.grow newsize = some b') : b'.Sound ∨ b'.Hollow := by
  have hlt := hb.lt
  rcases Nat.lt_or_eq_of_le hs with hs | rfl
  · obtain ⟨b₁, he₁, hw, -, halloc, -⟩ := grow_spec hb.wf newsize (Nat.ne_of_lt hs)
    obtain rfl := Option.some.inj (he₁.symm.trans he)
    exact .inl ⟨hw, by omega⟩
  · obtain ⟨blk, hblk, hl⟩ := hb.wf.buf_eq
    obtain ⟨k, hk, hk', hkept⟩ := kept_spec hb.wf hblk hl
    have hnew : newCells sizeMax = 0 := if_pos rfl
    simp only [FastBufAlloc.grow, if_neg (Nat.not_le.mpr hlt), hkept, hnew, List.replicate_zero,
      Option.bind_eq_bind, Option.bind_some, Option.bind_eq_some_iff, Option.pure_def,
      Option.some.injEq] at he
    obtain ⟨blk', hblit, rfl⟩ := he
    unfold blit at hblit
    split at hblit
    · rename_i hfit
      have hzero : (blk.take k).length = 0 := by
        rw [List.length_nil] at hfit
        omega
      have hk0 : k = 0 := by
        rw [List.length_take] at hzero
        omega
      have hnil : splice [] 0 (blk.take k) = [] := by rw [hk0, List.take_zero, splice_nil]
      refine .inr ⟨hb.wf.arr, ?_, rfl, by simp only; omega⟩
      rw [← Option.some.inj hblit, hnil]
    · cases hblit

theorem Sound.append (hb : b.Sound) (hmax : maxcachesize < sizeMax) {arr : List T}
    (hs : b.cpLen + arr.length ≤ sizeMax) (he : b.append arr = some b') : b'.Sound := by
  have hlt := hb.lt
  rcases Nat.lt_or_eq_of_le hs with hs | hs
  · obtain ⟨b₁, he₁, hw, halloc, -⟩ := append_spec hb.wf arr (Nat.ne_of_lt hs)
    obtain rfl := Option.some.inj (he₁.symm.trans he)
    exact ⟨hw, by omega⟩
  · -- What was asked for is hollow, and has no room.
    obtain ⟨b₁, hgrow, hrest⟩ := Option.bind_eq_some_iff.mp he
    obtain ⟨hc₁, ha₁⟩ := grow_fields hgrow
    have hhollow : b₁.Hollow := by
      refine (hb.grow hs.le hgrow).resolve_left fun hsound => ?_
      have hlt₁ := hsound.lt
      omega
    have hnone : b₁.append arr = none := hhollow.append_eq hmax (by omega)
    have hsame : b₁.append arr = some b' :=
      Option.bind_eq_some_iff.mpr ⟨b₁, hhollow.grow_eq (by omega), hrest⟩
    rw [hnone] at hsame
    cases hsame

theorem Sound.setcplen (hb : b.Sound) {len : Nat} (hl : len ≤ b.allocLen)
    (he : b.setcplen len = some b') : b'.Sound := by
  obtain ⟨blk, hblk, -⟩ := hb.wf.buf_eq
  obtain ⟨b₁, he₁, hw, -, halloc, -⟩ := setcplen_spec hb.wf hblk len hl
  obtain rfl := Option.some.inj (he₁.symm.trans he)
  exact ⟨hw, halloc ▸ hb.lt⟩

/-- There is not as much in the block as `operator=` copies. -/
theorem assign_of_hollow (a : FastBufAlloc T maxcachesize) (hb : b.Hollow) : a.assign b = none := by
  have hslice : slice ([] : List T) 0 sizeMax = none := if_neg (by simp [sizeMax])
  simp [assign, hb.heap, hb.alloc, hslice]

theorem assign_of_inline (a : FastBufAlloc T maxcachesize) (hi : b.heapbuf = none) :
    a.assign b = some { a with arrbuf := b.arrbuf, cpLen := b.cpLen } := by
  rw [assign, hi]

theorem assign_keeps {a a' : FastBufAlloc T maxcachesize} (ha : a.Sound ∨ a.Hollow)
    (hb : b.Sound ∨ b.Hollow) (he : a.assign b = some a') : a'.Sound ∨ a'.Hollow := by
  rcases hb with hb | hb
  · cases hi : b.heapbuf with
    | some h =>
      obtain ⟨a₁, he₁, hsound, -⟩ := assign_of_heap a hb (by rw [hi]; rfl)
      obtain rfl := Option.some.inj (he₁.symm.trans he)
      exact .inl hsound
    | none =>
      obtain rfl := Option.some.inj ((assign_of_inline a hi).symm.trans he)
      refine ha.imp (fun ha => sound_inline ha hb hi) fun ha => ?_
      have hle := hb.wf.le
      rw [hb.wf.inline_alloc hi] at hle
      exact ⟨hb.wf.arr, ha.heap, ha.alloc, hle⟩
  · rw [assign_of_hollow a hb] at he
    cases he

end

end FastBufAlloc

namespace Buffers

open FastBufAlloc

variable {ι T : Type} {maxcachesize : Nat} [Zero T] [DecidableEq ι] {s t : Buffers ι T maxcachesize}

/-- What a step leaves in the object it changes. -/
theorem step_cases (hmax : maxcachesize < sizeMax) (hstep : Step s t)
    (hs : ∀ i, (s i).Sound ∨ (s i).Hollow) :
    ∃ i b, t = Function.update s i b ∧ (b.Sound ∨ b.Hollow) := by
  cases hstep with
  | grow i newsize hsize h =>
    refine ⟨i, _, rfl, ?_⟩
    rcases hs i with hb | hb
    · exact hb.grow hsize h
    · rw [hb.grow_eq hsize, Option.some.injEq] at h
      exact .inr (h ▸ hb)
  | append i arr hsize h =>
    refine ⟨i, _, rfl, .inl ?_⟩
    rcases hs i with hb | hb
    · exact hb.append hmax hsize h
    · rw [hb.append_eq hmax hsize] at h
      cases h
  | setcplen i len hl h =>
    refine ⟨i, _, rfl, .inl ?_⟩
    rcases hs i with hb | hb
    · exact hb.setcplen hl h
    · rw [hb.setcplen_eq hmax] at h
      cases h
  | release i => exact ⟨i, _, rfl, .inl (sound_fresh hmax)⟩
  | assign i j hij h => exact ⟨i, _, rfl, assign_keeps (hs i) (hs j) h⟩

theorem sound_or_hollow (hmax : maxcachesize < sizeMax)
    (h : Reachable (lts ι T maxcachesize) s) (i : ι) : (s i).Sound ∨ (s i).Hollow := by
  refine Reachable.invariant (P := fun s : Buffers ι T maxcachesize =>
    ∀ i, (s i).Sound ∨ (s i).Hollow) ?_ ?_ h i
  · rintro s rfl i
    exact .inl (sound_fresh hmax)
  · intro s t _ hs hstep k
    obtain ⟨i, b, rfl, hb⟩ := step_cases hmax hstep hs
    by_cases hk : k = i
    · subst hk
      simpa using hb
    · simpa [hk] using hs k

/-- What `a` and `b` must look like for `a = b` to copy: `b` has a heap block, or `a` has none, or
the block of `a` happens to start with the content of `b`. A block that was asked for with
`SIZE_MAX` does not do. -/
def Assignable (a b : FastBufAlloc T maxcachesize) : Prop :=
  match b.heapbuf with
  | some _ => b.allocLen ≠ sizeMax
  | none => ∀ h, a.heapbuf = some h → a.allocLen ≠ sizeMax ∧ h.take b.cpLen = b.content

omit [Zero T] in
theorem content_inline {a b : FastBufAlloc T maxcachesize} (ha : a.Sound) (hb : b.Sound)
    (hi : b.heapbuf = none) :
    ({ a with arrbuf := b.arrbuf, cpLen := b.cpLen } : FastBufAlloc T maxcachesize).content =
      match a.heapbuf with
      | some h => h.take b.cpLen
      | none => b.content := by
  cases hh : a.heapbuf with
  | some h =>
    have hgt : maxcachesize < a.allocLen := ha.wf.heap_iff.mpr (by rw [hh]; rfl)
    simp [content, buf, hgt]
  | none =>
    simp [content, buf, ha.wf.inline_alloc hh, hb.wf.inline_alloc hi]

/-- In every state that calls and assignments lead to, an assignment between two objects copies
exactly then. -/
theorem assign_copies_iff (hmax : maxcachesize < sizeMax)
    (h : Reachable (lts ι T maxcachesize) s) {i j : ι} (hij : i ≠ j) :
    s.AssignCopies i j ↔ Assignable (s i) (s j) := by
  have hstay : ∀ b, Function.update s i b j = s j := fun b => Function.update_of_ne hij.symm b s
  unfold AssignCopies Assignable
  rcases sound_or_hollow hmax h j with hb | hb
  · cases hi : (s j).heapbuf with
    | some blk =>
      obtain ⟨a, he, hsound, hc, hcont⟩ := assign_of_heap (s i) hb (by rw [hi]; rfl)
      refine iff_of_true ⟨a, he, hc, hcont, hsound.wf.le, hsound.wf.heap_iff, hstay a, ?_⟩ hb.lt.ne
      rw [← hcont]
      exact hsound.wf.behavesAs
    | none =>
      rw [assign_of_inline (s i) hi]
      rcases sound_or_hollow hmax h i with ha | ha
      · have hcont := content_inline ha hb hi
        have hsound := sound_inline ha hb hi
        constructor
        · intro hcopies blk hblk
          obtain ⟨a, he, -, hsame, -⟩ := hcopies
          obtain rfl := Option.some.inj he
          rw [hcont, hblk] at hsame
          exact ⟨ha.lt.ne, hsame⟩
        · intro hblk
          have hsame : ({ s i with arrbuf := (s j).arrbuf, cpLen := (s j).cpLen } :
              FastBufAlloc T maxcachesize).content = (s j).content := by
            rw [hcont]
            cases hh : (s i).heapbuf with
            | some blk => exact (hblk blk hh).2
            | none => rfl
          refine ⟨_, rfl, rfl, hsame, hsound.wf.le, hsound.wf.heap_iff, hstay _, ?_⟩
          rw [← hsame]
          exact hsound.wf.behavesAs
      · have hle := hb.wf.le
        rw [hb.wf.inline_alloc hi] at hle
        refine iff_of_false ?_ fun hblk => (hblk [] ha.heap).1 ha.alloc
        intro hcopies
        obtain ⟨a, he, -, -, -, -, -, hbeh⟩ := hcopies
        obtain rfl := Option.some.inj he
        have hhollow : ({ s i with arrbuf := (s j).arrbuf, cpLen := (s j).cpLen } :
            FastBufAlloc T maxcachesize).Hollow := ⟨hb.wf.arr, ha.heap, ha.alloc, hle⟩
        exact hhollow.not_behavesAs hmax (by rw [hb.wf.content_length]; omega) hbeh
  · have hnone : (s i).assign (s j) = none := assign_of_hollow (s i) hb
    simp [hnone, hb.heap, hb.alloc]

/-- Three cells in a buffer with room for two: the source has a heap block. -/
theorem assign_copies_heap : ∃ s : Buffers Bool Nat 2, Reachable (lts Bool Nat 2) s ∧
    (s false).content = [1, 2, 3] ∧ s.AssignCopies true false := by
  have h₀ : Reachable (lts Bool Nat 2) fun _ => fresh := .init rfl
  have h₁ := h₀.step (Step.append false [1, 2, 3] (by decide)
    (b := ⟨some [1, 2, 3, 0], [0, 0, 0], 3, 3⟩) (by decide))
  refine ⟨_, h₁, by decide, (assign_copies_iff (by decide) h₁ (by decide)).mpr ?_⟩
  change (3 : Nat) ≠ sizeMax
  decide

/-- The target has a heap block and the source none: the target shows its own first cell. -/
theorem assign_keeps_old_cells : ∃ (s : Buffers Bool Nat 2) (a : FastBufAlloc Nat 2),
    Reachable (lts Bool Nat 2) s ∧ (s true).assign (s false) = some a ∧
      (s false).content = [7] ∧ a.content = [1] ∧ ¬ s.AssignCopies true false := by
  have h₀ : Reachable (lts Bool Nat 2) fun _ => fresh := .init rfl
  have h₁ := h₀.step (Step.append true [1, 2, 3] (by decide)
    (b := ⟨some [1, 2, 3, 0], [0, 0, 0], 3, 3⟩) (by decide))
  have h₂ := h₁.step (Step.append false [7] (by decide) (b := ⟨none, [7, 0, 0], 1, 2⟩) (by decide))
  refine ⟨_, ⟨some [1, 2, 3, 0], [7, 0, 0], 1, 3⟩, h₂, by decide, by decide, by decide, ?_⟩
  intro hcopies
  obtain ⟨a, he, -, hsame, -⟩ := hcopies
  obtain rfl := Option.some.inj he
  exact absurd hsame (by decide)

end Buffers
end EventServer.Stream
