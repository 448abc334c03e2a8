import EventServer.Stream.IMemFile

/-!
# The size tests of the memory file

`Read` and `Write` compare the sum of cursor and size with the length and with the
capacity. The sum is a `size_t`, and a caller's `int` is sign-extended to one: a
negative size counts as almost `2^64`, and the sum wraps to a position in front of
the cursor as soon as there is one that far back.
-/
namespace EventServer.Stream.CIMemFile

open EventServer.Lib.Blocks EventServer.Lib.CInt

/-- `m_nCurPos + nSize` as a number, for the `size_t` that `nSize` becomes. -/
def unboundedSum (f : CIMemFile) (nSize : Int) : Nat := f.curPos + toSizeT nSize

/-- `m_nCurPos + nSize <= m_FastBuf.cplen()`, with the sum of a `size_t`. -/
def ReadTest (f : CIMemFile) (nSize : Int) : Prop := f.unboundedSum nSize % 2 ^ 64 ≤ f.fastBuf.cpLen

/-- `m_nCurPos + nSize <= m_FastBuf.alloclen()`: `Write()` does not grow. -/
def WriteTest (f : CIMemFile) (nSize : Int) : Prop :=
  f.unboundedSum nSize % 2 ^ 64 ≤ f.fastBuf.allocLen

instance (f : CIMemFile) (nSize : Int) : Decidable (f.ReadTest nSize) :=
  inferInstanceAs (Decidable (_ ≤ _))

instance (f : CIMemFile) (nSize : Int) : Decidable (f.WriteTest nSize) :=
  inferInstanceAs (Decidable (_ ≤ _))

structure Bounded (f : CIMemFile) : Prop where
  pos : f.curPos ≤ f.fastBuf.cpLen
  le : f.fastBuf.cpLen ≤ f.fastBuf.allocLen
  small : f.fastBuf.allocLen < 2 ^ 63

/-- What `Read()` does where its test passes. -/
def readCopy (f : CIMemFile) (nSize : Int) : Option (Int × List Byte × CIMemFile) :=
  (copyLen nSize).bind fun n => f.fastBuf.buf.bind fun blk => (slice blk f.curPos n).map fun bytes =>
    (toInt32 (toSizeT nSize), bytes, { f with curPos := addSize f.curPos nSize })

/-- The branch of `Write()` that does not grow. -/
def writeInPlace (f : CIMemFile) (pBuf : List Byte) (nSize : Int) : Option (Int × CIMemFile) :=
  (f.put pBuf nSize).map fun f' => (toInt32 (toSizeT nSize), f')

/-- The branch of `Write()` that grows. -/
def writeGrown (f : CIMemFile) (pBuf : List Byte) (nSize : Int) : Option (Int × CIMemFile) :=
  (f.grown (addSize f.fastBuf.allocLen nSize * 2)).bind fun f' =>
    (f'.put pBuf nSize).map fun f' => (-1, f')

/-- `Read()` copies where `passes` holds, and fails where it does not. -/
structure Reads (f : CIMemFile) (nSize : Int) (passes : Prop) [Decidable passes] : Prop where
  test : f.ReadTest nSize ↔ passes
  read : f.read nSize =
    if passes then f.readCopy nSize else some (-1, [], { f with errorCode := .errRead })

/-- `Write()` does not grow the buffer where `passes` holds, and does where it does not. -/
structure Writes (f : CIMemFile) (nSize : Int) (passes : Prop) [Decidable passes] : Prop where
  test : f.WriteTest nSize ↔ passes
  write : ∀ pBuf, f.write pBuf nSize =
    if passes then f.writeInPlace pBuf nSize else f.writeGrown pBuf nSize

/-- A negative size, and a position that far in front of the cursor. -/
def LeadsBack (f : CIMemFile) (nSize : Int) : Prop := nSize < 0 ∧ 0 ≤ f.curPos + nSize

section

variable {f : CIMemFile} {n : Int}

theorem Bounded.addSize_eq (h : f.Bounded) (hl : -2 ^ 31 ≤ n) (hu : n < 2 ^ 31) :
    addSize f.curPos n = f.unboundedSum n % 2 ^ 64 := by
  have hpos := h.pos
  have hle := h.le
  have hsmall := h.small
  exact addSize_eq_mod (by omega) hl hu

/-- `Read()` goes by its test. -/
theorem read_of_test (h : f.Bounded) (hl : -2 ^ 31 ≤ n) (hu : n < 2 ^ 31) :
    f.read n =
      if f.ReadTest n then f.readCopy n else some (-1, [], { f with errorCode := .errRead }) := by
  have htest : f.ReadTest n ↔ addSize f.curPos n ≤ f.fastBuf.cpLen := by
    rw [ReadTest, h.addSize_eq hl hu]
  rw [read, readCopy]
  by_cases ht : addSize f.curPos n ≤ f.fastBuf.cpLen
  · rw [if_pos ht, if_pos (htest.mpr ht)]
    cases copyLen n with
    | none => rfl
    | some k => cases f.fastBuf.buf with
      | none => rfl
      | some blk => cases hs : slice blk f.curPos k <;> simp [hs]
  · rw [if_neg ht, if_neg fun hp => ht (htest.mp hp)]

/-- `Write()` goes by its test. -/
theorem write_of_test (h : f.Bounded) (hl : -2 ^ 31 ≤ n) (hu : n < 2 ^ 31) (pBuf : List Byte) :
    f.write pBuf n =
      if f.WriteTest n then f.writeInPlace pBuf n else f.writeGrown pBuf n := by
  have htest : f.WriteTest n ↔ addSize f.curPos n ≤ f.fastBuf.allocLen := by
    rw [WriteTest, h.addSize_eq hl hu]
  rw [write, writeInPlace, writeGrown, grown]
  by_cases ht : addSize f.curPos n ≤ f.fastBuf.allocLen
  · rw [if_pos ht, if_pos (htest.mpr ht)]
    cases f.put pBuf n <;> rfl
  · rw [if_neg ht, if_neg fun hp => ht (htest.mp hp)]
    cases f.fastBuf.grow (addSize f.fastBuf.allocLen n * 2) with
    | none => rfl
    | some fb => cases hp : ({ f with fastBuf := fb } : CIMemFile).put pBuf n <;> simp [hp]

theorem reads_iff (h : f.Bounded) (hl : -2 ^ 31 ≤ n) (hu : n < 2 ^ 31) {passes : Prop}
    [Decidable passes] : f.Reads n passes ↔ (f.ReadTest n ↔ passes) := by
  refine ⟨Reads.test, fun htest => ⟨htest, ?_⟩⟩
  rw [read_of_test h hl hu]
  simp only [htest]

theorem writes_iff (h : f.Bounded) (hl : -2 ^ 31 ≤ n) (hu : n < 2 ^ 31) {passes : Prop}
    [Decidable passes] : f.Writes n passes ↔ (f.WriteTest n ↔ passes) := by
  refine ⟨Writes.test, fun htest => ⟨htest, fun pBuf => ?_⟩⟩
  rw [write_of_test h hl hu]
  simp only [htest]

/-- A size that leads back passes both tests, although the sum is beyond every object. -/
theorem LeadsBack.passes (h : f.Bounded) (hl : -2 ^ 31 ≤ n) (hb : f.LeadsBack n) :
    f.ReadTest n ∧ f.WriteTest n ∧ 2 ^ 63 < f.unboundedSum n := by
  obtain ⟨hneg, hback⟩ := hb
  have hpos := h.pos
  have hle := h.le
  have hsmall := h.small
  have hsum : f.unboundedSum n = 2 ^ 64 + (f.curPos + n).toNat := by
    rw [unboundedSum, toSizeT, if_neg (by omega)]
    omega
  have hmod : f.unboundedSum n % 2 ^ 64 = (f.curPos + n).toNat := by omega
  refine ⟨?_, ?_, by omega⟩
  · rw [ReadTest, hmod]
    omega
  · rw [WriteTest, hmod]
    omega

/-- Any other sum does not wrap. -/
theorem Bounded.sum_lt (h : f.Bounded) (hu : n < 2 ^ 31) (hb : ¬ f.LeadsBack n) :
    f.unboundedSum n < 2 ^ 64 := by
  have hpos := h.pos
  have hle := h.le
  have hsmall := h.small
  rw [LeadsBack, not_and] at hb
  unfold unboundedSum toSizeT
  split <;> omega

theorem tests_exact (h : f.Bounded) (hu : n < 2 ^ 31) (hb : ¬ f.LeadsBack n) :
    (f.ReadTest n ↔ f.unboundedSum n ≤ f.fastBuf.cpLen) ∧
      (f.WriteTest n ↔ f.unboundedSum n ≤ f.fastBuf.allocLen) := by
  rw [ReadTest, WriteTest, Nat.mod_eq_of_lt (h.sum_lt hu hb)]
  exact ⟨Iff.rfl, Iff.rfl⟩

theorem negative_fails (h : f.Bounded) (hl : -2 ^ 31 ≤ n) (hu : n < 2 ^ 31)
    (hb : ¬ f.LeadsBack n) (hneg : n < 0) : ¬ f.ReadTest n ∧ ¬ f.WriteTest n := by
  obtain ⟨hread, hwrite⟩ := tests_exact h hu hb
  have hle := h.le
  have hsmall := h.small
  have hsum : 2 ^ 63 < f.unboundedSum n := by
    unfold unboundedSum toSizeT
    split <;> omega
  rw [hread, hwrite]
  omega

/-- `Read()` and `Write()` do what the unbounded sums say, and both refuse a negative size, unless the
size leads back. -/
theorem size_tests_iff (h : f.Bounded) (hl : -2 ^ 31 ≤ n) (hu : n < 2 ^ 31) :
    (f.Reads n (f.unboundedSum n ≤ f.fastBuf.cpLen) ↔ ¬ f.LeadsBack n) ∧
      (f.Writes n (f.unboundedSum n ≤ f.fastBuf.allocLen) ↔ ¬ f.LeadsBack n) ∧
      ((n < 0 → f.Reads n False ∧ f.Writes n False) ↔ ¬ f.LeadsBack n) := by
  have hle := h.le
  have hsmall := h.small
  simp only [reads_iff h hl hu, writes_iff h hl hu, iff_false]
  refine ⟨⟨?_, ?_⟩, ⟨?_, ?_⟩, ⟨?_, ?_⟩⟩
  · intro hexact hb
    obtain ⟨hread, -, hsum⟩ := hb.passes h hl
    have hfits := hexact.mp hread
    omega
  · intro hb
    exact (tests_exact h hu hb).1
  · intro hexact hb
    obtain ⟨-, hwrite, hsum⟩ := hb.passes h hl
    have hfits := hexact.mp hwrite
    omega
  · intro hb
    exact (tests_exact h hu hb).2
  · intro hrefuse hb
    exact (hrefuse hb.1).1 (hb.passes h hl).1
  · exact negative_fails h hl hu

end

/-- Four bytes were written, and the cursor is behind them. -/
def behindFour : CIMemFile := ⟨⟨none, List.replicate 33 0, 4, 32⟩, 4, .errNo⟩

/-- Behind four bytes a size of -5 is refused. -/
theorem size_tests_refused :
    behindFour.Bounded ∧ behindFour.Reads (-5) False ∧ behindFour.Writes (-5) False := by
  have h : behindFour.Bounded := ⟨by decide, by decide, by decide⟩
  have hb : ¬ behindFour.LeadsBack (-5) := fun hb => absurd hb.2 (by decide)
  have hfive : -2 ^ 31 ≤ (-5 : Int) ∧ (-5 : Int) < 2 ^ 31 := by decide
  exact ⟨h, (size_tests_iff h hfive.1 hfive.2).2.2.mpr hb (by decide)⟩

/-- After one byte was written, a size of -1 passes both tests, and the copy of `Read()` is one of
`2^64 - 1` bytes. -/
theorem minus_one_passes : ∃ f, fresh.write [7] 1 = some (1, f) ∧ f.Bounded ∧
    ¬ f.Reads (-1) (f.unboundedSum (-1) ≤ f.fastBuf.cpLen) ∧
    ¬ f.Writes (-1) (f.unboundedSum (-1) ≤ f.fastBuf.allocLen) ∧
    ¬ (f.Reads (-1) False ∧ f.Writes (-1) False) ∧ f.read (-1) = none := by
  refine ⟨⟨⟨none, 7 :: List.replicate 32 0, 1, 32⟩, 1, .errNo⟩, by decide +kernel,
    ⟨by decide, by decide, by decide⟩, ?_, ?_, ?_, by decide +kernel⟩
  · intro hreads
    exact absurd (hreads.test.mp (by decide)) (by decide)
  · intro hwrites
    exact absurd (hwrites.test.mp (by decide)) (by decide)
  · intro hfalse
    exact hfalse.1.test.mp (by decide)

end EventServer.Stream.CIMemFile
