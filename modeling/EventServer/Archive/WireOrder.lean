import EventServer.Archive.IArchive

/-!
# The declared byte order and the bytes on the wire

`SetLittleEndian` selects the swap routines. The read branch of every integer
overload applies them; the write branch calls them and drops the result, so what
is written is always little-endian. The overload for `long` reads through the
32-bit routine.
-/
namespace EventServer.Archive

open EventServer.Lib.ByteOrder EventServer.Stream

/-- The multi-byte integer overloads of `Serial`. -/
inductive IntKind where
  | int
  | long
  | sint16
  | uint16
  | uint32
  | uint64
  deriving DecidableEq

namespace IntKind

def bytes : IntKind → Nat
  | .int => 4
  | .long => 8
  | .sint16 => 2
  | .uint16 => 2
  | .uint32 => 4
  | .uint64 => 8

/-- The overload of `Serial` for the type. -/
def serial : (k : IntKind) → CIArchive → BitVec (8 * k.bytes) →
    Option (BitVec (8 * k.bytes) × CIArchive)
  | .int => CIArchive.serialInt
  | .long => CIArchive.serialLong
  | .sint16 => CIArchive.serialSint16
  | .uint16 => CIArchive.serialUint16
  | .uint32 => CIArchive.serialUint32
  | .uint64 => CIArchive.serialUint64

/-- The conversion that the read branch of the overload applies. -/
def swapFn : (k : IntKind) → CIArchive → BitVec (8 * k.bytes) → BitVec (8 * k.bytes)
  | .int, ar => ar.longSwapFn
  | .long, ar => fun v => (ar.longSwapFn (v.setWidth 32)).signExtend 64
  | .sint16, ar => ar.shortSwapFn
  | .uint16, ar => ar.shortSwapFn
  | .uint32, ar => ar.longSwapFn
  | .uint64, ar => ar.longLongSwapFn

theorem serial_eq (k : IntKind) (ar : CIArchive) (l : BitVec (8 * k.bytes)) :
    k.serial ar l = ar.serialWord (k.swapFn ar) l := by
  cases k <;> rfl

theorem swapFn_congr (k : IntKind) {ar ar' : CIArchive} (h : ar.swapped = ar'.swapped) :
    k.swapFn ar = k.swapFn ar' := by
  cases k <;> simp only [swapFn, CIArchive.longSwapFn, CIArchive.shortSwapFn,
    CIArchive.longLongSwapFn, h] <;> rfl

theorem bytes_bounds (k : IntKind) :
    8 * k.bytes / 8 = k.bytes ∧ 0 < k.bytes ∧ k.bytes < 2 ^ 31 := by
  cases k <;> decide

end IntKind

/-- The bytes of `l` in the order `SetLittleEndian(b)` declares. -/
def wireBytes (k : IntKind) (b : Bool) (l : BitVec (8 * k.bytes)) : List Byte :=
  if b then leBytes k.bytes l.toNat else beBytes k.bytes l.toNat

/-- After `SetLittleEndian(b)`, writing `l` appends its bytes in that order and
reading them back, into a variable with any value, gives `l`. -/
def WireOrder (k : IntKind) (ar : CIArchive) (b : Bool) (l : BitVec (8 * k.bytes)) : Prop :=
  ∃ ar₁, k.serial (ar.setLittleEndian b) l = some (l, ar₁) ∧
    ar₁.content = ar.content ++ wireBytes k b l ∧
    ∃ ar₂, (ar₁.setMode 1).setPos ar.content.length = some ar₂ ∧
      ∀ l₀, ∃ ar₃, k.serial ar₂ l₀ = some (l, ar₃)

/-- What the two branches do: the write is little-endian, the read converts. -/
theorem wireOrder_iff_swapFn (k : IntKind) {ar : CIArchive} (h : ar.Ready)
    (hm : ar.mode = .smWrite) (he : ar.AtEnd) (b : Bool) (l : BitVec (8 * k.bytes)) :
    WireOrder k ar b l ↔
      leBytes k.bytes l.toNat = wireBytes k b l ∧ k.swapFn (ar.setLittleEndian b) l = l := by
  obtain ⟨hk, hpos, hlt⟩ := k.bytes_bounds
  have h₀ : (ar.setLittleEndian b).Ready := ⟨h.attached, h.wf⟩
  obtain ⟨ar₁, hser, hw⟩ := CIArchive.serialWord_write h₀ hm (k.swapFn (ar.setLittleEndian b)) l
  rw [hk] at hw
  obtain ⟨hcont, -⟩ := hw.append (show (ar.setLittleEndian b).AtEnd from he)
  change ar₁.content = ar.content ++ _ at hcont
  -- The reader stands in front of the appended bytes.
  have hready : (ar₁.setMode 1).Ready := CIArchive.ready_setMode hw.ready.wf 1
  obtain ⟨ar₂, hset, hmv, -, hp₂⟩ := CIArchive.setPos_spec hready ar.content.length
  have hc₂ : ar₂.content = ar.content ++ leBytes k.bytes l.toNat := by
    rw [hmv.content, CIArchive.content_setMode, hcont]
  rw [CIArchive.content_setMode, hcont, List.length_append, if_pos (Nat.le_add_right _ _)] at hp₂
  have hswap₂ : k.swapFn ar₂ = k.swapFn (ar.setLittleEndian b) :=
    k.swapFn_congr (hmv.swapped.trans hw.swapped)
  have hrem : ar₂.remaining = leBytes k.bytes l.toNat ++ [] := by
    rw [CIArchive.remaining, hc₂, hp₂, List.drop_left, List.append_nil]
  have hread : ∀ l₀, ∃ ar₃, k.serial ar₂ l₀ = some (k.swapFn (ar.setLittleEndian b) l, ar₃) := by
    intro l₀
    obtain ⟨ar₃, hs, -⟩ := CIArchive.serialWord_read hmv.ready hmv.mode (by omega) (by omega)
      (k.swapFn ar₂) l₀ (by rw [leBytes_length, hk]) hrem
    rw [fromLe_leBytes rfl, hswap₂] at hs
    exact ⟨ar₃, by rw [IntKind.serial_eq, hswap₂, hs]⟩
  constructor
  · intro hwire
    obtain ⟨ar₁', hs', hc', ar₂', hset', hr'⟩ := hwire
    rw [IntKind.serial_eq, hser, Option.some.injEq, Prod.mk.injEq] at hs'
    obtain ⟨-, rfl⟩ := hs'
    rw [hset, Option.some.injEq] at hset'
    subst hset'
    refine ⟨List.append_cancel_left (hcont.symm.trans hc'), ?_⟩
    obtain ⟨x, hx⟩ := hread l
    obtain ⟨y, hy⟩ := hr' l
    rw [hx, Option.some.injEq, Prod.mk.injEq] at hy
    exact hy.1
  · intro hswap
    obtain ⟨hb, hs⟩ := hswap
    refine ⟨ar₁, by rw [IntKind.serial_eq, hser], by rw [hcont, hb], ar₂, hset, ?_⟩
    intro l₀
    obtain ⟨x, hx⟩ := hread l₀
    exact ⟨x, by rw [hx, hs]⟩

/-- The value of a `long` that `int` can hold. -/
def FitsInt {w : Nat} (l : BitVec w) : Prop := -2 ^ 31 ≤ l.toInt ∧ l.toInt < 2 ^ 31

theorem signExtend_setWidth_iff (l : BitVec 64) :
    (l.setWidth 32).signExtend 64 = l ↔ FitsInt l := by
  have hs : ((l.setWidth 32).signExtend 64).toInt = (l.setWidth 32).toInt :=
    BitVec.toInt_signExtend_of_le (by omega)
  have hw : (l.setWidth 32).toInt = l.toInt.bmod (2 ^ 32) := by
    rw [BitVec.toInt_setWidth, BitVec.toInt_eq_toNat_bmod, Int.bmod_bmod_of_dvd (by norm_num)]
  rw [← BitVec.toInt_inj, hs, hw, FitsInt]
  constructor
  · intro h
    have hl := Int.le_bmod (x := l.toInt) (m := 2 ^ 32) (by omega)
    have hu := Int.bmod_lt (x := l.toInt) (m := 2 ^ 32) (by omega)
    omega
  · intro hfits
    obtain ⟨hl, hu⟩ := hfits
    apply Int.bmod_eq_of_le <;> omega

theorem swapFn_little (k : IntKind) (ar : CIArchive) (l : BitVec (8 * k.bytes)) :
    k.swapFn (ar.setLittleEndian true) l = l ↔
      (k = .long → FitsInt l) := by
  cases k with
  | long =>
    simp only [forall_const]
    exact signExtend_setWidth_iff l
  | int => simp [IntKind.swapFn, CIArchive.longSwapFn, CIArchive.setLittleEndian, longNoSwap]
  | sint16 => simp [IntKind.swapFn, CIArchive.shortSwapFn, CIArchive.setLittleEndian, shortNoSwap]
  | uint16 => simp [IntKind.swapFn, CIArchive.shortSwapFn, CIArchive.setLittleEndian, shortNoSwap]
  | uint32 => simp [IntKind.swapFn, CIArchive.longSwapFn, CIArchive.setLittleEndian, longNoSwap]
  | uint64 =>
    simp [IntKind.swapFn, CIArchive.longLongSwapFn, CIArchive.setLittleEndian, longLongNotSwap]

/-- A `long` that `int` can hold and that reads the same in both orders is 0 or -1. -/
theorem palindrome_fits {l : BitVec 64} (hp : leBytes 8 l.toNat = beBytes 8 l.toNat)
    (hf : FitsInt l) : l = 0 ∨ l = -1 := by
  have hl := l.isLt
  simp only [beBytes, leBytes, Nat.div_div_eq_div_mul, List.reverse_cons, List.reverse_nil,
    List.nil_append, List.cons_append, List.cons.injEq, and_true] at hp
  obtain ⟨h0, h1, h2, h3, -⟩ := hp
  have e0 := congrArg BitVec.toNat h0
  have e1 := congrArg BitVec.toNat h1
  have e2 := congrArg BitVec.toNat h2
  have e3 := congrArg BitVec.toNat h3
  simp only [BitVec.toNat_ofNat, Nat.reduceMul, Nat.reducePow] at e0 e1 e2 e3
  rw [FitsInt, BitVec.toInt_eq_toNat_cond] at hf
  -- The upper half is all zeros or all ones, and the lower half mirrors it.
  split at hf
  · have h32 : l.toNat / 4294967296 = 0 := by omega
    have h40 : l.toNat / 1099511627776 = 0 := by omega
    have h48 : l.toNat / 281474976710656 = 0 := by omega
    have h56 : l.toNat / 72057594037927936 = 0 := by omega
    rw [h56] at e0
    rw [h48] at e1
    rw [h40] at e2
    rw [h32] at e3
    have hz : l.toNat = 0 := by omega
    exact .inl (BitVec.eq_of_toNat_eq hz)
  · have h32 : l.toNat / 4294967296 = 4294967295 := by omega
    have h40 : l.toNat / 1099511627776 = 16777215 := by omega
    have h48 : l.toNat / 281474976710656 = 65535 := by omega
    have h56 : l.toNat / 72057594037927936 = 255 := by omega
    rw [h56] at e0
    rw [h48] at e1
    rw [h40] at e2
    rw [h32] at e3
    have hz : l.toNat = 2 ^ 64 - 1 := by omega
    exact .inr (BitVec.eq_of_toNat_eq hz)

theorem swapFn_big (k : IntKind) (ar : CIArchive) (l : BitVec (8 * k.bytes))
    (hp : leBytes k.bytes l.toNat = beBytes k.bytes l.toNat) :
    k.swapFn (ar.setLittleEndian false) l = l ↔ (k = .long → FitsInt l) := by
  cases k with
  | long =>
    simp only [forall_const]
    constructor
    · intro h
      rw [FitsInt, ← h]
      have hs := BitVec.toInt_signExtend_of_le (x := longSwap (BitVec.setWidth 32 l)) (v := 64)
        (by omega)
      have hl := BitVec.le_toInt (longSwap (BitVec.setWidth 32 l))
      have hu := BitVec.toInt_lt (x := longSwap (BitVec.setWidth 32 l))
      change -2 ^ 31 ≤ (BitVec.signExtend 64 (longSwap (BitVec.setWidth 32 l))).toInt ∧
        (BitVec.signExtend 64 (longSwap (BitVec.setWidth 32 l))).toInt < 2 ^ 31
      rw [hs]
      exact ⟨hl, hu⟩
    · intro hf
      change BitVec.signExtend 64 (longSwap (BitVec.setWidth 32 l)) = l
      obtain rfl | rfl := palindrome_fits hp hf
      · decide
      · decide
  | int => simpa [IntKind.swapFn, CIArchive.longSwapFn, CIArchive.setLittleEndian] using
      (swap_eq_iff rfl toNat_longSwap l).2 hp
  | sint16 => simpa [IntKind.swapFn, CIArchive.shortSwapFn, CIArchive.setLittleEndian] using
      (swap_eq_iff rfl toNat_shortSwap l).2 hp
  | uint16 => simpa [IntKind.swapFn, CIArchive.shortSwapFn, CIArchive.setLittleEndian] using
      (swap_eq_iff rfl toNat_shortSwap l).2 hp
  | uint32 => simpa [IntKind.swapFn, CIArchive.longSwapFn, CIArchive.setLittleEndian] using
      (swap_eq_iff rfl toNat_longSwap l).2 hp
  | uint64 => simpa [IntKind.swapFn, CIArchive.longLongSwapFn, CIArchive.setLittleEndian] using
      (swap_eq_iff rfl toNat_longLongSwap l).2 hp

/-- The declared order is the order on the wire, and the value comes back, exactly when that
order is little-endian or the value reads the same in both, and a `long` fits in an `int`. -/
theorem wireOrder_iff (k : IntKind) {ar : CIArchive} (h : ar.Ready) (hm : ar.mode = .smWrite)
    (he : ar.AtEnd) (b : Bool) (l : BitVec (8 * k.bytes)) :
    WireOrder k ar b l ↔
      (b = true ∨ leBytes k.bytes l.toNat = beBytes k.bytes l.toNat) ∧
        (k = .long → FitsInt l) := by
  rw [wireOrder_iff_swapFn k h hm he]
  cases b with
  | true => simp [wireBytes, swapFn_little]
  | false =>
    simp only [wireBytes, Bool.false_eq_true, ↓reduceIte, false_or]
    exact and_congr_right fun hp => swapFn_big k ar l hp

theorem wireOrder_uint32_little : WireOrder .uint32 (CIArchive.fresh.setMode 0) true 7 :=
  (wireOrder_iff .uint32 (CIArchive.ready_fresh 0) rfl (CIArchive.atEnd_fresh 0) true 7).2
    ⟨.inl rfl, by simp⟩

/-- `SetLittleEndian(false)` and writing the `int` 1 puts the byte 1 first. -/
theorem wireOrder_int_one : ¬ WireOrder .int (CIArchive.fresh.setMode 0) false 1 := by
  intro hwire
  obtain ⟨ar₁, hs, hc, -⟩ := hwire
  have hw : (IntKind.serial .int ((CIArchive.fresh.setMode 0).setLittleEndian false) 1).map
      (fun r => r.2.content) = some [1, 0, 0, 0] := by decide
  rw [hs, Option.map_some, hc] at hw
  revert hw
  decide

end EventServer.Archive
