import Mathlib.Data.BitVec
import Mathlib.Logic.Function.Iterate

/-!
# Reflected cyclic redundancy checks

The register is shifted to the right, and the polynomial is added whenever a one
falls out. A shift is linear, so eight of them can be looked up in a table by the
byte that falls out; and it loses nothing when the polynomial has its top bit, so
two registers that differ once differ ever after.
-/
namespace EventServer.Lib.Crc

variable {w : Nat}

/-- One bit falls out of the register. -/
def shiftBit (poly crc : BitVec w) : BitVec w :=
  if crc.getLsbD 0 then crc >>> 1 ^^^ poly else crc >>> 1

def shiftByte (poly crc : BitVec w) : BitVec w := (shiftBit poly)^[8] crc

/-- A byte is added at the low end and shifted out. -/
def feed (poly crc : BitVec w) (b : BitVec 8) : BitVec w := shiftByte poly (crc ^^^ b.setWidth w)

/-- The check of a list of bytes, bit by bit. -/
def bitwise (poly init : BitVec w) (bytes : List (BitVec 8)) : BitVec w :=
  bytes.foldl (feed poly) init

/-! ## Linearity -/

theorem shiftBit_xor (poly x y : BitVec w) :
    shiftBit poly (x ^^^ y) = shiftBit poly x ^^^ shiftBit poly y := by
  have hcancel : ∀ a b : BitVec w, a ^^^ poly ^^^ (b ^^^ poly) = a ^^^ b := by
    intro a b
    rw [BitVec.xor_comm b poly, ← BitVec.xor_assoc, BitVec.xor_assoc a, BitVec.xor_self,
      BitVec.xor_zero]
  have hmiddle : ∀ a b : BitVec w, a ^^^ b ^^^ poly = a ^^^ poly ^^^ b := by
    intro a b
    rw [BitVec.xor_assoc, BitVec.xor_comm b, ← BitVec.xor_assoc]
  simp only [shiftBit, BitVec.getLsbD_xor, BitVec.ushiftRight_xor_distrib]
  cases x.getLsbD 0 with
  | false =>
    cases y.getLsbD 0 with
    | false => simp
    | true => simp [BitVec.xor_assoc]
  | true =>
    cases y.getLsbD 0 with
    | false => simpa using hmiddle _ _
    | true => simp [hcancel]

theorem shiftBit_iterate_xor (poly x y : BitVec w) (n : Nat) :
    (shiftBit poly)^[n] (x ^^^ y) = (shiftBit poly)^[n] x ^^^ (shiftBit poly)^[n] y := by
  induction n with
  | zero => rfl
  | succ n ih => rw [Function.iterate_succ_apply', ih, shiftBit_xor, Function.iterate_succ_apply',
      Function.iterate_succ_apply']

/-- Zeros fall out without the polynomial. -/
theorem shiftBit_iterate_of_low {poly x : BitVec w} {n : Nat}
    (hx : ∀ i < n, x.getLsbD i = false) : (shiftBit poly)^[n] x = x >>> n := by
  induction n with
  | zero => simp
  | succ n ih =>
    have hn : (x >>> n).getLsbD 0 = false := by
      rw [BitVec.getLsbD_ushiftRight]
      exact hx n (Nat.lt_succ_self n)
    rw [Function.iterate_succ_apply', ih fun i hi => hx i (Nat.lt_succ_of_lt hi), shiftBit, hn,
      BitVec.shiftRight_add]
    rfl

/-- Eight shifts, by the byte that falls out and what stands above it. -/
theorem shiftByte_eq (poly x : BitVec w) :
    shiftByte poly x = x >>> 8 ^^^ shiftByte poly ((x.setWidth 8).setWidth w) := by
  have hlow : ∀ i < 8, (x ^^^ (x.setWidth 8).setWidth w).getLsbD i = false := by
    intro i hi
    rw [BitVec.getLsbD_xor, BitVec.getLsbD_setWidth, BitVec.getLsbD_setWidth]
    by_cases hw : i < w
    · simp [hi, hw]
    · simp [BitVec.getLsbD_of_ge x i (by omega)]
  have hhigh : (x ^^^ (x.setWidth 8).setWidth w) >>> 8 = x >>> 8 := by
    apply BitVec.eq_of_getLsbD_eq
    intro i hi
    simp [BitVec.getLsbD_setWidth]
  have hsplit : x = (x ^^^ (x.setWidth 8).setWidth w) ^^^ (x.setWidth 8).setWidth w := by
    rw [BitVec.xor_assoc, BitVec.xor_self, BitVec.xor_zero]
  calc shiftByte poly x
      = shiftByte poly ((x ^^^ (x.setWidth 8).setWidth w) ^^^ (x.setWidth 8).setWidth w) := by
        rw [← hsplit]
    _ = x >>> 8 ^^^ shiftByte poly ((x.setWidth 8).setWidth w) := by
        rw [shiftByte, shiftBit_iterate_xor, shiftBit_iterate_of_low hlow, hhigh]
        rfl

/-- One byte through a table of all eight-fold shifts. -/
theorem feed_eq_lookup (poly crc : BitVec w) (b : BitVec 8) :
    feed poly crc b = crc >>> 8 ^^^ shiftByte poly ((crc.setWidth 8 ^^^ b).setWidth w) := by
  have hb : (b.setWidth w) >>> 8 = 0#w := by
    apply BitVec.eq_of_getLsbD_eq
    intro i hi
    simp
  have hidx : ((crc ^^^ b.setWidth w).setWidth 8).setWidth w =
      (crc.setWidth 8 ^^^ b).setWidth w := by
    apply BitVec.eq_of_getLsbD_eq
    intro i hi
    rw [BitVec.getLsbD_setWidth, BitVec.getLsbD_setWidth, BitVec.getLsbD_setWidth,
      BitVec.getLsbD_xor, BitVec.getLsbD_xor, BitVec.getLsbD_setWidth, BitVec.getLsbD_setWidth]
    by_cases h8 : i < 8
    · simp [hi, h8]
    · simp [h8, BitVec.getLsbD_of_ge b i (by omega)]
  rw [feed, shiftByte_eq, hidx, BitVec.ushiftRight_xor_distrib, hb, BitVec.xor_zero]

/-! ## Injectivity -/

section Injective

variable {poly : BitVec w} (hpoly : poly.msb = true)

include hpoly

theorem eq_zero_of_shiftBit {x : BitVec w} (h : shiftBit poly x = 0#w) : x = 0#w := by
  unfold shiftBit at h
  split at h
  · -- The polynomial alone has the top bit.
    have hmsb := congrArg BitVec.msb h
    rw [BitVec.msb_xor, hpoly] at hmsb
    simp [BitVec.msb_ushiftRight] at hmsb
  · rename_i hlow
    apply BitVec.eq_of_getLsbD_eq
    intro i hi
    rw [BitVec.getLsbD_zero]
    cases i with
    | zero => simpa using hlow
    | succ i =>
      have hbit := congrArg (fun v => BitVec.getLsbD v i) h
      rw [BitVec.getLsbD_ushiftRight, BitVec.getLsbD_zero, Nat.add_comm] at hbit
      exact hbit

theorem shiftBit_injective : Function.Injective (shiftBit poly) := by
  intro x y h
  have hzero : shiftBit poly (x ^^^ y) = 0#w := by
    rw [shiftBit_xor, h, BitVec.xor_self]
  exact BitVec.xor_eq_zero_iff.mp (eq_zero_of_shiftBit hpoly hzero)

theorem shiftByte_injective : Function.Injective (shiftByte poly) :=
  (shiftBit_injective hpoly).iterate 8

theorem feed_injective (b : BitVec 8) : Function.Injective fun crc => feed poly crc b := by
  intro x y h
  exact (BitVec.xor_left_inj _).mp (shiftByte_injective hpoly h)

theorem feed_byte_injective (hw : 8 ≤ w) (crc : BitVec w) : Function.Injective (feed poly crc) := by
  intro b b' h
  have hext := (BitVec.xor_right_inj _).mp (shiftByte_injective hpoly h)
  have hback := congrArg (BitVec.setWidth 8) hext
  rwa [BitVec.setWidth_setWidth_of_le _ hw, BitVec.setWidth_setWidth_of_le _ hw, BitVec.setWidth_eq,
    BitVec.setWidth_eq] at hback

/-- Different registers stay different over the same bytes. -/
theorem bitwise_injective (bytes : List (BitVec 8)) :
    Function.Injective fun crc => bitwise poly crc bytes := by
  induction bytes with
  | nil => exact Function.injective_id
  | cons b bytes ih =>
    intro x y h
    exact feed_injective hpoly b (ih h)

/-- One byte that differs changes the check, whatever stands around it. -/
theorem bitwise_ne (hw : 8 ≤ w) (init : BitVec w) (front tail : List (BitVec 8)) {b b' : BitVec 8}
    (hb : b ≠ b') :
    bitwise poly init (front ++ b :: tail) ≠ bitwise poly init (front ++ b' :: tail) := by
  unfold bitwise
  rw [List.foldl_append, List.foldl_append, List.foldl_cons, List.foldl_cons]
  intro h
  exact hb (feed_byte_injective hpoly hw _ (bitwise_injective hpoly tail h))

end Injective

end EventServer.Lib.Crc
