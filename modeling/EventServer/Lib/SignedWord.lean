import Mathlib.Algebra.Order.Group.Unbundled.Int
import Mathlib.Data.Int.Basic

/-!
# Signed numbers in unsigned words

A word holds a signed number as two's complement. Sums and products of words are
right for both readings. Quotients, remainders and the order of unsigned words are
right only for some pairs of signed numbers, which are told here.
-/
namespace EventServer.Lib.SignedWord

/-- The signed numbers of `w + 1` bits. -/
def Fits (w : Nat) (a : Int) : Prop := -2 ^ w ≤ a ∧ a < 2 ^ w

variable {w : Nat} {a b : Int}

theorem ofInt_sub (w : Nat) (a b : Int) :
    BitVec.ofInt w a - BitVec.ofInt w b = BitVec.ofInt w (a - b) := by
  rw [sub_eq_add_neg a b, BitVec.ofInt_add, BitVec.ofInt_neg, BitVec.sub_eq_add_neg]

/-- The unsigned reading of a signed number. -/
theorem toNat_ofInt (ha : Fits w a) :
    0 ≤ a ∧ ((BitVec.ofInt (w + 1) a).toNat : Int) = a ∨
      a < 0 ∧ ((BitVec.ofInt (w + 1) a).toNat : Int) = a + 2 * 2 ^ w := by
  obtain ⟨hlow, hhigh⟩ := ha
  have hpow : ((2 ^ (w + 1) : Nat) : Int) = 2 * 2 ^ w := by
    rw [Nat.pow_succ, mul_comm]
    push_cast
    rfl
  have hpos : (0 : Int) < 2 * 2 ^ w := Int.mul_pos (by decide) (Int.pow_pos (by decide))
  rw [BitVec.toNat_ofInt, hpow, Int.toNat_of_nonneg (Int.emod_nonneg _ hpos.ne')]
  rcases Int.lt_or_le a 0 with h | h
  · right
    rw [← Int.add_emod_right, Int.emod_eq_of_lt (by omega) (by omega)]
    exact ⟨h, rfl⟩
  · left
    exact ⟨h, Int.emod_eq_of_lt h (by omega)⟩

theorem eq_ofInt_iff {x : BitVec (w + 1)} {c : Int} :
    x = BitVec.ofInt (w + 1) c ↔ (x.toNat : Int) = c % (2 * 2 ^ w) := by
  have hpow : ((2 ^ (w + 1) : Nat) : Int) = 2 * 2 ^ w := by
    rw [Nat.pow_succ, mul_comm]
    push_cast
    rfl
  have hpos : (0 : Int) < 2 * 2 ^ w := Int.mul_pos (by decide) (Int.pow_pos (by decide))
  have hnonneg := Int.emod_nonneg c hpos.ne'
  rw [← BitVec.toNat_inj, BitVec.toNat_ofInt, hpow]
  omega

theorem ofInt_inj (ha : Fits w a) (hb : Fits w b) :
    BitVec.ofInt (w + 1) a = BitVec.ofInt (w + 1) b ↔ a = b := by
  rw [← BitVec.toNat_inj]
  obtain ⟨hal, hah⟩ := ha
  obtain ⟨hbl, hbh⟩ := hb
  rcases toNat_ofInt ⟨hal, hah⟩ with ⟨ha0, ha⟩ | ⟨ha0, ha⟩ <;>
    rcases toNat_ofInt ⟨hbl, hbh⟩ with ⟨hb0, hb⟩ | ⟨hb0, hb⟩ <;> omega

/-! ## Order -/

/-- Unsigned words are ordered as the numbers if these have the same sign. -/
theorem lt_iff (ha : Fits w a) (hb : Fits w b) :
    (BitVec.ofInt (w + 1) a < BitVec.ofInt (w + 1) b ↔ a < b) ↔ (a < 0 ↔ b < 0) := by
  rw [BitVec.lt_def]
  obtain ⟨hal, hah⟩ := ha
  obtain ⟨hbl, hbh⟩ := hb
  rcases toNat_ofInt ⟨hal, hah⟩ with ⟨ha0, ha⟩ | ⟨ha0, ha⟩ <;>
    rcases toNat_ofInt ⟨hbl, hbh⟩ with ⟨hb0, hb⟩ | ⟨hb0, hb⟩ <;> omega

/-- The strict order in place of the other one is wrong for a tie, too. -/
theorem lt_iff_le (ha : Fits w a) (hb : Fits w b) :
    (BitVec.ofInt (w + 1) a < BitVec.ofInt (w + 1) b ↔ a ≤ b) ↔ (a < 0 ↔ b < 0) ∧ a ≠ b := by
  rw [BitVec.lt_def]
  obtain ⟨hal, hah⟩ := ha
  obtain ⟨hbl, hbh⟩ := hb
  rcases toNat_ofInt ⟨hal, hah⟩ with ⟨ha0, ha⟩ | ⟨ha0, ha⟩ <;>
    rcases toNat_ofInt ⟨hbl, hbh⟩ with ⟨hb0, hb⟩ | ⟨hb0, hb⟩ <;> omega

/-! ## Quotient and remainder -/

/-- The operands whose unsigned quotient is the signed one. -/
def QuotAgrees (a b : Int) : Prop :=
  0 ≤ a ∧ 0 < b ∨ 0 ≤ a ∧ b < 0 ∧ a < -b ∨ a < 0 ∧ b = 1 ∨ a < 0 ∧ a = b

/-- The operands of `w + 1` bits whose unsigned remainder is the signed one. -/
def RemAgrees (w : Nat) (a b : Int) : Prop :=
  0 ≤ a ∧ 0 < b ∨ 0 ≤ a ∧ b < 0 ∧ a < -b ∨ a < 0 ∧ a = b ∨
    a < 0 ∧ 0 < b ∧ b ∣ a ∧ b ∣ 2 * 2 ^ w

theorem two_mul_ediv_le {n : Int} (hn : 0 ≤ n) (hb : 2 ≤ b) : 2 * (n / b) ≤ n := by
  have hquot : 0 ≤ n / b := Int.ediv_nonneg hn (by omega)
  calc 2 * (n / b) ≤ b * (n / b) := Int.mul_le_mul_of_nonneg_right hb hquot
    _ ≤ n := Int.mul_ediv_self_le (by omega)

/-- The residue of a negated number from the lower half. -/
theorem neg_emod {H n : Int} (hn : 0 ≤ n) (hH : n ≤ H) (hpos : 0 < H) :
    n = 0 ∧ -n % (2 * H) = 0 ∨ 0 < n ∧ -n % (2 * H) = 2 * H - n := by
  rcases hn.eq_or_lt with rfl | hn
  · exact .inl ⟨rfl, by simp⟩
  · refine .inr ⟨hn, ?_⟩
    rw [← Int.add_emod_right, Int.emod_eq_of_lt (by omega) (by omega)]
    omega

/-- A divisor above 1 leaves less than half of the words as unsigned quotients, and the signed
quotient is 0 or in the last quarter of them. -/
theorem quot_neg_pos {H : Int} (hal : -H ≤ a) (ha : a < 0) (hb : 0 < b) (hbh : b < H) :
    (a + 2 * H) / b = a.tdiv b % (2 * H) ↔ b = 1 := by
  have hneg : a.tdiv b = -(-a / b) := by
    rw [← Int.tdiv_eq_ediv_of_nonneg (by omega), Int.neg_tdiv, neg_neg]
  rw [hneg]
  constructor
  · intro h
    by_contra hne
    have htwo : (2 : Int) ≤ b := by omega
    have hsigned := two_mul_ediv_le (n := -a) (by omega) htwo
    have hunsigned := two_mul_ediv_le (n := a + 2 * H) (by omega) htwo
    have hone : 1 ≤ (a + 2 * H) / b := Int.le_ediv_of_mul_le hb (by omega)
    rcases neg_emod (n := -a / b) (H := H) (Int.ediv_nonneg (by omega) (by omega)) (by omega)
      (by omega) with ⟨-, hr⟩ | ⟨-, hr⟩ <;> omega
  · rintro rfl
    simp only [Int.ediv_one, neg_neg]
    rw [← Int.add_emod_right, Int.emod_eq_of_lt (by omega) (by omega)]

theorem ediv_upper_half {H x y : Int} (hy : H ≤ y) (hx : x < 2 * H) (hx0 : 0 ≤ x) (hH : 0 < H) :
    x < y ∧ x / y = 0 ∨ y ≤ x ∧ x / y = 1 := by
  rcases Int.lt_or_le x y with h | h
  · exact .inl ⟨h, Int.ediv_eq_zero_of_lt hx0 h⟩
  · refine .inr ⟨h, ?_⟩
    have hone : 1 ≤ x / y := Int.le_ediv_of_mul_le (by omega) (by omega)
    have htwo : x / y < 2 := Int.ediv_lt_of_lt_mul (by omega) (by omega)
    omega

/-- The unsigned quotient of two negative numbers is 0 or 1, and 1 already if the signed one is
0. -/
theorem quot_neg_neg {H : Int} (hal : -H ≤ a) (ha : a < 0) (hbl : -H ≤ b) (hb : b < 0) :
    (a + 2 * H) / (b + 2 * H) = a.tdiv b % (2 * H) ↔ a = b := by
  have hneg : a.tdiv b = -a / -b := by
    rw [← Int.tdiv_eq_ediv_of_nonneg (by omega), Int.neg_tdiv_neg]
  have hquot : 0 ≤ -a / -b := Int.ediv_nonneg (by omega) (by omega)
  have hle : -a / -b ≤ -a := Int.ediv_le_self _ (by omega)
  rw [hneg, Int.emod_eq_of_lt hquot (by omega)]
  rcases Int.lt_trichotomy a b with hab | rfl | hab
  · have hone : 1 ≤ -a / -b := Int.le_ediv_of_mul_le (by omega) (by omega)
    rcases ediv_upper_half (H := H) (x := a + 2 * H) (y := b + 2 * H) (by omega) (by omega)
      (by omega) (by omega) with ⟨-, hq⟩ | ⟨hle, -⟩ <;> omega
  · simp only [Int.ediv_self (show a + 2 * H ≠ 0 by omega), Int.ediv_self (show -a ≠ 0 by omega)]
  · have hzero : -a / -b = 0 := Int.ediv_eq_zero_of_lt (by omega) (by omega)
    rcases ediv_upper_half (H := H) (x := a + 2 * H) (y := b + 2 * H) (by omega) (by omega)
      (by omega) (by omega) with ⟨hlt, -⟩ | ⟨-, hq⟩ <;> omega

theorem quot_pos_neg {H : Int} (ha : 0 ≤ a) (hah : a < H) (hbl : -H ≤ b) (hb : b < 0) :
    a / (b + 2 * H) = a.tdiv b % (2 * H) ↔ a < -b := by
  have hneg : a.tdiv b = -(a / -b) := by
    rw [← Int.tdiv_eq_ediv_of_nonneg ha, Int.tdiv_neg, neg_neg]
  have hzero : a / (b + 2 * H) = 0 := Int.ediv_eq_zero_of_lt ha (by omega)
  have hle : a / -b ≤ a := Int.ediv_le_self _ ha
  have hone : -b ≤ a → 1 ≤ a / -b := fun h => Int.le_ediv_of_mul_le (by omega) (by omega)
  have hless : a < -b → a / -b = 0 := Int.ediv_eq_zero_of_lt ha
  rw [hneg, hzero]
  rcases neg_emod (n := a / -b) (H := H) (Int.ediv_nonneg ha (by omega)) (by omega) (by omega) with
    ⟨hq, hr⟩ | ⟨hq, hr⟩ <;> omega

/-- The unsigned quotient of two signed numbers. -/
theorem udiv_iff (ha : Fits w a) (hb : Fits w b) (hne : b ≠ 0) :
    BitVec.ofInt (w + 1) a / BitVec.ofInt (w + 1) b = BitVec.ofInt (w + 1) (a.tdiv b) ↔
      QuotAgrees a b := by
  rw [eq_ofInt_iff, BitVec.toNat_udiv, Int.natCast_ediv, QuotAgrees]
  obtain ⟨hal, hah⟩ := id ha
  obtain ⟨hbl, hbh⟩ := id hb
  rcases toNat_ofInt ha with ⟨ha0, ha'⟩ | ⟨ha0, ha'⟩ <;>
    rcases toNat_ofInt hb with ⟨hb0, hb'⟩ | ⟨hb0, hb'⟩ <;> rw [ha', hb']
  · have hle : a / b ≤ a := Int.ediv_le_self _ ha0
    rw [Int.tdiv_eq_ediv_of_nonneg ha0, Int.emod_eq_of_lt (Int.ediv_nonneg ha0 hb0) (by omega)]
    omega
  · rw [quot_pos_neg ha0 hah hbl hb0]
    omega
  · rw [quot_neg_pos (by omega) ha0 (by omega) hbh]
    omega
  · rw [quot_neg_neg (by omega) ha0 (by omega) hb0]
    omega

/-- A positive divisor leaves a remainder from the lower half, but the signed one of a negative
number is 0 or in the upper half. -/
theorem rem_neg_pos {H : Int} (hal : -H ≤ a) (ha : a < 0) (hb : 0 < b) (hbh : b < H) :
    (a + 2 * H) % b = a.tmod b % (2 * H) ↔ b ∣ a ∧ b ∣ 2 * H := by
  have hneg : a.tmod b = -(-a % b) := by
    rw [← Int.tmod_eq_emod_of_nonneg (by omega), Int.neg_tmod, neg_neg]
  have hunsigned := Int.emod_lt_of_pos (a + 2 * H) hb
  have hsigned := Int.emod_lt_of_pos (-a) hb
  have hdvd : b ∣ a ↔ -a % b = 0 := by rw [← Int.dvd_neg, Int.dvd_iff_emod_eq_zero]
  rw [hneg]
  rcases neg_emod (n := -a % b) (H := H) (Int.emod_nonneg _ hb.ne') (by omega) (by omega) with
    ⟨hzero, hr⟩ | ⟨hpos, hr⟩
  · have ha' : b ∣ a := hdvd.mpr hzero
    rw [hr, ← Int.dvd_iff_emod_eq_zero, Int.dvd_add_right ha']
    exact (and_iff_right ha').symm
  · constructor
    · omega
    · intro h
      obtain ⟨h, -⟩ := h
      rw [hdvd] at h
      omega

theorem rem_neg_neg {H : Int} (hal : -H ≤ a) (ha : a < 0) (hbl : -H ≤ b) (hb : b < 0) :
    (a + 2 * H) % (b + 2 * H) = a.tmod b % (2 * H) ↔ a = b := by
  have hneg : a.tmod b = -(-a % -b) := by
    rw [← Int.tmod_eq_emod_of_nonneg (by omega), Int.neg_tmod, Int.tmod_neg, neg_neg]
  have hlt := Int.emod_lt_of_pos (-a) (show 0 < -b by omega)
  have hunsigned := Int.emod_def (a + 2 * H) (b + 2 * H)
  have hless : a < b ∨ -a < -b ∧ -a % -b = -a ∨ a = b ∧ -a % -b = 0 := by
    rcases Int.lt_trichotomy a b with h | rfl | h
    · exact .inl h
    · exact .inr (.inr ⟨rfl, Int.emod_self⟩)
    · exact .inr (.inl ⟨by omega, Int.emod_eq_of_lt (by omega) (by omega)⟩)
  rw [hneg, hunsigned]
  rcases ediv_upper_half (H := H) (x := a + 2 * H) (y := b + 2 * H) (by omega) (by omega)
      (by omega) (by omega) with ⟨hab, hq⟩ | ⟨hab, hq⟩ <;> rw [hq] <;>
    rcases neg_emod (n := -a % -b) (H := H) (Int.emod_nonneg _ (by omega)) (by omega) (by omega) with
      ⟨hzero, hr⟩ | ⟨hpos, hr⟩ <;> omega

/-- The unsigned remainder of two signed numbers. -/
theorem umod_iff (ha : Fits w a) (hb : Fits w b) (hne : b ≠ 0) :
    BitVec.ofInt (w + 1) a % BitVec.ofInt (w + 1) b = BitVec.ofInt (w + 1) (a.tmod b) ↔
      RemAgrees w a b := by
  rw [eq_ofInt_iff, BitVec.toNat_umod, Int.natCast_emod, RemAgrees]
  obtain ⟨hal, hah⟩ := id ha
  obtain ⟨hbl, hbh⟩ := id hb
  rcases toNat_ofInt ha with ⟨ha0, ha'⟩ | ⟨ha0, ha'⟩ <;>
    rcases toNat_ofInt hb with ⟨hb0, hb'⟩ | ⟨hb0, hb'⟩ <;> rw [ha', hb']
  · have hlt := Int.emod_lt_of_pos a (show 0 < b by omega)
    rw [Int.tmod_eq_emod_of_nonneg ha0, Int.emod_eq_of_lt (Int.emod_nonneg _ hne) (by omega)]
    omega
  · have hlt := Int.emod_lt_of_pos a (show 0 < -b by omega)
    have hless : a < -b → a % -b = a := Int.emod_eq_of_lt ha0
    rw [Int.emod_eq_of_lt ha0 (by omega), Int.tmod_eq_emod_of_nonneg ha0, ← Int.emod_neg a b,
      Int.emod_eq_of_lt (Int.emod_nonneg _ (by omega)) (by omega)]
    omega
  · rw [rem_neg_pos (by omega) ha0 (by omega) hbh]
    constructor
    · intro h
      obtain ⟨hdvd, hpow⟩ := h
      exact .inr (.inr (.inr ⟨ha0, by omega, hdvd, hpow⟩))
    · intro h
      rcases h with ⟨h, -⟩ | ⟨h, -⟩ | ⟨-, h⟩ | ⟨-, -, hdvd, hpow⟩
      · omega
      · omega
      · omega
      · exact ⟨hdvd, hpow⟩
  · rw [rem_neg_neg (by omega) ha0 (by omega) hb0]
    omega

end EventServer.Lib.SignedWord
