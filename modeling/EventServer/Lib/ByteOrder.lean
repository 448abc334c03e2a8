import Mathlib.Data.BitVec
import Mathlib.Data.Nat.Bitwise
import Mathlib.Tactic.NormNum
import Mathlib.Tactic.Ring

/-!
# Byte orders

A number of a fixed width as its bytes, least significant first (`leBytes`) or
last (`beBytes`), and back. A swap routine is correct when it turns the one into
the other.
-/
namespace EventServer.Lib.ByteOrder

/-- The `k` low bytes of `n`, least significant first. -/
def leBytes : Nat → Nat → List (BitVec 8)
  | 0, _ => []
  | k + 1, n => BitVec.ofNat 8 n :: leBytes k (n / 256)

/-- The `k` low bytes of `n`, most significant first. -/
def beBytes (k n : Nat) : List (BitVec 8) := (leBytes k n).reverse

/-- The number whose bytes these are, least significant first. -/
def ofLe : List (BitVec 8) → Nat
  | [] => 0
  | b :: bs => b.toNat + 256 * ofLe bs

@[simp] theorem leBytes_length (k n : Nat) : (leBytes k n).length = k := by
  induction k generalizing n with
  | zero => rfl
  | succ k ih => simp [leBytes, ih]

theorem leBytes_byte (b : BitVec 8) : leBytes 1 b.toNat = [b] := by
  simp [leBytes]

@[simp] theorem beBytes_length (k n : Nat) : (beBytes k n).length = k := by simp [beBytes]

theorem ofLe_leBytes (k n : Nat) : ofLe (leBytes k n) = n % 256 ^ k := by
  induction k generalizing n with
  | zero => simp [leBytes, ofLe, Nat.mod_one]
  | succ k ih =>
    rw [leBytes, ofLe, ih, BitVec.toNat_ofNat, pow_succ' 256 k, Nat.mod_mul]

theorem leBytes_ofLe (bytes : List (BitVec 8)) : leBytes bytes.length (ofLe bytes) = bytes := by
  induction bytes with
  | nil => rfl
  | cons b bs ih =>
    have hb := b.isLt
    have hlow : BitVec.ofNat 8 (b.toNat + 256 * ofLe bs) = b :=
      BitVec.eq_of_toNat_eq (by rw [BitVec.toNat_ofNat]; omega)
    have hhigh : (b.toNat + 256 * ofLe bs) / 256 = ofLe bs := by omega
    rw [List.length_cons, ofLe, leBytes, hlow, hhigh, ih]

/-- The pattern whose bytes in memory are these, on a little-endian host. -/
def fromLe (w : Nat) (bytes : List (BitVec 8)) : BitVec w := BitVec.ofNat w (ofLe bytes)

theorem toNat_lt_pow {w k : Nat} (hw : w = 8 * k) (v : BitVec w) : v.toNat < 256 ^ k := by
  subst hw
  have hv := v.isLt
  rwa [pow_mul] at hv

theorem fromLe_leBytes {w k : Nat} (hw : w = 8 * k) (v : BitVec w) :
    fromLe w (leBytes k v.toNat) = v := by
  rw [fromLe, ofLe_leBytes, Nat.mod_eq_of_lt (toNat_lt_pow hw v)]
  exact BitVec.eq_of_toNat_eq (by simp)

theorem ofLe_lt (bytes : List (BitVec 8)) : ofLe bytes < 256 ^ bytes.length := by
  have h := ofLe_leBytes bytes.length (ofLe bytes)
  rw [leBytes_ofLe] at h
  rw [h]
  exact Nat.mod_lt _ (Nat.pow_pos (by omega))

theorem leBytes_fromLe {w : Nat} (bytes : List (BitVec 8)) (hw : w = 8 * bytes.length) :
    leBytes bytes.length (fromLe w bytes).toNat = bytes := by
  have hlt : ofLe bytes < 2 ^ w := by
    rw [hw, pow_mul]; exact ofLe_lt bytes
  rw [fromLe, BitVec.toNat_ofNat, Nat.mod_eq_of_lt hlt, leBytes_ofLe]

/-- `(v >> k) & 255` for a signed `v`, narrowed to a byte. -/
def sbyteAt {w : Nat} (v : BitVec w) (k : Nat) : BitVec 8 := (v.sshiftRight k &&& 255#w).setWidth 8

/-- `(v >> k) & 255` for an unsigned `v`, narrowed to a byte. -/
def ubyteAt {w : Nat} (v : BitVec w) (k : Nat) : BitVec 8 := (v >>> k &&& 255#w).setWidth 8

/-- Arithmetic and logical shift agree on the bits that the mask keeps. -/
theorem sbyteAt_eq_ubyteAt {w : Nat} (v : BitVec w) {k : Nat} (hk : k + 8 ≤ w) :
    sbyteAt v k = ubyteAt v k := by
  apply BitVec.eq_of_getLsbD_eq
  intro i hi
  have hiw : i < w := by omega
  have hki : k + i < w := by omega
  rw [sbyteAt, ubyteAt, BitVec.getLsbD_setWidth, BitVec.getLsbD_setWidth, BitVec.getLsbD_and,
    BitVec.getLsbD_and, BitVec.getLsbD_sshiftRight, BitVec.getLsbD_ushiftRight, if_pos hki]
  simp [hiw, Nat.not_le.mpr hiw]

theorem toNat_ubyteAt {w : Nat} (v : BitVec w) {k : Nat} (hk : k + 8 ≤ w) :
    (ubyteAt v k).toNat = v.toNat / 2 ^ k % 256 := by
  have h255 : 255 % 2 ^ w = 2 ^ 8 - 1 := by
    have h8 : 2 ^ 8 ≤ 2 ^ w := Nat.pow_le_pow_right (by omega) (by omega)
    exact Nat.mod_eq_of_lt (by omega)
  rw [ubyteAt, BitVec.toNat_setWidth, BitVec.toNat_and, BitVec.toNat_ushiftRight,
    BitVec.toNat_ofNat, h255, Nat.and_two_pow_sub_one_eq_mod, Nat.shiftRight_eq_div_pow]
  exact Nat.mod_mod _ _

theorem leBytes_eq_map (k n : Nat) :
    leBytes k n = (List.range k).map fun i => BitVec.ofNat 8 (n / 256 ^ i) := by
  induction k generalizing n with
  | zero => rfl
  | succ k ih =>
    rw [leBytes, ih, List.range_succ_eq_map, List.map_cons, List.map_map, pow_zero, Nat.div_one]
    congr 2
    funext i
    simp only [Function.comp_apply, Nat.div_div_eq_div_mul, pow_succ' 256 i, Nat.succ_eq_add_one]

theorem leBytes_zero (k : Nat) : leBytes k 0 = List.replicate k 0 := by
  induction k with
  | zero => rfl
  | succ k ih =>
    rw [leBytes, Nat.zero_div, ih]
    rfl

theorem leBytes_add (k j n : Nat) : leBytes (k + j) n = leBytes k n ++ leBytes j (n / 256 ^ k) := by
  induction k generalizing n with
  | zero => rw [Nat.zero_add, Nat.pow_zero, Nat.div_one, leBytes, List.nil_append]
  | succ k ih =>
    rw [Nat.succ_add, leBytes, ih, leBytes, Nat.div_div_eq_div_mul, ← pow_succ' 256 k]
    rfl

/-- A number that fits in fewer bytes is padded with zeros. -/
theorem beBytes_pad {k n : Nat} (hn : n < 256 ^ k) (j : Nat) :
    beBytes (k + j) n = List.replicate j 0 ++ beBytes k n := by
  rw [beBytes, leBytes_add, Nat.div_eq_of_lt hn, leBytes_zero, List.reverse_append,
    List.reverse_replicate]
  rfl

/-- The bytes in memory are the bytes that shifting and masking cut out. -/
theorem leBytes_toNat {w : Nat} (v : BitVec w) {k : Nat} (hk : 8 * k ≤ w) :
    leBytes k v.toNat = (List.range k).map fun i => ubyteAt v (8 * i) := by
  rw [leBytes_eq_map]
  apply List.map_congr_left
  intro i hi
  have hi' := List.mem_range.mp hi
  apply BitVec.eq_of_toNat_eq
  rw [toNat_ubyteAt v (by omega), BitVec.toNat_ofNat, pow_mul]
  rfl

theorem toNat_placed {w : Nat} (b : BitVec 8) {k : Nat} (hk : k + 8 ≤ w) :
    (b.setWidth w <<< k).toNat = b.toNat * 2 ^ k := by
  have hb := b.isLt
  have hw : 2 ^ (k + 8) ≤ 2 ^ w := Nat.pow_le_pow_right (by omega) hk
  have hlt : b.toNat * 2 ^ k < 2 ^ w := by
    calc b.toNat * 2 ^ k < 2 ^ 8 * 2 ^ k := Nat.mul_lt_mul_of_pos_right hb (Nat.two_pow_pos k)
      _ = 2 ^ (k + 8) := by rw [Nat.pow_add, Nat.mul_comm]
      _ ≤ 2 ^ w := hw
  have hbw : b.toNat < 2 ^ w :=
    hb.trans_le (Nat.pow_le_pow_right (by omega) (by omega))
  rw [BitVec.toNat_shiftLeft, BitVec.toNat_setWidth, Nat.mod_eq_of_lt hbw, Nat.shiftLeft_eq,
    Nat.mod_eq_of_lt hlt]

theorem toNat_or_placed {w : Nat} {x : BitVec w} (b : BitVec 8) {a k : Nat} (hk : k + 8 ≤ w)
    (hx : x.toNat = a * 2 ^ (k + 8)) :
    (x ||| b.setWidth w <<< k).toNat = (a * 256 + b.toNat) * 2 ^ k := by
  have hb := b.isLt
  have hlt : b.toNat * 2 ^ k < 2 ^ (k + 8) := by
    rw [Nat.pow_add, Nat.mul_comm (2 ^ k)]
    exact Nat.mul_lt_mul_of_pos_right hb (Nat.two_pow_pos k)
  rw [BitVec.toNat_or, toNat_placed b hk, hx, Nat.mul_comm a, ← Nat.two_pow_add_eq_or_of_lt hlt,
    Nat.pow_add]
  ring

/-- The number whose bytes these are, most significant first. -/
def ofBe (bytes : List (BitVec 8)) : Nat := ofLe bytes.reverse

theorem ofBe_beBytes (k n : Nat) : ofBe (beBytes k n) = n % 256 ^ k := by
  rw [ofBe, beBytes, List.reverse_reverse, ofLe_leBytes]

end EventServer.Lib.ByteOrder
