import Mathlib.Data.Int.Basic
import Mathlib.Algebra.Order.Group.Int
import Mathlib.Algebra.Group.Nat.Defs

/-!
# `int` and `size_t` on an LP64 host

Sizes of objects are naturals. The wrap-arounds are explicit at the places where
a number that is not the size of an object enters: a `size_t` narrowed to `int`,
an `int` widened to `size_t`, and a sum of a position with such a widened `int`.
-/
namespace EventServer.Lib.CInt

def sizeMax : Nat := 2 ^ 64 - 1

/-- The `int` a `size_t` converts to: its low 32 bits, read as two's complement. Irreducible, as
unfolding it on a variable has unification compute with `2^32`. -/
@[irreducible] def toInt32 (n : Nat) : Int := Int.bmod n (2 ^ 32)

/-- The `size_t` an `int` converts to. -/
def toSizeT (n : Int) : Nat := if 0 ≤ n then n.toNat else (n + 2 ^ 64).toNat

/-- `pos + (size_t)n` for a position inside an object: a negative `n` stands for
`2^64 - |n|`, so the sum wraps to `pos - |n|` when `|n| ≤ pos`. -/
def addSize (pos : Nat) (n : Int) : Nat := toSizeT (pos + n)

/-- The sum of two `int`s: its overflow is undefined. -/
def addInt (a b : Int) : Option Int :=
  if -2 ^ 31 ≤ a + b ∧ a + b < 2 ^ 31 then some (a + b) else none

theorem addInt_of_fits {a b : Int} (hl : -2 ^ 31 ≤ a + b) (hu : a + b < 2 ^ 31) :
    addInt a b = some (a + b) := if_pos ⟨hl, hu⟩

theorem toInt32_of_lt {n : Nat} (h : n < 2 ^ 31) : toInt32 n = n := by
  unfold toInt32
  apply Int.bmod_eq_of_le <;> omega

theorem toInt32_of_ge {n : Nat} (h : 2 ^ 31 ≤ n) (h' : n < 2 ^ 32) :
    toInt32 n = (n : Int) - 2 ^ 32 := by
  unfold toInt32
  rw [Int.bmod_def]
  omega

theorem toInt32_le (n : Nat) : toInt32 n ≤ n := by
  unfold toInt32
  rw [Int.bmod_def]
  omega

theorem toInt32_lt (n : Nat) : toInt32 n < 2 ^ 31 := by
  unfold toInt32
  rw [Int.bmod_def]
  omega

@[simp] theorem toSizeT_natCast (n : Nat) : toSizeT n = n := by
  simp [toSizeT]

@[simp] theorem addSize_natCast (pos n : Nat) : addSize pos n = pos + n := by
  rw [addSize, ← Int.natCast_add, toSizeT_natCast]

/-- For a position inside an object this is the machine's sum. -/
theorem addSize_eq_mod {pos : Nat} {n : Int} (hp : pos < 2 ^ 63) (hl : -2 ^ 31 ≤ n)
    (hu : n < 2 ^ 31) : addSize pos n = (pos + toSizeT n) % 2 ^ 64 := by
  unfold addSize toSizeT
  split_ifs <;> omega

end EventServer.Lib.CInt
