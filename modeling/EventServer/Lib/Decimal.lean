import Mathlib.Data.List.TakeWhile
import Mathlib.Data.Nat.Digits.Lemmas

/-!
# Decimal numbers as text

`printf` writes a number without leading zeros, filled up with blanks to the
width of the conversion; `strtol` takes an optional sign and the digits that
follow, and saturates at the range of `long`.
-/
namespace EventServer.Lib.Decimal

abbrev Text := List (BitVec 8)

def digit (d : Nat) : BitVec 8 := BitVec.ofNat 8 (48 + d)

def isDigit (c : BitVec 8) : Bool := 48 ≤ c.toNat ∧ c.toNat ≤ 57

/-- `%u`. -/
def printNat (n : Nat) : Text := if n = 0 then [digit 0] else (Nat.digits 10 n).reverse.map digit

/-- `%d`. -/
def printInt (n : Int) : Text := if n < 0 then 45 :: printNat n.natAbs else printNat n.natAbs

/-- The number at the start of the text. -/
def digitsValue (s : Text) : Nat :=
  (s.takeWhile isDigit).foldl (fun v c => 10 * v + (c.toNat - 48)) 0

/-- A `long` has 64 bits. -/
def clampLong (n : Int) : Int := max (-2 ^ 63) (min n (2 ^ 63 - 1))

def isSpace (c : BitVec 8) : Bool := c.toNat = 32 ∨ 9 ≤ c.toNat ∧ c.toNat ≤ 13

def strtol (s : Text) : Int :=
  match s.dropWhile isSpace with
  | [] => 0
  | c :: rest =>
    if c = 45 then clampLong (-(digitsValue rest))
    else if c = 43 then clampLong (digitsValue rest)
    else clampLong (digitsValue (c :: rest))

/-- `atoi()`, and `atol()` narrowed to an `int`. -/
def atoi (s : Text) : BitVec 32 := BitVec.ofInt 32 (strtol s)

/-- `atoll()`; a `long long` has the range of a `long`. -/
def atoll (s : Text) : BitVec 64 := BitVec.ofInt 64 (strtol s)

/-! ## Conversions -/

/-- A conversion of a number: the field width, whether a length modifier makes it a `long long`,
and whether it is signed. -/
structure Conversion where
  width : Nat
  long : Bool
  signed : Bool
  deriving DecidableEq

/-- What stands behind `%`, as glibc reads it: `I` is the flag for the digits of the locale, which
are the usual ones, then come the width, the modifier and the conversion. -/
def Conversion.parse (spec : Text) : Option Conversion :=
  let rest := spec.dropWhile (· = 73)
  let tail := rest.dropWhile isDigit
  let long := tail.takeWhile (· = 108) ≠ []
  match tail.dropWhile (· = 108) with
  | [100] => some ⟨digitsValue rest, long, true⟩
  | [117] => some ⟨digitsValue rest, long, false⟩
  | _ => none

/-- The argument without a modifier is taken for an `int`. -/
def Conversion.number (c : Conversion) (x : BitVec 64) : Int :=
  match c.long, c.signed with
  | true, true => x.toInt
  | true, false => x.toNat
  | false, true => (x.setWidth 32).toInt
  | false, false => (x.setWidth 32).toNat

def Conversion.print (c : Conversion) (x : BitVec 64) : Text :=
  List.replicate (c.width - (printInt (c.number x)).length) 32 ++ printInt (c.number x)

theorem Conversion.width_le (c : Conversion) (x : BitVec 64) : c.width ≤ (c.print x).length := by
  rw [print, List.length_append, List.length_replicate]
  omega

/-! ## Numbers and their text -/

theorem toNat_digit {d : Nat} (h : d < 10) : (digit d).toNat = 48 + d := by
  rw [digit, BitVec.toNat_ofNat]
  omega

theorem isDigit_digit {d : Nat} (h : d < 10) : isDigit (digit d) = true := by
  simp only [isDigit, toNat_digit h, decide_eq_true_eq]
  omega

theorem isDigit_of_mem_printNat {n : Nat} {c : BitVec 8} (h : c ∈ printNat n) :
    isDigit c = true := by
  unfold printNat at h
  split at h
  · rw [List.mem_singleton.mp h]
    rfl
  · simp only [List.mem_map, List.mem_reverse] at h
    obtain ⟨d, hd, rfl⟩ := h
    exact isDigit_digit (Nat.digits_lt_base (by decide) hd)

theorem printNat_ne_nil (n : Nat) : printNat n ≠ [] := by
  unfold printNat
  split
  · simp
  · rename_i h
    simpa using Nat.digits_ne_nil_iff_ne_zero.mpr h

theorem printNat_length {n k : Nat} (hk : 0 < k) (h : n < 10 ^ k) : (printNat n).length ≤ k := by
  unfold printNat
  split
  · exact hk
  · rw [List.length_map, List.length_reverse]
    exact (Nat.digits_length_le_iff (by decide) n).mpr h

theorem mem_printInt {n : Int} {c : BitVec 8} (h : c ∈ printInt n) : c = 45 ∨ isDigit c = true := by
  unfold printInt at h
  split at h
  · rcases List.mem_cons.mp h with hc | hc
    · exact .inl hc
    · exact .inr (isDigit_of_mem_printNat hc)
  · exact .inr (isDigit_of_mem_printNat h)

theorem printInt_length {n : Int} {k : Nat} (hk : 0 < k) (h : n.natAbs < 10 ^ k) :
    (printInt n).length ≤ k + 1 := by
  have hnat := printNat_length hk h
  unfold printInt
  split
  · rw [List.length_cons]
    omega
  · omega

/-- The digits of a number, most significant first, count up to it. -/
theorem foldl_digits (n : Nat) :
    ((Nat.digits 10 n).reverse.map digit).foldl (fun v c => 10 * v + (c.toNat - 48)) 0 = n := by
  rw [List.foldl_map, List.foldl_reverse]
  have hval : ∀ L : List Nat, (∀ d ∈ L, d < 10) →
      L.foldr (fun d v => 10 * v + ((digit d).toNat - 48)) 0 = Nat.ofDigits 10 L := by
    intro L
    induction L with
    | nil => intro _; rfl
    | cons d L ih =>
      intro hL
      have hd : d < 10 := hL d List.mem_cons_self
      rw [List.foldr_cons, ih (fun x hx => hL x (List.mem_cons_of_mem _ hx)), toNat_digit hd,
        Nat.ofDigits_cons]
      omega
  rw [hval _ (fun d hd => Nat.digits_lt_base (by decide) hd), Nat.ofDigits_digits]

theorem digitsValue_printNat (n : Nat) : digitsValue (printNat n) = n := by
  have hall : (printNat n).takeWhile isDigit = printNat n :=
    List.takeWhile_eq_self_iff.mpr fun _ hc => isDigit_of_mem_printNat hc
  rw [digitsValue, hall, printNat]
  split
  · rename_i h
    rw [h]
    rfl
  · exact foldl_digits n

theorem not_isSpace_of_isDigit {c : BitVec 8} (h : isDigit c = true) :
    isSpace c = false ∧ c ≠ 45 ∧ c ≠ 43 := by
  simp only [isDigit, decide_eq_true_eq] at h
  refine ⟨?_, ?_, ?_⟩
  · simp only [isSpace, decide_eq_false_iff_not]
    omega
  · intro he
    rw [he] at h
    exact absurd h (by decide)
  · intro he
    rw [he] at h
    exact absurd h (by decide)

/-! ## Literals -/

/-- The text is an optional sign and digits that stand for `n`. -/
def Denotes (s : Text) (n : Int) : Prop :=
  ∃ digits, digits ≠ [] ∧ (∀ c ∈ digits, isDigit c = true) ∧
    (s = digits ∧ n = digitsValue digits ∨ s = 43 :: digits ∧ n = digitsValue digits ∨
      s = 45 :: digits ∧ n = -digitsValue digits)

theorem denotes_printInt (n : Int) : Denotes (printInt n) n := by
  refine ⟨printNat n.natAbs, printNat_ne_nil _, fun _ hc => isDigit_of_mem_printNat hc, ?_⟩
  rw [digitsValue_printNat, printInt]
  split
  · exact .inr (.inr ⟨rfl, by omega⟩)
  · exact .inl ⟨rfl, by omega⟩

theorem Denotes.zero_not_mem {s : Text} {n : Int} (h : Denotes s n) : 0 ∉ s := by
  obtain ⟨digits, -, hdigits, ⟨rfl, -⟩ | ⟨rfl, -⟩ | ⟨rfl, -⟩⟩ := h <;> intro hz
  · exact absurd (hdigits 0 hz) (by decide)
  all_goals
    rcases List.mem_cons.mp hz with hz | hz
    · exact absurd hz (by decide)
    · exact absurd (hdigits 0 hz) (by decide)

theorem strtol_of_denotes {s : Text} {n : Int} (h : Denotes s n) : strtol s = clampLong n := by
  obtain ⟨digits, hne, hdigits, ⟨rfl, rfl⟩ | ⟨rfl, rfl⟩ | ⟨rfl, rfl⟩⟩ := h
  · obtain ⟨c, rest, rfl⟩ := List.exists_cons_of_ne_nil hne
    obtain ⟨hspace, hminus, hplus⟩ := not_isSpace_of_isDigit (hdigits c List.mem_cons_self)
    have hdrop : (c :: rest).dropWhile isSpace = c :: rest := by simp [hspace]
    simp only [strtol, hdrop, if_neg hminus, if_neg hplus]
  · have hdrop : (43 :: digits).dropWhile isSpace = 43 :: digits := by simp [isSpace]
    simp only [strtol, hdrop, if_neg (show (43 : BitVec 8) ≠ 45 by decide), ↓reduceIte]
  · have hdrop : (45 :: digits).dropWhile isSpace = 45 :: digits := by simp [isSpace]
    simp only [strtol, hdrop, ↓reduceIte]

theorem atoll_of_denotes {s : Text} {n : Int} (h : Denotes s n) (hlow : -2 ^ 63 ≤ n)
    (hhigh : n < 2 ^ 63) : atoll s = BitVec.ofInt 64 n := by
  have hclamp : clampLong n = n := by
    unfold clampLong
    omega
  rw [atoll, strtol_of_denotes h, hclamp]

theorem strtol_printInt (n : Int) : strtol (printInt n) = clampLong n :=
  strtol_of_denotes (denotes_printInt n)

theorem printInt_natCast (n : Nat) : printInt n = printNat n := by
  rw [printInt, if_neg (by omega), Int.natAbs_natCast]

theorem strtol_printNat (n : Nat) : strtol (printNat n) = clampLong n := by
  rw [← printInt_natCast, strtol_printInt]

theorem printNat_injective : Function.Injective printNat :=
  Function.LeftInverse.injective digitsValue_printNat

theorem toNat_atoll_printNat (n : Nat) : (atoll (printNat n)).toNat = min n (2 ^ 63 - 1) := by
  have hclamp : clampLong n = (min n (2 ^ 63 - 1) : Nat) := by
    unfold clampLong
    omega
  rw [atoll, strtol_printNat, hclamp, BitVec.ofInt_natCast, BitVec.toNat_ofNat]
  omega

theorem toInt_atoll_printInt {n : Int} (hlow : -2 ^ 63 ≤ n) (hhigh : n < 2 ^ 63) :
    (atoll (printInt n)).toInt = n := by
  rw [atoll_of_denotes (denotes_printInt n) hlow hhigh, BitVec.toInt_ofInt]
  exact Int.bmod_eq_of_le (by omega) (by omega)

/-- Without a width nothing is filled up. -/
theorem Conversion.print_plain (signed : Bool) (x : BitVec 64) :
    Conversion.print ⟨0, true, signed⟩ x =
        printInt (Conversion.number ⟨0, true, signed⟩ x) ∧
      (Conversion.print ⟨0, true, signed⟩ x).length ≤ 21 := by
  have hprint : Conversion.print ⟨0, true, signed⟩ x =
      printInt (Conversion.number ⟨0, true, signed⟩ x) := by
    rw [print, Nat.zero_sub, List.replicate_zero, List.nil_append]
  have hlow := BitVec.le_toInt x
  have hhigh : x.toInt < 2 ^ 63 := BitVec.toInt_lt
  have hlt := x.isLt
  rw [hprint]
  refine ⟨rfl, printInt_length (by decide) ?_⟩
  cases signed <;> simp only [number] <;> omega

theorem atoi_printInt (v : BitVec 32) : atoi (printInt v.toInt) = v := by
  have hle := BitVec.le_toInt v
  have hlt : v.toInt < 2 ^ 31 := BitVec.toInt_lt
  have hclamp : clampLong v.toInt = v.toInt := by
    unfold clampLong
    omega
  rw [atoi, strtol_printInt, hclamp, BitVec.ofInt_toInt]

end EventServer.Lib.Decimal
