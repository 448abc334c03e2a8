import EventServer.Lib.CString
import EventServer.Lib.Decimal
import EventServer.Lib.SignedWord
import EventServer.Lua.Message

/-!
# `evhttp_int64_op`

Scripts compute with 64-bit numbers in the form of decimal texts. The texts are
read as signed and the results are printed as signed, but the words in between are
unsigned. The operator is told by its first character, except where two of them
begin with the same one.
-/
namespace EventServer.Lua

open EventServer.Lib.CString EventServer.Lib.Decimal EventServer.Lib.SignedWord
open EventServer.Stream

/-- `tolua_tostring()`: the arguments are as `lua_tostring` finds them, null if they are not
texts. -/
def toluaTostring (args : List (Option (List Byte))) (narg : Nat) (dflt : List Byte) :
    Option (List Byte) :=
  if args.length < narg then some dflt else args[narg - 1]?.join.map cstr

/-- The texts of `%lld`. -/
def int64Text (v : BitVec 64) : List Byte := Conversion.print ⟨0, true, true⟩ v

/-- `lua_evhttp_int64_op()`: what it returns. A null operator is read and a division by zero is
carried out, both of which are undefined. -/
def int64Op (args : List (Option (List Byte))) : Option (List LuaValue) := do
  let src := toluaTostring args 1 [chr '0']
  let op ← toluaTostring args 2 [chr '+']
  let dst := toluaTostring args 3 [chr '0']
  let srcD := src.elim 0 atoll
  let dstD := dst.elim 0 atoll
  if op.head? = some (chr '+') then return [.str (int64Text (srcD + dstD))]
  else if op.head? = some (chr '-') then return [.str (int64Text (srcD - dstD))]
  else if op.head? = some (chr '*') then return [.str (int64Text (srcD * dstD))]
  else if op.head? = some (chr '/') then
    if dstD = 0 then none else return [.str (int64Text (srcD / dstD))]
  else if op.head? = some (chr '%') then
    if dstD = 0 then none else return [.str (int64Text (srcD % dstD))]
  else if op.head? = some (chr '|') then return [.str (int64Text (srcD ||| dstD))]
  else if op.head? = some (chr '^') then return [.str (int64Text (srcD ^^^ dstD))]
  else if op.head? = some (chr '&') then return [.str (int64Text (srcD &&& dstD))]
  else if op.head? = some (chr '~') then return [.str (int64Text (~~~srcD))]
  else if op.head? = some (chr '<') then return [.boolean (srcD < dstD)]
  else if op = [chr '<', chr '='] then return [.boolean (srcD ≤ dstD)]
  else if op.head? = some (chr '>') then return [.boolean (srcD > dstD)]
  else if op = [chr '>', chr '='] then return [.boolean (srcD ≥ dstD)]
  else if op = [chr '=', chr '='] then return [.boolean (srcD = dstD)]
  else return []

/-- A text that is read whole has its number as the operand. -/
theorem operand_of_denotes {s : List Byte} {a : Int} (hs : Denotes s a) (ha : Fits 63 a) :
    atoll (cstr s) = BitVec.ofInt 64 a := by
  rw [cstr_of_not_mem hs.zero_not_mem, atoll_of_denotes hs ha.1 ha.2]

theorem int64Text_eq (v : BitVec 64) : int64Text v = printInt v.toInt :=
  (Conversion.print_plain true v).1

/-- The text is read back as the word. -/
theorem atoll_int64Text (v : BitVec 64) : atoll (int64Text v) = v := by
  rw [int64Text_eq, atoll_of_denotes (denotes_printInt _) (BitVec.le_toInt v) BitVec.toInt_lt,
    BitVec.ofInt_toInt]

theorem int64Text_injective : Function.Injective int64Text :=
  Function.LeftInverse.injective atoll_int64Text

/-! ## Arithmetic -/

inductive ArithOp where
  | add | sub | mul | div | mod | or | xor | and | not
  deriving DecidableEq

namespace ArithOp

def text : ArithOp → List Byte
  | add => [chr '+']
  | sub => [chr '-']
  | mul => [chr '*']
  | div => [chr '/']
  | mod => [chr '%']
  | or => [chr '|']
  | xor => [chr '^']
  | and => [chr '&']
  | not => [chr '~']

/-- The signed result as a word; quotients are rounded towards zero. -/
def result : ArithOp → Int → Int → BitVec 64
  | add, a, b => BitVec.ofInt 64 (a + b)
  | sub, a, b => BitVec.ofInt 64 (a - b)
  | mul, a, b => BitVec.ofInt 64 (a * b)
  | div, a, b => BitVec.ofInt 64 (a.tdiv b)
  | mod, a, b => BitVec.ofInt 64 (a.tmod b)
  | or, a, b => BitVec.ofInt 64 a ||| BitVec.ofInt 64 b
  | xor, a, b => BitVec.ofInt 64 a ^^^ BitVec.ofInt 64 b
  | and, a, b => BitVec.ofInt 64 a &&& BitVec.ofInt 64 b
  | not, a, _ => ~~~BitVec.ofInt 64 a

/-- There is no result. -/
def Undefined (op : ArithOp) (b : Int) : Prop := (op = div ∨ op = mod) ∧ b = 0

instance (op : ArithOp) (b : Int) : Decidable (op.Undefined b) :=
  inferInstanceAs (Decidable (_ ∧ _))

/-- The call returns the text of the signed result, or no text where there is none. -/
def Computes (op : ArithOp) (s t : List Byte) (a b : Int) : Prop :=
  if op.Undefined b then
    ∃ out, int64Op [some s, some op.text, some t] = some out ∧ ∀ r, LuaValue.str r ∉ out
  else int64Op [some s, some op.text, some t] = some [.str (printInt (op.result a b).toInt)]

/-- The operands for which the unsigned operation is the signed one. -/
def Right : ArithOp → Int → Int → Prop
  | div, a, b => QuotAgrees a b
  | mod, a, b => RemAgrees 63 a b
  | _, _, _ => True

/-- What the code computes with. -/
def word : ArithOp → BitVec 64 → BitVec 64 → Option (BitVec 64)
  | add, x, y => some (x + y)
  | sub, x, y => some (x - y)
  | mul, x, y => some (x * y)
  | div, x, y => if y = 0 then none else some (x / y)
  | mod, x, y => if y = 0 then none else some (x % y)
  | or, x, y => some (x ||| y)
  | xor, x, y => some (x ^^^ y)
  | and, x, y => some (x &&& y)
  | not, x, _ => some (~~~x)

theorem int64Op_arith (op : ArithOp) (s t : List Byte) :
    int64Op [some s, some op.text, some t] =
      (op.word (atoll (cstr s)) (atoll (cstr t))).map fun v => [.str (int64Text v)] := by
  cases op with
  | div | mod =>
    rw [word]
    split
    · next h => exact if_pos h
    · next h => exact if_neg h
  | _ => rfl

/-- The word that the code computes with is the signed result. -/
theorem word_iff {a b : Int} (ha : Fits 63 a) (hb : Fits 63 b) {op : ArithOp}
    (h : ¬ op.Undefined b) :
    op.word (BitVec.ofInt 64 a) (BitVec.ofInt 64 b) = some (op.result a b) ↔ op.Right a b := by
  have hzero : BitVec.ofInt 64 b = 0 ↔ b = 0 :=
    ofInt_inj (w := 63) (b := 0) hb ⟨by decide, by decide⟩
  cases op with
  | add => simp only [word, result, Right, BitVec.ofInt_add]
  | sub => simp only [word, result, Right, ofInt_sub]
  | mul => simp only [word, result, Right, BitVec.ofInt_mul]
  | or | xor | and | not => simp only [word, result, Right]
  | div =>
    have hne : b ≠ 0 := fun hb0 => h ⟨.inl rfl, hb0⟩
    rw [word, if_neg (hzero.not.mpr hne), Option.some.injEq]
    exact udiv_iff ha hb hne
  | mod =>
    have hne : b ≠ 0 := fun hb0 => h ⟨.inr rfl, hb0⟩
    rw [word, if_neg (hzero.not.mpr hne), Option.some.injEq]
    exact umod_iff ha hb hne

/-- Without a result the code divides by zero. -/
theorem word_undefined {op : ArithOp} {b : Int} (h : op.Undefined b) (x : BitVec 64) :
    op.word x (BitVec.ofInt 64 b) = none := by
  obtain ⟨rfl | rfl, rfl⟩ := h <;> rfl

theorem not_right_of_undefined {op : ArithOp} {b : Int} (h : op.Undefined b) (a : Int) :
    ¬ op.Right a b := by
  obtain ⟨rfl | rfl, rfl⟩ := h
  · unfold Right QuotAgrees
    omega
  · unfold Right RemAgrees
    omega

end ArithOp

/-- The texts of two numbers and an operator give the text of the signed result exactly where the
unsigned operation agrees with the signed one. -/
theorem int64_arith_iff {s t : List Byte} {a b : Int} (hs : Denotes s a) (ht : Denotes t b)
    (ha : Fits 63 a) (hb : Fits 63 b) (op : ArithOp) : op.Computes s t a b ↔ op.Right a b := by
  rw [ArithOp.Computes, ArithOp.int64Op_arith, operand_of_denotes hs ha, operand_of_denotes ht hb]
  split
  · next h =>
    rw [ArithOp.word_undefined h]
    refine iff_of_false ?_ (ArithOp.not_right_of_undefined h a)
    intro h
    obtain ⟨out, hout, -⟩ := h
    cases hout
  · next h =>
    have hinj : Function.Injective fun v => [LuaValue.str (int64Text v)] := by
      intro v v' hv
      simp only [List.cons.injEq, LuaValue.str.injEq, and_true] at hv
      exact int64Text_injective hv
    rw [← ArithOp.word_iff ha hb h, ← int64Text_eq]
    exact (Option.map_injective hinj).eq_iff (b := some (op.result a b))

theorem int64_arith_positive : ArithOp.div.Computes (printInt 7) (printInt 2) 7 2 :=
  (int64_arith_iff (denotes_printInt 7) (denotes_printInt 2) ⟨by decide, by decide⟩
    ⟨by decide, by decide⟩ .div).mpr (.inl ⟨by decide, by decide⟩)

/-- `-7 / 2` gives 9223372036854775804, and `1 / 0` is divided. -/
theorem int64_arith_unsigned :
    int64Op [some (printInt (-7)), some ArithOp.div.text, some (printInt 2)] =
        some [.str (printInt 9223372036854775804)] ∧
      ¬ ArithOp.div.Computes (printInt (-7)) (printInt 2) (-7) 2 ∧
      int64Op [some (printInt 1), some ArithOp.div.text, some (printInt 0)] = none ∧
      ¬ ArithOp.div.Computes (printInt 1) (printInt 0) 1 0 := by
  have hseven : int64Op [some (printInt (-7)), some ArithOp.div.text, some (printInt 2)] =
      some [.str (printInt 9223372036854775804)] := by decide +kernel
  have hzero : int64Op [some (printInt 1), some ArithOp.div.text, some (printInt 0)] = none := by
    decide +kernel
  refine ⟨hseven, ?_, hzero, ?_⟩
  · rw [ArithOp.Computes, if_neg (by decide), hseven]
    decide +kernel
  · rw [ArithOp.Computes, if_pos (by decide), hzero]
    intro h
    obtain ⟨out, hout, -⟩ := h
    cases hout

/-! ## Comparisons -/

inductive CmpOp where
  | lt | le | gt | ge | eq
  deriving DecidableEq

namespace CmpOp

def text : CmpOp → List Byte
  | lt => [chr '<']
  | le => [chr '<', chr '=']
  | gt => [chr '>']
  | ge => [chr '>', chr '=']
  | eq => [chr '=', chr '=']

def Holds : CmpOp → Int → Int → Prop
  | lt, a, b => a < b
  | le, a, b => a ≤ b
  | gt, a, b => a > b
  | ge, a, b => a ≥ b
  | eq, a, b => a = b

instance : (op : CmpOp) → (a b : Int) → Decidable (op.Holds a b)
  | lt, a, b => inferInstanceAs (Decidable (a < b))
  | le, a, b => inferInstanceAs (Decidable (a ≤ b))
  | gt, a, b => inferInstanceAs (Decidable (a > b))
  | ge, a, b => inferInstanceAs (Decidable (a ≥ b))
  | eq, a, b => inferInstanceAs (Decidable (a = b))

/-- The call returns true. -/
def Affirms (op : CmpOp) (s t : List Byte) : Prop :=
  int64Op [some s, some op.text, some t] = some [.boolean true]

/-- The call returns whether the comparison holds. -/
def Decides (op : CmpOp) (s t : List Byte) (a b : Int) : Prop :=
  int64Op [some s, some op.text, some t] = some [.boolean (op.Holds a b)]

/-- The operands that are compared as the signed numbers. -/
def Right : CmpOp → Int → Int → Prop
  | lt, a, b | gt, a, b => a < 0 ↔ b < 0
  | le, a, b | ge, a, b => (a < 0 ↔ b < 0) ∧ a ≠ b
  | eq, _, _ => True

/-- How the code compares: `<=` and `>=` begin as the strict operators do and never come to their
own branches. -/
def words : CmpOp → BitVec 64 → BitVec 64 → Bool
  | lt, x, y | le, x, y => x < y
  | gt, x, y | ge, x, y => x > y
  | eq, x, y => x = y

theorem int64Op_cmp (op : CmpOp) (s t : List Byte) :
    int64Op [some s, some op.text, some t] =
      some [.boolean (op.words (atoll (cstr s)) (atoll (cstr t)))] := by
  cases op <;> rfl

theorem words_iff {a b : Int} (ha : Fits 63 a) (hb : Fits 63 b) (op : CmpOp) :
    op.words (BitVec.ofInt 64 a) (BitVec.ofInt 64 b) = decide (op.Holds a b) ↔ op.Right a b := by
  cases op with
  | lt => exact decide_eq_decide.trans (lt_iff ha hb)
  | le => exact decide_eq_decide.trans (lt_iff_le ha hb)
  | gt => exact decide_eq_decide.trans ((lt_iff hb ha).trans iff_comm)
  | ge => exact decide_eq_decide.trans ((lt_iff_le hb ha).trans (and_congr iff_comm ne_comm))
  | eq => exact iff_of_true (decide_eq_decide.mpr (ofInt_inj ha hb)) trivial

theorem affirms_iff (op : CmpOp) (s t : List Byte) :
    op.Affirms s t ↔ op.words (atoll (cstr s)) (atoll (cstr t)) = true := by
  rw [Affirms, int64Op_cmp, Option.some.injEq, List.cons.injEq, LuaValue.boolean.injEq]
  exact and_iff_left rfl

end CmpOp

/-- Unsigned words are ordered totally. -/
theorem words_trichotomy (x y : BitVec 64) :
    ∃! op : CmpOp, op ∈ [CmpOp.lt, .eq, .gt] ∧ op.words x y = true := by
  have hlt : CmpOp.lt.words x y = true ↔ x.toNat < y.toNat := decide_eq_true_iff
  have heq : CmpOp.eq.words x y = true ↔ x.toNat = y.toNat :=
    decide_eq_true_iff.trans BitVec.toNat_inj.symm
  have hgt : CmpOp.gt.words x y = true ↔ y.toNat < x.toNat := decide_eq_true_iff
  simp only [List.mem_cons, List.not_mem_nil, or_false]
  rcases Nat.lt_trichotomy x.toNat y.toNat with h | h | h
  · refine ⟨.lt, ⟨.inl rfl, hlt.mpr h⟩, ?_⟩
    rintro op ⟨rfl | rfl | rfl, hop⟩
    · rfl
    · exact absurd (heq.mp hop) (by omega)
    · exact absurd (hgt.mp hop) (by omega)
  · refine ⟨.eq, ⟨.inr (.inl rfl), heq.mpr h⟩, ?_⟩
    rintro op ⟨rfl | rfl | rfl, hop⟩
    · exact absurd (hlt.mp hop) (by omega)
    · rfl
    · exact absurd (hgt.mp hop) (by omega)
  · refine ⟨.gt, ⟨.inr (.inr rfl), hgt.mpr h⟩, ?_⟩
    rintro op ⟨rfl | rfl | rfl, hop⟩
    · exact absurd (hlt.mp hop) (by omega)
    · exact absurd (heq.mp hop) (by omega)
    · rfl

/-- The texts of two numbers are compared as the numbers exactly if these have the same sign and,
for the operators that allow a tie, are not the same. Exactly one of `<`, `==` and `>` is
affirmed all the same. -/
theorem int64_compare_iff {s t : List Byte} {a b : Int} (hs : Denotes s a) (ht : Denotes t b)
    (ha : Fits 63 a) (hb : Fits 63 b) :
    (∀ op : CmpOp, op.Decides s t a b ↔ op.Right a b) ∧
      (∃! op : CmpOp, op ∈ [CmpOp.lt, .eq, .gt] ∧ op.Affirms s t) ∧
      ((CmpOp.le.Affirms s t ↔ ¬ CmpOp.gt.Affirms s t) ↔ a ≠ b) := by
  have hinj : BitVec.ofInt 64 a = BitVec.ofInt 64 b ↔ a = b := ofInt_inj ha hb
  refine ⟨fun op => ?_, ?_, ?_⟩
  · rw [← CmpOp.words_iff ha hb, CmpOp.Decides, CmpOp.int64Op_cmp, operand_of_denotes hs ha,
      operand_of_denotes ht hb, Option.some.injEq, List.cons.injEq, LuaValue.boolean.injEq]
    exact and_iff_left rfl
  · simp only [CmpOp.affirms_iff]
    exact words_trichotomy _ _
  · rw [CmpOp.affirms_iff, CmpOp.affirms_iff, operand_of_denotes hs ha, operand_of_denotes ht hb,
      Ne, ← hinj, ← BitVec.toNat_inj]
    simp only [CmpOp.words, decide_eq_true_eq, BitVec.lt_def, gt_iff_lt]
    omega

theorem int64_compare_negative :
    CmpOp.lt.Decides (printInt (-2)) (printInt (-1)) (-2) (-1) :=
  ((int64_compare_iff (denotes_printInt (-2)) (denotes_printInt (-1)) ⟨by decide, by decide⟩
    ⟨by decide, by decide⟩).1 .lt).mpr (iff_of_true (by decide) (by decide))

/-- `-1 < 1` and `1 <= 1` give false. -/
theorem int64_compare_unsigned :
    int64Op [some (printInt (-1)), some CmpOp.lt.text, some (printInt 1)] =
        some [.boolean false] ∧
      ¬ CmpOp.lt.Decides (printInt (-1)) (printInt 1) (-1) 1 ∧
      int64Op [some (printInt 1), some CmpOp.le.text, some (printInt 1)] = some [.boolean false] ∧
      ¬ CmpOp.le.Decides (printInt 1) (printInt 1) 1 1 := by
  have hsign : int64Op [some (printInt (-1)), some CmpOp.lt.text, some (printInt 1)] =
      some [.boolean false] := by decide +kernel
  have htie : int64Op [some (printInt 1), some CmpOp.le.text, some (printInt 1)] =
      some [.boolean false] := by decide +kernel
  refine ⟨hsign, ?_, htie, ?_⟩
  · rw [CmpOp.Decides, hsign]
    decide
  · rw [CmpOp.Decides, htie]
    decide

end EventServer.Lua
