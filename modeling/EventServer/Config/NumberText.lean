import EventServer.Config.Load

/-!
# Which texts are numbers

`_isnumber` counts points and signs and does not look where they stand, and it does
not ask for a digit. So some texts are taken for numbers of which the conversion
reads only the beginning, or nothing.
-/
namespace EventServer.Config

open EventServer.Lib.Decimal EventServer.Stream

def isSign (c : Byte) : Bool := c = ch '-' ∨ c = ch '+'

/-- The text behind its sign. -/
def unsign : List Byte → List Byte
  | [] => []
  | c :: s => if isSign c then s else c :: s

/-- A decimal literal: one optional sign, and digits with at most one point. -/
structure Literal (p : List Byte) : Prop where
  chars : ∀ c ∈ unsign p, isDigit c = true ∨ c = ch '.'
  points : (unsign p).count (ch '.') ≤ 1
  digit : ∃ c ∈ unsign p, isDigit c = true

/-! ## The conversion -/

/-- The part of a text without exponent that the conversions read behind the sign: digits, and a
point with digits behind it. -/
def numeral (s : List Byte) : List Byte :=
  match s.dropWhile isDigit with
  | [] => s.takeWhile isDigit
  | c :: frac =>
    if c = ch '.' then s.takeWhile isDigit ++ c :: frac.takeWhile isDigit
    else s.takeWhile isDigit

/-- The conversion finds digits and ignores no character. -/
def ReadWhole (p : List Byte) : Prop :=
  numeral (unsign p) = unsign p ∧ ∃ c ∈ unsign p, isDigit c = true

theorem numeral_digit {c : Byte} (hc : isDigit c = true) (s : List Byte) :
    numeral (c :: s) = c :: numeral s := by
  unfold numeral
  rw [List.dropWhile_cons, if_pos hc, List.takeWhile_cons, if_pos hc]
  split
  · rfl
  · split <;> rfl

theorem numeral_other {c : Byte} (hc : isDigit c = false) (s : List Byte) :
    numeral (c :: s) = if c = ch '.' then c :: s.takeWhile isDigit else [] := by
  have hno : ¬ isDigit c = true := by rw [hc]; decide
  unfold numeral
  rw [List.dropWhile_cons, if_neg hno, List.takeWhile_cons, if_neg hno]
  rfl

/-- Digits with at most one point are read whole. -/
theorem numeral_eq_iff (s : List Byte) :
    numeral s = s ↔ (∀ c ∈ s, isDigit c = true ∨ c = ch '.') ∧ s.count (ch '.') ≤ 1 := by
  induction s with
  | nil => simp [numeral]
  | cons c s ih =>
    rw [List.forall_mem_cons]
    by_cases hdigit : isDigit c = true
    · have hc : c ≠ ch '.' := by
        rintro rfl
        exact absurd hdigit (by decide)
      have hchar : isDigit c = true ∨ c = ch '.' := .inl hdigit
      rw [numeral_digit hdigit, List.cons.injEq, and_iff_right rfl, ih, List.count_cons_of_ne hc,
        and_iff_right hchar]
    · have hno : isDigit c = false := Bool.eq_false_iff.mpr hdigit
      rw [numeral_other hno]
      split
      · next hpoint =>
        subst hpoint
        rw [List.cons.injEq, and_iff_right rfl, List.takeWhile_eq_self_iff, List.count_cons_self]
        constructor
        · intro h
          have hnone : s.count (ch '.') = 0 :=
            List.count_eq_zero.mpr fun hmem => absurd (h _ hmem) (by decide)
          exact ⟨⟨.inr rfl, fun x hx => .inl (h x hx)⟩, by omega⟩
        · rintro ⟨⟨-, h⟩, hcount⟩ x hx
          refine (h x hx).resolve_right ?_
          rintro rfl
          exact List.count_eq_zero.mp (by omega) hx
      · next hpoint =>
        refine iff_of_false (List.cons_ne_nil c s).symm ?_
        intro h
        obtain ⟨⟨h | h, -⟩, -⟩ := h
        · exact hdigit h
        · exact hpoint h

theorem literal_iff_readWhole (p : List Byte) : Literal p ↔ ReadWhole p := by
  rw [ReadWhole, numeral_eq_iff]
  exact ⟨fun h => ⟨⟨h.chars, h.points⟩, h.digit⟩, fun h => ⟨h.1.1, h.1.2, h.2⟩⟩

/-! ## The scanner -/

/-- What the scanner looks at. -/
structure Scanned (p : List Byte) : Prop where
  nonempty : p ≠ []
  chars : ∀ c ∈ p, c = ch '.' ∨ isDigit c = true ∨ isSign c = true
  points : p.count (ch '.') ≤ 1
  signs : p.countP isSign ≤ 1

theorem not_isSign {c : Byte} (h : isDigit c = true ∨ c = ch '.') : isSign c = false := by
  by_contra hsign
  simp only [Bool.not_eq_false, isSign, decide_eq_true_eq] at hsign
  rcases hsign with rfl | rfl
  · exact absurd h (by decide)
  · exact absurd h (by decide)

theorem isNumberLoop_iff (s : List Byte) (c d : Nat) (hc : c ≤ 1) (hd : d ≤ 1) :
    isNumberLoop c d s = true ↔
      (∀ x ∈ s, x = ch '.' ∨ isDigit x = true ∨ isSign x = true) ∧
        c + s.count (ch '.') ≤ 1 ∧ d + s.countP isSign ≤ 1 := by
  induction s generalizing c d with
  | nil => simp [isNumberLoop, hc, hd]
  | cons x s ih =>
    rw [isNumberLoop, List.forall_mem_cons]
    split
    · next hpoint =>
      subst hpoint
      rw [List.count_cons_self, List.countP_cons_of_neg (by decide)]
      split
      · next h =>
        refine iff_of_false Bool.false_ne_true ?_
        intro h
        obtain ⟨-, hpoints, -⟩ := h
        omega
      · next h =>
        rw [ih (c + 1) d (by omega) hd, Nat.add_assoc, Nat.add_comm 1,
          and_iff_right (a := ch '.' = ch '.' ∨ _) (.inl rfl)]
    · next hpoint =>
      rw [List.count_cons_of_ne hpoint]
      split
      · next hdigit =>
        have hsign : ¬ isSign x = true := Bool.eq_false_iff.mp (not_isSign (.inl hdigit))
        rw [List.countP_cons_of_neg hsign, ih c d hc hd,
          and_iff_right (a := x = ch '.' ∨ _) (.inr (.inl hdigit))]
      · next hdigit =>
        split
        · next hs =>
          have hsign : isSign x = true := by simpa only [isSign, decide_eq_true_eq] using hs
          rw [List.countP_cons_of_pos hsign]
          split
          · next h =>
            refine iff_of_false Bool.false_ne_true ?_
            intro h
            obtain ⟨-, -, hsigns⟩ := h
            omega
          · next h =>
            rw [ih c (d + 1) hc (by omega), Nat.add_assoc, Nat.add_comm 1,
              and_iff_right (a := x = ch '.' ∨ _) (.inr (.inr hsign))]
        · next hs =>
          refine iff_of_false Bool.false_ne_true ?_
          intro h
          obtain ⟨⟨h | h | h, -⟩, -⟩ := h
          · exact hpoint h
          · exact hdigit h
          · exact hs (by simpa only [isSign, decide_eq_true_eq] using h)

theorem isNumber_iff (p : List Byte) : isNumber p = true ↔ Scanned p := by
  unfold isNumber
  split
  · next h => exact iff_of_false Bool.false_ne_true fun hs => hs.nonempty h
  · next h =>
    rw [isNumberLoop_iff p 0 0 (by decide) (by decide), Nat.zero_add, Nat.zero_add]
    exact ⟨fun hs => ⟨h, hs.1, hs.2.1, hs.2.2⟩, fun hs => ⟨hs.chars, hs.points, hs.signs⟩⟩

/-! ## Values -/

/-- No quotes and none of the prefixes of `save`. -/
def Unprefixed (p : List Byte) : Prop :=
  p.head? ∉ [some quote, some (ch 'f'), some (ch 'i'), some (ch 'u')]

/-- Stored through `SetInt` or `SetFloat`. -/
def Value.Numeric : Value → Prop
  | .int _ | .float _ => True
  | _ => False

theorem numeric_iff (env : Env) {p : List Byte} (hp : Unprefixed p) :
    (parseValue env p).Numeric ↔ isNumber p = true := by
  unfold parseValue
  split
  · next h =>
    subst h
    exact iff_of_false id (by decide)
  · split
    · next h =>
      subst h
      exact iff_of_false id (by decide)
    · split
      · next h =>
        refine iff_of_true ?_ h
        split <;> trivial
      · next h =>
        refine iff_of_false ?_ h
        cases p with
        | nil => exact id
        | cons c rest =>
          simp only [Unprefixed, List.head?_cons, List.mem_cons, Option.some.injEq, List.not_mem_nil,
            or_false, not_or] at hp
          obtain ⟨hquote, hf, hi, hu⟩ := hp
          dsimp only
          rw [if_neg hquote, if_neg (fun h => hf h.1), if_neg (fun h => hi h.1),
            if_neg (fun h => hu h.1)]
          exact id

/-- The sign, if there is one, stands in front, and there are digits; or the scanner refuses the
text. -/
def Regular (p : List Byte) : Prop :=
  ((∃ c ∈ p, isDigit c = true) ∧ ∀ c ∈ p.tail, isSign c = false) ∨
    p = [] ∨ (∃ c ∈ p, ¬ (c = ch '.' ∨ isDigit c = true ∨ isSign c = true)) ∨
      2 ≤ p.count (ch '.') ∨ 2 ≤ p.countP isSign

theorem regular_iff (p : List Byte) :
    Regular p ↔ (Scanned p → (∃ c ∈ p, isDigit c = true) ∧ ∀ c ∈ p.tail, isSign c = false) := by
  constructor
  · rintro (h | h | ⟨c, hc, h⟩ | h | h) hs
    · exact h
    · exact absurd h hs.nonempty
    · exact absurd (hs.chars c hc) h
    · exact absurd hs.points (by omega)
    · exact absurd hs.signs (by omega)
  · intro h
    by_contra hno
    simp only [Regular, not_or] at hno
    obtain ⟨hbad, hne, hchars, hpoints, hsigns⟩ := hno
    refine hbad (h ⟨hne, fun c hc => ?_, by omega, by omega⟩)
    by_contra hother
    exact hchars ⟨c, hc, not_or.mp hother |>.imp_right not_or.mp⟩

/-- What the scanner lets pass is a literal if it has a digit and the sign stands in front. -/
theorem Scanned.literal_iff {p : List Byte} (h : Scanned p) :
    Literal p ↔ (∃ c ∈ p, isDigit c = true) ∧ ∀ c ∈ p.tail, isSign c = false := by
  obtain ⟨x, s, rfl⟩ := List.exists_cons_of_ne_nil h.nonempty
  have hchar : ∀ c ∈ x :: s, isSign c = false → isDigit c = true ∨ c = ch '.' := by
    intro c hc hsign
    rcases h.chars c hc with hpoint | hdigit | hs
    · exact .inr hpoint
    · exact .inl hdigit
    · exact absurd hs (by rw [hsign]; decide)
  rw [List.tail_cons]
  by_cases hx : isSign x = true
  · have hunsign : unsign (x :: s) = s := if_pos hx
    constructor
    · intro h
      obtain ⟨hchars, -, c, hc, hdigit⟩ := h
      rw [hunsign] at hchars hc
      exact ⟨⟨c, List.mem_cons_of_mem x hc, hdigit⟩, fun c hc => not_isSign (hchars c hc)⟩
    · intro h
      obtain ⟨⟨c, hc, hdigit⟩, hsigns⟩ := h
      have hin : c ∈ s := by
        refine (List.mem_cons.mp hc).resolve_left ?_
        rintro rfl
        exact absurd hx (by rw [not_isSign (.inl hdigit)]; decide)
      have hpoints := h.points
      rw [List.count_cons] at hpoints
      refine ⟨?_, ?_, ?_⟩ <;> rw [hunsign]
      · exact fun c hc => hchar c (List.mem_cons_of_mem x hc) (hsigns c hc)
      · omega
      · exact ⟨c, hin, hdigit⟩
  · have hunsign : unsign (x :: s) = x :: s := if_neg hx
    constructor
    · intro h
      obtain ⟨hchars, -, hdigit⟩ := h
      rw [hunsign] at hchars hdigit
      exact ⟨hdigit, fun c hc => not_isSign (hchars c (List.mem_cons_of_mem x hc))⟩
    · intro h
      obtain ⟨hdigit, hsigns⟩ := h
      refine ⟨?_, ?_, ?_⟩ <;> rw [hunsign]
      · exact fun c hc => hchar c hc ((List.mem_cons.mp hc).elim
          (fun hcx => hcx ▸ Bool.eq_false_iff.mpr hx) (hsigns c))
      · exact h.points
      · exact hdigit

/-- Of the texts without quotes and prefix, those that are stored as numbers are literals, and
read whole, exactly if they are regular. -/
theorem stored_number_iff (env : Env) {p : List Byte} (hp : Unprefixed p) :
    (((parseValue env p).Numeric → Literal p) ↔ Regular p) ∧ (Literal p ↔ ReadWhole p) := by
  refine ⟨?_, literal_iff_readWhole p⟩
  rw [numeric_iff env hp, isNumber_iff, regular_iff]
  exact forall_congr' fun h => h.literal_iff

theorem stored_number_minus_one :
    parseValue Env.sample [ch '-', ch '1'] = .int (-1) ∧ Literal [ch '-', ch '1'] := by
  have hvalue : parseValue Env.sample [ch '-', ch '1'] = .int (-1) := by rfl
  have hplain : Unprefixed [ch '-', ch '1'] := by
    unfold Unprefixed
    decide
  refine ⟨hvalue, (stored_number_iff Env.sample hplain).1.mpr ?_ (by rw [hvalue]; trivial)⟩
  exact .inl ⟨⟨ch '1', by decide, by decide⟩, by decide⟩

/-- A range of numbers is stored as its first one, and a dash as 0. -/
theorem range_stored_as_number :
    parseValue Env.sample [ch '1', ch '2', ch '-', ch '3', ch '4'] = .int 12 ∧
      ¬ Literal [ch '1', ch '2', ch '-', ch '3', ch '4'] ∧
      parseValue Env.sample [ch '-'] = .int 0 ∧ ¬ Literal [ch '-'] := by
  refine ⟨by rfl, ?_, by rfl, ?_⟩
  · intro h
    exact absurd (h.chars (ch '-') (by decide)) (by decide)
  · intro h
    obtain ⟨c, hc, -⟩ := h.digit
    exact List.not_mem_nil hc

end EventServer.Config
