import EventServer.Lib.Decimal

/-!
# What `strtod` takes from a text

The longest start of the text that is a number of C: decimal or hexadecimal digits
with an exponent, an infinity, or a NaN that may have a payload in parentheses. The
decimal point is that of the locale. The number itself is a function of its text.
-/
namespace EventServer.Lib.Strtod

open EventServer.Lib.Decimal

variable {ν : Type}

/-- The byte is this letter, small or large. -/
def isLetter (l c : BitVec 8) : Bool := c ||| 0x20 = l

def isHexDigit (c : BitVec 8) : Bool :=
  isDigit c || (97 ≤ (c ||| 0x20).toNat && (c ||| 0x20).toNat ≤ 102)

/-- The text begins with the letters of a word. -/
def startsWith : Text → Text → Bool
  | [], _ => true
  | _ :: _, [] => false
  | l :: word, c :: s => isLetter l c && startsWith word s

def signLength (s : Text) : Nat := if s.headD 0 = 43 ∨ s.headD 0 = 45 then 1 else 0

/-- Digits with at most one point: how many characters, and what follows them. -/
def mantissa (digit : BitVec 8 → Bool) (point : BitVec 8) (s : Text) : Nat × Text :=
  let whole := s.takeWhile digit
  let rest := s.dropWhile digit
  if rest.headD 0 = point then
    let fraction := rest.tail.takeWhile digit
    if whole = [] ∧ fraction = [] then (0, s)
    else (whole.length + 1 + fraction.length, rest.tail.dropWhile digit)
  else (whole.length, rest)

def exponent (e : BitVec 8) (s : Text) : Nat :=
  if isLetter e (s.headD 0) then
    let sign := signLength s.tail
    let digits := (s.tail.drop sign).takeWhile isDigit
    if digits = [] then 0 else 1 + sign + digits.length
  else 0

/-- `(` and `)` with letters, digits and underscores between them. -/
def payload (s : Text) : Nat :=
  if s.headD 0 = 40 then
    let chars := s.tail.takeWhile fun c =>
      isDigit c || c = 95 || (97 ≤ (c ||| 0x20).toNat && (c ||| 0x20).toNat ≤ 122)
    if (s.tail.drop chars.length).headD 0 = 41 then chars.length + 2 else 0
  else 0

def infinity : Text := [105, 110, 102, 105, 110, 105, 116, 121]

def nan : Text := [110, 97, 110]

/-- The digits behind `0x`. -/
def hexMantissa (point : BitVec 8) (s : Text) : Nat × Text :=
  if s.headD 0 = 48 ∧ isLetter 120 (s.tail.headD 0) then mantissa isHexDigit point (s.drop 2)
  else (0, s)

/-- The length of the number behind its sign; zero where there is none. -/
def unsignedLength (point : BitVec 8) (s : Text) : Nat :=
  let hex := hexMantissa point s
  if hex.1 ≠ 0 then 2 + hex.1 + exponent 112 hex.2
  else
    let dec := mantissa isDigit point s
    if dec.1 ≠ 0 then dec.1 + exponent 101 dec.2
    else if startsWith infinity s then 8
    else if startsWith (infinity.take 3) s then 3
    else if startsWith nan s then 3 + payload (s.drop 3)
    else 0

/-- The number and how many characters it takes; `value` has the text of a number with a dot for its
point, and without a text it is zero. -/
def strtod (value : Text → ν) (point : BitVec 8) (s : Text) : ν × Nat :=
  let space := (s.takeWhile isSpace).length
  let t := s.drop space
  let n := unsignedLength point (t.drop (signLength t))
  if n = 0 then (value [], 0)
  else
    (value ((t.take (signLength t + n)).map fun c => if c = point then 46 else c),
      space + (signLength t + n))

/-! ## At the start of a number -/

theorem map_dot {dot : BitVec 8} (hdot : dot = 46) (t : Text) :
    (t.map fun c => if c = dot then 46 else c) = t := by
  refine (List.map_congr_left fun c _ => ?_).trans (List.map_id' t)
  split
  · rename_i hc
    exact hdot.symm.trans hc.symm
  · rfl

theorem strtod_of_start (value : Text → ν) {point : BitVec 8} {s : Text}
    (hs : isSpace (s.headD 0) = false) :
    strtod value point s =
      if unsignedLength point (s.drop (signLength s)) = 0 then (value [], 0)
      else
        (value ((s.take (signLength s + unsignedLength point (s.drop (signLength s)))).map
          fun c => if c = point then 46 else c),
          signLength s + unsignedLength point (s.drop (signLength s))) := by
  have hspace : s.takeWhile isSpace = [] := by
    cases s with
    | nil => rfl
    | cons c s =>
      have hc : ¬isSpace c = true := fun h => Bool.false_ne_true (hs.symm.trans h)
      exact List.takeWhile_cons_of_neg hc
  rw [strtod, hspace]
  simp only [List.length_nil, List.drop_zero, Nat.zero_add]

/-! ## Nothing is taken that is not there -/

theorem signLength_le (s : Text) : signLength s ≤ s.length := by
  unfold signLength
  split
  · cases s with
    | nil => simp_all
    | cons c s => exact Nat.succ_le_succ (Nat.zero_le _)
  · exact Nat.zero_le _

theorem takeWhile_length_add (p : BitVec 8 → Bool) (s : Text) :
    (s.takeWhile p).length + (s.dropWhile p).length = s.length := by
  rw [← List.length_append, List.takeWhile_append_dropWhile]

theorem ne_nil_of_headD {s : Text} {c : BitVec 8} (hc : c ≠ 0) (h : s.headD 0 = c) : s ≠ [] := by
  rintro rfl
  exact hc h.symm

theorem tail_length_add {s : Text} (h : s ≠ []) : s.tail.length + 1 = s.length := by
  have hpos := List.length_pos_of_ne_nil h
  rw [List.length_tail]
  omega

theorem mantissa_length {digit : BitVec 8 → Bool} {point : BitVec 8} (hp : point ≠ 0) (s : Text) :
    (mantissa digit point s).1 + (mantissa digit point s).2.length = s.length := by
  have hwhole := takeWhile_length_add digit s
  rw [mantissa]
  dsimp only
  split
  · rename_i hpoint
    have hrest := tail_length_add (ne_nil_of_headD hp hpoint)
    have hfraction := takeWhile_length_add digit (s.dropWhile digit).tail
    split
    · exact Nat.zero_add _
    · dsimp only
      omega
  · exact hwhole

theorem exponent_le {e : BitVec 8} (he : isLetter e 0 = false) (s : Text) :
    exponent e s ≤ s.length := by
  rw [exponent]
  split
  · rename_i hletter
    have hs : s ≠ [] := by
      rintro rfl
      exact absurd (he.symm.trans hletter) Bool.false_ne_true
    have htail := tail_length_add hs
    have hsign := signLength_le s.tail
    have hdigits := takeWhile_length_add isDigit (s.tail.drop (signLength s.tail))
    rw [List.length_drop] at hdigits
    dsimp only
    split <;> omega
  · exact Nat.zero_le _

theorem startsWith_cons {l : BitVec 8} {word s : Text} (hl : isLetter l 0 = false) :
    startsWith (l :: word) s = (isLetter l (s.headD 0) && startsWith word s.tail) := by
  cases s with
  | nil =>
    rw [List.headD_nil, hl]
    rfl
  | cons c s => rfl

theorem startsWith_length {word s : Text} (h : startsWith word s = true) :
    word.length ≤ s.length := by
  induction word generalizing s with
  | nil => exact Nat.zero_le _
  | cons l word ih =>
    cases s with
    | nil => cases h
    | cons c s => exact Nat.succ_le_succ (ih (Bool.and_eq_true_iff.mp h).2)

theorem payload_le (s : Text) : payload s ≤ s.length := by
  unfold payload
  split
  · rename_i hopen
    have htail := tail_length_add (ne_nil_of_headD (by decide) hopen)
    dsimp only
    split
    · rename_i hclose
      have hrest := List.length_pos_of_ne_nil (ne_nil_of_headD (by decide) hclose)
      rw [List.length_drop] at hrest
      omega
    · exact Nat.zero_le _
  · exact Nat.zero_le _

theorem hexMantissa_length {point : BitVec 8} (hp : point ≠ 0) (s : Text)
    (h : (hexMantissa point s).1 ≠ 0) :
    2 + (hexMantissa point s).1 + (hexMantissa point s).2.length = s.length := by
  unfold hexMantissa at h ⊢
  split at h
  · rename_i hzero
    have hs := tail_length_add (ne_nil_of_headD (by decide) hzero.1)
    have htail : s.tail ≠ [] := by
      intro hnil
      rw [hnil] at hzero
      exact absurd hzero.2 (by decide)
    have htwo := tail_length_add htail
    have hlen := @mantissa_length isHexDigit point hp (s.drop 2)
    rw [List.length_drop] at hlen
    rw [if_pos hzero]
    omega
  · exact absurd rfl h

theorem unsignedLength_le {point : BitVec 8} (hp : point ≠ 0) (s : Text) :
    unsignedLength point s ≤ s.length := by
  have hdec := @mantissa_length isDigit point hp s
  have hhexExp := @exponent_le 112 (by decide) (hexMantissa point s).2
  have hdecExp := @exponent_le 101 (by decide) (mantissa isDigit point s).2
  unfold unsignedLength
  dsimp only
  split_ifs with hhex hmantissa hinfinity hinf hnan
  · have hlen := hexMantissa_length hp s hhex
    omega
  · omega
  · exact startsWith_length hinfinity
  · exact startsWith_length hinf
  · have hthree : 3 ≤ s.length := startsWith_length hnan
    have hpayload := payload_le (s.drop 3)
    rw [List.length_drop] at hpayload
    omega
  · exact Nat.zero_le _

/-! ## What is printed is taken -/

/-- What `%g` writes of a finite number, with a dot for the point: `power` has the sign of the exponent
and its digits. -/
structure Printed where
  negative : Bool
  whole : Text
  fraction : Text
  power : Option (Bool × Text)
  whole_ne : whole ≠ []
  whole_digits : ∀ c ∈ whole, isDigit c = true
  whole_zero : whole.headD 0 = 48 → whole = [48]
  fraction_digits : ∀ c ∈ fraction, isDigit c = true
  power_digits : ∀ p ∈ power, p.2 ≠ [] ∧ ∀ c ∈ p.2, isDigit c = true

namespace Printed

def fractionText (g : Printed) : Text := if g.fraction = [] then [] else 46 :: g.fraction

def powerText (g : Printed) : Text :=
  match g.power with
  | none => []
  | some (negative, digits) => 101 :: (if negative then 45 else 43) :: digits

def unsigned (g : Printed) : Text := g.whole ++ (g.fractionText ++ g.powerText)

def text (g : Printed) : Text := (if g.negative then [45] else []) ++ g.unsigned

end Printed

theorem Printed.exists_whole (g : Printed) : ∃ c ds, g.whole = c :: ds ∧ isDigit c = true := by
  obtain ⟨c, ds, hwhole⟩ := List.exists_cons_of_ne_nil g.whole_ne
  exact ⟨c, ds, hwhole, g.whole_digits c (hwhole ▸ List.mem_cons_self)⟩

theorem Printed.mem_text {g : Printed} {c : BitVec 8} (h : c ∈ g.text) :
    isDigit c = true ∨ c = 43 ∨ c = 45 ∨ c = 46 ∨ c = 101 := by
  rcases List.mem_append.mp h with h | h
  · split at h
    · exact .inr (.inr (.inl (List.mem_singleton.mp h)))
    · cases h
  rcases List.mem_append.mp h with h | h
  · exact .inl (g.whole_digits c h)
  rcases List.mem_append.mp h with h | h
  · rw [Printed.fractionText] at h
    split at h
    · cases h
    · rcases List.mem_cons.mp h with rfl | h
      · exact .inr (.inr (.inr (.inl rfl)))
      · exact .inl (g.fraction_digits c h)
  · rw [Printed.powerText] at h
    cases hpower : g.power with
    | none =>
      rw [hpower] at h
      cases h
    | some p =>
      rw [hpower] at h
      rcases List.mem_cons.mp h with rfl | h
      · exact .inr (.inr (.inr (.inr rfl)))
      rcases List.mem_cons.mp h with rfl | h
      · cases p.1
        · exact .inr (.inl rfl)
        · exact .inr (.inr (.inl rfl))
      · exact .inl ((g.power_digits p hpower).2 c h)

/-- A character that cannot go on with a number. -/
structure Stops (c : BitVec 8) : Prop where
  digit : isDigit c = false
  dot : c ≠ 46
  power : isLetter 101 c = false
  hex : isLetter 120 c = false

theorem takeWhile_append_stop {p : BitVec 8 → Bool} {s rest : Text} (hs : ∀ c ∈ s, p c = true)
    (hrest : p (rest.headD 0) = false) :
    (s ++ rest).takeWhile p = s ∧ (s ++ rest).dropWhile p = rest := by
  rw [List.takeWhile_append_of_pos hs, List.dropWhile_append_of_pos hs]
  cases rest with
  | nil => exact ⟨List.append_nil s, rfl⟩
  | cons c rest =>
    have hc : ¬p c = true := fun h => Bool.false_ne_true (hrest.symm.trans h)
    rw [List.takeWhile_cons_of_neg hc, List.dropWhile_cons_of_neg hc]
    exact ⟨List.append_nil s, rfl⟩

section Printed

variable (g : Printed) {rest : Text} (hrest : Stops (rest.headD 0))

include hrest

theorem powerText_head : let c := (g.powerText ++ rest).headD 0
    isDigit c = false ∧ c ≠ 46 ∧ isLetter 120 c = false := by
  rw [Printed.powerText]
  cases g.power with
  | none => exact ⟨hrest.digit, hrest.dot, hrest.hex⟩
  | some p =>
    have he : isDigit 101 = false ∧ (101 : BitVec 8) ≠ 46 ∧ isLetter 120 101 = false := by decide
    exact he

theorem fractionText_head : let c := (g.fractionText ++ (g.powerText ++ rest)).headD 0
    isDigit c = false ∧ isLetter 120 c = false := by
  rw [Printed.fractionText]
  split
  · obtain ⟨hdigit, -, hhex⟩ := powerText_head g hrest
    exact ⟨hdigit, hhex⟩
  · have hpoint : isDigit 46 = false ∧ isLetter 120 46 = false := by decide
    exact hpoint

theorem mantissa_printed :
    mantissa isDigit 46 (g.whole ++ (g.fractionText ++ (g.powerText ++ rest))) =
      (g.whole.length + g.fractionText.length, g.powerText ++ rest) := by
  obtain ⟨hdigit, hdot, -⟩ := powerText_head g hrest
  obtain ⟨hwhole, hdrop⟩ := takeWhile_append_stop g.whole_digits (fractionText_head g hrest).1
  rw [mantissa]
  dsimp only
  rw [hwhole, hdrop, Printed.fractionText]
  by_cases hfraction : g.fraction = []
  · rw [if_pos hfraction, List.nil_append, if_neg hdot]
    rfl
  · obtain ⟨htake, hlast⟩ := takeWhile_append_stop g.fraction_digits hdigit
    have hsome : ¬(g.whole = [] ∧ g.fraction = []) := fun h => hfraction h.2
    rw [if_neg hfraction, List.cons_append, List.headD_cons, if_pos rfl, List.tail_cons, htake, hlast,
      if_neg hsome, List.length_cons, Nat.add_assoc, Nat.add_comm 1]

theorem exponent_printed : exponent 101 (g.powerText ++ rest) = g.powerText.length := by
  rw [Printed.powerText]
  cases hpower : g.power with
  | none =>
    have hno : ¬isLetter 101 (rest.headD 0) = true := fun h =>
      Bool.false_ne_true (hrest.power.symm.trans h)
    exact if_neg hno
  | some p =>
    obtain ⟨negative, digits⟩ := p
    obtain ⟨hne, hdigits⟩ := g.power_digits (negative, digits) hpower
    obtain ⟨htake, -⟩ := takeWhile_append_stop hdigits hrest.digit
    have hsign : signLength ((if negative then 45 else 43) :: (digits ++ rest)) = 1 := by
      refine if_pos ?_
      cases negative
      · exact .inl rfl
      · exact .inr rfl
    have hletter : isLetter 101 101 = true := by decide
    simp only [List.cons_append]
    rw [exponent, List.headD_cons, if_pos hletter]
    simp only [List.tail_cons, hsign, List.drop_succ_cons, List.drop_zero, htake, if_neg hne,
      List.length_cons]
    omega

theorem hexMantissa_printed :
    (hexMantissa 46 (g.whole ++ (g.fractionText ++ (g.powerText ++ rest)))).1 = 0 := by
  have hhex := (fractionText_head g hrest).2
  rw [hexMantissa, if_neg]
  intro h
  have hhead : g.whole.headD 0 = 48 := by
    cases hwhole : g.whole with
    | nil => exact absurd hwhole g.whole_ne
    | cons c whole =>
      rw [hwhole] at h
      exact h.1
  rw [g.whole_zero hhead] at h
  exact Bool.false_ne_true (hhex.symm.trans h.2)

/-- What is printed is taken to its end. -/
theorem unsignedLength_printed : unsignedLength 46 (g.unsigned ++ rest) = g.unsigned.length := by
  have hne : g.whole.length + g.fractionText.length ≠ 0 := by
    have hpos := List.length_pos_of_ne_nil g.whole_ne
    omega
  rw [Printed.unsigned, List.append_assoc, List.append_assoc, unsignedLength]
  dsimp only
  rw [hexMantissa_printed g hrest, mantissa_printed g hrest, exponent_printed g hrest,
    if_neg (fun h => h rfl), if_pos hne, List.length_append, List.length_append, Nat.add_assoc]

theorem strtod_printed (value : Text → ν) :
    strtod value 46 (g.text ++ rest) = (value g.text, g.text.length) := by
  have hlen := unsignedLength_printed g hrest
  have hpos : g.unsigned.length ≠ 0 := by
    have hwhole := List.length_pos_of_ne_nil g.whole_ne
    rw [Printed.unsigned, List.length_append]
    omega
  obtain ⟨c, ds, hwhole, hc⟩ := g.exists_whole
  have hunsigned : g.unsigned = c :: (ds ++ (g.fractionText ++ g.powerText)) := by
    rw [Printed.unsigned, hwhole, List.cons_append]
  have hother : ∀ c : BitVec 8, isDigit c = true → isSpace c = false ∧ c ≠ 43 ∧ c ≠ 45 := by
    decide +kernel
  obtain ⟨hspace, hplus, hminus⟩ := hother c hc
  -- The sign is taken off, and then the rest is.
  have hsign : isSpace ((g.text ++ rest).headD 0) = false ∧
      signLength (g.text ++ rest) + g.unsigned.length = g.text.length ∧
      (g.text ++ rest).drop (signLength (g.text ++ rest)) = g.unsigned ++ rest := by
    rw [Printed.text]
    cases g.negative with
    | false =>
      have hno : signLength (g.unsigned ++ rest) = 0 := by
        rw [hunsigned]
        exact if_neg fun h => h.elim hplus hminus
      simp only [Bool.false_eq_true, if_false, List.nil_append]
      refine ⟨?_, by rw [hno, Nat.zero_add], by rw [hno, List.drop_zero]⟩
      rw [hunsigned]
      exact hspace
    | true => exact ⟨rfl, Nat.add_comm _ _, rfl⟩
  rw [strtod_of_start value hsign.1, hsign.2.2, hlen, if_neg hpos, hsign.2.1, List.take_left,
    map_dot rfl]

end Printed

end EventServer.Lib.Strtod
