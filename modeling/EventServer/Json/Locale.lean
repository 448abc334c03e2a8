import EventServer.Json.Decode
import EventServer.Json.Encode
import EventServer.Lib.Strtod

/-!
# Numbers in other locales

`fpconv.c` reads and writes numbers with a dot, whatever the decimal point of the
locale: it hands `strtod` a copy of what may be a number, with the locale's point for
the first dot, and replaces the point in what `snprintf` writes.
-/
namespace EventServer.Json

open EventServer.Lib.CString EventServer.Lib.Decimal EventServer.Lib.Strtod EventServer.Stream

variable {ν : Type}

/-- `valid_number_character()`. -/
def validNumberCharacter (ch : Byte) : Bool :=
  isDigit ch || ch = chr '-' || ch = chr '+' || ch = chr '.' ||
    (97 ≤ (ch ||| 0x20).toNat && (ch ||| 0x20).toNat ≤ 121)

/-- The first dot in `buf` becomes the locale's point. -/
def updatePoint (point : Byte) : List Byte → List Byte
  | [] => []
  | c :: buf => if c = chr '.' then point :: buf else c :: updatePoint point buf

/-- `fpconv_strtod()`, where the locale's `strtod` makes its numbers by `value`. -/
def fpconvStrtod (value : List Byte → ν) (point : Byte) (nptr : List Byte) : ν × Nat :=
  if point = chr '.' then strtod value point nptr
  else
    let buflen := (nptr.takeWhile validNumberCharacter).length
    if buflen = 0 then (value [], 0)
    else strtod value point (updatePoint point (nptr.take buflen))

/-- `fpconv_g_fmt()`, where the locale's `snprintf` writes `snprintf`. -/
def fpconvGFmt (point : Byte) (snprintf : List Byte) : List Byte :=
  if point = chr '.' then snprintf else snprintf.map fun b => if b = point then chr '.' else b

/-- What `snprintf` writes in the locale where it writes `t` with a dot for the point. -/
def localized (point : Byte) (t : List Byte) : List Byte :=
  t.map fun c => if c = chr '.' then point else c

/-- Every point is a dot again, if nothing else was written that is one. -/
theorem fpconvGFmt_localized {point : Byte} {t : List Byte} (h : point = chr '.' ∨ point ∉ t) :
    fpconvGFmt point (localized point t) = t := by
  rw [fpconvGFmt, localized]
  by_cases hdot : point = chr '.'
  · subst hdot
    rw [if_pos rfl]
    exact @map_dot (chr '.') rfl t
  · have hmem : point ∉ t := h.resolve_left hdot
    rw [if_neg hdot, List.map_map]
    refine (List.map_congr_left fun c hc => ?_).trans (List.map_id' t)
    have hne : c ≠ point := by
      rintro rfl
      exact hmem hc
    by_cases hc : c = chr '.'
    · simp only [Function.comp, hc, if_true]
    · simp only [Function.comp, if_neg hc, if_neg hne]

/-! ## What `strtod` finds in the copy -/

/-- The copy that `strtod` gets. -/
def translate (point : Byte) (s : List Byte) : List Byte :=
  updatePoint point (s.takeWhile validNumberCharacter)

/-- A point that cannot be taken for anything else in a number. -/
structure Point (point : Byte) : Prop where
  ne_zero : point ≠ 0
  ne_open : point ≠ chr '('
  ne_space : isSpace point = false
  invalid : validNumberCharacter point = false

/-- A kind of character that is valid in a number and no point. -/
structure Within (digit : Byte → Bool) : Prop where
  valid : ∀ c, digit c = true → validNumberCharacter c = true
  ne_dot : digit (chr '.') = false
  zero : digit 0 = false

theorem Point.ne_dot {point : Byte} (hp : Point point) : point ≠ chr '.' := by
  intro h
  exact absurd (h ▸ hp.invalid) (by decide)

/-- A copy of a text that goes on character by character while they are valid and no points. -/
structure Copies (f : List Byte → List Byte) : Prop where
  nil : f [] = []
  cons : ∀ c s, validNumberCharacter c = true → c ≠ chr '.' → f (c :: s) = c :: f s
  other : ∀ c s, ¬(validNumberCharacter c = true ∧ c ≠ chr '.') →
    ∀ digit, Within digit → digit ((f (c :: s)).headD 0) = false

/-- Behind the point the copy ends where the valid characters end. -/
theorem copies_takeWhile : Copies fun s => s.takeWhile validNumberCharacter where
  nil := rfl
  cons := fun c s hc _ => List.takeWhile_cons_of_pos hc
  other := by
    intro c s hc digit hd
    by_cases hvalid : validNumberCharacter c = true
    · obtain rfl : c = chr '.' := by
        by_contra hne
        exact hc ⟨hvalid, hne⟩
      exact hd.ne_dot
    · rw [List.takeWhile_cons_of_neg hvalid]
      exact hd.zero

theorem translate_cons {point c : Byte} {s : List Byte} (hvalid : validNumberCharacter c = true)
    (hne : c ≠ chr '.') : translate point (c :: s) = c :: translate point s := by
  rw [translate, List.takeWhile_cons_of_pos hvalid, updatePoint, if_neg hne]
  rfl

theorem translate_dot (point : Byte) (s : List Byte) :
    translate point (chr '.' :: s) = point :: s.takeWhile validNumberCharacter := by
  rw [translate, List.takeWhile_cons_of_pos (by decide), updatePoint, if_pos rfl]

theorem translate_invalid {point c : Byte} {s : List Byte}
    (hc : ¬validNumberCharacter c = true) : translate point (c :: s) = [] := by
  rw [translate, List.takeWhile_cons_of_neg hc]
  rfl

theorem copies_translate {point : Byte} (hp : Point point) : Copies (translate point) where
  nil := rfl
  cons := fun c s hvalid hne => translate_cons hvalid hne
  other := by
    intro c s hc digit hd
    by_cases hvalid : validNumberCharacter c = true
    · obtain rfl : c = chr '.' := by
        by_contra hne
        exact hc ⟨hvalid, hne⟩
      rw [translate_dot, List.headD_cons]
      by_contra hdigit
      have hvalid := hd.valid point (Bool.eq_true_of_not_eq_false hdigit)
      exact absurd (hp.invalid.symm.trans hvalid) Bool.false_ne_true
    · rw [translate_invalid hvalid]
      exact hd.zero

section Copies

variable {f : List Byte → List Byte} (hf : Copies f) {digit : Byte → Bool} (hd : Within digit)

theorem Within.not_digit {c : Byte} (hd : Within digit)
    (hc : ¬(validNumberCharacter c = true ∧ c ≠ chr '.')) : digit c = false := by
  by_contra hdigit
  have hdigit := Bool.eq_true_of_not_eq_false hdigit
  refine hc ⟨hd.valid c hdigit, ?_⟩
  rintro rfl
  exact absurd (hd.ne_dot.symm.trans hdigit) Bool.false_ne_true

include hf hd

theorem headD_copy (s : List Byte) : digit ((f s).headD 0) = digit (s.headD 0) := by
  cases s with
  | nil => rw [hf.nil]
  | cons c s =>
    by_cases hc : validNumberCharacter c = true ∧ c ≠ chr '.'
    · rw [hf.cons c s hc.1 hc.2]
      rfl
    · rw [hf.other c s hc digit hd, List.headD_cons, hd.not_digit hc]

theorem copy_cons {c : Byte} (s : List Byte) (h : digit c = true) : f (c :: s) = c :: f s := by
  refine hf.cons c s (hd.valid c h) ?_
  rintro rfl
  exact absurd (hd.ne_dot.symm.trans h) Bool.false_ne_true

theorem tail_copy {s : List Byte} (h : digit (s.headD 0) = true) : (f s).tail = f s.tail := by
  cases s with
  | nil => exact absurd (hd.zero.symm.trans h) Bool.false_ne_true
  | cons c s =>
    have hc : digit c = true := h
    rw [copy_cons hf hd s hc]
    rfl

theorem takeWhile_copy (s : List Byte) :
    (f s).takeWhile digit = s.takeWhile digit ∧ (f s).dropWhile digit = f (s.dropWhile digit) := by
  induction s with
  | nil =>
    rw [hf.nil]
    exact ⟨rfl, by rw [List.dropWhile_nil, hf.nil]⟩
  | cons c s ih =>
    by_cases hc : digit c = true
    · rw [copy_cons hf hd s hc, List.takeWhile_cons_of_pos hc, List.takeWhile_cons_of_pos hc,
        List.dropWhile_cons_of_pos hc, List.dropWhile_cons_of_pos hc, ih.1]
      exact ⟨rfl, ih.2⟩
    · have hhead : digit ((f (c :: s)).headD 0) = false := by
        rw [headD_copy hf hd]
        exact Bool.eq_false_of_not_eq_true hc
      rw [List.takeWhile_cons_of_neg hc, List.dropWhile_cons_of_neg hc]
      cases hcopy : f (c :: s) with
      | nil => exact ⟨rfl, rfl⟩
      | cons c' s' =>
        rw [hcopy, List.headD_cons] at hhead
        have hc' : ¬digit c' = true := fun h => Bool.false_ne_true (hhead.symm.trans h)
        exact ⟨List.takeWhile_cons_of_neg hc', List.dropWhile_cons_of_neg hc'⟩

end Copies

theorem within_isDigit : Within isDigit where
  valid := by decide +kernel
  ne_dot := by decide
  zero := by decide

theorem within_isHexDigit : Within isHexDigit where
  valid := by decide +kernel
  ne_dot := by decide
  zero := by decide

/-- All letters but the last one. -/
theorem within_isLetter {l : Byte} (hl : 97 ≤ l.toNat ∧ l.toNat ≤ 121) : Within (isLetter l) where
  valid := by
    intro c hc
    have hlower : c ||| 0x20 = l := of_decide_eq_true hc
    rw [validNumberCharacter, hlower]
    simp [hl.1, hl.2]
  ne_dot := by
    refine decide_eq_false ?_
    rintro rfl
    exact absurd hl (by decide)
  zero := by
    refine decide_eq_false ?_
    rintro rfl
    exact absurd hl (by decide)

theorem within_sign : Within fun c => c = 43 ∨ c = 45 where
  valid := by decide +kernel
  ne_dot := by decide
  zero := by decide

theorem within_zero : Within fun c => c = 48 where
  valid := by decide +kernel
  ne_dot := by decide
  zero := by decide

section Scan

variable {f : List Byte → List Byte} (hf : Copies f)

include hf

theorem signLength_copy (s : List Byte) :
    signLength (f s) = signLength s ∧ (f s).drop (signLength s) = f (s.drop (signLength s)) := by
  have hhead := decide_eq_decide.mp (headD_copy hf within_sign s)
  unfold signLength
  by_cases hsign : s.headD 0 = 43 ∨ s.headD 0 = 45
  · rw [if_pos (hhead.mpr hsign), if_pos hsign, List.drop_one, List.drop_one]
    exact ⟨rfl, tail_copy hf within_sign (decide_eq_true hsign)⟩
  · rw [if_neg (fun h => hsign (hhead.mp h)), if_neg hsign]
    exact ⟨rfl, rfl⟩

theorem exponent_copy {e : Byte} (he : 97 ≤ e.toNat ∧ e.toNat ≤ 121) (s : List Byte) :
    exponent e (f s) = exponent e s := by
  have hletter := within_isLetter he
  rw [exponent, exponent, headD_copy hf hletter]
  split
  · rename_i h
    obtain ⟨hsign, hdrop⟩ := signLength_copy hf s.tail
    dsimp only
    rw [tail_copy hf hletter h, hsign, hdrop, (takeWhile_copy hf within_isDigit _).1]
  · rfl

theorem startsWith_copy {word : List Byte} (hword : ∀ l ∈ word, 97 ≤ l.toNat ∧ l.toNat ≤ 121)
    (s : List Byte) : startsWith word (f s) = startsWith word s := by
  induction word generalizing s with
  | nil => rfl
  | cons l word ih =>
    obtain ⟨hl, hword⟩ := List.forall_mem_cons.mp hword
    have hletter := within_isLetter hl
    rw [startsWith_cons hletter.zero, startsWith_cons hletter.zero, headD_copy hf hletter]
    cases h : isLetter l (s.headD 0) with
    | false => rfl
    | true => rw [tail_copy hf hletter h, ih hword]

end Scan

section Translate

variable {point : Byte} (hp : Point point)

include hp

theorem headD_translate (s : List Byte) :
    (translate point s).headD 0 = point ↔ s.headD 0 = chr '.' := by
  cases s with
  | nil => exact ⟨fun h => absurd h.symm hp.ne_zero, fun h => absurd h (by decide)⟩
  | cons c s =>
    by_cases hdot : c = chr '.'
    · subst hdot
      rw [translate_dot]
      exact iff_of_true rfl rfl
    · refine iff_of_false ?_ hdot
      by_cases hvalid : validNumberCharacter c = true
      · rw [translate_cons hvalid hdot, List.headD_cons]
        rintro rfl
        exact absurd (hp.invalid.symm.trans hvalid) Bool.false_ne_true
      · rw [translate_invalid hvalid]
        exact fun h => hp.ne_zero h.symm

omit hp in
theorem tail_translate {s : List Byte} (h : s.headD 0 = chr '.') :
    (translate point s).tail = s.tail.takeWhile validNumberCharacter := by
  cases s with
  | nil => exact absurd h (by decide)
  | cons c s =>
    obtain rfl : c = chr '.' := h
    rw [translate_dot]
    rfl

/-- The mantissa has the same length, and what follows it is a copy of what follows it. -/
theorem mantissa_translate {digit : Byte → Bool} (hd : Within digit) (s : List Byte) :
    (mantissa digit point (translate point s)).1 = (mantissa digit (chr '.') s).1 ∧
      ∃ f, Copies f ∧ (mantissa digit point (translate point s)).2 =
        f (mantissa digit (chr '.') s).2 := by
  obtain ⟨hwhole, hrest⟩ := takeWhile_copy (copies_translate hp) hd s
  have hpoint := headD_translate hp (s.dropWhile digit)
  rw [mantissa, mantissa]
  dsimp only
  rw [hwhole, hrest]
  by_cases hdot : (s.dropWhile digit).headD 0 = chr '.'
  · obtain ⟨hfraction, hlast⟩ :=
      takeWhile_copy copies_takeWhile hd (s.dropWhile digit).tail
    rw [if_pos (hpoint.mpr hdot), if_pos hdot, tail_translate hdot, hfraction, hlast]
    split
    · exact ⟨rfl, _, copies_translate hp, rfl⟩
    · exact ⟨rfl, _, copies_takeWhile, rfl⟩
  · rw [if_neg (fun h => hdot (hpoint.mp h)), if_neg hdot]
    exact ⟨rfl, _, copies_translate hp, rfl⟩

theorem hexMantissa_translate (s : List Byte) :
    (hexMantissa point (translate point s)).1 = (hexMantissa (chr '.') s).1 ∧
      ∃ f, Copies f ∧ (hexMantissa point (translate point s)).2 =
        f (hexMantissa (chr '.') s).2 := by
  have hf := copies_translate hp
  have hx := @within_isLetter 120 (by decide)
  have hhead : ((translate point s).headD 0 = 48 ∧
      isLetter 120 ((translate point s).tail.headD 0) = true) ↔
        (s.headD 0 = 48 ∧ isLetter 120 (s.tail.headD 0) = true) := by
    rw [decide_eq_decide.mp (headD_copy hf within_zero s)]
    refine and_congr_right fun hzero => ?_
    rw [tail_copy hf within_zero (decide_eq_true hzero), headD_copy hf hx]
  unfold hexMantissa
  by_cases h : s.headD 0 = 48 ∧ isLetter 120 (s.tail.headD 0) = true
  · have hdrop : (translate point s).drop 2 = translate point (s.drop 2) := by
      rw [← List.tail_drop, List.drop_one, tail_copy hf within_zero (decide_eq_true h.1),
        tail_copy hf hx h.2, ← List.drop_one, ← List.drop_one, List.drop_drop]
    rw [if_pos (hhead.mpr h), if_pos h, hdrop]
    exact mantissa_translate hp within_isHexDigit (s.drop 2)
  · rw [if_neg (fun h' => h (hhead.mp h')), if_neg h]
    exact ⟨rfl, _, hf, rfl⟩

omit hp in
theorem mem_updatePoint {buf : List Byte} {c : Byte} (h : c ∈ updatePoint point buf) :
    c ∈ buf ∨ c = point := by
  induction buf with
  | nil => cases h
  | cons b buf ih =>
    rw [updatePoint] at h
    split at h
    · rcases List.mem_cons.mp h with rfl | h
      · exact .inr rfl
      · exact .inl (List.mem_cons_of_mem _ h)
    · rcases List.mem_cons.mp h with rfl | h
      · exact .inl List.mem_cons_self
      · exact (ih h).imp_left (List.mem_cons_of_mem _)

/-- A parenthesis is no character of a number, so the copy ends in front of a payload. -/
theorem payload_translate (s : List Byte) (n : Nat) : payload ((translate point s).drop n) = 0 := by
  refine if_neg fun hopen => ?_
  have hmem : chr '(' ∈ translate point s := by
    cases hdrop : (translate point s).drop n with
    | nil =>
      rw [hdrop] at hopen
      exact absurd hopen (by decide)
    | cons c t =>
      rw [hdrop] at hopen
      obtain rfl : c = chr '(' := hopen
      exact List.mem_of_mem_drop (hdrop ▸ List.mem_cons_self)
  rcases mem_updatePoint hmem with hvalid | rfl
  · exact absurd (List.mem_takeWhile_imp hvalid) (by decide)
  · exact hp.ne_open rfl

end Translate

/-- A NaN with a payload. -/
def HasPayload (s : List Byte) : Prop := startsWith nan s = true ∧ payload (s.drop 3) ≠ 0

theorem length_of_nan {point : Byte} (hp : isLetter 110 point = false) {s : List Byte}
    (h : startsWith nan s = true) : unsignedLength point s = 3 + payload (s.drop 3) := by
  obtain _ | ⟨a, s⟩ := s
  · cases h
  have ha : isLetter 110 a = true := (Bool.and_eq_true_iff.mp h).1
  have hother : ∀ a : Byte, isLetter 110 a = true →
      a ≠ 48 ∧ isDigit a = false ∧ isLetter 105 a = false := by decide +kernel
  obtain ⟨hzero, hdigit, hletter⟩ := hother a ha
  have hpoint : a ≠ point := by
    rintro rfl
    exact absurd (hp.symm.trans ha) Bool.false_ne_true
  have hhex : hexMantissa point (a :: s) = (0, a :: s) := if_neg fun hx => hzero hx.1
  have hdec : mantissa isDigit point (a :: s) = (0, a :: s) := by
    have hnot : ¬isDigit a = true := fun h => Bool.false_ne_true (hdigit.symm.trans h)
    rw [mantissa, List.takeWhile_cons_of_neg hnot, List.dropWhile_cons_of_neg hnot]
    exact if_neg hpoint
  have hinfinity : ∀ word, ¬startsWith (105 :: word) (a :: s) = true := by
    intro word hword
    exact Bool.false_ne_true (hletter.symm.trans (Bool.and_eq_true_iff.mp hword).1)
  rw [unsignedLength, hhex, hdec]
  dsimp only
  have hlong : ¬startsWith infinity (a :: s) = true := hinfinity infinity.tail
  have hshort : ¬startsWith (infinity.take 3) (a :: s) = true := hinfinity (infinity.take 3).tail
  rw [if_neg (fun h => h rfl), if_neg (fun h => h rfl), if_neg hlong, if_neg hshort, if_pos h]

theorem unsignedLength_translate {point : Byte} (hp : Point point) (s : List Byte) :
    unsignedLength point (translate point s) = unsignedLength (chr '.') s ↔ ¬HasPayload s := by
  have hf := copies_translate hp
  have hnan := @startsWith_copy _ hf nan (by decide) s
  by_cases h : startsWith nan s = true
  · have hletter : isLetter 110 point = false := (within_isLetter (by decide)).not_digit fun hc =>
      Bool.false_ne_true (hp.invalid.symm.trans hc.1)
    rw [length_of_nan hletter (hnan.trans h), payload_translate hp, length_of_nan (by decide) h,
      HasPayload]
    have hpayload : ¬(startsWith nan s = true ∧ payload (s.drop 3) ≠ 0) ↔
        payload (s.drop 3) = 0 := by
      rw [not_and, not_not]
      exact ⟨fun hno => hno h, fun hno _ => hno⟩
    rw [hpayload]
    omega
  · obtain ⟨hhex, f, hfcopies, hfrest⟩ := hexMantissa_translate hp s
    obtain ⟨hdec, g, hgcopies, hgrest⟩ := mantissa_translate hp within_isDigit s
    refine iff_of_true ?_ (fun hpayload => h hpayload.1)
    unfold unsignedLength
    dsimp only
    rw [hhex, hfrest, exponent_copy hfcopies (by decide), hdec, hgrest,
      exponent_copy hgcopies (by decide), startsWith_copy hf (by decide),
      startsWith_copy hf (by decide), hnan, if_neg h, if_neg h]

theorem not_space_of_valid : ∀ c : Byte, validNumberCharacter c = true → isSpace c = false := by
  decide +kernel

/-- With dots for the points the copy is what was copied. -/
theorem map_translate {point : Byte} (hp : Point point) (s : List Byte) :
    ((translate point s).map fun c => if c = point then 46 else c) =
      s.takeWhile validNumberCharacter := by
  have hkeep : ∀ s : List Byte, ((s.takeWhile validNumberCharacter).map
      fun c => if c = point then 46 else c) = s.takeWhile validNumberCharacter := by
    intro s
    refine (List.map_congr_left fun c hc => if_neg ?_).trans (List.map_id' _)
    rintro rfl
    exact Bool.false_ne_true (hp.invalid.symm.trans (List.mem_takeWhile_imp hc))
  induction s with
  | nil => rfl
  | cons c s ih =>
    by_cases hvalid : validNumberCharacter c = true
    · rw [List.takeWhile_cons_of_pos hvalid]
      by_cases hdot : c = chr '.'
      · subst hdot
        rw [translate_dot, List.map_cons, if_pos rfl, hkeep]
        rfl
      · have hne : c ≠ point := by
          rintro rfl
          exact Bool.false_ne_true (hp.invalid.symm.trans hvalid)
        rw [translate_cons hvalid hdot, List.map_cons, if_neg hne, ih]
    · rw [translate_invalid hvalid, List.takeWhile_cons_of_neg hvalid]
      rfl

section Value

variable (value : List Byte → ν)

theorem fpconvStrtod_eq {point : Byte} (hp : Point point) (s : List Byte) :
    fpconvStrtod value point s = strtod value point (translate point s) := by
  have htake : s.take (s.takeWhile validNumberCharacter).length =
      s.takeWhile validNumberCharacter :=
    (List.prefix_iff_eq_take.mp (List.takeWhile_prefix _)).symm
  rw [fpconvStrtod, if_neg hp.ne_dot]
  dsimp only
  rw [htake]
  split
  · rename_i hnone
    have hempty : unsignedLength point [] = 0 :=
      Nat.le_zero.mp (unsignedLength_le hp.ne_zero [])
    rw [translate, List.eq_nil_of_length_eq_zero hnone, updatePoint, strtod_of_start value rfl]
    exact (if_pos hempty).symm
  · rfl

theorem translate_length (point : Byte) (s : List Byte) :
    (translate point s).length = (s.takeWhile validNumberCharacter).length := by
  rw [translate]
  induction s.takeWhile validNumberCharacter with
  | nil => rfl
  | cons c buf ih =>
    rw [updatePoint]
    split
    · rfl
    · exact congrArg Nat.succ ih

/-- What `strtod` takes from the copy stands in the text. -/
theorem taken_eq {point : Byte} (hp : Point point) {s : List Byte} {n : Nat}
    (hn : n ≤ (translate point s).length) :
    (((translate point s).take n).map fun c => if c = point then 46 else c) = s.take n := by
  obtain ⟨rest, hrest⟩ := List.takeWhile_prefix (l := s) validNumberCharacter
  rw [translate_length] at hn
  rw [List.map_take, map_translate hp]
  conv_rhs => rw [← hrest, List.take_append_of_le_length hn]

theorem translate_start {point : Byte} (hp : Point point) (s : List Byte) :
    isSpace ((translate point s).headD 0) = false := by
  cases hcopy : translate point s with
  | nil => rfl
  | cons c t =>
    have hmem : c ∈ translate point s := hcopy ▸ List.mem_cons_self
    rcases mem_updatePoint hmem with hvalid | rfl
    · exact not_space_of_valid c (List.mem_takeWhile_imp hvalid)
    · exact hp.ne_space

/-- At the start of a number a locale makes no difference, except that a NaN loses its payload. -/
theorem strtod_locale {point : Byte} (hp : Point point) {s : List Byte}
    (hs : isSpace (s.headD 0) = false) :
    fpconvStrtod value point s = fpconvStrtod value (chr '.') s ↔
      ¬HasPayload (s.drop (signLength s)) := by
  obtain ⟨hsign, hdrop⟩ := signLength_copy (copies_translate hp) s
  have hdot : fpconvStrtod value (chr '.') s = strtod value (chr '.') s := if_pos rfl
  have hle := unsignedLength_le hp.ne_zero (translate point (s.drop (signLength s)))
  rw [← hdrop, List.length_drop] at hle
  rw [hdot, fpconvStrtod_eq value hp, strtod_of_start value (translate_start hp s),
    strtod_of_start value hs, hsign, @map_dot (chr '.') rfl, hdrop, ← unsignedLength_translate hp]
  rw [hdrop] at hle
  generalize unsignedLength (chr '.') (s.drop (signLength s)) = m
  generalize unsignedLength point (translate point (s.drop (signLength s))) = n at hle ⊢
  have hlen : signLength s ≤ (translate point s).length := hsign ▸ signLength_le _
  constructor
  · intro h
    have hsnd := congrArg Prod.snd h
    split_ifs at hsnd with hn hm hm
    · exact hn.trans hm.symm
    · dsimp only at hsnd
      omega
    · dsimp only at hsnd
      omega
    · exact Nat.add_left_cancel hsnd
  · rintro rfl
    rw [taken_eq hp (by omega)]

end Value

end EventServer.Json
