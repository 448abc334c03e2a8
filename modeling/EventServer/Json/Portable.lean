import EventServer.Json.Locale
import EventServer.Json.RoundTrip

/-!
# Texts between locales

`json_encode` and `json_decode` with `fpconv.c` under them. Tokens are read at places of one
text, so two decoders that agree on its tokens agree on the text.
-/
namespace EventServer.Json

open EventServer.Lib.CString EventServer.Lib.Decimal EventServer.Lib.Strtod EventServer.Stream

variable {ν : Type}

/-- What `locale_decimal_point` may be. -/
def DecimalPoint (point : Byte) : Prop := point = chr '.' ∨ Point point

/-- The decoder of a process in a locale, whose `strtod` makes its numbers by `value`. -/
def Env.inLocale (env : Env ν) (value : List Byte → ν) (point : Byte) : Env ν :=
  { env with strtod := fpconvStrtod value point }

/-- The encoder of a process in a locale; with a dot for the point its `snprintf` writes `env.gfmt`. -/
def EncodeEnv.inLocale (env : EncodeEnv ν) (point : Byte) : EncodeEnv ν :=
  { env with gfmt := fun x => fpconvGFmt point (localized point (env.gfmt x)) }

/-! ## Places behind a place -/

theorem stringLoop_suffix (s tmp : List Byte) :
    (match stringLoop s tmp with
      | .ok r => r.2
      | .error e => e.2) <:+ s := by
  fun_induction stringLoop s tmp with
  | case1 | case3 | case5 | case6 => exact List.suffix_refl _
  | case2 => exact List.suffix_cons _ _
  | case4 =>
    rename_i ih
    exact ih.trans ((List.drop_suffix _ _).trans (List.suffix_cons _ _))
  | case7 =>
    rename_i ih
    exact ih.trans ((List.tail_suffix _).trans (List.suffix_cons _ _))
  | case8 =>
    rename_i ih
    exact ih.trans (List.suffix_cons _ _)

theorem nextNumberToken_suffix (env : Env ν) (s : List Byte) : (nextNumberToken env s).2 <:+ s := by
  rw [nextNumberToken]
  dsimp only
  split
  · exact List.suffix_refl s
  · split <;> exact List.drop_suffix _ s

theorem nextUnknown_suffix (env : Env ν) (s : List Byte) :
    (nextUnknown nextNumberToken env s).rest <:+ s := by
  have hnumber := nextNumberToken_suffix env s
  have hstring := (stringLoop_suffix s.tail []).trans (List.tail_suffix s)
  unfold nextUnknown
  dsimp only
  split_ifs
  · cases hloop : stringLoop s.tail [] with
    | ok r =>
      rw [hloop] at hstring
      exact hstring
    | error e =>
      rw [hloop] at hstring
      exact hstring
  · exact List.suffix_refl s
  · exact hnumber
  · exact List.drop_suffix 4 s
  · exact List.drop_suffix 5 s
  · exact List.drop_suffix 4 s
  · exact hnumber
  · exact List.suffix_refl s

theorem nextToken_suffix (env : Env ν) (s : List Byte) :
    (nextToken nextNumberToken env s).rest <:+ s := by
  have hskip : skip s <:+ s := List.dropWhile_suffix _
  refine List.IsSuffix.trans ?_ hskip
  rw [nextToken]
  split
  · exact List.suffix_refl _
  · exact List.tail_suffix _
  · exact List.tail_suffix _
  · exact List.tail_suffix _
  · exact List.tail_suffix _
  · exact List.tail_suffix _
  · exact List.tail_suffix _
  · exact nextUnknown_suffix env _
  · exact List.suffix_refl _

/-! ## Two ways to read tokens -/

/-- One outcome, and the next token is read at a place with `P`. -/
def Same (P : List Byte → Prop) (x x' : Except Error (Out ν × List Byte)) : Prop :=
  x' = x ∧ ∀ out s, x = .ok (out, s) → P s

section Same

variable {P : List Byte → Prop}

theorem same_ok {out : Out ν} {s : List Byte} (hs : P s) : Same P (.ok (out, s)) (.ok (out, s)) := by
  refine ⟨rfl, ?_⟩
  intro _ _ heq
  cases heq
  exact hs

theorem same_error (e : Error) :
    Same P (.error e : Except Error (Out ν × List Byte)) (.error e) := by
  refine ⟨rfl, ?_⟩
  intro _ _ heq
  cases heq

theorem Same.bind {x x' : Except Error (Out ν × List Byte)}
    {f f' : Out ν × List Byte → Except Error (Out ν × List Byte)} (h : Same P x x')
    (hf : ∀ out s, P s → Same P (f (out, s)) (f' (out, s))) : Same P (x >>= f) (x' >>= f') := by
  obtain ⟨rfl, hx⟩ := h
  cases x' with
  | error e => exact same_error e
  | ok r => exact hf r.1 r.2 (hx r.1 r.2 rfl)

variable {size : Nat} {next next' : List Byte → Next ν}
  (hnext : ∀ s, P s → next' s = next s ∧ P (next s).rest)

include hnext

theorem objectLoop_same {value value' : Next ν → Except Error (Out ν × List Byte)}
    (hvalue : ∀ t, P t.rest → Same P (value t) (value' t)) {fuel : Nat} {t : Next ν}
    (ht : P t.rest) : Same P (objectLoop size next value fuel t) (objectLoop size next' value' fuel t) := by
  induction fuel generalizing t with
  | zero => exact same_error _
  | succ fuel ih =>
    obtain ⟨hcolon, hc⟩ := hnext t.rest ht
    obtain ⟨hfirst, hv⟩ := hnext _ hc
    simp only [objectLoop, hcolon, hfirst]
    split
    · split
      · refine (hvalue _ hv).bind fun out s hs => ?_
        obtain ⟨hend, he⟩ := hnext s hs
        obtain ⟨hkey, hk⟩ := hnext _ he
        simp only [hend, hkey]
        split
        · exact same_ok he
        · exact (ih hk).bind fun more r hr => same_ok hr
        · exact same_error _
      · exact same_error _
    · exact same_error _

theorem arrayLoop_same {value value' : Next ν → Except Error (Out ν × List Byte)}
    (hvalue : ∀ t, P t.rest → Same P (value t) (value' t)) {fuel i : Nat} {t : Next ν}
    (ht : P t.rest) :
    Same P (arrayLoop size next value fuel i t) (arrayLoop size next' value' fuel i t) := by
  induction fuel generalizing i t with
  | zero => exact same_error _
  | succ fuel ih =>
    simp only [arrayLoop]
    refine (hvalue t ht).bind fun out s hs => ?_
    obtain ⟨hend, he⟩ := hnext s hs
    obtain ⟨helem, hv⟩ := hnext _ he
    simp only [hend, helem]
    split
    · exact same_ok he
    · exact (ih hv).bind fun more r hr => same_ok hr
    · exact same_error _

/-- By induction on the fuel; how numbers are read shows in the tokens only. -/
theorem processValue_same {env : Env ν} {strtod : List Byte → ν × Nat} {fuel depth top : Nat}
    {t : Next ν} (ht : P t.rest) :
    Same P (processValue size next env fuel depth top t)
      (processValue size next' { env with strtod := strtod } fuel depth top t) := by
  induction fuel generalizing depth top t with
  | zero => exact same_error _
  | succ fuel ih =>
    obtain ⟨hfirst, hf⟩ := hnext t.rest ht
    have hdescend : ∀ slots, descend { env with strtod := strtod } size depth top slots t.rest =
        descend env size depth top slots t.rest := fun slots => rfl
    simp only [processValue, hfirst, hdescend]
    split
    · exact same_ok ht
    · exact same_ok ht
    · exact same_ok ht
    · exact same_ok ht
    · cases descend env size depth top 3 t.rest with
      | error e => exact same_error e
      | ok depth =>
        simp only [bind, Except.bind]
        split
        · exact same_ok hf
        · exact (objectLoop_same hnext (fun t ht => ih ht) hf).bind fun out s hs => same_ok hs
    · cases descend env size depth top 2 t.rest with
      | error e => exact same_error e
      | ok depth =>
        simp only [bind, Except.bind]
        split
        · exact same_ok hf
        · exact (arrayLoop_same hnext (fun t ht => ih ht) hf).bind fun out s hs => same_ok hs
    · exact same_error _

end Same

/-- Where the tokens agree the decoders do. -/
theorem decode_same {P : List Byte → Prop} {num : NumberToken ν} {env : Env ν}
    {strtod : List Byte → ν × Nat}
    (hnext : ∀ s, P s → nextToken num { env with strtod := strtod } s = nextToken num env s ∧
      P (nextToken num env s).rest) {text : List Byte} (htext : P text) :
    decode num { env with strtod := strtod } text = decode num env text := by
  obtain ⟨hfirst, hf⟩ := hnext text htext
  obtain ⟨hvalue, hv⟩ := @processValue_same ν P text.length _ _ hnext env strtod
    (text.length + 1) 0 1 _ hf
  rw [decode, decode]
  split
  · rfl
  · simp only [hfirst, hvalue]
    cases hrun : processValue text.length (nextToken num env) env (text.length + 1) 0 1
        (nextToken num env text) with
    | error e => rfl
    | ok r =>
      have hend := (hnext r.2 (hv r.1 r.2 hrun)).1
      simp only [bind, Except.bind, hend]

/-! ## Where the locale shows -/

/-- A NaN with a payload is an invalid number. -/
theorem isInvalidNumber_of_payload {s : List Byte} (h : HasPayload (s.drop (signLength s))) :
    isInvalidNumber s = true := by
  by_cases hplus : s.headD 0 = chr '+'
  · rw [isInvalidNumber, if_pos hplus]
  have hp : (if s.headD 0 = chr '-' then s.tail else s) = s.drop (signLength s) := by
    rw [signLength]
    by_cases hminus : s.headD 0 = chr '-'
    · rw [if_pos hminus, if_pos (.inr hminus), List.drop_one]
    · have hsign : ¬(s.headD 0 = 43 ∨ s.headD 0 = 45) := not_or.mpr ⟨hplus, hminus⟩
      rw [if_neg hminus, if_neg hsign, List.drop_zero]
  rw [isInvalidNumber, if_neg hplus]
  dsimp only
  rw [hp]
  obtain ⟨hnan, -⟩ := h
  cases hdrop : s.drop (signLength s) with
  | nil =>
    rw [hdrop] at hnan
    cases hnan
  | cons a t =>
    rw [hdrop] at hnan
    have hletter : ∀ a : Byte, isLetter 110 a = true →
        a ≠ chr '0' ∧ ¬a.toInt ≤ 57 ∧ tolower a = 110 := by decide +kernel
    have hmiddle : ∀ b : Byte, isLetter 97 b = true → tolower b = 97 := by decide +kernel
    obtain ⟨ha, hnan⟩ := Bool.and_eq_true_iff.mp hnan
    obtain ⟨hzero, hle, hlower⟩ := hletter a ha
    obtain _ | ⟨b, t⟩ := t
    · cases hnan
    obtain ⟨hb, hnan⟩ := Bool.and_eq_true_iff.mp hnan
    obtain _ | ⟨c, t⟩ := t
    · cases hnan
    obtain ⟨hc, -⟩ := Bool.and_eq_true_iff.mp hnan
    rw [List.headD_cons, if_neg hzero, if_neg hle]
    refine decide_eq_true (.inr ?_)
    simp only [List.take_succ_cons, List.take_zero, List.map_cons, List.map_nil, hlower,
      hmiddle b hb, (hletter c hc).2.2]
    rfl

section Tokens

variable {env : Env ν} {value : List Byte → ν} {point point' : Byte} (hp : DecimalPoint point)
  (hp' : DecimalPoint point')

include hp in
theorem fpconvStrtod_dot {s : List Byte} (hspace : isSpace (s.headD 0) = false)
    (hs : ¬HasPayload (s.drop (signLength s))) :
    fpconvStrtod value point s = fpconvStrtod value (chr '.') s := by
  rcases hp with rfl | hp
  · rfl
  · exact (strtod_locale value hp hspace).mpr hs

/-- Numbers are read where nothing is NaN with a payload, or where no NaN is a number. -/
theorem nextUnknown_strtod {strtod : List Byte → ν × Nat} {s : List Byte}
    (h : strtod s = env.strtod s ∨ env.cfg.decodeInvalidNumbers = false ∧ isInvalidNumber s = true) :
    nextUnknown nextNumberToken { env with strtod := strtod } s =
      nextUnknown nextNumberToken env s := by
  rcases h with h | ⟨hoff, hinvalid⟩
  · have hnumber : nextNumberToken { env with strtod := strtod } s = nextNumberToken env s := by
      simp only [nextNumberToken, h]
    simp only [nextUnknown, hnumber]
  · simp only [nextUnknown, hoff, hinvalid, Bool.not_false, Bool.and_true, if_true,
      Bool.false_eq_true, if_false]

/-- No NaN of the text has a payload. -/
def NoPayload (text : List Byte) : Prop := ∀ s, s <:+ text → ¬HasPayload s

include hp hp' in
theorem nextToken_inLocale {s : List Byte}
    (hs : env.cfg.decodeInvalidNumbers = true → NoPayload s) :
    nextToken nextNumberToken (env.inLocale value point) s =
      nextToken nextNumberToken (env.inLocale value point') s := by
  have hskip : skip s <:+ s := List.dropWhile_suffix _
  rw [nextToken, nextToken]
  split
  case h_8 hunknown =>
    have hspace : isSpace ((skip s).headD 0) = false := by
      have hall : ∀ c : Byte, ch2token c = .unknown → isSpace c = false := by decide +kernel
      exact hall _ hunknown
    have hagree := @nextUnknown_strtod ν (env.inLocale value point') (fpconvStrtod value point)
      (skip s)
    refine hagree ?_
    by_cases hpayload : HasPayload ((skip s).drop (signLength (skip s)))
    · refine .inr ⟨?_, isInvalidNumber_of_payload hpayload⟩
      by_contra hon
      exact hs (Bool.eq_true_of_not_eq_false hon) _ ((List.drop_suffix _ _).trans hskip) hpayload
    · exact .inl ((fpconvStrtod_dot hp hspace hpayload).trans
        (fpconvStrtod_dot hp' hspace hpayload).symm)
  all_goals rfl

end Tokens

/-- One text, one outcome, in all locales: the calls of Lua, or the error and its place. -/
theorem decode_locale {env : Env ν} (value : List Byte → ν) {point point' : Byte}
    (hp : DecimalPoint point) (hp' : DecimalPoint point') {text : List Byte}
    (htext : env.cfg.decodeInvalidNumbers = true → NoPayload text) :
    decode nextNumberToken (env.inLocale value point) text =
      decode nextNumberToken (env.inLocale value point') text := by
  refine @decode_same ν (fun s => env.cfg.decodeInvalidNumbers = true → NoPayload s) nextNumberToken
    (env.inLocale value point') (fpconvStrtod value point) (fun s hs => ?_) text htext
  refine ⟨nextToken_inLocale hp hp' hs, fun hon t ht => ?_⟩
  exact hs hon t (ht.trans (nextToken_suffix _ s))

theorem point_comma : Point (chr ',') := ⟨by decide, by decide, by decide, by decide⟩

/-- A number is known by its text. -/
def Env.texts : Env (List Byte) where
  cfg := .default
  strtod _ := ([], 0)
  checkstack top slots := top + slots ≤ 8000

/-- `[-1.5e3,nan,1,5]`: a comma ends a number. -/
def commaText : List Byte := lit "[-1.5e3,nan,1,5]".toList

theorem decode_locale_comma :
    decode nextNumberToken (Env.texts.inLocale id (chr ',')) commaText =
      .ok ⟨[.newtable, .pushnumber (lit "-1.5e3".toList), .rawseti 1,
        .pushnumber (lit "nan".toList), .rawseti 2, .pushnumber (lit ['1']), .rawseti 3,
        .pushnumber (lit ['5']), .rawseti 4], []⟩ := by
  have htext : NoPayload commaText := by
    intro s hs
    have hall : ∀ s ∈ commaText.tails, ¬HasPayload s := by
      unfold HasPayload
      decide +kernel
    exact hall s ((List.mem_tails s commaText).mpr hs)
  rw [@decode_locale (List Byte) Env.texts id (chr ',') (chr '.') (.inr point_comma) (.inl rfl)
    commaText fun _ => htext]
  decide +kernel

/-- A payload is lost in another locale, and the parenthesis is no token. -/
example : decode nextNumberToken (Env.texts.inLocale id (chr '.')) (lit "nan(1)".toList) =
      .ok ⟨[.pushnumber (lit "nan(1)".toList)], []⟩ ∧
    decode nextNumberToken (Env.texts.inLocale id (chr ',')) (lit "nan(1)".toList) =
      .error (.parse .theEnd (.inr .invalidToken) 3) := by
  decide +kernel

/-! ## What one process writes and another one reads -/

/-- What `printf` writes: characters of numbers, and for a finite number one that `strtod` takes. -/
structure EncodeEnv.Prints (env : EncodeEnv ν) : Prop where
  chars : ∀ x, ∀ c ∈ env.gfmt x, validNumberCharacter c = true
  finite : ∀ x, env.isinf x = false → env.isnan x = false → ∃ g : Printed, env.gfmt x = g.text

/-- The encoder writes one text in all locales. -/
theorem EncodeEnv.inLocale_eq {env : EncodeEnv ν} (h : env.Prints) {point : Byte}
    (hp : DecimalPoint point) : env.inLocale point = env := by
  have hgfmt : (fun x => fpconvGFmt point (localized point (env.gfmt x))) = env.gfmt := by
    refine funext fun x => fpconvGFmt_localized (hp.imp_right fun hp hmem => ?_)
    exact Bool.false_ne_true (hp.invalid.symm.trans (h.chars x point hmem))
  rw [EncodeEnv.inLocale, hgfmt]

theorem stops_of_ends {rest : List Byte} (h : Ends rest) : Stops (rest.headD 0) := by
  have hall : ∀ c : Byte, (lit [',', ']', '}', '\x00']).contains c →
      isDigit c = false ∧ c ≠ 46 ∧ isLetter 101 c = false ∧ isLetter 120 c = false := by
    decide +kernel
  obtain ⟨hdigit, hdot, hpower, hhex⟩ := hall _ h
  exact ⟨hdigit, hdot, hpower, hhex⟩

theorem isInvalidNumber_printed (g : Printed) {rest : List Byte} (hrest : Ends rest) :
    isInvalidNumber (g.text ++ rest) = false := by
  have hnext := fractionText_head g (stops_of_ends hrest)
  obtain ⟨c, whole, hwhole, hdigit⟩ := g.exists_whole
  have hall : ∀ c : Byte, isDigit c = true → c ≠ chr '+' ∧ c ≠ chr '-' ∧ c.toInt ≤ 57 := by
    decide +kernel
  obtain ⟨hplus, hminus, hle⟩ := hall c hdigit
  have hunsigned : g.unsigned ++ rest =
      c :: (whole ++ (g.fractionText ++ (g.powerText ++ rest))) := by
    rw [Printed.unsigned, hwhole, List.append_assoc, List.append_assoc]
    rfl
  have hstart : (g.text ++ rest).headD 0 ≠ chr '+' ∧
      (if (g.text ++ rest).headD 0 = chr '-' then (g.text ++ rest).tail else g.text ++ rest) =
        g.unsigned ++ rest := by
    rw [Printed.text]
    cases g.negative with
    | false =>
      simp only [Bool.false_eq_true, if_false, List.nil_append]
      rw [hunsigned]
      exact ⟨hplus, if_neg hminus⟩
    | true =>
      have hsign : (45 : Byte) ≠ chr '+' := by decide
      exact ⟨hsign, if_pos rfl⟩
  rw [isInvalidNumber, if_neg hstart.1]
  dsimp only
  rw [hstart.2, hunsigned, List.headD_cons, List.tail_cons]
  by_cases hzero : c = chr '0'
  · have hone : g.whole = [48] := g.whole_zero (by rw [hwhole]; exact hzero)
    obtain rfl : whole = [] := (List.cons.inj (hwhole.symm.trans hone)).2
    rw [if_pos hzero, List.nil_append, hnext.1]
    exact decide_eq_false (not_or.mpr ⟨of_decide_eq_false hnext.2, Bool.false_ne_true⟩)
  · rw [if_neg hzero, if_pos hle]

theorem readable_printed {env : Env ν} (value : List Byte → ν) {point : Byte}
    (hp : DecimalPoint point) (g : Printed) : Readable (env.inLocale value point) value g.text := by
  have hhead : g.text.headD 0 = chr '-' ∨ isDigit (g.text.headD 0) = true := by
    obtain ⟨c, whole, hwhole, hdigit⟩ := g.exists_whole
    rw [Printed.text, Printed.unsigned, hwhole]
    cases g.negative with
    | false => exact .inr hdigit
    | true => exact .inl rfl
  have hplain : ∀ c : Byte, isDigit c = true ∨ c = 43 ∨ c = 45 ∨ c = 46 ∨ c = 101 →
      char2escape c = none := by decide +kernel
  refine ⟨hhead, fun c hc => hplain c (Printed.mem_text hc),
    fun rest hrest => isInvalidNumber_printed g hrest, fun rest hrest => ?_⟩
  have hstart : isSpace ((g.text ++ rest).headD 0) = false := by
    have hall : ∀ c : Byte, c = chr '-' ∨ isDigit c = true → isSpace c = false ∧ c ≠ 0 := by
      decide +kernel
    obtain ⟨hspace, hne⟩ := hall _ hhead
    cases htext : g.text with
    | nil => exact absurd (by rw [htext]; rfl) hne
    | cons c t =>
      rw [htext] at hspace
      exact hspace
  have hpayload : ¬HasPayload ((g.text ++ rest).drop (signLength (g.text ++ rest))) := fun h =>
    Bool.false_ne_true ((isInvalidNumber_printed g hrest).symm.trans (isInvalidNumber_of_payload h))
  have hdot : fpconvStrtod value (chr '.') (g.text ++ rest) = strtod value 46 (g.text ++ rest) :=
    if_pos rfl
  show fpconvStrtod value point (g.text ++ rest) = (value g.text, g.text.length)
  rw [fpconvStrtod_dot hp hstart hpayload, hdot]
  exact strtod_printed g (stops_of_ends hrest) value

/-- What is serialised in one locale is accepted in another one, and the decoder builds the value of
the document, with the numbers of the texts that `printf` writes. -/
theorem decode_encode_locales {enc : EncodeEnv ν} {env : Env ν} (value : List Byte → ν)
    {point point' : Byte} (hp : DecimalPoint point) (hp' : DecimalPoint point')
    (hprints : enc.Prints) (hinvalid : enc.cfg.invalidNumbers ≠ .on)
    (hdepth : (enc.cfg.maxDepth : Int) ≤ env.cfg.decodeMaxDepth) {limit : Nat}
    (hgranted : ∀ top slots, env.checkstack top slots → top + slots ≤ limit) (hlimit : 1 < limit)
    (hstack : ∀ top slots, top + slots ≤ 2 * enc.cfg.maxDepth + 2 → env.checkstack top slots)
    {v : Value ν} {text : List Byte} (h : encode (enc.inLocale point) v = .ok text) :
    ∃ d out, docOf enc enc.cfg.maxDepth 1 v = .ok d ∧
      decode nextNumberToken (env.inLocale value point') text = .ok out ∧
      execAll limit out.calls [.string text] = some [d.build value, .string text] := by
  have hescape : ∀ c : Byte, validNumberCharacter c = true → char2escape c = none := by
    decide +kernel
  have hplain : PlainNumbers enc := fun x c hc => hescape c (hprints.chars x c hc)
  have hnum : ∀ x, enc.isinf x = false → enc.isnan x = false →
      Readable (env.inLocale value point') value (enc.gfmt x) := by
    intro x hinf hnan
    obtain ⟨g, hg⟩ := hprints.finite x hinf hnan
    rw [hg]
    exact readable_printed value hp' g
  rw [EncodeEnv.inLocale_eq hprints hp] at h
  obtain ⟨d, hd, rfl, hfits⟩ := encode_render hnum hplain hinvalid h
  obtain ⟨out, hout, hexec⟩ := @decode_render ν (env.inLocale value point') value limit
    enc.cfg.maxDepth hgranted hlimit hdepth hstack d hfits
  exact ⟨d, out, hd, hout, hexec⟩

/-- Tenths as `%g` writes them. -/
def tenthsText (x : Nat) : List Byte :=
  printNat (x / 10) ++ if x % 10 = 0 then [] else [chr '.', digit (x % 10)]

/-- The tenths that are read from such a text. -/
def tenthsValue (t : List Byte) : Nat := 10 * digitsValue t + digitsValue (t.dropWhile isDigit).tail

/-- `{"a":[1.5,0.7]}`. -/
def EncodeEnv.tenths : EncodeEnv Nat :=
  { EncodeEnv.decimal fun
      | 0 => [(.string (lit ['a']), .table 1)]
      | 1 => [(.number 10, .number 15), (.number 20, .number 7)]
      | _ => [] with
    gfmt := tenthsText
    whole := fun x => 0 < x ∧ x % 10 = 0
    toInt := fun x => if x / 10 < 2 ^ 31 then some (x / 10) else none }

theorem tenthsText_printed (x : Nat) : ∃ g : Printed, tenthsText x = g.text := by
  have hzero : (printNat (x / 10)).headD 0 = 48 → printNat (x / 10) = [48] := by
    intro h
    by_cases hx : x / 10 = 0
    · rw [hx]
      rfl
    · exact absurd h (headD_printNat hx)
  have hdigits : ∀ c ∈ printNat (x / 10), isDigit c = true := fun c hc => isDigit_of_mem_printNat hc
  by_cases hwhole : x % 10 = 0
  · refine ⟨⟨false, printNat (x / 10), [], none, printNat_ne_nil _, hdigits, hzero, ?_, ?_⟩, ?_⟩
    · exact List.forall_mem_nil _
    · intro _ heq
      cases heq
    · rw [tenthsText, if_pos hwhole]
      rfl
  · refine ⟨⟨false, printNat (x / 10), [digit (x % 10)], none, printNat_ne_nil _, hdigits, hzero, ?_,
      ?_⟩, ?_⟩
    · exact List.forall_mem_singleton.mpr (isDigit_digit (Nat.mod_lt x (by decide)))
    · intro _ heq
      cases heq
    · rw [tenthsText, if_neg hwhole]
      rfl

theorem prints_tenths : EncodeEnv.tenths.Prints where
  chars x c hc := by
    have hall : ∀ c : Byte, isDigit c = true ∨ c = 43 ∨ c = 45 ∨ c = 46 ∨ c = 101 →
        validNumberCharacter c = true := by decide +kernel
    obtain ⟨g, hg⟩ := tenthsText_printed x
    have htext : EncodeEnv.tenths.gfmt x = g.text := hg
    rw [htext] at hc
    exact hall c (Printed.mem_text hc)
  finite x _ _ := tenthsText_printed x

/-- From a process with a comma to one with a dot. -/
theorem decode_encode_locales_comma : ∃ d out,
    docOf .tenths 1000 1 (.table 0) = .ok d ∧
      decode nextNumberToken (Env.decimal.inLocale tenthsValue (chr '.'))
        (lit "\x7b\"a\":[1.5,0.7]\x7d".toList) = .ok out ∧
      execAll 8000 out.calls [.string (lit "\x7b\"a\":[1.5,0.7]\x7d".toList)] =
        some [d.build tenthsValue, .string (lit "\x7b\"a\":[1.5,0.7]\x7d".toList)] :=
  @decode_encode_locales Nat .tenths Env.decimal tenthsValue (chr ',') (chr '.') (.inr point_comma)
    (.inl rfl) prints_tenths (by decide) (by decide) 8000 (fun _ _ h => of_decide_eq_true h)
    (by decide) (fun top slots h => decide_eq_true (le_trans h (by decide))) (.table 0)
    (lit "\x7b\"a\":[1.5,0.7]\x7d".toList) (by decide +kernel)

end EventServer.Json
