import EventServer.Json.Decode

/-!
# Keys of JSON objects

A number of more than 14 characters has become a string token, and a string token
may be a key. The decoder accepts what the original one does, and besides the texts
in which such numbers stand for keys.
-/
namespace EventServer.Json

open EventServer.Lib.CString EventServer.Lib.Decimal EventServer.Stream

variable {ν : Type} {env : Env ν} {s r : List Byte}

/-- The key that stands at this place is written as a double-quoted string. -/
def QuotedKey (place : List Byte) : Prop := place.head? = some (chr '"')

/-! ## Tokens of both decoders -/

theorem rest_eq (env : Env ν) (s : List Byte) :
    (nextToken nextNumberToken env s).rest = (nextToken nextNumberTokenLib env s).rest :=
  (nextToken_alike env s).rest

theorem place_eq (env : Env ν) (s : List Byte) :
    (nextToken nextNumberToken env s).place = (nextToken nextNumberTokenLib env s).place :=
  (nextToken_alike env s).place

/-- A token that is neither a string nor a number is the same for both. -/
theorem token_iff {tok : Token ν} (hs : ∀ str, tok ≠ .string str) (hn : ∀ x, tok ≠ .number x) :
    (nextToken nextNumberToken env s).token = tok ↔
      (nextToken nextNumberTokenLib env s).token = tok := by
  rcases (nextToken_alike env s).token with h | ⟨x, str, hx, hstr⟩
  · rw [h]
  · rw [hx, hstr]
    exact iff_of_false (fun h => hs str h.symm) fun h => hn x h.symm

theorem string_iff {k : List Byte} :
    (nextToken nextNumberTokenLib env s).token = .string k ↔
      (nextToken nextNumberToken env s).token = .string k ∧
        QuotedKey (nextToken nextNumberToken env s).place := by
  rw [QuotedKey, place_eq]
  constructor
  · intro h
    refine ⟨?_, quoted_of_string h⟩
    rcases (nextToken_alike env s).token with he | ⟨x, str, hx, -⟩
    · rw [he, h]
    · rw [h] at hx
      cases hx
  · intro h
    rcases (nextToken_alike env s).token with he | ⟨x, str, hx, -⟩
    · rw [← he, h.1]
    · exact absurd h.2 (not_quoted_of_number hx)

theorem scalar_iff : (nextToken nextNumberToken env s).token.Scalar ↔
    (nextToken nextNumberTokenLib env s).token.Scalar := by
  rcases (nextToken_alike env s).token with h | ⟨x, str, hx, hstr⟩
  · rw [h]
  · rw [hx, hstr]
    exact Iff.rfl

/-! ## The original decoder -/

section Runs

variable {size limit : Nat} {value value' : Next ν → Except Error (Out ν × List Byte)}
  (hvalue : ∀ s keys r, Yields (value (nextToken nextNumberTokenLib env s)) keys r ↔
    Yields (value' (nextToken nextNumberToken env s)) keys r ∧ ∀ k ∈ keys, QuotedKey k)

include hvalue in
theorem objectLoop_iff (fuel : Nat) (s : List Byte) (keys : List (List Byte)) (r : List Byte) :
    Yields (objectLoop size (nextToken nextNumberTokenLib env) value fuel
        (nextToken nextNumberTokenLib env s)) keys r ↔
      Yields (objectLoop size (nextToken nextNumberToken env) value' fuel
        (nextToken nextNumberToken env s)) keys r ∧ ∀ k ∈ keys, QuotedKey k := by
  induction fuel generalizing s keys with
  | zero => exact iff_of_false not_yields_error fun h => not_yields_error h.1
  | succ fuel ih =>
    simp only [objectLoop_yields, string_iff, hvalue, ih, rest_eq, place_eq, token_iff, ne_eq,
      reduceCtorEq, not_false_eq_true, implies_true]
    constructor
    · intro h
      obtain ⟨k, ⟨hkey, hquoted⟩, hcolon, inner, s', ⟨hv, hinner⟩, h⟩ := h
      rcases h with ⟨hend, rfl, hr⟩ | ⟨hcomma, more, ⟨hloop, hmore⟩, rfl⟩
      · exact ⟨⟨k, hkey, hcolon, inner, s', hv, .inl ⟨hend, rfl, hr⟩⟩,
          List.forall_mem_cons.mpr ⟨hquoted, hinner⟩⟩
      · exact ⟨⟨k, hkey, hcolon, inner, s', hv, .inr ⟨hcomma, more, hloop, rfl⟩⟩,
          List.forall_mem_append.mpr ⟨List.forall_mem_cons.mpr ⟨hquoted, hinner⟩, hmore⟩⟩
    · intro h
      obtain ⟨⟨k, hkey, hcolon, inner, s', hv, h⟩, hkeys⟩ := h
      rcases h with ⟨hend, rfl, hr⟩ | ⟨hcomma, more, hloop, rfl⟩
      · obtain ⟨hquoted, hinner⟩ := List.forall_mem_cons.mp hkeys
        exact ⟨k, ⟨hkey, hquoted⟩, hcolon, inner, s', ⟨hv, hinner⟩, .inl ⟨hend, rfl, hr⟩⟩
      · obtain ⟨hfirst, hmore⟩ := List.forall_mem_append.mp hkeys
        obtain ⟨hquoted, hinner⟩ := List.forall_mem_cons.mp hfirst
        exact ⟨k, ⟨hkey, hquoted⟩, hcolon, inner, s', ⟨hv, hinner⟩,
          .inr ⟨hcomma, more, ⟨hloop, hmore⟩, rfl⟩⟩

include hvalue in
theorem arrayLoop_iff (fuel i : Nat) (s : List Byte) (keys : List (List Byte)) (r : List Byte) :
    Yields (arrayLoop size (nextToken nextNumberTokenLib env) value fuel i
        (nextToken nextNumberTokenLib env s)) keys r ↔
      Yields (arrayLoop size (nextToken nextNumberToken env) value' fuel i
        (nextToken nextNumberToken env s)) keys r ∧ ∀ k ∈ keys, QuotedKey k := by
  induction fuel generalizing i s keys with
  | zero => exact iff_of_false not_yields_error fun h => not_yields_error h.1
  | succ fuel ih =>
    simp only [arrayLoop_yields, hvalue, ih, rest_eq, token_iff, ne_eq, reduceCtorEq,
      not_false_eq_true, implies_true]
    constructor
    · intro h
      obtain ⟨inner, s', ⟨hv, hinner⟩, h⟩ := h
      rcases h with ⟨hend, rfl, hr⟩ | ⟨hcomma, more, ⟨hloop, hmore⟩, rfl⟩
      · exact ⟨⟨keys, s', hv, .inl ⟨hend, rfl, hr⟩⟩, hinner⟩
      · exact ⟨⟨inner, s', hv, .inr ⟨hcomma, more, hloop, rfl⟩⟩,
          List.forall_mem_append.mpr ⟨hinner, hmore⟩⟩
    · intro h
      obtain ⟨⟨inner, s', hv, h⟩, hkeys⟩ := h
      rcases h with ⟨hend, rfl, hr⟩ | ⟨hcomma, more, hloop, rfl⟩
      · exact ⟨keys, s', ⟨hv, hkeys⟩, .inl ⟨hend, rfl, hr⟩⟩
      · obtain ⟨hinner, hmore⟩ := List.forall_mem_append.mp hkeys
        exact ⟨inner, s', ⟨hv, hinner⟩, .inr ⟨hcomma, more, ⟨hloop, hmore⟩, rfl⟩⟩

end Runs

/-- The original takes the same values as far as all keys are quoted. -/
theorem processValue_iff (size fuel depth top : Nat) (s : List Byte) (keys : List (List Byte))
    (r : List Byte) :
    Yields (processValue size (nextToken nextNumberTokenLib env) env fuel depth top
        (nextToken nextNumberTokenLib env s)) keys r ↔
      Yields (processValue size (nextToken nextNumberToken env) env fuel depth top
        (nextToken nextNumberToken env s)) keys r ∧ ∀ k ∈ keys, QuotedKey k := by
  induction fuel generalizing depth top s keys r with
  | zero => exact iff_of_false not_yields_error fun h => not_yields_error h.1
  | succ fuel ih =>
    simp only [processValue_yields, objectLoop_iff (ih _ _), arrayLoop_iff (ih _ _), rest_eq,
      token_iff, scalar_iff, ne_eq, reduceCtorEq, not_false_eq_true, implies_true]
    have hnone : ∀ k ∈ ([] : List (List Byte)), QuotedKey k := nofun
    constructor
    · intro h
      rcases h with ⟨htok, rfl, hr⟩ | ⟨htok, hd, h⟩ | ⟨htok, hd, h⟩
      · exact ⟨.inl ⟨htok, rfl, hr⟩, hnone⟩
      · rcases h with ⟨hend, rfl, hr⟩ | ⟨hne, hloop, hkeys⟩
        · exact ⟨.inr (.inl ⟨htok, hd, .inl ⟨hend, rfl, hr⟩⟩), hnone⟩
        · exact ⟨.inr (.inl ⟨htok, hd, .inr ⟨hne, hloop⟩⟩), hkeys⟩
      · rcases h with ⟨hend, rfl, hr⟩ | ⟨hne, hloop, hkeys⟩
        · exact ⟨.inr (.inr ⟨htok, hd, .inl ⟨hend, rfl, hr⟩⟩), hnone⟩
        · exact ⟨.inr (.inr ⟨htok, hd, .inr ⟨hne, hloop⟩⟩), hkeys⟩
    · intro h
      obtain ⟨htok | ⟨htok, hd, h⟩ | ⟨htok, hd, h⟩, hkeys⟩ := h
      · exact .inl htok
      · exact .inr (.inl ⟨htok, hd, h.imp_right fun h => ⟨h.1, h.2, hkeys⟩⟩)
      · exact .inr (.inr ⟨htok, hd, h.imp_right fun h => ⟨h.1, h.2, hkeys⟩⟩)

theorem accepts_lib_iff (env : Env ν) (text : List Byte) (keys : List (List Byte)) :
    Accepts nextNumberTokenLib env text keys ↔
      Accepts nextNumberToken env text keys ∧ ∀ k ∈ keys, QuotedKey k := by
  simp only [accepts_iff, processValue_iff, token_iff, ne_eq, reduceCtorEq, not_false_eq_true,
    implies_true]
  constructor
  · intro h
    obtain ⟨hwide, r, ⟨hv, hkeys⟩, hend⟩ := h
    exact ⟨⟨hwide, r, hv, hend⟩, hkeys⟩
  · intro h
    obtain ⟨⟨hwide, r, hv, hend⟩, hkeys⟩ := h
    exact ⟨hwide, r, ⟨hv, hkeys⟩, hend⟩

/-! ## Where the keys stand -/

/-- From `s` on these are the places where tokens were read, up to `r`. -/
inductive Passes (env : Env ν) : List Byte → List (List Byte) → List Byte → Prop where
  | nil (s : List Byte) : Passes env s [] s
  | cons {s : List Byte} {places : List (List Byte)} {r : List Byte}
      (hp : (nextToken nextNumberTokenLib env s).token.Proceeds)
      (hrest : Passes env (nextToken nextNumberTokenLib env s).rest places r) :
      Passes env s (s :: places) r

theorem Passes.append {m : List Byte} {places more : List (List Byte)} (h : Passes env s places m)
    (h' : Passes env m more r) : Passes env s (places ++ more) r := by
  induction h with
  | nil => exact h'
  | cons hp _ ih => exact .cons hp (ih h')

/-- Two rows of tokens from the same place: the one that comes to an end is the longer. -/
theorem Passes.begins_of_end {places others : List (List Byte)} {r' : List Byte}
    (h : Passes env s places r) (h' : Passes env s others r')
    (hend : ¬ (nextToken nextNumberTokenLib env r).token.Proceeds) : others <+: places := by
  induction h generalizing others with
  | nil s =>
    cases h' with
    | nil => exact List.nil_prefix
    | cons hp _ => exact absurd hp hend
  | cons hp _ ih =>
    cases h' with
    | nil => exact List.nil_prefix
    | cons _ hrest' => exact List.cons_prefix_cons.mpr ⟨rfl, ih hrest' hend⟩

/-- If the token there is a number of more than 14 characters, no colon follows it. -/
def Apart (env : Env ν) (s : List Byte) : Prop :=
  LongNumber env s →
    (nextToken nextNumberTokenLib env (nextToken nextNumberTokenLib env s).rest).token ≠ .colon

/-- No number of more than 14 characters stands directly before a colon. -/
def NoNumberKey (env : Env ν) (text : List Byte) : Prop :=
  ∀ places r, Passes env text places r → ∀ s ∈ places, Apart env s

/-- A token of another type is no number. -/
theorem apart_of_token {tok : Token ν} (h : (nextToken nextNumberTokenLib env s).token = tok)
    (hn : ∀ x, tok ≠ .number x) : Apart env s := by
  intro hlong
  obtain ⟨⟨x, hx⟩, -⟩ := hlong
  exact absurd (h.symm.trans hx) (hn x)

/-- In front of a colon a string is quoted or a long number. -/
theorem quoted_iff_apart {k : List Byte} (h : (nextToken nextNumberToken env s).token = .string k)
    (hcolon : (nextToken nextNumberTokenLib env
      (nextToken nextNumberTokenLib env s).rest).token = .colon) :
    QuotedKey (nextToken nextNumberTokenLib env s).place ↔ Apart env s := by
  have hlong := longNumber_iff h
  rw [Next.Quoted, place_eq] at hlong
  rw [Apart, hlong, QuotedKey]
  constructor
  · exact fun hquoted hno => absurd hquoted hno
  · intro himp
    by_contra hno
    exact himp hno hcolon

/-- The keys of a run are quoted exactly if no long number stands before a colon in it. -/
def Traced (env : Env ν) (keys : List (List Byte)) (s r : List Byte) : Prop :=
  ∃ places, Passes env s places r ∧
    ((∀ k ∈ keys, QuotedKey k) ↔ ∀ p ∈ places, Apart env p)

theorem proceeds_of_token {tok : Token ν} (h : (nextToken nextNumberTokenLib env s).token = tok)
    (hp : tok.Proceeds) : (nextToken nextNumberTokenLib env s).token.Proceeds := by rwa [h]

theorem proceeds_of_string {k : List Byte}
    (h : (nextToken nextNumberToken env s).token = .string k) :
    (nextToken nextNumberTokenLib env s).token.Proceeds := by
  rcases (nextToken_alike env s).token with he | ⟨x, str, hx, -⟩
  · exact proceeds_of_token (he.symm.trans h) trivial
  · exact proceeds_of_token hx trivial

theorem proceeds_of_scalar (h : (nextToken nextNumberTokenLib env s).token.Scalar) :
    (nextToken nextNumberTokenLib env s).token.Proceeds := by
  cases htok : (nextToken nextNumberTokenLib env s).token with
  | string | number | boolean | null => trivial
  | _ =>
    rw [htok] at h
    exact h.elim

/-- A token that is no number, in front of a run. -/
theorem Traced.cons {tok : Token ν} {keys : List (List Byte)}
    (h : Traced env keys (nextToken nextNumberTokenLib env s).rest r)
    (htok : (nextToken nextNumberTokenLib env s).token = tok) (hp : tok.Proceeds)
    (hn : ∀ x, tok ≠ .number x) : Traced env keys s r := by
  obtain ⟨places, hpass, hiff⟩ := h
  refine ⟨s :: places, .cons (proceeds_of_token htok hp) hpass, ?_⟩
  rw [List.forall_mem_cons, and_iff_right (apart_of_token htok hn), hiff]

/-- The key and the colon in front of a run. -/
theorem Traced.key {keys : List (List Byte)} {k : List Byte}
    (hkey : (nextToken nextNumberToken env s).token = .string k)
    (hcolon : (nextToken nextNumberTokenLib env
      (nextToken nextNumberTokenLib env s).rest).token = .colon)
    (h : Traced env keys (nextToken nextNumberTokenLib env
      (nextToken nextNumberTokenLib env s).rest).rest r) :
    Traced env ((nextToken nextNumberTokenLib env s).place :: keys) s r := by
  obtain ⟨places, hpass, hiff⟩ := h.cons hcolon trivial nofun
  refine ⟨s :: places, .cons (proceeds_of_string hkey) hpass, ?_⟩
  rw [List.forall_mem_cons, List.forall_mem_cons, quoted_iff_apart hkey hcolon, hiff]

theorem Traced.append {keys more : List (List Byte)} {m : List Byte} (h : Traced env keys s m)
    (h' : Traced env more m r) : Traced env (keys ++ more) s r := by
  obtain ⟨places, hpass, hiff⟩ := h
  obtain ⟨others, hpass', hiff'⟩ := h'
  refine ⟨places ++ others, hpass.append hpass', ?_⟩
  rw [List.forall_mem_append, List.forall_mem_append, hiff, hiff']

theorem traced_nil (env : Env ν) (s : List Byte) : Traced env [] s s :=
  ⟨[], .nil s, iff_of_true nofun nofun⟩

/-- The end of an object or an array, behind a run. -/
theorem Traced.close {tok : Token ν} {keys : List (List Byte)} {m : List Byte}
    (h : Traced env keys s m) (htok : (nextToken nextNumberTokenLib env m).token = tok)
    (hp : tok.Proceeds) (hn : ∀ x, tok ≠ .number x) :
    Traced env keys s (nextToken nextNumberTokenLib env m).rest := by
  have hrun := h.append ((traced_nil env _).cons htok hp hn)
  rwa [List.append_nil] at hrun

section Traces

variable {size : Nat} {value : Next ν → Except Error (Out ν × List Byte)}
  (hvalue : ∀ s keys r, Yields (value (nextToken nextNumberToken env s)) keys r →
    (nextToken nextNumberTokenLib env r).token ≠ .colon → Traced env keys s r)

include hvalue in
theorem objectLoop_traced (fuel : Nat) (s : List Byte) (keys : List (List Byte)) (r : List Byte)
    (h : Yields (objectLoop size (nextToken nextNumberToken env) value fuel
      (nextToken nextNumberToken env s)) keys r) : Traced env keys s r := by
  induction fuel generalizing s keys with
  | zero => exact absurd h not_yields_error
  | succ fuel ih =>
    simp only [objectLoop_yields, rest_eq, place_eq, token_iff, ne_eq, reduceCtorEq,
      not_false_eq_true, implies_true] at h
    obtain ⟨k, hkey, hcolon, inner, s', hv, h⟩ := h
    rcases h with ⟨hend, rfl, rfl⟩ | ⟨hcomma, more, hloop, rfl⟩
    · have hvalue := hvalue _ _ _ hv (by rw [hend]; nofun)
      exact (hvalue.close hend trivial nofun).key hkey hcolon
    · have hvalue := hvalue _ _ _ hv (by rw [hcomma]; nofun)
      have hrest := (ih _ _ hloop).cons hcomma trivial nofun
      exact (hvalue.append hrest).key hkey hcolon

include hvalue in
theorem arrayLoop_traced (fuel i : Nat) (s : List Byte) (keys : List (List Byte)) (r : List Byte)
    (h : Yields (arrayLoop size (nextToken nextNumberToken env) value fuel i
      (nextToken nextNumberToken env s)) keys r) : Traced env keys s r := by
  induction fuel generalizing i s keys with
  | zero => exact absurd h not_yields_error
  | succ fuel ih =>
    simp only [arrayLoop_yields, rest_eq, token_iff, ne_eq, reduceCtorEq, not_false_eq_true,
      implies_true] at h
    obtain ⟨inner, s', hv, h⟩ := h
    rcases h with ⟨hend, rfl, rfl⟩ | ⟨hcomma, more, hloop, rfl⟩
    · have hvalue := hvalue _ _ _ hv (by rw [hend]; nofun)
      exact hvalue.close hend trivial nofun
    · have hvalue := hvalue _ _ _ hv (by rw [hcomma]; nofun)
      exact hvalue.append ((ih _ _ _ hloop).cons hcomma trivial nofun)

end Traces

theorem processValue_traced (size fuel depth top : Nat) (s : List Byte) (keys : List (List Byte))
    (r : List Byte)
    (h : Yields (processValue size (nextToken nextNumberToken env) env fuel depth top
      (nextToken nextNumberToken env s)) keys r)
    (hr : (nextToken nextNumberTokenLib env r).token ≠ .colon) : Traced env keys s r := by
  induction fuel generalizing depth top s keys r with
  | zero => exact absurd h not_yields_error
  | succ fuel ih =>
    simp only [processValue_yields, rest_eq, token_iff, scalar_iff, ne_eq, reduceCtorEq,
      not_false_eq_true, implies_true] at h
    rcases h with ⟨htok, rfl, rfl⟩ | ⟨htok, -, h⟩ | ⟨htok, -, h⟩
    · -- A number may be long here, but what follows is no colon.
      exact ⟨[s], .cons (proceeds_of_scalar htok) (.nil _),
        iff_of_true nofun (List.forall_mem_singleton.mpr fun _ => hr)⟩
    · rcases h with ⟨hend, rfl, rfl⟩ | ⟨-, hloop⟩
      · exact ((traced_nil env _).close hend trivial nofun).cons htok trivial nofun
      · exact (objectLoop_traced (ih _ _) fuel _ _ _ hloop).cons htok trivial nofun
    · rcases h with ⟨hend, rfl, rfl⟩ | ⟨-, hloop⟩
      · exact ((traced_nil env _).close hend trivial nofun).cons htok trivial nofun
      · exact (arrayLoop_traced (ih _ _) fuel 1 _ _ _ hloop).cons htok trivial nofun

/-- In a text that is accepted the keys are quoted exactly if no long number stands before a
colon. -/
theorem quoted_iff_noNumberKey {text : List Byte} {keys : List (List Byte)}
    (h : Accepts nextNumberToken env text keys) :
    (∀ k ∈ keys, QuotedKey k) ↔ NoNumberKey env text := by
  simp only [accepts_iff, token_iff, ne_eq, reduceCtorEq, not_false_eq_true, implies_true] at h
  obtain ⟨-, r, hv, hend⟩ := h
  obtain ⟨places, hpass, hiff⟩ := processValue_traced _ _ _ _ _ _ _ hv (by rw [hend]; nofun)
  have hstop : ¬ (nextToken nextNumberTokenLib env r).token.Proceeds := by
    rw [hend]
    exact id
  rw [hiff]
  constructor
  · intro hall others r' hpass' p hp
    exact hall p ((hpass.begins_of_end hpass' hstop).subset hp)
  · exact fun hno => hno places r hpass

/-- In a text that is accepted every key is a double-quoted string, and the original accepts the
text too. -/
def KeepsGrammar (env : Env ν) (text : List Byte) : Prop :=
  (∀ keys, Accepts nextNumberToken env text keys → ∀ k ∈ keys, QuotedKey k) ∧
    ∀ keys, Accepts nextNumberToken env text keys → Accepts nextNumberTokenLib env text keys

/-- What the original accepts is accepted, with quoted keys. A text that is accepted keeps the
grammar exactly if in it no number of more than 14 characters stands directly before a colon. -/
theorem number_keys_iff (env : Env ν) (text : List Byte) :
    (∀ keys, Accepts nextNumberTokenLib env text keys →
      Accepts nextNumberToken env text keys ∧ ∀ k ∈ keys, QuotedKey k) ∧
      ∀ keys, Accepts nextNumberToken env text keys →
        (KeepsGrammar env text ↔ NoNumberKey env text) := by
  refine ⟨fun keys h => (accepts_lib_iff env text keys).mp h, fun keys h => ⟨?_, ?_⟩⟩
  · intro hkeeps
    exact (quoted_iff_noNumberKey h).mp (hkeeps.1 keys h)
  · intro hno
    have hquoted : ∀ keys, Accepts nextNumberToken env text keys → ∀ k ∈ keys, QuotedKey k :=
      fun _ h' => (quoted_iff_noNumberKey h').mpr hno
    exact ⟨hquoted, fun _ h' => (accepts_lib_iff env text _).mpr ⟨h', hquoted _ h'⟩⟩

/-- The default settings, and decimal digits for numbers. -/
def Env.decimal : Env Nat where
  cfg := .default
  strtod s := (digitsValue s, (s.takeWhile isDigit).length)
  checkstack top slots := top + slots ≤ 8000

/-- `{"a":123456789012345}`. -/
def quotedKeyText : List Byte :=
  lit ['{', '"', 'a', '"', ':', '1', '2', '3', '4', '5', '6', '7', '8', '9', '0', '1', '2', '3', '4',
    '5', '}']

/-- A long number as the value of a quoted key. -/
theorem number_keys_quoted :
    Accepts nextNumberToken Env.decimal quotedKeyText [quotedKeyText.tail] ∧
      KeepsGrammar Env.decimal quotedKeyText ∧ NoNumberKey Env.decimal quotedKeyText := by
  obtain ⟨hlib, hiff⟩ := number_keys_iff Env.decimal quotedKeyText
  have horiginal : Accepts nextNumberTokenLib Env.decimal quotedKeyText [quotedKeyText.tail] :=
    ⟨⟨[.newtable, .pushlstring [97], .pushnumber 123456789012345, .rawset], [quotedKeyText.tail]⟩,
      by decide +kernel, rfl⟩
  obtain ⟨haccepts, hquoted⟩ := hlib _ horiginal
  have hkeys : ∀ keys, Accepts nextNumberToken Env.decimal quotedKeyText keys →
      keys = [quotedKeyText.tail] := by
    rintro _ ⟨out, hout, rfl⟩
    obtain ⟨out', hout', hkeys⟩ := haccepts
    obtain rfl : out = out' := Except.ok.inj (hout.symm.trans hout')
    exact hkeys
  have hgrammar : KeepsGrammar Env.decimal quotedKeyText :=
    ⟨fun keys h => hkeys keys h ▸ hquoted, fun keys h => hkeys keys h ▸ horiginal⟩
  exact ⟨haccepts, hgrammar, (hiff _ haccepts).mp hgrammar⟩

/-- `{123456789012345:1}`. -/
def numberKeyText : List Byte :=
  lit ['{', '1', '2', '3', '4', '5', '6', '7', '8', '9', '0', '1', '2', '3', '4', '5', ':', '1', '}']

/-- The number is taken for a key, and the original refuses it. -/
theorem number_key_accepted :
    Accepts nextNumberToken Env.decimal numberKeyText [numberKeyText.tail] ∧
      ¬ QuotedKey numberKeyText.tail ∧
      decode nextNumberTokenLib Env.decimal numberKeyText =
        .error (.parse .objectKeyString (.inl .number) 1) ∧
      ¬ KeepsGrammar Env.decimal numberKeyText := by
  have haccepts : Accepts nextNumberToken Env.decimal numberKeyText [numberKeyText.tail] :=
    ⟨⟨[.newtable, .pushlstring ((numberKeyText.drop 1).take 15), .pushnumber 1, .rawset],
      [numberKeyText.tail]⟩, by decide +kernel, rfl⟩
  have hplain : ¬ QuotedKey numberKeyText.tail := by
    unfold QuotedKey
    decide
  exact ⟨haccepts, hplain, by decide +kernel,
    fun hkeeps => hplain (hkeeps.1 _ haccepts _ List.mem_cons_self)⟩

end EventServer.Json
