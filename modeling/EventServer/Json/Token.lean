import EventServer.Lib.CString
import EventServer.Lib.Decimal
import EventServer.Stream.IMemFile

/-!
# JSON tokens

`json_next_token` of the decoder. A text is the bytes in front of its terminator,
and a place in it is what stands there. `json_next_number_token` was changed in this
repository; the original is kept in `Lib`. What `strtod` takes from a text and the
numbers it makes are a parameter.
-/
namespace EventServer.Json

open EventServer.Lib.CString EventServer.Lib.Decimal EventServer.Stream

/-- `json_token_type_t`. -/
inductive TokenType where
  | objBegin
  | objEnd
  | arrBegin
  | arrEnd
  | string
  | number
  | boolean
  | null
  | colon
  | comma
  | theEnd
  | whitespace
  | error
  | unknown
  deriving DecidableEq

/-- `json_token_type_name`. -/
def TokenType.name : TokenType → String
  | objBegin => "T_OBJ_BEGIN"
  | objEnd => "T_OBJ_END"
  | arrBegin => "T_ARR_BEGIN"
  | arrEnd => "T_ARR_END"
  | string => "T_STRING"
  | number => "T_NUMBER"
  | boolean => "T_BOOLEAN"
  | null => "T_NULL"
  | colon => "T_COLON"
  | comma => "T_COMMA"
  | theEnd => "T_END"
  | whitespace => "T_WHITESPACE"
  | error => "T_ERROR"
  | unknown => "T_UNKNOWN"

/-- What `json_set_token_error` sets. -/
inductive TokenError where
  | invalidToken
  | invalidNumber
  | unexpectedEndOfString
  | invalidUnicodeEscapeCode
  | invalidEscapeCode
  deriving DecidableEq

def TokenError.text : TokenError → String
  | invalidToken => "invalid token"
  | invalidNumber => "invalid number"
  | unexpectedEndOfString => "unexpected end of string"
  | invalidUnicodeEscapeCode => "invalid unicode escape code"
  | invalidEscapeCode => "invalid escape code"

/-- A token with its value, as far as its type has one. -/
inductive Token (ν : Type) where
  | objBegin
  | objEnd
  | arrBegin
  | arrEnd
  | string (s : List Byte)
  | number (x : ν)
  | boolean (b : Bool)
  | null
  | colon
  | comma
  | theEnd
  | error (e : TokenError)
  deriving DecidableEq

structure Config where
  /-- `decode_invalid_numbers`. -/
  decodeInvalidNumbers : Bool
  /-- `decode_max_depth`. -/
  decodeMaxDepth : Int

/-- `json_create_config()`. -/
def Config.default : Config := ⟨true, 1000⟩

/-- The table `ch2token`. -/
def ch2token (c : Byte) : TokenType :=
  if c = chr '{' then .objBegin
  else if c = chr '}' then .objEnd
  else if c = chr '[' then .arrBegin
  else if c = chr ']' then .arrEnd
  else if c = chr ',' then .comma
  else if c = chr ':' then .colon
  else if c = 0 then .theEnd
  else if (lit [' ', '\t', '\n', '\r']).contains c then .whitespace
  else if (lit ['f', 'i', 'I', 'n', 'N', 't', '"', '+', '-']).contains c || isDigit c then .unknown
  else .error

/-- The table `escape2char`; zero is an error. -/
def escape2char (c : Byte) : Byte :=
  if (lit ['"', '\\', '/', 'u']).contains c then c
  else if c = chr 'b' then 8
  else if c = chr 't' then 9
  else if c = chr 'n' then 10
  else if c = chr 'f' then 12
  else if c = chr 'r' then 13
  else 0

/-! ## Strings -/

def hexdigit2int (hex : Byte) : Option Nat :=
  if isDigit hex then some (hex.toNat - 48)
  else
    let hex := hex ||| 0x20
    if 97 ≤ hex.toNat ∧ hex.toNat ≤ 102 then some (10 + hex.toNat - 97) else none

/-- A text that ends too early has its terminator for a digit. -/
def decodeHex4 : List Byte → Option Nat
  | a :: b :: c :: d :: _ => do
    let a ← hexdigit2int a
    let b ← hexdigit2int b
    let c ← hexdigit2int c
    let d ← hexdigit2int d
    return (a <<< 12) + (b <<< 8) + (c <<< 4) + d
  | _ => none

/-- No bytes stand for a code point that is too large. -/
def codepointToUtf8 (codepoint : Nat) : List Byte :=
  if codepoint ≤ 0x7F then [BitVec.ofNat 8 codepoint]
  else if codepoint ≤ 0x7FF then
    [BitVec.ofNat 8 (codepoint >>> 6 ||| 0xC0), BitVec.ofNat 8 (codepoint &&& 0x3F ||| 0x80)]
  else if codepoint ≤ 0xFFFF then
    [BitVec.ofNat 8 (codepoint >>> 12 ||| 0xE0),
      BitVec.ofNat 8 (codepoint >>> 6 &&& 0x3F ||| 0x80),
      BitVec.ofNat 8 (codepoint &&& 0x3F ||| 0x80)]
  else if codepoint ≤ 0x1FFFFF then
    [BitVec.ofNat 8 (codepoint >>> 18 ||| 0xF0),
      BitVec.ofNat 8 (codepoint >>> 12 &&& 0x3F ||| 0x80),
      BitVec.ofNat 8 (codepoint >>> 6 &&& 0x3F ||| 0x80),
      BitVec.ofNat 8 (codepoint &&& 0x3F ||| 0x80)]
  else []

/-- `json_append_unicode_escape()` at a backslash: the bytes that are appended and the length of
the escape. -/
def unicodeEscape (s : List Byte) : Option (List Byte × Nat) := do
  let codepoint ← decodeHex4 (s.drop 2)
  let (codepoint, escapeLen) ←
    if codepoint &&& 0xF800 = 0xD800 then
      if codepoint &&& 0x400 ≠ 0 then none
      else if (s.drop 6).take 2 ≠ lit ['\\', 'u'] then none
      else do
        let surrogateLow ← decodeHex4 (s.drop 8)
        if surrogateLow &&& 0xFC00 ≠ 0xDC00 then none
        else
          some (((codepoint &&& 0x3FF) <<< 10 ||| surrogateLow &&& 0x3FF) + 0x10000, 12)
    else some (codepoint, 6)
  let utf8 := codepointToUtf8 codepoint
  if utf8 = [] then none else some (utf8, escapeLen)

/-- The loop over a string behind its quote, with what is collected so far: the string and the
place behind it, or an error and its place. -/
def stringLoop (s tmp : List Byte) : Except (TokenError × List Byte) (List Byte × List Byte) :=
  match s with
  | [] => .error (.unexpectedEndOfString, [])
  | ch :: rest =>
    if ch = chr '"' then .ok (tmp, rest)
    else if ch = 0 then .error (.unexpectedEndOfString, ch :: rest)
    else if ch = chr '\\' then
      let esc := escape2char (rest.headD 0)
      if esc = chr 'u' then
        match unicodeEscape (ch :: rest) with
        -- The backslash is the first of the `escapeLen` characters.
        | some (utf8, escapeLen) => stringLoop (rest.drop (escapeLen - 1)) (tmp ++ utf8)
        | none => .error (.invalidUnicodeEscapeCode, ch :: rest)
      else if esc = 0 then .error (.invalidEscapeCode, ch :: rest)
      else stringLoop rest.tail (tmp ++ [esc])
    else stringLoop rest (tmp ++ [ch])
termination_by s.length
decreasing_by
  all_goals
    simp only [List.length_cons, List.length_drop, List.length_tail]
    omega

/-! ## Numbers -/

/-- What the decoder takes from outside. -/
structure Env (ν : Type) where
  cfg : Config
  /-- `fpconv_strtod()`: the number, and how many characters it takes. -/
  strtod : List Byte → ν × Nat
  /-- `lua_checkstack()` for so many slots over those in use. -/
  checkstack : Nat → Nat → Bool

variable {ν : Type}

/-- A character as a letter in lower case. -/
def tolower (c : Byte) : Byte := if 65 ≤ c.toNat ∧ c.toNat ≤ 90 then c + 32 else c

/-- `json_is_invalid_number()`; a `char` is signed. -/
def isInvalidNumber (s : List Byte) : Bool :=
  if s.headD 0 = chr '+' then true
  else
    let p := if s.headD 0 = chr '-' then s.tail else s
    if p.headD 0 = chr '0' then
      let ch2 := p.tail.headD 0
      ch2 ||| 0x20 = chr 'x' ∨ isDigit ch2
    else if (p.headD 0).toInt ≤ 57 then false
    else (p.take 3).map tolower = lit ['i', 'n', 'f'] ∨ (p.take 3).map tolower = lit ['n', 'a', 'n']

/-- A function that reads a number token: the token and the place behind it. -/
abbrev NumberToken (ν : Type) := Env ν → List Byte → Token ν × List Byte

/-- `json_next_number_token()`: more than 14 characters become a string. -/
def nextNumberToken : NumberToken ν := fun env s =>
  let (number, n) := env.strtod s
  if n = 0 then (.error .invalidNumber, s)
  else if n > 14 then (.string (s.take n), s.drop n)
  else (.number number, s.drop n)

/-- `json_next_number_token()` in `Lib`. -/
def nextNumberTokenLib : NumberToken ν := fun env s =>
  let (number, n) := env.strtod s
  if n = 0 then (.error .invalidNumber, s) else (.number number, s.drop n)

/-! ## Tokens -/

/-- A token, the place that is its `index`, and the place where the next one is read. -/
structure Next (ν : Type) where
  place : List Byte
  token : Token ν
  rest : List Byte

/-- Eat whitespace. -/
def skip (s : List Byte) : List Byte := s.dropWhile (ch2token · = .whitespace)

/-- The branches of `json_next_token()` for a character of type `T_UNKNOWN`. -/
def nextUnknown (num : NumberToken ν) (env : Env ν) (s : List Byte) : Next ν :=
  let number : Next ν := ⟨s, (num env s).1, (num env s).2⟩
  if s.headD 0 = chr '"' then
    match stringLoop s.tail [] with
    | .ok (string, rest) => ⟨s, .string string, rest⟩
    | .error (e, place) => ⟨place, .error e, place⟩
  else if s.headD 0 = chr '-' ∨ isDigit (s.headD 0) then
    if !env.cfg.decodeInvalidNumbers && isInvalidNumber s then ⟨s, .error .invalidNumber, s⟩
    else number
  else if lit ['t', 'r', 'u', 'e'] <+: s then ⟨s, .boolean true, s.drop 4⟩
  else if lit ['f', 'a', 'l', 's', 'e'] <+: s then ⟨s, .boolean false, s.drop 5⟩
  else if lit ['n', 'u', 'l', 'l'] <+: s then ⟨s, .null, s.drop 4⟩
  else if env.cfg.decodeInvalidNumbers && isInvalidNumber s then number
  else ⟨s, .error .invalidToken, s⟩

/-- `json_next_token()`. -/
def nextToken (num : NumberToken ν) (env : Env ν) (s : List Byte) : Next ν :=
  let s := skip s
  match ch2token (s.headD 0) with
  | .theEnd => ⟨s, .theEnd, s⟩
  | .objBegin => ⟨s, .objBegin, s.tail⟩
  | .objEnd => ⟨s, .objEnd, s.tail⟩
  | .arrBegin => ⟨s, .arrBegin, s.tail⟩
  | .arrEnd => ⟨s, .arrEnd, s.tail⟩
  | .colon => ⟨s, .colon, s.tail⟩
  | .comma => ⟨s, .comma, s.tail⟩
  | .unknown => nextUnknown num env s
  -- Of the other types the table has only `T_ERROR` and the whitespace that is eaten.
  | _ => ⟨s, .error .invalidToken, s⟩

/-! ## What the token at a place is -/

/-- The next token begins behind this one. -/
def Token.Proceeds : Token ν → Prop
  | theEnd | error _ => False
  | _ => True

def Next.Quoted (t : Next ν) : Prop := t.place.head? = some (chr '"')

theorem head?_of_headD {s : List Byte} (h : s.headD 0 = chr '"') : s.head? = some (chr '"') := by
  cases s with
  | nil => exact absurd h (by decide)
  | cons c s => exact congrArg some h

theorem headD_of_head? {s : List Byte} (h : s.head? = some (chr '"')) : s.headD 0 = chr '"' := by
  cases s with
  | nil => cases h
  | cons c s => exact Option.some.inj h

/-- A token that does not depend on how numbers are read: it is no number, and a string has its
quote. -/
def Next.Plain (t : Next ν) : Prop :=
  match t.token with
  | .number _ => False
  | .string _ => t.Quoted
  | _ => True

theorem Next.Plain.quoted {t : Next ν} (h : t.Plain) {str : List Byte} (hs : t.token = .string str) :
    t.Quoted := by
  rwa [Plain, hs] at h

theorem Next.Plain.not_number {t : Next ν} (h : t.Plain) (x : ν) : t.token ≠ .number x := by
  intro hx
  rwa [Plain, hx] at h

/-- The token at a place: one for all ways to read numbers, or what is read as a number. -/
theorem nextUnknown_cases (env : Env ν) (s : List Byte) :
    (∃ t : Next ν, t.Plain ∧ ∀ num, nextUnknown num env s = t) ∨
      s.head? ≠ some (chr '"') ∧ ∀ num, nextUnknown num env s = ⟨s, (num env s).1, (num env s).2⟩ := by
  by_cases hquote : s.headD 0 = chr '"'
  · simp only [nextUnknown, if_pos hquote]
    cases hloop : stringLoop s.tail [] with
    | ok r => exact .inl ⟨⟨s, .string r.1, r.2⟩, head?_of_headD hquote, fun _ => rfl⟩
    | error r => exact .inl ⟨⟨r.2, .error r.1, r.2⟩, trivial, fun _ => rfl⟩
  · have hhead : s.head? ≠ some (chr '"') := fun h => hquote (headD_of_head? h)
    simp only [nextUnknown, if_neg hquote]
    split_ifs
    · exact .inl ⟨⟨s, .error .invalidNumber, s⟩, trivial, fun _ => rfl⟩
    · exact .inr ⟨hhead, fun _ => rfl⟩
    · exact .inl ⟨⟨s, .boolean true, s.drop 4⟩, trivial, fun _ => rfl⟩
    · exact .inl ⟨⟨s, .boolean false, s.drop 5⟩, trivial, fun _ => rfl⟩
    · exact .inl ⟨⟨s, .null, s.drop 4⟩, trivial, fun _ => rfl⟩
    · exact .inr ⟨hhead, fun _ => rfl⟩
    · exact .inl ⟨⟨s, .error .invalidToken, s⟩, trivial, fun _ => rfl⟩

theorem nextToken_cases (env : Env ν) (s : List Byte) :
    (∃ t : Next ν, t.Plain ∧ ∀ num, nextToken num env s = t) ∨
      (skip s).head? ≠ some (chr '"') ∧
        ∀ num, nextToken num env s = ⟨skip s, (num env (skip s)).1, (num env (skip s)).2⟩ := by
  cases htype : ch2token ((skip s).headD 0) with
  | unknown =>
    simp only [nextToken, htype]
    exact nextUnknown_cases env (skip s)
  | _ =>
    refine .inl ⟨nextToken nextNumberToken env s, ?_, fun num => ?_⟩
    · simp only [nextToken, htype]
      trivial
    · simp only [nextToken, htype]

/-- The token of the original is a number where this one is a string. -/
structure Alike (t t' : Next ν) : Prop where
  place : t'.place = t.place
  rest : t'.rest = t.rest
  token : t'.token = t.token ∨ ∃ x str, t.token = .number x ∧ t'.token = .string str

theorem nextToken_alike (env : Env ν) (s : List Byte) :
    Alike (nextToken nextNumberTokenLib env s) (nextToken nextNumberToken env s) := by
  rcases nextToken_cases env s with ⟨t, -, ht⟩ | ⟨-, ht⟩
  · rw [ht, ht]
    exact ⟨rfl, rfl, .inl rfl⟩
  · rw [ht, ht, nextNumberToken, nextNumberTokenLib]
    dsimp only
    split
    · exact ⟨rfl, rfl, .inl rfl⟩
    · split
      · exact ⟨rfl, rfl, .inr ⟨_, _, rfl, rfl⟩⟩
      · exact ⟨rfl, rfl, .inl rfl⟩

/-- A number token of more than 14 characters. -/
def LongNumber (env : Env ν) (s : List Byte) : Prop :=
  (∃ x, (nextToken nextNumberTokenLib env s).token = .number x) ∧ 14 < (env.strtod (skip s)).2

/-- What the original takes for a string is quoted. -/
theorem quoted_of_string {env : Env ν} {s str : List Byte}
    (h : (nextToken nextNumberTokenLib env s).token = .string str) :
    (nextToken nextNumberTokenLib env s).Quoted := by
  rcases nextToken_cases env s with ⟨t, hplain, ht⟩ | ⟨-, ht⟩
  · rw [ht] at h ⊢
    exact hplain.quoted h
  · simp only [ht, nextNumberTokenLib] at h
    split at h <;> cases h

/-- What it takes for a number is not. -/
theorem not_quoted_of_number {env : Env ν} {s : List Byte} {x : ν}
    (h : (nextToken nextNumberTokenLib env s).token = .number x) :
    ¬ (nextToken nextNumberTokenLib env s).Quoted := by
  rcases nextToken_cases env s with ⟨t, hplain, ht⟩ | ⟨hhead, ht⟩
  · rw [ht] at h
    exact absurd h (hplain.not_number x)
  · rw [ht]
    exact hhead

/-- A string without quotes is a long number. -/
theorem longNumber_iff {env : Env ν} {s str : List Byte}
    (h : (nextToken nextNumberToken env s).token = .string str) :
    LongNumber env s ↔ ¬ (nextToken nextNumberToken env s).Quoted := by
  rcases nextToken_cases env s with ⟨t, hplain, ht⟩ | ⟨hhead, ht⟩
  · rw [ht] at h
    have hquoted := hplain.quoted h
    rw [LongNumber, ht, ht]
    refine iff_of_false ?_ (fun hno => hno hquoted)
    intro h
    obtain ⟨⟨x, hx⟩, -⟩ := h
    exact hplain.not_number x hx
  · refine iff_of_true ?_ (by rw [ht]; exact hhead)
    rw [LongNumber, ht]
    simp only [ht, nextNumberToken] at h
    split at h
    · cases h
    · next hne =>
      split at h
      · next hlong =>
        exact ⟨⟨(env.strtod (skip s)).1, by simp only [nextNumberTokenLib, if_neg hne]⟩, hlong⟩
      · cases h

/-! ## Progress -/

/-- Behind the token there is less text. -/
def Shortens (s : List Byte) (token : Token ν) (rest : List Byte) : Prop :=
  token.Proceeds → rest.length < s.length

theorem stringLoop_length (s tmp : List Byte) {str rest : List Byte}
    (h : stringLoop s tmp = .ok (str, rest)) : rest.length < s.length := by
  fun_induction stringLoop s tmp with
  | case1 | case3 | case5 | case6 => cases h
  | case2 =>
    -- The closing quote.
    obtain ⟨-, rfl⟩ := Prod.mk.inj (Except.ok.inj h)
    exact Nat.lt_succ_self _
  | case4 =>
    rename_i ih
    have hlt := ih h
    rw [List.length_drop] at hlt
    rw [List.length_cons]
    omega
  | case7 =>
    rename_i ih
    have hlt := ih h
    rw [List.length_tail] at hlt
    rw [List.length_cons]
    omega
  | case8 =>
    rename_i ih
    exact Nat.lt_succ_of_lt (ih h)

/-- A way to read numbers that takes at least one character for a number. -/
def NumberToken.Takes (num : NumberToken ν) : Prop :=
  ∀ env s, s ≠ [] → Shortens s (num env s).1 (num env s).2

theorem drop_length_lt {s : List Byte} {n : Nat} (hs : s ≠ []) (hn : n ≠ 0) :
    (s.drop n).length < s.length := by
  have hpos := List.length_pos_of_ne_nil hs
  rw [List.length_drop]
  omega

theorem takes_nextNumberToken : (nextNumberToken : NumberToken ν).Takes := by
  intro env s hs htok
  unfold nextNumberToken at htok ⊢
  dsimp only at htok ⊢
  split at htok
  · exact htok.elim
  · next hn =>
    rw [if_neg hn]
    split <;> exact drop_length_lt hs hn

theorem nextUnknown_shortens {num : NumberToken ν} (hnum : num.Takes) (env : Env ν) {s : List Byte}
    (hs : s ≠ []) : Shortens s (nextUnknown num env s).token (nextUnknown num env s).rest := by
  have hnumber := hnum env s hs
  by_cases hquote : s.headD 0 = chr '"'
  · rw [nextUnknown, if_pos hquote]
    cases hloop : stringLoop s.tail [] with
    | ok r =>
      intro _
      have hlt := stringLoop_length _ _ hloop
      rw [List.length_tail] at hlt
      exact Nat.lt_of_lt_of_le hlt (Nat.sub_le _ _)
    | error r => exact fun htok => htok.elim
  · simp only [nextUnknown, if_neg hquote]
    split_ifs
    · exact fun htok => htok.elim
    · exact hnumber
    · exact fun _ => drop_length_lt hs (by decide)
    · exact fun _ => drop_length_lt hs (by decide)
    · exact fun _ => drop_length_lt hs (by decide)
    · exact hnumber
    · exact fun htok => htok.elim

theorem nextToken_shortens {num : NumberToken ν} (hnum : num.Takes) (env : Env ν) (s : List Byte) :
    Shortens s (nextToken num env s).token (nextToken num env s).rest := by
  have hskip : (skip s).length ≤ s.length := (List.dropWhile_sublist _).length_le
  have hne : ch2token ((skip s).headD 0) ≠ .theEnd → skip s ≠ [] := by
    intro h hnil
    rw [hnil] at h
    exact h rfl
  have htail : skip s ≠ [] → (skip s).tail.length < s.length := fun h =>
    Nat.lt_of_lt_of_le (by simpa using drop_length_lt h Nat.one_ne_zero) hskip
  cases htype : ch2token ((skip s).headD 0) with
  | theEnd | string | number | boolean | null | whitespace | error =>
    simp only [nextToken, htype]
    exact fun htok => htok.elim
  | unknown =>
    simp only [nextToken, htype]
    exact fun htok => Nat.lt_of_lt_of_le
      (nextUnknown_shortens hnum env (hne (by rw [htype]; decide)) htok) hskip
  | objBegin | objEnd | arrBegin | arrEnd | colon | comma =>
    simp only [nextToken, htype]
    exact fun _ => htail (hne (by rw [htype]; decide))

end EventServer.Json
