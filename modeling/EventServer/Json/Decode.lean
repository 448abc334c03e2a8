import EventServer.Json.Token

/-!
# `json_decode`

The parser reads tokens one by one, calls Lua as it goes, and stops at the first
token that does not fit. The recursion runs on fuel, of which there is more than
characters. Besides the calls it is recorded where the tokens stand that are taken for
keys: this is not in the program.
-/
namespace EventServer.Json

open EventServer.Stream

variable {ν : Type}

/-- The calls that build the value on the Lua stack. -/
inductive LuaCall (ν : Type) where
  | newtable
  | pushlstring (s : List Byte)
  | pushnumber (x : ν)
  | pushboolean (b : Bool)
  /-- Null stands for itself. -/
  | pushlightuserdata
  | rawset
  | rawseti (i : Nat)
  deriving DecidableEq

/-- What is expected where another token is found. -/
inductive Expected where
  | value
  | theEnd
  | objectKeyString
  | colon
  | commaOrObjectEnd
  | commaOrArrayEnd
  deriving DecidableEq

def Expected.text : Expected → String
  | value => "value"
  | theEnd => "the end"
  | objectKeyString => "object key string"
  | colon => "colon"
  | commaOrObjectEnd => "comma or object end"
  | commaOrArrayEnd => "comma or array end"

/-- What `json_throw_parse_error` finds: the type of a token, or its error. -/
def Token.found : Token ν → TokenType ⊕ TokenError
  | objBegin => .inl .objBegin
  | objEnd => .inl .objEnd
  | arrBegin => .inl .arrBegin
  | arrEnd => .inl .arrEnd
  | string _ => .inl .string
  | number _ => .inl .number
  | boolean _ => .inl .boolean
  | null => .inl .null
  | colon => .inl .colon
  | comma => .inl .comma
  | theEnd => .inl .theEnd
  | error e => .inr e

inductive Error where
  /-- The place of the token counts from 0 here. -/
  | parse (exp : Expected) (found : TokenType ⊕ TokenError) (index : Nat)
  | tooManyNested (depth place : Nat)
  | utf16
  /-- The fuel of the recursion is used up: not in the program. -/
  | exhausted
  deriving DecidableEq

/-- The texts of `luaL_error`. -/
def Error.message : Error → String
  | parse exp found index =>
    "Expected " ++ exp.text ++ " but found " ++ found.elim TokenType.name TokenError.text ++
      " at character " ++ toString (index + 1)
  | tooManyNested depth place =>
    "Found too many nested data structures (" ++ toString depth ++ ") at character " ++
      toString place
  | utf16 => "JSON parser does not support UTF-16 or UTF-32"
  | exhausted => ""

/-- The calls that were made, and the places of the tokens that became keys. -/
structure Out (ν : Type) where
  calls : List (LuaCall ν)
  keys : List (List Byte)
  deriving DecidableEq

namespace Out

def append (a b : Out ν) : Out ν := ⟨a.calls ++ b.calls, a.keys ++ b.keys⟩

instance : Append (Out ν) := ⟨append⟩

def call (c : LuaCall ν) : Out ν := ⟨[c], []⟩

/-- The string of a token is pushed as a key. -/
def key (place s : List Byte) : Out ν := ⟨[.pushlstring s], [place]⟩

@[simp] theorem keys_append (a b : Out ν) : (a ++ b).keys = a.keys ++ b.keys := rfl
@[simp] theorem keys_call (c : LuaCall ν) : (call c).keys = [] := rfl
@[simp] theorem keys_key (place s : List Byte) : (key place s : Out ν).keys = [place] := rfl

end Out

/-- `json_throw_parse_error()` in a text of `size` bytes. -/
def throwParseError {α : Type} (size : Nat) (exp : Expected) (t : Next ν) : Except Error α :=
  .error (.parse exp t.token.found (size - t.place.length))

/-- `json_decode_descend()`: the new depth. -/
def descend (env : Env ν) (size depth top slots : Nat) (s : List Byte) : Except Error Nat :=
  if depth + 1 ≤ env.cfg.decodeMaxDepth ∧ env.checkstack top slots then .ok (depth + 1)
  else .error (.tooManyNested (depth + 1) (size - s.length))

section Parser

variable (size : Nat) (next : List Byte → Next ν)

/-- The loop of `json_parse_object_context()`; `value` is `json_process_value`. -/
def objectLoop (value : Next ν → Except Error (Out ν × List Byte)) :
    Nat → Next ν → Except Error (Out ν × List Byte)
  | 0, _ => .error .exhausted
  | fuel + 1, t =>
    match t.token with
    | .string k =>
      let c := next t.rest
      match c.token with
      | .colon => do
        let (out, s) ← value (next c.rest)
        let out := Out.key t.place k ++ out ++ Out.call .rawset
        let e := next s
        match e.token with
        | .objEnd => return (out, e.rest)
        | .comma =>
          let (more, s) ← objectLoop value fuel (next e.rest)
          return (out ++ more, s)
        | _ => throwParseError size .commaOrObjectEnd e
      | _ => throwParseError size .colon c
    | _ => throwParseError size .objectKeyString t

/-- The loop of `json_parse_array_context()` from the element `i` on. -/
def arrayLoop (value : Next ν → Except Error (Out ν × List Byte)) :
    Nat → Nat → Next ν → Except Error (Out ν × List Byte)
  | 0, _, _ => .error .exhausted
  | fuel + 1, i, t => do
    let (out, s) ← value t
    let out := out ++ Out.call (.rawseti i)
    let e := next s
    match e.token with
    | .arrEnd => return (out, e.rest)
    | .comma =>
      let (more, s) ← arrayLoop value fuel (i + 1) (next e.rest)
      return (out ++ more, s)
    | _ => throwParseError size .commaOrArrayEnd e

/-- `json_process_value()` with the contexts it enters; `top` is the number of stack slots in
use. -/
def processValue (env : Env ν) : Nat → Nat → Nat → Next ν → Except Error (Out ν × List Byte)
  | 0, _, _, _ => .error .exhausted
  | fuel + 1, depth, top, t =>
    match t.token with
    | .string s => .ok (Out.call (.pushlstring s), t.rest)
    | .number x => .ok (Out.call (.pushnumber x), t.rest)
    | .boolean b => .ok (Out.call (.pushboolean b), t.rest)
    | .null => .ok (Out.call .pushlightuserdata, t.rest)
    | .objBegin => do
      let depth ← descend env size depth top 3 t.rest
      let first := next t.rest
      match first.token with
      | .objEnd => return (Out.call .newtable, first.rest)
      | _ =>
        let (out, s) ← objectLoop size next (processValue env fuel depth (top + 2)) fuel first
        return (Out.call .newtable ++ out, s)
    | .arrBegin => do
      let depth ← descend env size depth top 2 t.rest
      let first := next t.rest
      match first.token with
      | .arrEnd => return (Out.call .newtable, first.rest)
      | _ =>
        let (out, s) ← arrayLoop size next (processValue env fuel depth (top + 1)) fuel 1 first
        return (Out.call .newtable ++ out, s)
    | _ => throwParseError size .value t

end Parser

/-- `json_decode()` of a string. -/
def decode (num : NumberToken ν) (env : Env ν) (text : List Byte) : Except Error (Out ν) :=
  if 2 ≤ text.length ∧ (text.headD 0 = 0 ∨ text.tail.headD 0 = 0) then .error .utf16
  else do
    let next := nextToken num env
    let (out, s) ← processValue text.length next env (text.length + 1) 0 1 (next text)
    let t := next s
    match t.token with
    | .theEnd => return out
    | _ => throwParseError text.length .theEnd t

/-! ## Runs that succeed -/

/-- The run succeeds with these keys, and the next token is read there. -/
def Yields (x : Except Error (Out ν × List Byte)) (keys : List (List Byte)) (r : List Byte) :
    Prop := ∃ out, x = .ok (out, r) ∧ out.keys = keys

theorem yields_ok {out : Out ν} {s r : List Byte} {keys : List (List Byte)} :
    Yields (.ok (out, s)) keys r ↔ out.keys = keys ∧ s = r := by
  constructor
  · intro h
    obtain ⟨out', h, hkeys⟩ := h
    obtain ⟨rfl, rfl⟩ := Prod.mk.inj (Except.ok.inj h)
    exact ⟨hkeys, rfl⟩
  · intro h
    obtain ⟨hkeys, rfl⟩ := h
    exact ⟨out, rfl, hkeys⟩

theorem not_yields_error {e : Error} {r : List Byte} {keys : List (List Byte)} :
    ¬ Yields (.error e : Except Error (Out ν × List Byte)) keys r := by
  intro h
  obtain ⟨out, h, -⟩ := h
  cases h

/-- A run that goes on behind another one. -/
theorem yields_bind {x : Except Error (Out ν × List Byte)}
    {f : Out ν × List Byte → Except Error (Out ν × List Byte)} {keys : List (List Byte)}
    {r : List Byte} :
    Yields (x >>= f) keys r ↔ ∃ out s, x = .ok (out, s) ∧ Yields (f (out, s)) keys r := by
  cases x with
  | error e =>
    refine iff_of_false not_yields_error fun h => ?_
    obtain ⟨out, s, h, -⟩ := h
    cases h
  | ok p =>
    constructor
    · exact fun h => ⟨p.1, p.2, rfl, h⟩
    · intro h
      obtain ⟨out, s, hp, h⟩ := h
      obtain rfl := Except.ok.inj hp
      exact h

variable {size : Nat} {next : List Byte → Next ν}

/-- An object key, a colon and a value, and then the end of the object or another key. -/
theorem objectLoop_yields {value : Next ν → Except Error (Out ν × List Byte)} {fuel : Nat}
    {t : Next ν} {keys : List (List Byte)} {r : List Byte} :
    Yields (objectLoop size next value (fuel + 1) t) keys r ↔
      ∃ k, t.token = .string k ∧ (next t.rest).token = .colon ∧
        ∃ inner s, Yields (value (next (next t.rest).rest)) inner s ∧
          ((next s).token = .objEnd ∧ keys = t.place :: inner ∧ (next s).rest = r ∨
            (next s).token = .comma ∧ ∃ more,
              Yields (objectLoop size next value fuel (next (next s).rest)) more r ∧
                keys = t.place :: inner ++ more) := by
  constructor
  · intro h
    rw [objectLoop] at h
    split at h
    · next k hkey =>
      dsimp only at h
      split at h
      · next hcolon =>
        obtain ⟨out, s, hv, h⟩ := yields_bind.mp h
        refine ⟨k, hkey, hcolon, out.keys, s, ⟨out, hv, rfl⟩, ?_⟩
        dsimp only at h
        split at h
        · next htok =>
          obtain ⟨hkeys, hr⟩ := yields_ok.mp h
          exact .inl ⟨htok, by simpa using hkeys.symm, hr⟩
        · next htok =>
          obtain ⟨more, s', hloop, hrest⟩ := yields_bind.mp h
          obtain ⟨hkeys, rfl⟩ := yields_ok.mp hrest
          exact .inr ⟨htok, more.keys, ⟨more, hloop, rfl⟩, by simpa using hkeys.symm⟩
        · exact absurd h not_yields_error
      · exact absurd h not_yields_error
    · exact absurd h not_yields_error
  · intro h
    obtain ⟨k, hkey, hcolon, inner, s, ⟨out, hv, rfl⟩, h⟩ := h
    simp only [objectLoop, hkey, hcolon]
    refine yields_bind.mpr ⟨out, s, hv, ?_⟩
    dsimp only
    rcases h with ⟨htok, rfl, hr⟩ | ⟨htok, more, ⟨out', hloop, rfl⟩, rfl⟩
    · rw [htok]
      exact yields_ok.mpr ⟨by simp, hr⟩
    · rw [htok]
      exact yields_bind.mpr ⟨out', r, hloop, yields_ok.mpr ⟨by simp, rfl⟩⟩

/-- A value, and then the end of the array or another value. -/
theorem arrayLoop_yields {value : Next ν → Except Error (Out ν × List Byte)} {fuel i : Nat}
    {t : Next ν} {keys : List (List Byte)} {r : List Byte} :
    Yields (arrayLoop size next value (fuel + 1) i t) keys r ↔
      ∃ inner s, Yields (value t) inner s ∧
        ((next s).token = .arrEnd ∧ keys = inner ∧ (next s).rest = r ∨
          (next s).token = .comma ∧ ∃ more,
            Yields (arrayLoop size next value fuel (i + 1) (next (next s).rest)) more r ∧
              keys = inner ++ more) := by
  rw [arrayLoop, yields_bind]
  constructor
  · intro h
    obtain ⟨out, s, hv, h⟩ := h
    refine ⟨out.keys, s, ⟨out, hv, rfl⟩, ?_⟩
    dsimp only at h
    split at h
    · next htok =>
      obtain ⟨hkeys, hr⟩ := yields_ok.mp h
      exact .inl ⟨htok, by simpa using hkeys.symm, hr⟩
    · next htok =>
      obtain ⟨more, s', hloop, hrest⟩ := yields_bind.mp h
      obtain ⟨hkeys, rfl⟩ := yields_ok.mp hrest
      exact .inr ⟨htok, more.keys, ⟨more, hloop, rfl⟩, by simpa using hkeys.symm⟩
    · exact absurd h not_yields_error
  · intro h
    obtain ⟨inner, s, ⟨out, hv, rfl⟩, h⟩ := h
    refine ⟨out, s, hv, ?_⟩
    dsimp only
    rcases h with ⟨htok, rfl, hr⟩ | ⟨htok, more, ⟨out', hloop, rfl⟩, rfl⟩
    · rw [htok]
      exact yields_ok.mpr ⟨by simp, hr⟩
    · rw [htok]
      exact yields_bind.mpr ⟨out', r, hloop, yields_ok.mpr ⟨by simp, rfl⟩⟩

/-- A token that is a value by itself. -/
def Token.Scalar : Token ν → Prop
  | string _ | number _ | boolean _ | null => True
  | _ => False

/-- `json_decode_descend()` returns. -/
def Descends (env : Env ν) (depth top slots : Nat) : Prop :=
  depth + 1 ≤ env.cfg.decodeMaxDepth ∧ env.checkstack top slots

theorem descend_of_descends {env : Env ν} {depth top slots : Nat} (h : Descends env depth top slots)
    (s : List Byte) : descend env size depth top slots s = .ok (depth + 1) := if_pos h

theorem descend_bind_yields {env : Env ν} {depth top slots : Nat} {s r : List Byte}
    {f : Nat → Except Error (Out ν × List Byte)} {keys : List (List Byte)} :
    Yields (descend env size depth top slots s >>= f) keys r ↔
      Descends env depth top slots ∧ Yields (f (depth + 1)) keys r := by
  by_cases h : Descends env depth top slots
  · rw [descend_of_descends h]
    exact (and_iff_right h).symm
  · have hfail : descend env size depth top slots s =
        .error (.tooManyNested (depth + 1) (size - s.length)) := if_neg h
    rw [hfail]
    exact iff_of_false not_yields_error fun hno => h hno.1

theorem yields_newtable {x : Except Error (Out ν × List Byte)} {keys : List (List Byte)}
    {r : List Byte} :
    Yields (x >>= fun p => pure (Out.call .newtable ++ p.1, p.2)) keys r ↔ Yields x keys r := by
  constructor
  · intro h
    obtain ⟨out, s, hx, h⟩ := yields_bind.mp h
    obtain ⟨hkeys, rfl⟩ := yields_ok.mp h
    exact ⟨out, hx, by simpa using hkeys⟩
  · intro h
    obtain ⟨out, hx, rfl⟩ := h
    exact yields_bind.mpr ⟨out, r, hx, yields_ok.mpr ⟨by simp, rfl⟩⟩

/-- A value: one token, or an object or an array. -/
theorem processValue_yields {env : Env ν} {fuel depth top : Nat} {t : Next ν}
    {keys : List (List Byte)} {r : List Byte} :
    Yields (processValue size next env (fuel + 1) depth top t) keys r ↔
      t.token.Scalar ∧ keys = [] ∧ t.rest = r ∨
        (t.token = .objBegin ∧ Descends env depth top 3 ∧
          ((next t.rest).token = .objEnd ∧ keys = [] ∧ (next t.rest).rest = r ∨
            (next t.rest).token ≠ .objEnd ∧
              Yields (objectLoop size next (processValue size next env fuel (depth + 1) (top + 2))
                fuel (next t.rest)) keys r)) ∨
        (t.token = .arrBegin ∧ Descends env depth top 2 ∧
          ((next t.rest).token = .arrEnd ∧ keys = [] ∧ (next t.rest).rest = r ∨
            (next t.rest).token ≠ .arrEnd ∧
              Yields (arrayLoop size next (processValue size next env fuel (depth + 1) (top + 1))
                fuel 1 (next t.rest)) keys r)) := by
  cases htok : t.token with
  | string | number | boolean | null =>
    simp [processValue, htok, Token.Scalar, yields_ok, eq_comm]
  | objEnd | arrEnd | colon | comma | theEnd | error =>
    simp [processValue, htok, Token.Scalar, throwParseError, not_yields_error]
  | objBegin =>
    simp only [processValue, htok, descend_bind_yields, Token.Scalar, false_and, false_or, true_and,
      reduceCtorEq, or_false]
    refine and_congr_right fun _ => ?_
    split
    · next hend => exact yields_ok.trans (by simp [hend, eq_comm])
    · next hne =>
      rw [or_iff_right (fun h => hne h.1), and_iff_right hne]
      exact yields_newtable
  | arrBegin =>
    simp only [processValue, htok, descend_bind_yields, Token.Scalar, false_and, false_or, true_and,
      reduceCtorEq]
    refine and_congr_right fun _ => ?_
    split
    · next hend => exact yields_ok.trans (by simp [hend, eq_comm])
    · next hne =>
      rw [or_iff_right (fun h => hne h.1), and_iff_right hne]
      exact yields_newtable

/-- A text is accepted with these keys. -/
def Accepts (num : NumberToken ν) (env : Env ν) (text : List Byte) (keys : List (List Byte)) : Prop :=
  ∃ out, decode num env text = .ok out ∧ out.keys = keys

/-- The text is a value and nothing else, and is not taken for UTF-16 or UTF-32. -/
theorem accepts_iff {num : NumberToken ν} {env : Env ν} {text : List Byte}
    {keys : List (List Byte)} :
    Accepts num env text keys ↔
      ¬ (2 ≤ text.length ∧ (text.headD 0 = 0 ∨ text.tail.headD 0 = 0)) ∧
        ∃ r, Yields (processValue text.length (nextToken num env) env (text.length + 1) 0 1
          (nextToken num env text)) keys r ∧ (nextToken num env r).token = .theEnd := by
  unfold Accepts decode
  split
  · next hwide =>
    refine iff_of_false (fun h => ?_) fun h => h.1 hwide
    obtain ⟨out, h, -⟩ := h
    cases h
  · next hwide =>
    rw [and_iff_right hwide]
    dsimp only
    constructor
    · intro h
      obtain ⟨out, h, hkeys⟩ := h
      cases hv : processValue text.length (nextToken num env) env (text.length + 1) 0 1
          (nextToken num env text) with
      | error e =>
        rw [hv] at h
        cases h
      | ok p =>
        simp only [hv, bind, Except.bind] at h
        split at h
        · next hend =>
          obtain rfl := Except.ok.inj h
          exact ⟨p.2, ⟨p.1, rfl, hkeys⟩, hend⟩
        · cases h
    · intro h
      obtain ⟨r, ⟨out, hv, hkeys⟩, hend⟩ := h
      refine ⟨out, ?_, hkeys⟩
      simp only [hv, hend, bind, Except.bind]
      rfl

/-! ## Enough fuel -/

/-- The run has enough fuel, and leaves at most so many characters. -/
def Fueled (x : Except Error (Out ν × List Byte)) (n : Nat) : Prop :=
  x ≠ .error .exhausted ∧ ∀ out r, x = .ok (out, r) → r.length ≤ n

theorem fueled_ok {out : Out ν} {s : List Byte} {n : Nat} (h : s.length ≤ n) :
    Fueled (.ok (out, s)) n := by
  refine ⟨nofun, fun out' r hr => ?_⟩
  obtain ⟨-, rfl⟩ := Prod.mk.inj (Except.ok.inj hr)
  exact h

theorem fueled_error {e : Error} (h : e ≠ .exhausted) (n : Nat) :
    Fueled (.error e : Except Error (Out ν × List Byte)) n :=
  ⟨fun he => h (Except.error.inj he), nofun⟩

theorem fueled_parse (size : Nat) (exp : Expected) (t : Next ν) (n : Nat) :
    Fueled (throwParseError size exp t : Except Error (Out ν × List Byte)) n := by
  rw [throwParseError]
  refine fueled_error ?_ n
  nofun

theorem fueled_bind {x : Except Error (Out ν × List Byte)}
    {f : Out ν × List Byte → Except Error (Out ν × List Byte)} {m n : Nat} (hx : Fueled x m)
    (hf : ∀ out s, s.length ≤ m → Fueled (f (out, s)) n) : Fueled (x >>= f) n := by
  cases x with
  | error e => exact fueled_error (fun he => hx.1 (congrArg _ he)) n
  | ok p => exact hf p.1 p.2 (hx.2 p.1 p.2 rfl)

theorem descend_fueled {env : Env ν} {size depth top slots n : Nat} {r : List Byte}
    {f : Nat → Except Error (Out ν × List Byte)} (hf : ∀ d, Fueled (f d) n) :
    Fueled (descend env size depth top slots r >>= f) n := by
  unfold descend
  split
  · exact hf _
  · refine fueled_error ?_ _
    nofun

section Fuel

variable (hnext : ∀ s, Json.Shortens s (next s).token (next s).rest)
  {value : Next ν → Except Error (Out ν × List Byte)} {limit : Nat}
  (hvalue : ∀ s : List Byte, s.length < limit → Fueled (value (next s)) s.length)

include hnext in
theorem rest_lt {s : List Byte} {tok : Token ν} (h : (next s).token = tok) (hp : tok.Proceeds) :
    (next s).rest.length < s.length := hnext s (by rwa [h])

include hnext hvalue in
theorem objectLoop_fueled (fuel : Nat) (s : List Byte) (hs : s.length < fuel) (hf : fuel ≤ limit) :
    Fueled (objectLoop size next value fuel (next s)) s.length := by
  induction fuel generalizing s with
  | zero => omega
  | succ fuel ih =>
    rw [objectLoop]
    split
    · next k hkey =>
      have hk := rest_lt hnext hkey trivial
      dsimp only
      split
      · next hcolon =>
        have hc := rest_lt hnext hcolon trivial
        refine fueled_bind (hvalue _ (by omega)) fun out r hr => ?_
        dsimp only
        split
        · next hend =>
          have he := rest_lt hnext hend trivial
          exact fueled_ok (by omega)
        · next hcomma =>
          have he := rest_lt hnext hcomma trivial
          exact fueled_bind (ih _ (by omega) (by omega)) fun _ _ hr' => fueled_ok (hr'.trans (by omega))
        · exact fueled_parse _ _ _ _
      · exact fueled_parse _ _ _ _
    · exact fueled_parse _ _ _ _

include hnext hvalue in
theorem arrayLoop_fueled (fuel i : Nat) (s : List Byte) (hs : s.length < fuel) (hf : fuel ≤ limit) :
    Fueled (arrayLoop size next value fuel i (next s)) s.length := by
  induction fuel generalizing s i with
  | zero => omega
  | succ fuel ih =>
    rw [arrayLoop]
    refine fueled_bind (hvalue _ (by omega)) fun out r hr => ?_
    dsimp only
    split
    · next hend =>
      have he := rest_lt hnext hend trivial
      exact fueled_ok (by omega)
    · next hcomma =>
      have he := rest_lt hnext hcomma trivial
      exact fueled_bind (ih _ _ (by omega) (by omega)) fun _ _ hr' => fueled_ok (hr'.trans (by omega))
    · exact fueled_parse _ _ _ _

include hnext in
theorem processValue_fueled (env : Env ν) (fuel depth top : Nat) (s : List Byte)
    (hs : s.length < fuel) :
    Fueled (processValue size next env fuel depth top (next s)) s.length := by
  induction fuel generalizing depth top s with
  | zero => omega
  | succ fuel ih =>
    rw [processValue]
    split
    · next htok => exact fueled_ok (rest_lt hnext htok trivial).le
    · next htok => exact fueled_ok (rest_lt hnext htok trivial).le
    · next htok => exact fueled_ok (rest_lt hnext htok trivial).le
    · next htok => exact fueled_ok (rest_lt hnext htok trivial).le
    · next htok =>
      have hbegin := rest_lt hnext htok trivial
      refine descend_fueled fun d => ?_
      dsimp only
      split
      · next hend =>
        have he := rest_lt hnext hend trivial
        exact fueled_ok (by omega)
      · exact fueled_bind (objectLoop_fueled hnext (ih _ _) fuel _ (by omega) le_rfl)
          fun _ _ hr => fueled_ok (hr.trans (by omega))
    · next htok =>
      have hbegin := rest_lt hnext htok trivial
      refine descend_fueled fun d => ?_
      dsimp only
      split
      · next hend =>
        have he := rest_lt hnext hend trivial
        exact fueled_ok (by omega)
      · exact fueled_bind (arrayLoop_fueled hnext (ih _ _) fuel 1 _ (by omega) le_rfl)
          fun _ _ hr => fueled_ok (hr.trans (by omega))
    · exact fueled_parse _ _ _ _

end Fuel

/-- The fuel of the recursion is never used up. -/
theorem decode_ne_exhausted {num : NumberToken ν} (hnum : num.Takes) (env : Env ν)
    (text : List Byte) : decode num env text ≠ .error .exhausted := by
  have hrun : Fueled (processValue text.length (nextToken num env) env (text.length + 1) 0 1
      (nextToken num env text)) text.length :=
    processValue_fueled (nextToken_shortens hnum env) env _ 0 1 text (Nat.lt_succ_self _)
  unfold decode
  split
  · nofun
  · intro h
    cases hv : processValue text.length (nextToken num env) env (text.length + 1) 0 1
        (nextToken num env text) with
    | error e =>
      simp only [hv, bind, Except.bind, Except.error.injEq] at h
      exact hrun.1 (by rw [hv, h])
    | ok p =>
      simp only [hv, bind, Except.bind] at h
      split at h
      · cases h
      · cases h

end EventServer.Json
