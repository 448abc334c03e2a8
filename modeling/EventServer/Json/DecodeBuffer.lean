import EventServer.Json.Keys
import EventServer.Json.Strbuf
import EventServer.Lib.Transition

/-!
# The buffer of the decoder

A token is collected in a buffer that is made as long as the whole text, and written
to without checks.
-/
namespace EventServer.Json

open EventServer.Lib.Blocks EventServer.Lib.CInt EventServer.Lib.CString EventServer.Lib.Decimal
open EventServer.Lib.Transition EventServer.Stream

variable {ν : Type}

/-- The loop of `json_next_string_token()`: the place behind the string, or an error and its place. -/
def stringLoopBuf (s : List Byte) (tmp : Strbuf) :
    Option (Except (TokenError × List Byte) (List Byte) × Strbuf) :=
  match s with
  | [] => some (.error (.unexpectedEndOfString, []), tmp)
  | ch :: rest =>
    if ch = chr '"' then some (.ok rest, tmp)
    else if ch = 0 then some (.error (.unexpectedEndOfString, ch :: rest), tmp)
    else if ch = chr '\\' then
      let esc := escape2char (rest.headD 0)
      if esc = chr 'u' then
        match unicodeEscape (ch :: rest) with
        | some (utf8, escapeLen) => do
          let tmp ← tmp.put utf8
          stringLoopBuf (rest.drop (escapeLen - 1)) tmp
        | none => some (.error (.invalidUnicodeEscapeCode, ch :: rest), tmp)
      else if esc = 0 then some (.error (.invalidEscapeCode, ch :: rest), tmp)
      else do
        let tmp ← tmp.put [esc]
        stringLoopBuf rest.tail tmp
    else do
      let tmp ← tmp.put [ch]
      stringLoopBuf rest tmp
termination_by s.length
decreasing_by
  all_goals
    simp only [List.length_cons, List.length_drop, List.length_tail]
    omega

/-- `json_next_string_token()`. -/
def nextStringTokenBuf (s : List Byte) (tmp : Strbuf) : Option (Next ν × Strbuf) := do
  let (r, tmp) ← stringLoopBuf s.tail tmp.reset
  match r with
  | .ok rest => do
    let tmp ← tmp.ensureNull
    return (⟨s, .string tmp.string, rest⟩, tmp)
  | .error (e, place) => return (⟨place, .error e, place⟩, tmp)

/-- `json_next_number_token()`. -/
def nextNumberTokenBuf (env : Env ν) (s : List Byte) (tmp : Strbuf) :
    Option ((Token ν × List Byte) × Strbuf) :=
  let (number, n) := env.strtod s
  if n = 0 then some ((.error .invalidNumber, s), tmp)
  else if n > 14 then do
    let tmp ← (s.take n).foldlM (fun tmp ch => tmp.put [ch]) tmp.reset
    let tmp ← tmp.ensureNull
    return ((.string tmp.string, s.drop n), tmp)
  else some ((.number number, s.drop n), tmp)

/-- The branches of `json_next_token()` for a character of type `T_UNKNOWN`. -/
def nextUnknownBuf (env : Env ν) (s : List Byte) (tmp : Strbuf) : Option (Next ν × Strbuf) :=
  let number : Option (Next ν × Strbuf) :=
    (nextNumberTokenBuf env s tmp).map fun r => (⟨s, r.1.1, r.1.2⟩, r.2)
  if s.headD 0 = chr '"' then nextStringTokenBuf s tmp
  else if s.headD 0 = chr '-' ∨ isDigit (s.headD 0) then
    if !env.cfg.decodeInvalidNumbers && isInvalidNumber s then
      some (⟨s, .error .invalidNumber, s⟩, tmp)
    else number
  else if lit ['t', 'r', 'u', 'e'] <+: s then some (⟨s, .boolean true, s.drop 4⟩, tmp)
  else if lit ['f', 'a', 'l', 's', 'e'] <+: s then some (⟨s, .boolean false, s.drop 5⟩, tmp)
  else if lit ['n', 'u', 'l', 'l'] <+: s then some (⟨s, .null, s.drop 4⟩, tmp)
  else if env.cfg.decodeInvalidNumbers && isInvalidNumber s then number
  else some (⟨s, .error .invalidToken, s⟩, tmp)

/-- `json_next_token()`. -/
def nextTokenBuf (env : Env ν) (tmp : Strbuf) (s : List Byte) : Option (Strbuf × Next ν) :=
  let s := skip s
  match ch2token (s.headD 0) with
  | .theEnd => some (tmp, ⟨s, .theEnd, s⟩)
  | .objBegin => some (tmp, ⟨s, .objBegin, s.tail⟩)
  | .objEnd => some (tmp, ⟨s, .objEnd, s.tail⟩)
  | .arrBegin => some (tmp, ⟨s, .arrBegin, s.tail⟩)
  | .arrEnd => some (tmp, ⟨s, .arrEnd, s.tail⟩)
  | .colon => some (tmp, ⟨s, .colon, s.tail⟩)
  | .comma => some (tmp, ⟨s, .comma, s.tail⟩)
  | .unknown => (nextUnknownBuf env s tmp).map fun r => (r.2, r.1)
  | _ => some (tmp, ⟨s, .error .invalidToken, s⟩)

/-! ## No token is longer than its text -/

theorem length_codepointToUtf8 (codepoint : Nat) : (codepointToUtf8 codepoint).length ≤ 4 := by
  unfold codepointToUtf8
  split_ifs <;> simp only [List.length_cons, List.length_nil] <;> decide

theorem length_of_decodeHex4 {s : List Byte} {n : Nat} (h : decodeHex4 s = some n) :
    4 ≤ s.length := by
  rcases s with _ | ⟨a, _ | ⟨b, _ | ⟨c, _ | ⟨d, s⟩⟩⟩⟩
  · cases h
  · cases h
  · cases h
  · cases h
  · simp only [List.length_cons]
    omega

/-- An escape has more characters than bytes. -/
theorem unicodeEscape_length {s utf8 : List Byte} {n : Nat}
    (h : unicodeEscape s = some (utf8, n)) : utf8.length ≤ 4 ∧ 6 ≤ n ∧ n ≤ s.length := by
  have hutf8 : ∀ {codepoint len : Nat}, (if codepointToUtf8 codepoint = [] then none
      else some (codepointToUtf8 codepoint, len)) = some (utf8, n) →
      utf8.length ≤ 4 ∧ n = len := by
    intro codepoint len h
    split_ifs at h
    obtain ⟨rfl, rfl⟩ := Prod.mk.inj (Option.some.inj h)
    exact ⟨length_codepointToUtf8 codepoint, rfl⟩
  obtain ⟨codepoint, hfirst, h⟩ := Option.bind_eq_some_iff.mp h
  have hsix := length_of_decodeHex4 hfirst
  rw [List.length_drop] at hsix
  dsimp only at h
  split_ifs at h
  · cases h
  · cases h
  · -- A second escape follows.
    obtain ⟨low, hlow, h⟩ := Option.bind_eq_some_iff.mp h
    have htwelve := length_of_decodeHex4 hlow
    rw [List.length_drop] at htwelve
    split_ifs at h
    · cases h
    · rw [Option.bind_eq_bind, Option.bind_some] at h
      obtain ⟨hfour, rfl⟩ := hutf8 h
      omega
  · obtain ⟨hfour, rfl⟩ := hutf8 h
    omega

section Room

variable {tmp : Strbuf}

/-- The loop collects what it collects in a list, where there is room for what is left of the text. -/
theorem stringLoopBuf_spec (s str : List Byte) (h : tmp.Holds str)
    (hroom : str.length + s.length < tmp.buf.length) :
    ∃ tmp' str', stringLoopBuf s tmp = some ((stringLoop s str).map Prod.snd, tmp') ∧
      tmp'.Holds str' ∧ tmp'.buf.length = tmp.buf.length ∧
      ∀ r, stringLoop s str = .ok r → r.1 = str' := by
  fun_induction stringLoop s str generalizing tmp with
  | case1 str => exact ⟨tmp, str, by rw [stringLoopBuf]; rfl, h, rfl, by rintro _ ⟨⟩⟩
  | case2 str rest =>
    refine ⟨tmp, str, by rw [stringLoopBuf, if_pos rfl]; rfl, h, rfl, ?_⟩
    rintro _ ⟨⟩
    rfl
  | case3 str rest hquote =>
    refine ⟨tmp, str, by rw [stringLoopBuf, if_neg hquote, if_pos rfl]; rfl, h, rfl, ?_⟩
    rintro _ ⟨⟩
  | case4 str rest esc hu utf8 n hquote hzero hescape =>
    rename_i ih
    -- The bytes of the escape have room where the escape stood.
    obtain ⟨hfour, hsix, hn⟩ := unicodeEscape_length hescape
    rw [List.length_cons] at hroom hn
    obtain ⟨tmp₁, h₁, hh₁, hlen₁⟩ := Strbuf.put_spec h (c := utf8) (by omega)
    obtain ⟨tmp', str', he, hh', hlen', hok⟩ := ih hh₁ (by
      rw [List.length_append, List.length_drop, hlen₁]
      omega)
    refine ⟨tmp', str', ?_, hh', hlen'.trans hlen₁, hok⟩
    rw [stringLoopBuf, if_neg hquote, if_neg hzero, if_pos rfl]
    simp only [esc] at hu
    simp only [hu, if_true, hescape]
    exact bind_eq_of_some h₁ he
  | case5 str rest esc hu hquote hzero =>
    rename_i hescape
    refine ⟨tmp, str, ?_, h, rfl, by rintro _ ⟨⟩⟩
    rw [stringLoopBuf, if_neg hquote, if_neg hzero, if_pos rfl]
    simp only [esc] at hu
    simp only [hu, if_true, hescape]
    rfl
  | case6 str rest esc hu hesc hquote =>
    rename_i hzero
    refine ⟨tmp, str, ?_, h, rfl, by rintro _ ⟨⟩⟩
    rw [stringLoopBuf, if_neg hquote, if_neg hzero, if_pos rfl]
    exact (if_neg hu).trans (if_pos hesc)
  | case7 str rest esc hu hesc hquote hzero =>
    rename_i ih
    rw [List.length_cons] at hroom
    obtain ⟨tmp₁, h₁, hh₁, hlen₁⟩ := Strbuf.put_spec h (c := [esc])
      (by rw [List.length_singleton]; omega)
    obtain ⟨tmp', str', he, hh', hlen', hok⟩ := ih hh₁ (by
      rw [List.length_append, List.length_singleton, List.length_tail, hlen₁]
      omega)
    refine ⟨tmp', str', ?_, hh', hlen'.trans hlen₁, hok⟩
    rw [stringLoopBuf, if_neg hquote, if_neg hzero, if_pos rfl]
    exact (if_neg hu).trans ((if_neg hesc).trans (bind_eq_of_some h₁ he))
  | case8 str ch rest hquote hzero hback ih =>
    rw [List.length_cons] at hroom
    obtain ⟨tmp₁, h₁, hh₁, hlen₁⟩ := Strbuf.put_spec h (c := [ch])
      (by rw [List.length_singleton]; omega)
    obtain ⟨tmp', str', he, hh', hlen', hok⟩ := ih hh₁ (by
      rw [List.length_append, List.length_singleton, hlen₁]
      omega)
    refine ⟨tmp', str', ?_, hh', hlen'.trans hlen₁, hok⟩
    rw [stringLoopBuf, if_neg hquote, if_neg hzero, if_neg hback]
    exact bind_eq_of_some h₁ he

/-- The terminator has a cell behind the text. -/
theorem ensureNull_spec {str : List Byte} (h : tmp.Holds str) :
    ∃ tmp', tmp.ensureNull = some tmp' ∧ tmp'.Holds str ∧ tmp'.buf.length = tmp.buf.length := by
  have hroom := h.room
  have hfit : tmp.length + [(0 : Byte)].length ≤ tmp.buf.length := by
    rw [h.length, List.length_singleton]
    omega
  have hlen : (splice tmp.buf tmp.length [0]).length = tmp.buf.length := by
    rw [splice_length (by omega)]
    omega
  refine ⟨{ tmp with buf := splice tmp.buf tmp.length [0] }, ?_, ⟨?_, h.length, ?_⟩, hlen⟩
  · rw [Strbuf.ensureNull, blit_of_fits hfit]
    rfl
  · rw [hlen]
    exact hroom
  · have htext : tmp.buf.take tmp.length = str := h.string
    rw [Strbuf.string, splice, htext, h.length, List.append_assoc, List.take_left]

theorem putLoop_spec {s str : List Byte} (h : tmp.Holds str)
    (hroom : str.length + s.length < tmp.buf.length) :
    ∃ tmp', s.foldlM (fun tmp ch => tmp.put [ch]) tmp = some tmp' ∧ tmp'.Holds (str ++ s) ∧
      tmp'.buf.length = tmp.buf.length := by
  induction s generalizing tmp str with
  | nil => exact ⟨tmp, rfl, by rwa [List.append_nil], rfl⟩
  | cons ch s ih =>
    rw [List.length_cons] at hroom
    obtain ⟨tmp₁, h₁, hh₁, hlen₁⟩ := Strbuf.put_spec h (c := [ch])
      (by rw [List.length_singleton]; omega)
    obtain ⟨tmp₂, h₂, hh₂, hlen₂⟩ := ih hh₁ (by
      rw [List.length_append, List.length_singleton, hlen₁]
      omega)
    refine ⟨tmp₂, ?_, by rwa [List.append_assoc] at hh₂, hlen₂.trans hlen₁⟩
    rw [List.foldlM_cons]
    exact bind_eq_of_some h₁ h₂

end Room

/-- A buffer for every token of a text of `size` bytes. -/
structure RoomFor (size : Nat) (tmp : Strbuf) : Prop where
  holds : ∃ str, tmp.Holds str
  room : size < tmp.buf.length

section Token

variable {size : Nat} {tmp : Strbuf} (h : RoomFor size tmp) {s : List Byte}
  (hs : s.length ≤ size)

include h

theorem holds_reset : tmp.reset.Holds [] := by
  obtain ⟨str, hh⟩ := h.holds
  exact ⟨Nat.lt_of_le_of_lt (Nat.zero_le _) hh.room, rfl, rfl⟩

include hs

theorem nextStringTokenBuf_spec (hquote : s.headD 0 = chr '"') (env : Env ν) :
    ∃ tmp', nextStringTokenBuf s tmp = some (nextUnknown nextNumberToken env s, tmp') ∧
      RoomFor size tmp' := by
  have hroom := h.room
  obtain ⟨tmp₁, str, h₁, hh₁, hlen₁, hok⟩ := stringLoopBuf_spec s.tail [] (holds_reset h) (by
    rw [List.length_nil, List.length_tail]
    exact Nat.lt_of_le_of_lt (by omega) hroom)
  rw [nextUnknown, if_pos hquote]
  cases hloop : stringLoop s.tail [] with
  | error e =>
    rw [hloop] at h₁
    exact ⟨tmp₁, bind_eq_of_some h₁ rfl, ⟨str, hh₁⟩, by rw [hlen₁]; exact hroom⟩
  | ok r =>
    rw [hloop] at h₁
    obtain ⟨tmp₂, h₂, hh₂, hlen₂⟩ := ensureNull_spec hh₁
    refine ⟨tmp₂, bind_eq_of_some h₁ (bind_eq_of_some h₂ ?_), ⟨str, hh₂⟩, ?_⟩
    · rw [hh₂.string, ← hok r hloop]
      rfl
    · rw [hlen₂, hlen₁]
      exact hroom

theorem nextNumberTokenBuf_spec {env : Env ν} (hstrtod : (env.strtod s).2 ≤ s.length) :
    ∃ tmp', nextNumberTokenBuf env s tmp = some (nextNumberToken env s, tmp') ∧
      RoomFor size tmp' := by
  have hroom := h.room
  rw [nextNumberTokenBuf, nextNumberToken]
  dsimp only
  split_ifs
  · exact ⟨tmp, rfl, h⟩
  · obtain ⟨tmp₁, h₁, hh₁, hlen₁⟩ := putLoop_spec (s := s.take (env.strtod s).2) (holds_reset h) (by
      rw [List.length_nil, List.length_take]
      exact Nat.lt_of_le_of_lt (by omega) hroom)
    obtain ⟨tmp₂, h₂, hh₂, hlen₂⟩ := ensureNull_spec hh₁
    refine ⟨tmp₂, bind_eq_of_some h₁ (bind_eq_of_some h₂ ?_), ⟨_, hh₂⟩, ?_⟩
    · rw [hh₂.string]
      rfl
    · rw [hlen₂, hlen₁]
      exact hroom
  · exact ⟨tmp, rfl, h⟩

theorem nextUnknownBuf_spec {env : Env ν} (hstrtod : (env.strtod s).2 ≤ s.length) :
    ∃ tmp', nextUnknownBuf env s tmp = some (nextUnknown nextNumberToken env s, tmp') ∧
      RoomFor size tmp' := by
  obtain ⟨tmp', hnum, hroom⟩ := nextNumberTokenBuf_spec h hs hstrtod
  by_cases hquote : s.headD 0 = chr '"'
  · rw [nextUnknownBuf, if_pos hquote]
    exact nextStringTokenBuf_spec h hs hquote env
  · simp only [nextUnknownBuf, nextUnknown, if_neg hquote, hnum, Option.map_some]
    split_ifs
    · exact ⟨tmp, rfl, h⟩
    · exact ⟨tmp', rfl, hroom⟩
    · exact ⟨tmp, rfl, h⟩
    · exact ⟨tmp, rfl, h⟩
    · exact ⟨tmp, rfl, h⟩
    · exact ⟨tmp', rfl, hroom⟩
    · exact ⟨tmp, rfl, h⟩

theorem nextTokenBuf_spec {env : Env ν} (hstrtod : ∀ s, (env.strtod s).2 ≤ s.length) :
    ∃ tmp', nextTokenBuf env tmp s = some (tmp', nextToken nextNumberToken env s) ∧
      RoomFor size tmp' := by
  have hskip : (skip s).length ≤ size :=
    Nat.le_trans (List.dropWhile_sublist _).length_le hs
  obtain ⟨tmp', hunknown, hroom⟩ := nextUnknownBuf_spec h hskip (hstrtod (skip s))
  cases htype : ch2token ((skip s).headD 0) with
  | unknown =>
    refine ⟨tmp', ?_, hroom⟩
    simp only [nextTokenBuf, nextToken, htype, hunknown, Option.map_some]
  | _ => exact ⟨tmp, by simp only [nextTokenBuf, nextToken, htype], h⟩

end Token

/-- `strbuf_new()` in `json_decode()`. -/
theorem roomFor_init {size : Nat} (hsize : size + 1 < 2 ^ 31) :
    ∃ tmp, Strbuf.init (toInt32 size) = some tmp ∧ RoomFor size tmp := by
  rw [toInt32_of_lt (by omega)]
  by_cases hzero : size = 0
  · obtain ⟨tmp, htmp, hholds, hlen⟩ := @Strbuf.init_spec 0 Strbuf.defaultSize rfl (by decide)
    refine ⟨tmp, by rw [hzero]; exact htmp, ⟨[], hholds⟩, ?_⟩
    rw [hlen, hzero]
    decide
  · have hinit : Strbuf.initSize size = some (size + 1) := by
      rw [Strbuf.initSize, if_neg (by omega), addInt_of_fits (by omega) (by omega)]
      rfl
    obtain ⟨tmp, htmp, hholds, hlen⟩ := Strbuf.init_spec hinit (Nat.succ_pos size)
    exact ⟨tmp, htmp, ⟨[], hholds⟩, by rw [hlen]; exact Nat.lt_succ_self size⟩

/-- Whichever places of a text the tokens are read at, and in whatever order, the buffer that was made
for the text has room for them and the tokens are those collected in lists. -/
theorem decode_buffer {text : List Byte} (hsize : text.length + 1 < 2 ^ 31) {env : Env ν}
    (hstrtod : ∀ s, (env.strtod s).2 ≤ s.length) {places : List (List Byte)}
    (hplaces : ∀ s ∈ places, s <:+ text) :
    ∃ tmp tmp', Strbuf.init (toInt32 text.length) = some tmp ∧
      run (nextTokenBuf env) tmp places =
        some (tmp', places.map (nextToken nextNumberToken env)) := by
  obtain ⟨tmp, htmp, hroom⟩ := roomFor_init hsize
  have hstep : ∀ tmp s, s <:+ text → RoomFor text.length tmp →
      ∃ tmp', nextTokenBuf env tmp s = some (tmp', nextToken nextNumberToken env s) ∧
        RoomFor text.length tmp' :=
    fun tmp s hs h => nextTokenBuf_spec h hs.length_le hstrtod
  obtain ⟨tmp', hrun, -⟩ := run_map hstep hplaces hroom
  exact ⟨tmp, tmp', htmp, hrun⟩

theorem decode_buffer_three :
    ∃ tmp tmp', Strbuf.init (toInt32 numberKeyText.length) = some tmp ∧
      run (nextTokenBuf Env.decimal) tmp [numberKeyText, numberKeyText.tail, []] =
        some (tmp', [numberKeyText, numberKeyText.tail, []].map
          (nextToken nextNumberToken Env.decimal)) := by
  refine decode_buffer (by decide) (fun s => (List.takeWhile_sublist _).length_le) ?_
  simp only [List.forall_mem_cons]
  exact ⟨List.suffix_refl _, List.tail_suffix _, List.nil_suffix, nofun⟩

end EventServer.Json
