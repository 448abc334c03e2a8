import EventServer.Json.Nesting
import EventServer.Json.Strbuf
import EventServer.Json.Strings
import EventServer.Lib.Transition

/-!
# The buffer of the encoder

The encoder appends to a buffer. It reserves room for a string at its worst before it
writes it without checks. The buffer is kept from call to call, whatever is left in it.
-/
namespace EventServer.Json

open EventServer.Lib.Blocks EventServer.Lib.CInt EventServer.Lib.CString EventServer.Lib.Decimal
open EventServer.Lib.Transition EventServer.Stream

variable {ν : Type}

/-! ## The encoder -/

/-- `json_append_string()`. -/
def appendStringBuf (json : Strbuf) (str : List Byte) : Option Strbuf := do
  let json ← json.ensureEmptyLength (toInt32 (str.length * 6 + 2))
  let json ← json.put [chr '"']
  let json ← str.foldlM (fun json c => match char2escape c with
    | some escstr => json.appendString escstr
    | none => json.put [c]) json
  json.put [chr '"']

/-- `FPCONV_G_FMT_BUFSIZE`. -/
def gFmtBufsize : Nat := 32

/-- A number with the terminator that `snprintf` writes. -/
def putNumber (json : Strbuf) (num : List Byte) : Option Strbuf := do
  let json ← json.ensureEmptyLength gFmtBufsize
  let buf ← blit json.buf json.length (num ++ [0])
  return ⟨buf, json.length + num.length⟩

/-- An error leaves a buffer with what was written before it. Without one the process has ended, or
the write was outside the buffer. -/
abbrev Written := Except (Option (EncodeError × Strbuf)) Strbuf

def written? (json : Option Strbuf) : Written :=
  match json with
  | some json => .ok json
  | none => .error none

section Encoder

variable (env : EncodeEnv ν)

/-- `json_append_number()`. -/
def appendNumberBuf (json : Strbuf) (num : ν) : Written :=
  match env.cfg.invalidNumbers with
  | .off =>
    if env.isinf num || env.isnan num then
      .error (some (.cannotSerialise .number .invalidNumber, json))
    else written? (putNumber json (env.gfmt num))
  | .on =>
    if env.isnan num then written? (json.appendMem (lit ['n', 'a', 'n']))
    else written? (putNumber json (env.gfmt num))
  | .null =>
    if env.isinf num || env.isnan num then written? (json.appendMem (lit ['n', 'u', 'l', 'l']))
    else written? (putNumber json (env.gfmt num))

def appendKeyBuf (json : Strbuf) : Value ν → Written
  | .number k => do
    let json ← written? (json.appendChar (chr '"'))
    let json ← appendNumberBuf env json k
    written? (json.appendMem [chr '"', chr ':'])
  | .string s => do
    let json ← written? (appendStringBuf json s)
    written? (json.appendChar (chr ':'))
  | v => .error (some (.cannotSerialise v.type .keyType, json))

def appendComma (json : Strbuf) (comma : Bool) : Written :=
  if comma then written? (json.appendChar (chr ',')) else .ok json

section Loops

variable (value : Strbuf → Value ν → Written)

def appendArrayLoopBuf (pairs : Table ν) : Nat → Nat → Bool → Strbuf → Written
  | 0, _, _, json => .ok json
  | n + 1, i, comma, json => do
    let json ← appendComma json comma
    let json ← value json (rawgeti env pairs i)
    appendArrayLoopBuf pairs n (i + 1) true json

/-- `json_append_array()`. -/
def appendArrayBuf (pairs : Table ν) (len : Nat) (json : Strbuf) : Written := do
  let json ← written? (json.appendChar (chr '['))
  let json ← appendArrayLoopBuf env value pairs len 1 false json
  written? (json.appendChar (chr ']'))

def appendObjectLoopBuf : Table ν → Bool → Strbuf → Written
  | [], _, json => .ok json
  | (k, v) :: pairs, comma, json => do
    let json ← appendComma json comma
    let json ← appendKeyBuf env json k
    let json ← value json v
    appendObjectLoopBuf pairs true json

/-- `json_append_object()`. -/
def appendObjectBuf (pairs : Table ν) (json : Strbuf) : Written := do
  let json ← written? (json.appendChar (chr '{'))
  let json ← appendObjectLoopBuf env value pairs false json
  written? (json.appendChar (chr '}'))

end Loops

/-- `json_append_data()`; depth and stack slots as in `appendData`. -/
def appendDataBuf : Nat → Nat → Strbuf → Value ν → Written
  | _, _, json, .string s => written? (appendStringBuf json s)
  | _, _, json, .number x => appendNumberBuf env json x
  | _, _, json, .boolean b =>
    written? (json.appendMem (if b then lit "true".toList else lit "false".toList))
  | 0, _, json, .table _ => .error (some (.excessiveNesting (env.cfg.maxDepth + 1), json))
  | room + 1, top, json, .table t =>
    if env.checkstack top 3 then
      match arrayLength env (env.heap t) with
      | .error e => .error (some (e, json))
      | .ok len =>
        if len > 0 then
          appendArrayBuf env (appendDataBuf room (top + 1)) (env.heap t) len.toNat json
        else appendObjectBuf env (appendDataBuf room (top + 2)) (env.heap t) json
    else .error (some (.excessiveNesting (env.cfg.maxDepth - room), json))
  | _, _, json, .nil => written? (json.appendMem (lit "null".toList))
  | _, _, json, .lightuserdata p =>
    if p = 0 then written? (json.appendMem (lit "null".toList))
    else .error (some (.cannotSerialise .lightuserdata .typeNotSupported, json))
  | _, _, json, v => .error (some (.cannotSerialise v.type .typeNotSupported, json))

/-- A private buffer, or the one that is kept while `encode_keep_buffer` is on. -/
def encodeBuf (kept : Option Strbuf) : Option Strbuf :=
  match kept with
  | none => Strbuf.init 0
  | some json => some json.reset

/-- `json_encode()` of its one argument, with the buffer that is kept. -/
def jsonEncode (kept : Option Strbuf) (v : Value ν) :
    Option (Option Strbuf × Except EncodeError (List Byte)) := do
  let json ← encodeBuf kept
  match appendDataBuf env env.cfg.maxDepth 1 json v with
  | .ok json => some (kept.map fun _ => json, .ok json.string)
  | .error (some (e, json)) => some (kept.map fun _ => json, .error e)
  | .error none => none

end Encoder

/-- `json_cfg_encode_keep_buffer()`; its argument may be `nil`. -/
def cfgEncodeKeepBuffer (kept : Option Strbuf) (setting : Option Bool) :
    Option (Option Strbuf × Bool) :=
  let on := setting.getD kept.isSome
  if kept.isSome = on then some (kept, on)
  else if on then (Strbuf.init 0).map fun json => (some json, on)
  else some (none, on)

/-- A call of a program that uses the module; its tables and the other settings may change from call to
call. -/
inductive Call (ν : Type) where
  | encode (env : EncodeEnv ν) (v : Value ν)
  | keepBuffer (setting : Option Bool)

inductive Answer where
  | encoded (result : Except EncodeError (List Byte))
  | setting (on : Bool)

def callStep (kept : Option Strbuf) : Call ν → Option (Option Strbuf × Answer)
  | .encode env v => (jsonEncode env kept v).map fun r => (r.1, .encoded r.2)
  | .keepBuffer setting => (cfgEncodeKeepBuffer kept setting).map fun r => (r.1, .setting r.2)

/-- A new configuration keeps a buffer. -/
def runCalls (calls : List (Call ν)) : Option (Option Strbuf × List Answer) := do
  let json ← Strbuf.init 0
  run callStep (some json) calls

/-! ## Lists and buffers -/

/-- For a text up to this length every buffer has a size that is an `int`. -/
def maxText : Nat := (Strbuf.maxSize - 35) / 7

theorem maxText_le : 7 * maxText + 35 ≤ Strbuf.maxSize := by decide

/-- What is written to a list is appended to the buffer: the same text, the same error, or the process
ends and the text is too long. -/
def Agrees (x : Except EncodeError (List Byte)) (write : Strbuf → Written) : Prop :=
  ∀ json text, json.Kept text →
    (∃ data json', x = .ok data ∧ write json = .ok json' ∧ json'.Kept (text ++ data)) ∨
    (∃ e json' text', x = .error e ∧ write json = .error (some (e, json')) ∧ json'.Kept text') ∨
    write json = .error none ∧ ∀ data, x = .ok data → maxText < text.length + data.length

section Agrees

theorem agrees_nil : Agrees (.ok []) .ok :=
  fun json text h => .inl ⟨[], json, rfl, rfl, by rwa [List.append_nil]⟩

theorem agrees_error (e : EncodeError) :
    Agrees (.error e) fun json => .error (some (e, json)) :=
  fun json text h => .inr (.inl ⟨e, json, text, rfl, rfl, h⟩)

theorem agrees_of_eq {x y : Except EncodeError (List Byte)} {write : Strbuf → Written}
    (h : Agrees x write) (hxy : x = y) : Agrees y write := hxy ▸ h

/-- One after the other. -/
theorem agrees_append {x y : Except EncodeError (List Byte)} {write write' : Strbuf → Written}
    (h : Agrees x write) (h' : Agrees y write') :
    Agrees (do return (← x) ++ (← y)) fun json => write json >>= write' := by
  intro json text hk
  rcases h json text hk with ⟨a, json₁, hx, hw, hk₁⟩ | ⟨e, json₁, text₁, hx, hw, hk₁⟩ | ⟨hw, hlong⟩
  · simp only [hx, hw]
    rcases h' json₁ (text ++ a) hk₁ with
      ⟨b, json₂, hy, hw', hk₂⟩ | ⟨e, json₂, text₂, hy, hw', hk₂⟩ | ⟨hw', hlong⟩
    · refine .inl ⟨a ++ b, json₂, by rw [hy]; rfl, hw', ?_⟩
      rwa [List.append_assoc] at hk₂
    · exact .inr (.inl ⟨e, json₂, text₂, by rw [hy]; rfl, hw', hk₂⟩)
    · refine .inr (.inr ⟨hw', fun data hdata => ?_⟩)
      obtain ⟨a', ha, hdata⟩ := bind_eq_ok hdata
      obtain ⟨b, hb, hdata⟩ := bind_eq_ok hdata
      obtain rfl : a = a' := Except.ok.inj ha
      obtain rfl : a ++ b = data := Except.ok.inj hdata
      have hlt := hlong b hb
      rw [List.length_append] at hlt ⊢
      omega
  · simp only [hx, hw]
    exact .inr (.inl ⟨e, json₁, text₁, rfl, rfl, hk₁⟩)
  · simp only [hw]
    refine .inr (.inr ⟨rfl, fun data hdata => ?_⟩)
    obtain ⟨a, ha, hdata⟩ := bind_eq_ok hdata
    obtain ⟨b, hb, hdata⟩ := bind_eq_ok hdata
    obtain rfl : a ++ b = data := Except.ok.inj hdata
    have hlt := hlong a ha
    rw [List.length_append]
    omega

theorem agrees_mem (c : List Byte) : Agrees (.ok c) fun json => written? (json.appendMem c) := by
  intro json text h
  have hmax := maxText_le
  obtain ⟨json', hj, hk⟩ | ⟨hnone, hle⟩ := Strbuf.appendMem_spec h c
  · exact .inl ⟨c, json', rfl, congrArg written? hj, hk⟩
  · refine .inr (.inr ⟨congrArg written? hnone, ?_⟩)
    intro _ heq
    cases heq
    omega

theorem agrees_comma (comma : Bool) : Agrees (.ok (if comma then [chr ','] else []))
    fun json => appendComma json comma := by
  cases comma with
  | false => exact agrees_nil
  | true => exact agrees_mem [chr ',']

theorem char2escape_length (c : Byte) :
    1 ≤ ((char2escape c).getD [c]).length ∧ ((char2escape c).getD [c]).length ≤ 6 := by
  rcases char2escape_cases c with ⟨h, -⟩ | ⟨e, h, -⟩ | ⟨x, y, h, -⟩ <;> simp [h]

theorem length_le_escape (str : List Byte) : str.length ≤ (escape str).length := by
  induction str with
  | nil => exact Nat.zero_le _
  | cons c str ih =>
    have hone := (char2escape_length c).1
    have hcons : escape (c :: str) = (char2escape c).getD [c] ++ escape str := List.flatMap_cons
    rw [hcons, List.length_append, List.length_cons]
    omega

/-- With six cells for every byte left the loop over a string needs no more. -/
theorem escape_spec {str : List Byte} {json : Strbuf} {text : List Byte} (h : json.Holds text)
    (hfit : text.length + 6 * str.length + 1 < json.buf.length) :
    ∃ json', (str.foldlM (fun json c => match char2escape c with
        | some escstr => json.appendString escstr
        | none => json.put [c]) json) = some json' ∧ json'.Holds (text ++ escape str) ∧
      json'.buf.length = json.buf.length ∧ (text ++ escape str).length + 1 < json'.buf.length := by
  induction str generalizing json text with
  | nil =>
    rw [escape, List.flatMap_nil, List.append_nil]
    exact ⟨json, rfl, h, rfl, by simpa using hfit⟩
  | cons c str ih =>
    rw [List.length_cons] at hfit
    have hsix := (char2escape_length c).2
    obtain ⟨json₁, hj₁, hh₁, hlen₁⟩ : ∃ json₁, (match char2escape c with
        | some escstr => json.appendString escstr
        | none => json.put [c]) = some json₁ ∧ json₁.Holds (text ++ (char2escape c).getD [c]) ∧
          json₁.buf.length = json.buf.length := by
      cases hc : char2escape c with
      | none =>
        rw [hc] at hsix
        exact Strbuf.put_spec h (by simp only [List.length_singleton]; omega)
      | some escstr =>
        rw [hc] at hsix
        exact Strbuf.appendString_spec h (by simp only [Option.getD_some] at hsix; omega)
    obtain ⟨json₂, hj₂, hh₂, hlen₂, hroom⟩ := ih hh₁ (by
      rw [List.length_append, hlen₁]
      omega)
    have hcons : text ++ escape (c :: str) = text ++ (char2escape c).getD [c] ++ escape str := by
      rw [escape, List.flatMap_cons, List.append_assoc]
      rfl
    rw [hcons]
    refine ⟨json₂, ?_, hh₂, hlen₂.trans hlen₁, hroom⟩
    rw [List.foldlM_cons, hj₁]
    exact hj₂

/-- The length at its worst is an `int`. -/
def Short (str : List Byte) : Prop := str.length * 6 + 2 < 2 ^ 31

theorem agrees_string {str : List Byte} (hshort : Short str) :
    Agrees (.ok (appendString str)) fun json => written? (appendStringBuf json str) := by
  intro json text h
  have hmax := maxText_le
  have hworst : toInt32 (str.length * 6 + 2) = (str.length * 6 + 2 : Nat) := toInt32_of_lt hshort
  have hlong := length_le_escape str
  have hdata : (appendString str).length = (escape str).length + 2 := by
    rw [appendString, List.length_append, List.length_cons, List.length_singleton]
  obtain ⟨json₁, hj₁, hk₁, hroom⟩ | ⟨hnone, hle⟩ :=
    Strbuf.ensureEmptyLength_spec h (str.length * 6 + 2)
  · obtain ⟨json₂, hj₂, hh₂, hlen₂⟩ := Strbuf.put_spec hk₁.toHolds (c := [chr '"'])
      (by rw [List.length_singleton]; omega)
    have hfit : (text ++ [chr '"']).length + 6 * str.length + 1 < json₂.buf.length := by
      rw [List.length_append, List.length_singleton, hlen₂]
      omega
    obtain ⟨json₃, hj₃, hh₃, hlen₃, hroom₃⟩ := escape_spec hh₂ hfit
    obtain ⟨json₄, hj₄, hh₄, hlen₄⟩ := Strbuf.put_spec hh₃ (c := [chr '"'])
      (by rw [List.length_singleton]; exact hroom₃)
    have hbuf : appendStringBuf json str = some json₄ := by
      rw [appendStringBuf, hworst]
      exact bind_eq_of_some hj₁ (bind_eq_of_some hj₂ (bind_eq_of_some hj₃ hj₄))
    have htext : text ++ [chr '"'] ++ escape str ++ [chr '"'] = text ++ appendString str := by
      rw [appendString, List.append_assoc, List.append_assoc]
      rfl
    exact .inl ⟨appendString str, json₄, rfl, congrArg written? hbuf,
      Strbuf.kept_of_length hk₁ (htext ▸ hh₄) (by rw [hlen₄, hlen₃, hlen₂])⟩
  · have hbuf : appendStringBuf json str = none := by
      rw [appendStringBuf, hworst, hnone]
      rfl
    refine .inr (.inr ⟨congrArg written? hbuf, ?_⟩)
    intro _ heq
    cases heq
    omega

/-- The terminator is written behind the text. -/
theorem agrees_put {num : List Byte} (hnum : num.length < gFmtBufsize) :
    Agrees (.ok num) fun json => written? (putNumber json num) := by
  intro json text h
  have hmax := maxText_le
  have hsize : gFmtBufsize = 32 := rfl
  obtain ⟨json₁, hj₁, hk₁, hroom⟩ | ⟨hnone, hle⟩ := Strbuf.ensureEmptyLength_spec h gFmtBufsize
  · have hlen : (num ++ [0]).length = num.length + 1 := by
      rw [List.length_append, List.length_singleton]
    have hblit : json₁.length + (num ++ [0]).length ≤ json₁.buf.length := by
      rw [hk₁.length, hlen]
      omega
    have hbuf : (splice json₁.buf json₁.length (num ++ [0])).length = json₁.buf.length := by
      rw [splice_length (by omega)]
      omega
    have htext : json₁.buf.take json₁.length = text := hk₁.string
    have hcut : json₁.length + num.length = (text ++ num).length := by
      rw [hk₁.length, List.length_append]
    have hput : putNumber json num =
        some ⟨splice json₁.buf json₁.length (num ++ [0]), json₁.length + num.length⟩ :=
      bind_eq_of_some hj₁ (bind_eq_of_some (blit_of_fits hblit) rfl)
    refine .inl ⟨num, _, rfl, congrArg written? hput,
      Strbuf.kept_of_length hk₁ ⟨?_, hcut, ?_⟩ hbuf⟩
    · show (text ++ num).length < (splice json₁.buf json₁.length (num ++ [0])).length
      rw [hbuf, ← hcut]
      omega
    · rw [Strbuf.string, splice, htext, hcut, ← List.append_assoc text num, List.append_assoc,
        List.take_left]
  · have hput : putNumber json num = none := by
      rw [putNumber, hnone]
      rfl
    refine .inr (.inr ⟨congrArg written? hput, ?_⟩)
    intro _ heq
    cases heq
    omega

variable {env : EncodeEnv ν} (hgfmt : ∀ x, (env.gfmt x).length < gFmtBufsize)

section Numbers

include hgfmt

theorem agrees_number (x : ν) :
    Agrees (appendNumber env x) fun json => appendNumberBuf env json x := by
  unfold appendNumber appendNumberBuf
  cases env.cfg.invalidNumbers with
  | off =>
    cases env.isinf x || env.isnan x with
    | false => exact agrees_put (hgfmt x)
    | true => exact agrees_error _
  | on =>
    cases env.isnan x with
    | false => exact agrees_put (hgfmt x)
    | true => exact agrees_mem _
  | null =>
    cases env.isinf x || env.isnan x with
    | false => exact agrees_put (hgfmt x)
    | true => exact agrees_mem _

theorem agrees_key {k : Value ν} (hshort : ∀ s, k = .string s → Short s) :
    Agrees (appendKey env k) fun json => appendKeyBuf env json k := by
  cases k with
  | number x =>
    refine agrees_of_eq (agrees_append (agrees_mem [chr '"'])
      (agrees_append (agrees_number hgfmt x) (agrees_mem [chr '"', chr ':']))) ?_
    rw [appendKey]
    cases appendNumber env x <;> rfl
  | string s => exact agrees_append (agrees_string (hshort s rfl)) (agrees_mem [chr ':'])
  | _ => exact agrees_error _

end Numbers

section Loops

variable {value : Value ν → Except EncodeError (List Byte)} {write : Strbuf → Value ν → Written}

theorem agrees_arrayLoop {pairs : Table ν} {len i : Nat} {comma : Bool}
    (hvalue : ∀ j, Agrees (value (rawgeti env pairs j))
      fun json => write json (rawgeti env pairs j)) :
    Agrees (appendArrayLoop env value pairs len i comma) fun json =>
      appendArrayLoopBuf env write pairs len i comma json := by
  induction len generalizing i comma with
  | zero => exact agrees_nil
  | succ len ih =>
    refine agrees_of_eq (agrees_append (agrees_comma comma) (agrees_append (hvalue i) ih)) ?_
    rw [appendArrayLoop]
    cases value (rawgeti env pairs i) with
    | error e => rfl
    | ok data =>
      cases appendArrayLoop env value pairs len (i + 1) true with
      | error e => rfl
      | ok more => exact congrArg Except.ok (List.append_assoc _ _ _).symm

include hgfmt

theorem agrees_objectLoop {pairs : Table ν} {comma : Bool}
    (hkeys : ∀ pair ∈ pairs, ∀ s, pair.1 = .string s → Short s)
    (hvalue : ∀ pair ∈ pairs, Agrees (value pair.2) fun json => write json pair.2) :
    Agrees (appendObjectLoop env value pairs comma) fun json =>
      appendObjectLoopBuf env write pairs comma json := by
  induction pairs generalizing comma with
  | nil => exact agrees_nil
  | cons pair pairs ih =>
    obtain ⟨k, v⟩ := pair
    obtain ⟨hkey, hkeys⟩ := List.forall_mem_cons.mp hkeys
    obtain ⟨hv, hvalue⟩ := List.forall_mem_cons.mp hvalue
    refine agrees_of_eq (agrees_append (agrees_comma comma)
      (agrees_append (agrees_key hgfmt hkey) (agrees_append hv (ih hkeys hvalue)))) ?_
    rw [appendObjectLoop]
    cases appendKey env k with
    | error e => rfl
    | ok key =>
      cases value v with
      | error e => rfl
      | ok data =>
        cases appendObjectLoop env value pairs true with
        | error e => rfl
        | ok more =>
          have hassoc : (if comma then [chr ','] else []) ++ (key ++ (data ++ more)) =
              (if comma then [chr ','] else []) ++ key ++ data ++ more := by
            rw [List.append_assoc, List.append_assoc]
          exact congrArg Except.ok hassoc

end Loops

end Agrees

/-- A string has a worst length that is an `int`. -/
def Value.Short (v : Value ν) : Prop := ∀ s, v = .string s → Json.Short s

/-- The formatted numbers and the strings of the heap are as short as the encoder takes them to be. -/
structure EncodeEnv.Fits (env : EncodeEnv ν) : Prop where
  gfmt : ∀ x, (env.gfmt x).length < gFmtBufsize
  keys : ∀ t, ∀ pair ∈ env.heap t, pair.1.Short
  values : ∀ t, ∀ pair ∈ env.heap t, pair.2.Short

theorem short_rawgeti {env : EncodeEnv ν} (hfits : env.Fits) (t i : Nat) :
    (rawgeti env (env.heap t) i).Short := by
  rw [rawgeti]
  cases hfind : (env.heap t).find? fun pair => env.isIndex i pair.1 with
  | none =>
    intro s heq
    cases heq
  | some pair => exact hfits.values t pair (List.mem_of_find?_eq_some hfind)

section Data

variable {n : Nat} (hn : 7 * n + 35 ≤ Strbuf.maxSize) {env : EncodeEnv ν} (hfits : env.Fits)

include hfits

/-- A value without parts. -/
theorem agrees_flat {room top : Nat} {v : Value ν} (hv : v.Short) (htable : ∀ t, v ≠ .table t) :
    Agrees (appendData env room top v) fun json => appendDataBuf env room top json v := by
  cases v with
  | string s =>
    simp only [appendData, appendDataBuf]
    exact agrees_string (hv s rfl)
  | number x =>
    simp only [appendData, appendDataBuf]
    exact agrees_number hfits.gfmt x
  | boolean b =>
    simp only [appendData, appendDataBuf]
    exact agrees_mem _
  | nil =>
    simp only [appendData, appendDataBuf]
    exact agrees_mem _
  | lightuserdata p =>
    simp only [appendData, appendDataBuf]
    split
    · exact agrees_mem _
    · exact agrees_error _
  | table t => exact absurd rfl (htable t)
  | _ =>
    simp only [appendData, appendDataBuf]
    exact agrees_error _

/-- By induction on the levels left. -/
theorem agrees_data {room top : Nat} {v : Value ν} (hv : v.Short) :
    Agrees (appendData env room top v) fun json => appendDataBuf env room top json v := by
  induction room generalizing top v with
  | zero =>
    cases v with
    | table t => exact agrees_error _
    | _ =>
      refine agrees_flat hfits hv fun t heq => ?_
      cases heq
  | succ room ih =>
    cases v with
    | table t =>
      simp only [appendData, appendDataBuf]
      split
      · cases arrayLength env (env.heap t) with
        | error e => exact agrees_error e
        | ok len =>
          show Agrees (if len > 0 then _ else _) fun json => if len > 0 then _ else _
          split
          · refine agrees_of_eq (agrees_append (agrees_mem [chr '[']) (agrees_append
              (agrees_arrayLoop fun j => ih (short_rawgeti hfits t j))
              (agrees_mem [chr ']']))) ?_
            rw [appendArray]
            cases appendArrayLoop env (appendData env room (top + 1)) (env.heap t) len.toNat 1
              false <;> rfl
          · refine agrees_of_eq (agrees_append (agrees_mem [chr '{']) (agrees_append
              (agrees_objectLoop hfits.gfmt (hfits.keys t)
                fun pair hpair => ih (hfits.values t pair hpair))
              (agrees_mem [chr '}']))) ?_
            rw [appendObject]
            cases appendObjectLoop env (appendData env room (top + 2)) (env.heap t) false <;> rfl
      · exact agrees_error _
    | _ =>
      refine agrees_flat hfits hv fun t heq => ?_
      cases heq

end Data

/-! ## Calls -/

/-- What a call answers; only the setting of `encode_keep_buffer` is left between calls. -/
def callSpec (on : Bool) : Call ν → Bool × Answer
  | .encode env v => (on, .encoded (encode env v))
  | .keepBuffer setting => (setting.getD on, .setting (setting.getD on))

def Call.Fits : Call ν → Prop
  | .encode env v => env.Fits ∧ v.Short
  | .keepBuffer _ => True

/-- An encoding does not fail and its text is not too long. -/
def Call.Small : Call ν → Prop
  | .encode env v => ∃ text, Json.encode env v = .ok text ∧ text.length ≤ maxText
  | .keepBuffer _ => True

/-- A buffer is kept while the setting is on, and it is well formed whatever the last call left in it. -/
structure Keeps (kept : Option Strbuf) (on : Bool) : Prop where
  isSome : kept.isSome = on
  kept : ∀ json ∈ kept, ∃ text, json.Kept text

theorem kept_init : ∃ json, Strbuf.init 0 = some json ∧ json.Kept [] := by
  obtain ⟨json, hjson, hholds, hlen⟩ := @Strbuf.init_spec 0 Strbuf.defaultSize rfl (by decide)
  exact ⟨json, hjson, hholds, 0, hlen⟩

theorem keeps_map {kept : Option Strbuf} {on : Bool} (h : Keeps kept on) {json : Strbuf}
    {text : List Byte} (hk : json.Kept text) : Keeps (kept.map fun _ => json) on := by
  refine ⟨by rw [Option.isSome_map, h.isSome], fun json' hjson => ?_⟩
  obtain ⟨_, -, rfl⟩ := Option.mem_map.mp hjson
  exact ⟨text, hk⟩

theorem encodeBuf_spec {kept : Option Strbuf} {on : Bool} (h : Keeps kept on) :
    ∃ json, encodeBuf kept = some json ∧ json.Kept [] := by
  cases kept with
  | none => exact kept_init
  | some json =>
    obtain ⟨text, hk⟩ := h.kept json rfl
    exact ⟨json.reset, rfl, Strbuf.kept_reset hk⟩

section Calls

variable {kept : Option Strbuf} {on : Bool} (h : Keeps kept on)

include h

theorem jsonEncode_spec {env : EncodeEnv ν} (hfits : env.Fits) {v : Value ν} (hv : v.Short) :
    (∃ kept', jsonEncode env kept v = some (kept', encode env v) ∧ Keeps kept' on) ∨
    jsonEncode env kept v = none ∧ ¬(Call.encode env v).Small := by
  obtain ⟨json, hjson, hk⟩ := encodeBuf_spec h
  have hagrees : Agrees (encode env v) fun json => appendDataBuf env env.cfg.maxDepth 1 json v :=
    agrees_data hfits hv
  rcases hagrees json [] hk with
    ⟨data, json', hx, hw, hk'⟩ | ⟨e, json', text', hx, hw, hk'⟩ | ⟨hw, hlong⟩
  · have hdata : encode env v = .ok json'.string := by
      rw [hk'.string]
      exact hx
    refine .inl ⟨kept.map fun _ => json', ?_, keeps_map h hk'⟩
    simp only [jsonEncode, hjson, Option.bind_eq_bind, Option.bind_some, hw, hdata]
  · refine .inl ⟨kept.map fun _ => json', ?_, keeps_map h hk'⟩
    simp only [jsonEncode, hjson, Option.bind_eq_bind, Option.bind_some, hw, hx]
  · refine .inr ⟨by simp only [jsonEncode, hjson, Option.bind_eq_bind, Option.bind_some, hw], ?_⟩
    rintro ⟨text, htext, hsmall⟩
    exact Nat.not_lt.mpr hsmall (Nat.zero_add text.length ▸ hlong text htext)

theorem cfgEncodeKeepBuffer_spec (setting : Option Bool) :
    ∃ kept', cfgEncodeKeepBuffer kept setting = some (kept', setting.getD on) ∧
      Keeps kept' (setting.getD on) := by
  obtain ⟨json, hjson, hk⟩ := kept_init
  rw [cfgEncodeKeepBuffer, h.isSome]
  by_cases hsame : on = setting.getD on
  · exact ⟨kept, by simp only [if_pos hsame], hsame ▸ h⟩
  · cases hnew : setting.getD on with
    | true =>
      refine ⟨some json, ?_, rfl, ?_⟩
      · rw [hnew] at hsame
        simp only [if_neg hsame, if_true, hjson, Option.map_some]
      · intro _ heq
        cases heq
        exact ⟨[], hk⟩
    | false =>
      refine ⟨none, ?_, rfl, by rintro _ ⟨⟩⟩
      rw [hnew] at hsame
      simp only [if_neg hsame, Bool.false_eq_true, if_false]

theorem callStep_spec {call : Call ν} (hfits : call.Fits) :
    (∃ kept', callStep kept call = some (kept', (callSpec on call).2) ∧
      Keeps kept' (callSpec on call).1) ∨
    callStep kept call = none ∧ ¬call.Small := by
  cases call with
  | encode env v =>
    obtain ⟨kept', he, hk⟩ | ⟨hnone, hlarge⟩ := jsonEncode_spec h hfits.1 hfits.2
    · exact .inl ⟨kept', by rw [callStep, he]; rfl, hk⟩
    · exact .inr ⟨by rw [callStep, hnone]; rfl, hlarge⟩
  | keepBuffer setting =>
    obtain ⟨kept', he, hk⟩ := cfgEncodeKeepBuffer_spec h setting
    exact .inl ⟨kept', by rw [callStep, he]; rfl, hk⟩

end Calls

/-- Whatever the calls before it have left in the buffer, and whether it is kept or not, a call answers
what it answers on lists; the process can only end at a call that itself fails or has a text too long
for the buffer it reserves. -/
theorem encode_calls {calls : List (Call ν)} (hfits : ∀ call ∈ calls, call.Fits) :
    (∀ kept answers, runCalls calls = some (kept, answers) →
      answers = (runSpec callSpec true calls).2) ∧
    (runCalls calls = none → ∃ before call after kept answers, calls = before ++ call :: after ∧
      runCalls before = some (kept, answers) ∧ callStep kept call = none ∧ ¬call.Small) := by
  obtain ⟨json, hjson, hk⟩ := kept_init
  have hkeeps : Keeps (some json) true := by
    refine ⟨rfl, ?_⟩
    intro _ heq
    cases heq
    exact ⟨[], hk⟩
  have hcalls : ∀ calls : List (Call ν), runCalls calls = run callStep (some json) calls := by
    intro calls
    rw [runCalls, hjson]
    rfl
  have hstep : ∀ kept on (call : Call ν) kept' answer, call.Fits → Keeps kept on →
      callStep kept call = some (kept', answer) →
      answer = (callSpec on call).2 ∧ Keeps kept' (callSpec on call).1 := by
    intro kept on call kept' answer hfit h hstep
    obtain ⟨kept'', he, hk'⟩ | ⟨hnone, -⟩ := callStep_spec h hfit
    · obtain ⟨rfl, rfl⟩ := Prod.mk.inj (Option.some.inj (he.symm.trans hstep))
      exact ⟨rfl, hk'⟩
    · rw [hnone] at hstep
      cases hstep
  constructor
  · intro kept answers hrun
    rw [hcalls] at hrun
    exact (run_agrees hstep hfits hkeeps hrun).1
  · intro hnone
    rw [hcalls] at hnone
    obtain ⟨before, call, after, kept, answers, rfl, hrun, hend⟩ := run_eq_none hnone
    have hbefore : ∀ c ∈ before, c.Fits := fun c hc => hfits c (List.mem_append_left _ hc)
    have hcall : call.Fits := hfits call (List.mem_append_right _ List.mem_cons_self)
    -- The calls before it have left a well formed buffer.
    have hleft := (run_agrees hstep hbefore hkeeps hrun).2
    obtain ⟨kept', he, -⟩ | ⟨-, hlarge⟩ := callStep_spec hleft hcall
    · rw [he] at hend
      cases hend
    · exact ⟨before, call, after, kept, answers, rfl, (hcalls before).trans hrun, hend, hlarge⟩

/-- Fourteen digits, as `encode_number_precision` has it. -/
def EncodeEnv.precise : EncodeEnv Nat :=
  { EncodeEnv.decimal twoTables with
    gfmt := fun x => if x < 10 ^ 14 then printNat x else lit ['1', 'e', '+', '1', '4'] }

theorem fits_precise : EncodeEnv.precise.Fits where
  gfmt := by
    intro x
    simp only [EncodeEnv.precise]
    split
    · rename_i h
      exact Nat.lt_of_le_of_lt (printNat_length (by decide) h) (by decide)
    · decide
  keys := by
    rintro (_ | t) pair hpair s hs
    · rw [List.mem_singleton.mp hpair] at hs
      cases hs
    · cases hpair
  values := by
    rintro (_ | t) pair hpair s hs
    · rw [List.mem_singleton.mp hpair] at hs
      cases hs
    · cases hpair

/-- A table, a function that cannot be encoded, and a string without the buffer. -/
def fourCalls : List (Call Nat) :=
  [.encode .precise (.table 0), .encode .precise .function, .keepBuffer (some false),
    .encode .precise (.string (lit ['a', '"']))]

theorem encode_calls_four :
    ∃ kept, runCalls fourCalls = some (kept, (runSpec callSpec true fourCalls).2) := by
  have hfits : ∀ call ∈ fourCalls, call.Fits := by
    rw [fourCalls]
    simp only [List.forall_mem_cons]
    refine ⟨⟨fits_precise, ?_⟩, ⟨fits_precise, ?_⟩, trivial, ⟨fits_precise, ?_⟩, nofun⟩
    · intro s heq
      cases heq
    · intro s heq
      cases heq
    · intro s heq
      cases heq
      unfold Short
      decide
  obtain ⟨⟨kept, answers⟩, hrun⟩ := Option.isSome_iff_exists.mp
    (by decide +kernel : (runCalls fourCalls).isSome)
  exact ⟨kept, (encode_calls hfits).1 kept answers hrun ▸ hrun⟩

end EventServer.Json
