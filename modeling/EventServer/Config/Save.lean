import EventServer.Config.Load

/-!
# `LXZCoreCfg::save`

Every entry is printed into one buffer, which is then written as a string. A
pointer is not printed, so what the buffer held is written once more. In a string
only the quotes are escaped, and not the escape character: the backslash at the
end of a string escapes the quote that ends the value.
-/
namespace EventServer.Config

open EventServer.Lib.Blocks EventServer.Lib.CString EventServer.Lib.Decimal EventServer.Stream

def convert : List Byte → List Byte
  | [] => []
  | c :: s => if c = quote then backslash :: quote :: convert s else c :: convert s

/-- What is printed behind the `=`; nothing is printed for a pointer. -/
def printValue (env : Env) : Value → Option (List Byte)
  | .cstr s => some (quote :: (convert s ++ [quote]))
  | .bool b =>
    some (if b then [ch 't', ch 'r', ch 'u', ch 'e'] else [ch 'f', ch 'a', ch 'l', ch 's', ch 'e'])
  | .float v => some (ch 'f' :: env.printFloat v)
  | .int v => some (ch 'i' :: printInt v.toInt)
  | .uint v => some (ch 'u' :: printNat v.toNat)
  | .obj _ => none

def printLine (name text : List Byte) : List Byte := name ++ ch '=' :: text

/-- What a string takes of the temporary buffer of 512. -/
def convertedLength : Value → Nat
  | .cstr s => (convert s).length
  | _ => 0

/-- The content of `buf` after an entry: an array of 1024, terminator included. -/
def printEntry (env : Env) (buf : List Byte) (e : Entry) : Option (List Byte) :=
  match e.cell.read e.type with
  | .wildPtr _ => none
  | .value v =>
    match printValue env v with
    | none => some buf
    | some text =>
      let line := printLine e.name text ++ crlf
      if line.length ≤ 1023 ∧ convertedLength v ≤ 512 then some line else none

def saveLoop (env : Env) : List Byte → List Entry → Option (List Byte)
  | _, [] => some []
  | buf, e :: es => do
    let buf ← printEntry env buf e
    let rest ← saveLoop env buf es
    return buf ++ rest

/-- `save()` to a file that can be opened: its content. -/
def Store.save (env : Env) (s : Store) : Option (List Byte) := saveLoop env [] s.entries

/-- A name that stands in a line as it is. -/
structure ValidName (name : List Byte) : Prop where
  nonempty : name ≠ []
  short : name.length ≤ 255
  eq : ch '=' ∉ name
  cr : Config.cr ∉ name
  lf : Config.lf ∉ name
  zero : 0 ∉ name
  tab : name.head? ≠ some Config.tab

theorem lineCall_printLine (env : Env) {name text : List Byte} (hname : ValidName name)
    (htext : text.length ≤ 255) :
    lineCall env (printLine name text) = some (some (name, parseValue env text)) := by
  have hfind : strstr (name ++ ([ch '='] ++ text)) [ch '='] = some name.length :=
    strstr_eq_some_head hname.eq text
  have hfirst : (printLine name text).take name.length = name := List.take_left
  have hrest : (printLine name text).drop (name.length + 1) = text := by
    rw [printLine, ← List.drop_drop, List.drop_left]
    rfl
  have hskip : name.dropWhile isBreak = name := by
    cases hn : name with
    | nil => exact absurd hn hname.nonempty
    | cons c rest =>
      have hc : isBreak c = false := by
        have hcr := hname.cr
        have hlf := hname.lf
        have htab := hname.tab
        rw [hn] at hcr hlf htab
        simp only [List.mem_cons, not_or, List.head?_cons, Option.some.injEq, ne_eq] at hcr hlf htab
        simp only [isBreak, decide_eq_false_iff_not, not_or]
        exact ⟨fun h => hlf.1 h.symm, fun h => hcr.1 h.symm, htab⟩
      rw [List.dropWhile_cons, hc]
      rfl
  have hline : strstr (printLine name text) [ch '='] = some name.length := hfind
  rw [lineCall, hline]
  dsimp only
  rw [hrest, hfirst, hskip, if_pos ⟨hname.short, htext⟩]

/-- A text that starts as no number and neither as `true` nor as `false` goes by its first
character. -/
theorem parseValue_cons (env : Env) {c : Byte} (text : List Byte) (ht : c ≠ ch 't')
    (hf : c ≠ ch 'f') (hc : ¬ (c = ch '.' ∨ isDigit c = true ∨ c = ch '-' ∨ c = ch '+')) :
    parseValue env (c :: text) =
      if c = quote then .cstr (unquote text)
      else if c = ch 'i' ∧ isNumber text then .int (atoi text)
      else if c = ch 'u' ∧ isNumber text then .int (atoi text)
      else .cstr (c :: text) := by
  have htrue : c :: text ≠ [ch 't', ch 'r', ch 'u', ch 'e'] := fun h => ht (List.cons.inj h).1
  have hfalse : c :: text ≠ [ch 'f', ch 'a', ch 'l', ch 's', ch 'e'] :=
    fun h => hf (List.cons.inj h).1
  have hnumber : isNumber (c :: text) = false := by
    simp only [not_or] at hc
    rw [isNumber, if_neg (List.cons_ne_nil _ _), isNumberLoop, if_neg hc.1, if_neg hc.2.1,
      if_neg (not_or.mpr hc.2.2)]
  rw [parseValue, if_neg htrue, if_neg hfalse, hnumber]
  simp [hf]

/-! ## Quotes -/

theorem convert_cons (c : Byte) (s : List Byte) :
    ∃ x xs, convert (c :: s) = x :: xs ∧ x ≠ quote := by
  rw [convert]
  split
  · exact ⟨_, _, rfl, by decide⟩
  · rename_i hc
    exact ⟨_, _, rfl, hc⟩

/-- A quoted string is read back up to the backslash at its end, if it has one. -/
theorem unquote_convert (s : List Byte) :
    unquote (convert s ++ [quote]) =
      if s.getLast? = some backslash then s.dropLast ++ [quote] else s := by
  induction s with
  | nil => rfl
  | cons c s ih =>
    by_cases hc : c = quote
    · -- An escaped quote is read as one, whatever follows.
      rw [convert, if_pos hc, List.cons_append, List.cons_append, unquote, if_pos ⟨rfl, rfl⟩, ih, hc]
      cases s with
      | nil => decide
      | cons d s =>
        rw [List.getLast?_cons_cons, List.dropLast_cons_cons]
        split <;> rfl
    · rw [convert, if_neg hc, List.cons_append]
      cases s with
      | nil =>
        rw [convert, List.nil_append, unquote, List.getLast?_singleton]
        by_cases hb : c = backslash
        · rw [if_pos ⟨hb, rfl⟩, if_pos (by rw [hb])]
          rfl
        · rw [if_neg (fun h => hb h.1), if_neg hc, if_neg (fun h => hb (Option.some.inj h))]
          rfl
      | cons d s =>
        obtain ⟨x, xs, hx, hquote⟩ := convert_cons d s
        rw [hx, List.cons_append] at ih
        rw [hx, List.cons_append, unquote, if_neg (fun h => hquote h.2), if_neg hc, ih,
          List.getLast?_cons_cons, List.dropLast_cons_cons]
        split <;> rfl

theorem unquote_convert_eq_iff (s : List Byte) :
    unquote (convert s ++ [quote]) = s ↔ s.getLast? ≠ some backslash := by
  rw [unquote_convert]
  split
  · rename_i hlast
    refine ⟨?_, fun h => absurd hlast h⟩
    intro heq
    have hquote : s.getLast? = some quote := by rw [← heq, List.getLast?_concat]
    rw [hlast] at hquote
    exact absurd hquote (by decide)
  · rename_i hlast
    exact ⟨fun _ => hlast, fun _ => rfl⟩

theorem parseValue_quote (env : Env) (text : List Byte) :
    parseValue env (quote :: text) = .cstr (unquote text) := by
  rw [parseValue_cons env text (by decide) (by decide) (by decide), if_pos rfl]

/-- The line of a string entry gives the string back exactly when it does not end in a backslash. -/
theorem saved_string_iff (env : Env) (buf : List Byte) (e : Entry) (addr : BitVec 64)
    (s : List Byte) (htype : e.type = .cstr) (hcell : e.cell = .str addr s)
    (hname : ValidName e.name) (hshort : (convert s).length ≤ 250) :
    (∃ line, printEntry env buf e = some (line ++ crlf) ∧
        lineCall env line = some (some (e.name, .cstr s))) ↔
      s.getLast? ≠ some backslash := by
  have hprint : printEntry env buf e =
      some (printLine e.name (quote :: (convert s ++ [quote])) ++ crlf) := by
    have hlen := hname.short
    simp only [printEntry, htype, hcell, Cell.read, printValue]
    rw [if_pos]
    refine ⟨?_, Nat.le_trans hshort (by decide)⟩
    simp only [printLine, crlf, List.length_append, List.length_cons, List.length_nil]
    omega
  have hcall : lineCall env (printLine e.name (quote :: (convert s ++ [quote]))) =
      some (some (e.name, .cstr (unquote (convert s ++ [quote])))) := by
    rw [lineCall_printLine env hname, parseValue_quote]
    simp only [List.length_cons, List.length_append, List.length_nil]
    omega
  rw [← unquote_convert_eq_iff]
  constructor
  · intro ⟨line, hline, hback⟩
    rw [hprint, Option.some.injEq] at hline
    obtain rfl := List.append_cancel_right hline
    rw [hcall] at hback
    simpa using hback
  · intro heq
    refine ⟨_, hprint, ?_⟩
    rw [hcall, heq]

/-- A string with a quote, and with one behind a backslash. -/
theorem saved_string_quotes :
    ∃ line, printEntry Env.sample []
        ⟨[ch 'k'], .cstr, .str 4096 [ch 'a', quote, backslash, quote, ch 'b'], .cstr⟩ =
          some (line ++ crlf) ∧
      lineCall Env.sample line =
        some (some ([ch 'k'], .cstr [ch 'a', quote, backslash, quote, ch 'b'])) :=
  (saved_string_iff Env.sample [] ⟨[ch 'k'], .cstr, .str 4096 _, .cstr⟩ 4096 _ rfl rfl
    ⟨by decide, by decide, by decide, by decide, by decide, by decide, by decide⟩
    (by decide)).mpr (by decide)

/-- A single backslash comes back as a quote. -/
theorem saved_backslash :
    printEntry Env.sample [] ⟨[ch 'k'], .cstr, .str 4096 [backslash], .cstr⟩ =
        some ([ch 'k', ch '=', quote, backslash, quote] ++ crlf) ∧
      lineCall Env.sample [ch 'k', ch '=', quote, backslash, quote] =
        some (some ([ch 'k'], .cstr [quote])) ∧
      some (some ([ch 'k'], Value.cstr [quote])) ≠ some (some ([ch 'k'], .cstr [backslash])) := by
  decide

end EventServer.Config
