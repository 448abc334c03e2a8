import EventServer.Config.Store
import EventServer.Lib.Blocks
import EventServer.Lib.CString
import EventServer.Lib.Decimal
import EventServer.Lib.Transition

/-!
# `LXZCoreCfg::load`

The file is read in pieces into a buffer of 2048 bytes, of which the reads fill
1024. Lines that end in the buffer are parsed; what is left behind the last of
them is moved to the start and the next read goes behind it. `loadLines` is this
loop as far as the text goes: which strings become lines. `applyLine` is what one
line does to the store.
-/
namespace EventServer.Config

open EventServer.Lib.Blocks EventServer.Lib.CString EventServer.Lib.Decimal
open EventServer.Lib.Transition EventServer.Stream

def lf : Byte := 10
def cr : Byte := 13
def tab : Byte := 9
def quote : Byte := 34
def backslash : Byte := 92

def crlf : List Byte := [cr, lf]

/-- A character of the source. -/
def ch (c : Char) : Byte := BitVec.ofNat 8 c.toNat

/-! ## One line -/

/-- The loop of `_isnumber` with its counts of points and signs. -/
def isNumberLoop (c d : Nat) : List Byte → Bool
  | [] => true
  | x :: xs =>
    if x = ch '.' then (if 2 ≤ c + 1 then false else isNumberLoop (c + 1) d xs)
    else if isDigit x then isNumberLoop c d xs
    else if x = ch '-' ∨ x = ch '+' then (if 1 ≤ d then false else isNumberLoop c (d + 1) xs)
    else false

def isNumber (v : List Byte) : Bool := if v = [] then false else isNumberLoop 0 0 v

/-- The loop over a quoted value, behind the opening quote. -/
def unquote : List Byte → List Byte
  | [] => []
  | [c] => if c = quote then [] else [c]
  | c :: d :: rest =>
    if c = backslash ∧ d = quote then quote :: unquote rest
    else if c = quote then []
    else c :: unquote (d :: rest)

/-- The value that is set for the text behind the `=`. -/
def parseValue (env : Env) (p : List Byte) : Value :=
  if p = [ch 't', ch 'r', ch 'u', ch 'e'] then .bool true
  else if p = [ch 'f', ch 'a', ch 'l', ch 's', ch 'e'] then .bool false
  else if isNumber p then
    (if (strstr p [ch '.']).isSome then .float (env.atof p) else .int (atoi p))
  else match p with
    | [] => .cstr []
    | c :: rest =>
      if c = quote then .cstr (unquote rest)
      else if c = ch 'f' ∧ isNumber rest then .float (env.atof rest)
      else if c = ch 'i' ∧ isNumber rest then .int (atoi rest)
      else if c = ch 'u' ∧ isNumber rest then .int (atoi rest)
      else .cstr p

def isBreak (c : Byte) : Bool := c = lf ∨ c = cr ∨ c = tab

/-- The setter call a line makes, if any: `name` and `value` are arrays of 256 cells, terminator
included. -/
def lineCall (env : Env) (line : List Byte) : Option (Option (List Byte × Value)) :=
  match strstr line [ch '='] with
  | none => some none
  | some k =>
    let value := line.drop (k + 1)
    if k ≤ 255 ∧ value.length ≤ 255 then
      some (some ((line.take k).dropWhile isBreak, parseValue env value))
    else none

/-- One turn of the loop over lines. -/
def applyLine (env : Env) (s : Store) (line : List Byte) : Option (Store × List Access) := do
  match ← lineCall env line with
  | none => return (s, [])
  | some (name, v) =>
    let res ← s.set env name none v
    return (res.store, res.accesses)

/-! ## The text -/

/-- `GetString(line, 1023, split)` where the separator is found at `k`. -/
def getString (prev : List Byte) (k : Nat) : List Byte := prev.take (min 1022 k)

/-- The loop over the lines of a string: the lines, and what is left behind the last separator. -/
def splitLines (sep : List Byte) : Nat → List Byte → List (List Byte) × List Byte
  | 0, prev => ([], prev)
  | fuel + 1, prev =>
    match strstr prev sep with
    | none => ([], prev)
    | some k =>
      let r := splitLines sep fuel (prev.drop (k + sep.length))
      (getString prev k :: r.1, r.2)

/-- `buf[n] = 0`, and the line end that is added to a file without one: it has no terminator. -/
def terminate (buf : List Byte) (n : Nat) : List Byte :=
  let buf := splice buf n [0]
  if n + 2 < 1024 ∧ buf[n - 1]? ≠ some lf then splice buf n crlf else buf

/-- `"\r\n"` if it occurs at all, else `"\n"`. -/
def separator (text : List Byte) : List Byte :=
  if (strstr text crlf).isSome then crlf else [lf]

def bufferLines (buf : List Byte) : List (List Byte) × List Byte :=
  splitLines (separator (cstr buf)) (cstr buf).length (cstr buf)

/-- The loop over reads. Without a line end in the buffer `offset` stays as it was. -/
def readLoop : Nat → List Byte → Nat → List Byte → List (List Byte)
  | 0, _, _, _ => []
  | fuel + 1, buf, offset, file =>
    let ret := min (1024 - offset) file.length
    if ret = 0 then []
    else
      let buf := terminate (splice buf offset (file.take ret)) (offset + ret)
      let r := bufferLines buf
      if r.1 = [] then readLoop fuel buf offset (file.drop ret)
      else r.1 ++ readLoop fuel (splice buf 0 (r.2 ++ [0])) r.2.length (file.drop ret)

/-- The lines of a file; every turn of the loop reads at least one byte. -/
def loadLines (file : List Byte) : List (List Byte) :=
  readLoop (file.length + 1) (List.replicate 2048 0) 0 file

/-- `load()` of a file that can be opened. -/
def Store.load (env : Env) (s : Store) (file : List Byte) : Option (Store × List (List Access)) :=
  run (applyLine env) s (loadLines file)

theorem applyLine_cases {env : Env} {s s' : Store} {line : List Byte} {a : List Access}
    (h : applyLine env s line = some (s', a)) :
    (lineCall env line = some none ∧ s' = s ∧ a = []) ∨
    ∃ name v r, lineCall env line = some (some (name, v)) ∧ s.set env name none v = some r ∧
      s' = r.store ∧ a = r.accesses := by
  simp only [applyLine, Option.bind_eq_bind, Option.bind_eq_some_iff] at h
  obtain ⟨call, hcall, h⟩ := h
  cases call with
  | none =>
    obtain ⟨rfl, rfl⟩ := Prod.mk.inj (Option.some.inj h)
    exact .inl ⟨hcall, rfl, rfl⟩
  | some c =>
    obtain ⟨name, v⟩ := c
    simp only [Option.bind_eq_some_iff, Option.pure_def, Option.some.injEq, Prod.mk.injEq] at h
    obtain ⟨r, hset, rfl, rfl⟩ := h
    exact .inr ⟨name, v, r, hcall, hset, rfl, rfl⟩

/-! ## Calls one after the other -/

/-- A call with its arguments. -/
inductive Op where
  | set (name : List Byte) (ref_ : RefPtr) (v : Value)
  | get (name : List Byte) (ref_ : RefPtr) (alias_ : Option (List Byte)) (dflt : Value)
  | load (file : List Byte)
  | release
  deriving DecidableEq

/-- The store after a call, and the members it read or freed. -/
def Store.step (env : Env) (s : Store) : Op → Option (Store × List Access)
  | .set name ref_ v => (s.set env name ref_ v).map fun r => (r.store, r.accesses)
  | .get name ref_ alias_ dflt =>
    (s.get env name ref_ alias_ dflt).map fun r => (r.store, r.accesses)
  | .load file => (s.load env file).map fun r => (r.1, r.2.flatten)
  | .release => s.release

/-- What is behind a step: a setter, a getter, the lines of a file, or `release`. -/
theorem Store.step_cases {env : Env} {s t : Store} {op : Op} {as : List Access}
    (h : s.step env op = some (t, as)) :
    (∃ name ref_ v r, op = .set name ref_ v ∧ s.set env name ref_ v = some r ∧ t = r.store ∧
      as = r.accesses) ∨
    (∃ name ref_ alias_ dflt r, op = .get name ref_ alias_ dflt ∧
      s.get env name ref_ alias_ dflt = some r ∧ t = r.store ∧ as = r.accesses) ∨
    (∃ file l, op = .load file ∧ run (applyLine env) s (loadLines file) = some (t, l) ∧
      as = l.flatten) ∨
    (op = .release ∧ s.release = some (t, as)) := by
  cases op with
  | set name ref_ v =>
    obtain ⟨r, hr, heq⟩ := Option.map_eq_some_iff.mp h
    obtain ⟨rfl, rfl⟩ := Prod.mk.inj heq
    exact .inl ⟨name, ref_, v, r, rfl, hr, rfl, rfl⟩
  | get name ref_ alias_ dflt =>
    obtain ⟨r, hr, heq⟩ := Option.map_eq_some_iff.mp h
    obtain ⟨rfl, rfl⟩ := Prod.mk.inj heq
    exact .inr (.inl ⟨name, ref_, alias_, dflt, r, rfl, hr, rfl, rfl⟩)
  | load file =>
    obtain ⟨r, hr, heq⟩ := Option.map_eq_some_iff.mp h
    obtain ⟨rfl, rfl⟩ := Prod.mk.inj heq
    exact .inr (.inr (.inl ⟨file, r.2, rfl, hr, rfl⟩))
  | release => exact .inr (.inr (.inr ⟨rfl, h⟩))

/-! ## Conditions on calls -/

/-- A condition on the call that a line makes to a setter, if it makes one. -/
def lineMeets (env : Env) (C : Store → List Byte → RefPtr → Value → Prop) (s : Store)
    (line : List Byte) : Prop :=
  ∀ name v, lineCall env line = some (some (name, v)) → C s name none v

/-- A condition on the calls to setters that a call is or makes: a getter calls its setter unless
it finds its own type, `load` calls one for a line. -/
def Op.Meets (env : Env) (C : Store → List Byte → RefPtr → Value → Prop) (s : Store) : Op → Prop
  | .set name ref_ v => C s name ref_ v
  | .get name ref_ alias_ dflt =>
    (∃ i e, s.resolve name alias_ ref_ = some i ∧ s.entries[i]? = some e ∧ e.type = dflt.type) ∨
      C s name (ref_.map fun _ => s.resolve name alias_ ref_) dflt
  | .load file => Along (applyLine env) (lineMeets env C) s (loadLines file)
  | .release => True

end EventServer.Config
