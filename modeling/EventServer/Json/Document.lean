import EventServer.Json.Encode

/-!
# JSON documents

What a text says, apart from how it is written and from where in the heap it came from. The
encoder writes the document that a Lua value stands for.
-/
namespace EventServer.Json

open EventServer.Lib.CString EventServer.Stream

inductive Doc where
  | null
  | boolean (b : Bool)
  /-- A number by its text. -/
  | number (t : List Byte)
  | string (s : List Byte)
  | array (ds : List Doc)
  | object (ms : List (List Byte × Doc))

mutual

def Doc.render : Doc → List Byte
  | .null => lit "null".toList
  | .boolean b => if b then lit "true".toList else lit "false".toList
  | .number t => t
  | .string s => appendString s
  | .array ds => chr '[' :: renderElements ds false ++ [chr ']']
  | .object ms => chr '{' :: renderMembers ms false ++ [chr '}']

def renderElements : List Doc → Bool → List Byte
  | [], _ => []
  | d :: ds, comma => (if comma then [chr ','] else []) ++ d.render ++ renderElements ds true

def renderMembers : List (List Byte × Doc) → Bool → List Byte
  | [], _ => []
  | (k, d) :: ms, comma =>
    (if comma then [chr ','] else []) ++ (appendString k ++ [chr ':']) ++ d.render ++
      renderMembers ms true

end

/-- Nested at most so deep, with numbers of which `P` holds. -/
inductive Fits (P : List Byte → Prop) : Nat → Doc → Prop
  | null {n : Nat} : Fits P n .null
  | boolean {n : Nat} (b : Bool) : Fits P n (.boolean b)
  | number {n : Nat} {t : List Byte} : P t → Fits P n (.number t)
  | string {n : Nat} (s : List Byte) : Fits P n (.string s)
  | array {n : Nat} {ds : List Doc} : (∀ d ∈ ds, Fits P n d) → Fits P (n + 1) (.array ds)
  | object {n : Nat} {ms : List (List Byte × Doc)} : (∀ m ∈ ms, Fits P n m.2) →
      Fits P (n + 1) (.object ms)

variable {ν : Type} (env : EncodeEnv ν)

/-! ## The document of a value -/

def keyOf : Value ν → Except EncodeError (List Byte)
  | .number k => appendNumber env k
  | .string s => .ok s
  | v => .error (.cannotSerialise v.type .keyType)

/-- A number that is written as null is null. -/
def numberOf (x : ν) : Except EncodeError Doc :=
  if env.cfg.invalidNumbers = .null ∧ (env.isinf x || env.isnan x) then .ok .null
  else (appendNumber env x).map .number

section Loops

variable (value : Value ν → Except EncodeError Doc)

def elementsOf (pairs : Table ν) : Nat → Nat → Except EncodeError (List Doc)
  | 0, _ => .ok []
  | n + 1, i => do
    let d ← value (rawgeti env pairs i)
    let ds ← elementsOf pairs n (i + 1)
    return d :: ds

def membersOf : Table ν → Except EncodeError (List (List Byte × Doc))
  | [] => .ok []
  | (k, v) :: pairs => do
    let key ← keyOf env k
    let d ← value v
    let ms ← membersOf pairs
    return (key, d) :: ms

end Loops

/-- The document of a value, as far as the depth and the stack allow. -/
def docOf : Nat → Nat → Value ν → Except EncodeError Doc
  | _, _, .string s => .ok (.string s)
  | _, _, .number x => numberOf env x
  | _, _, .boolean b => .ok (.boolean b)
  | 0, _, .table _ => .error (.excessiveNesting (env.cfg.maxDepth + 1))
  | room + 1, top, .table t =>
    if env.checkstack top 3 then do
      let len ← arrayLength env (env.heap t)
      if len > 0 then
        let ds ← elementsOf env (docOf room (top + 1)) (env.heap t) len.toNat 1
        return .array ds
      else
        let ms ← membersOf env (docOf room (top + 2)) (env.heap t)
        return .object ms
    else .error (.excessiveNesting (env.cfg.maxDepth - room))
  | _, _, .nil => .ok .null
  | _, _, .lightuserdata p =>
    if p = 0 then .ok .null else .error (.cannotSerialise .lightuserdata .typeNotSupported)
  | _, _, v => .error (.cannotSerialise v.type .typeNotSupported)

/-! ## The encoder writes it -/

/-- The text of a number has no character that would be escaped. -/
def PlainNumbers : Prop := ∀ x, ∀ c ∈ env.gfmt x, char2escape c = none

theorem escape_plain {t : List Byte} (h : ∀ c ∈ t, char2escape c = none) : escape t = t := by
  induction t with
  | nil => rfl
  | cons c t ih =>
    obtain ⟨hc, ht⟩ := List.forall_mem_cons.mp h
    have htail : escape t = t := ih ht
    rw [escape, List.flatMap_cons, hc]
    exact congrArg (c :: ·) htail

variable {env}

theorem plain_appendNumber (h : PlainNumbers env) {x : ν} {t : List Byte}
    (ht : appendNumber env x = .ok t) : ∀ c ∈ t, char2escape c = none := by
  unfold appendNumber at ht
  have hnan : ∀ c ∈ lit ['n', 'a', 'n'], char2escape c = none := by decide
  have hnull : ∀ c ∈ lit ['n', 'u', 'l', 'l'], char2escape c = none := by decide
  split at ht
  · split at ht
    · cases ht
    · cases ht
      exact h x
  · split at ht
    · cases ht
      exact hnan
    · cases ht
      exact h x
  · split at ht
    · cases ht
      exact hnull
    · cases ht
      exact h x

theorem appendKey_eq (h : PlainNumbers env) (k : Value ν) :
    appendKey env k = (keyOf env k).map fun key => appendString key ++ [chr ':'] := by
  cases k with
  | number x =>
    rw [appendKey, keyOf]
    cases hx : appendNumber env x with
    | error e => rfl
    | ok t =>
      simp only [Except.map, appendString, escape_plain (plain_appendNumber h hx)]
      simp [bind, Except.bind, pure, Except.pure]
  | string s => rfl
  | nil => rfl
  | boolean b => rfl
  | lightuserdata p => rfl
  | table t => rfl
  | function => rfl
  | userdata => rfl
  | thread => rfl

theorem appendNumber_eq (x : ν) : appendNumber env x = (numberOf env x).map Doc.render := by
  unfold numberOf
  split
  · rename_i hnull
    rw [appendNumber, hnull.1]
    dsimp only
    rw [if_pos hnull.2]
    rfl
  · cases appendNumber env x with
    | error e => rfl
    | ok t => rfl

section Loops

variable {text : Value ν → Except EncodeError (List Byte)} {value : Value ν → Except EncodeError Doc}
  (hvalue : ∀ v, text v = (value v).map Doc.render)

include hvalue

theorem appendArrayLoop_eq (pairs : Table ν) (n i : Nat) (comma : Bool) :
    appendArrayLoop env text pairs n i comma =
      (elementsOf env value pairs n i).map fun ds => renderElements ds comma := by
  induction n generalizing i comma with
  | zero => rfl
  | succ n ih =>
    rw [appendArrayLoop, elementsOf, hvalue, ih]
    cases value (rawgeti env pairs i) with
    | error e => rfl
    | ok d =>
      cases elementsOf env value pairs n (i + 1) with
      | error e => rfl
      | ok ds => rfl

theorem appendObjectLoop_eq (hnum : PlainNumbers env) (pairs : Table ν) (comma : Bool) :
    appendObjectLoop env text pairs comma =
      (membersOf env value pairs).map fun ms => renderMembers ms comma := by
  induction pairs generalizing comma with
  | nil => rfl
  | cons pair pairs ih =>
    obtain ⟨k, v⟩ := pair
    rw [appendObjectLoop, membersOf, hvalue, ih, appendKey_eq hnum]
    cases keyOf env k with
    | error e => rfl
    | ok key =>
      cases value v with
      | error e => rfl
      | ok d =>
        cases membersOf env value pairs with
        | error e => rfl
        | ok ms => rfl

end Loops

/-- The encoder writes the document of the value, and fails where there is none. -/
theorem appendData_eq (hnum : PlainNumbers env) (room top : Nat) (v : Value ν) :
    appendData env room top v = (docOf env room top v).map Doc.render := by
  induction room generalizing top v with
  | zero =>
    cases v with
    | number x => exact appendNumber_eq x
    | lightuserdata p =>
      rw [appendData, docOf]
      split
      · rfl
      · rfl
    | _ => rfl
  | succ room ih =>
    cases v with
    | number x => exact appendNumber_eq x
    | lightuserdata p =>
      rw [appendData, docOf]
      split
      · rfl
      · rfl
    | table t =>
      rw [appendData, docOf]
      split
      · cases arrayLength env (env.heap t) with
        | error e => rfl
        | ok len =>
          simp only [bind, Except.bind]
          split
          · rw [appendArray, appendArrayLoop_eq (ih (top + 1))]
            cases elementsOf env (docOf env room (top + 1)) (env.heap t) len.toNat 1 with
            | error e => rfl
            | ok ds => rfl
          · rw [appendObject, appendObjectLoop_eq (ih (top + 2)) hnum]
            cases membersOf env (docOf env room (top + 2)) (env.heap t) with
            | error e => rfl
            | ok ms => rfl
      · rfl
    | _ => rfl

/-! ## What it is like -/

theorem bind_eq_ok {α β : Type} {x : Except EncodeError α} {f : α → Except EncodeError β} {b : β}
    (h : x >>= f = .ok b) : ∃ a, x = .ok a ∧ f a = .ok b := by
  cases x with
  | error e => cases h
  | ok a => exact ⟨a, rfl, h⟩

/-- The texts that are written for numbers. -/
def WritesOnly (env : EncodeEnv ν) (P : List Byte → Prop) : Prop :=
  ∀ x d, numberOf env x = .ok d → ∀ n, Fits P n d

theorem fits_elementsOf {P : List Byte → Prop} {value : Value ν → Except EncodeError Doc} {m : Nat}
    (hvalue : ∀ v d, value v = .ok d → Fits P m d) {pairs : Table ν} {n i : Nat} {ds : List Doc}
    (h : elementsOf env value pairs n i = .ok ds) : ∀ d ∈ ds, Fits P m d := by
  induction n generalizing i ds with
  | zero =>
    cases h
    exact List.forall_mem_nil _
  | succ n ih =>
    obtain ⟨d, hd, h⟩ := bind_eq_ok h
    obtain ⟨ds', hds, h⟩ := bind_eq_ok h
    cases h
    exact List.forall_mem_cons.mpr ⟨hvalue _ d hd, ih hds⟩

theorem fits_membersOf {P : List Byte → Prop} {value : Value ν → Except EncodeError Doc} {m : Nat}
    (hvalue : ∀ v d, value v = .ok d → Fits P m d) {pairs : Table ν}
    {ms : List (List Byte × Doc)} (h : membersOf env value pairs = .ok ms) :
    ∀ member ∈ ms, Fits P m member.2 := by
  induction pairs generalizing ms with
  | nil =>
    cases h
    exact List.forall_mem_nil _
  | cons pair pairs ih =>
    obtain ⟨k, v⟩ := pair
    obtain ⟨key, -, h⟩ := bind_eq_ok h
    obtain ⟨d, hd, h⟩ := bind_eq_ok h
    obtain ⟨ms', hms, h⟩ := bind_eq_ok h
    cases h
    exact List.forall_mem_cons.mpr ⟨hvalue v d hd, ih hms⟩

theorem fits_docOf {P : List Byte → Prop} (hnum : WritesOnly env P) {room top : Nat} {v : Value ν}
    {d : Doc} (h : docOf env room top v = .ok d) : Fits P room d := by
  induction room generalizing top v d with
  | zero =>
    cases v with
    | string s => cases h; exact .string s
    | number x => exact hnum x d h 0
    | boolean b => cases h; exact .boolean b
    | nil => cases h; exact .null
    | lightuserdata p =>
      rw [docOf] at h
      split at h
      · cases h
        exact .null
      · cases h
    | _ => cases h
  | succ room ih =>
    cases v with
    | string s => cases h; exact .string s
    | number x => exact hnum x d h (room + 1)
    | boolean b => cases h; exact .boolean b
    | nil => cases h; exact .null
    | lightuserdata p =>
      rw [docOf] at h
      split at h
      · cases h
        exact .null
      · cases h
    | table t =>
      rw [docOf] at h
      split at h
      · obtain ⟨len, -, h⟩ := bind_eq_ok h
        split at h
        · obtain ⟨ds, hds, h⟩ := bind_eq_ok h
          cases h
          exact .array (fits_elementsOf (fun v d hd => ih hd) hds)
        · obtain ⟨ms, hms, h⟩ := bind_eq_ok h
          cases h
          exact .object (fits_membersOf (fun v d hd => ih hd) hms)
      · cases h
    | _ => cases h

end EventServer.Json
