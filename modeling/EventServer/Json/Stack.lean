import EventServer.Json.Keys

/-!
# The stack of the decoder

What the calls of the decoder do to the Lua stack. A table that is being filled is known to
its stack slot only, so that it is kept in the slot itself. A push needs a free slot below
`limit`, which stands for what `lua_checkstack()` has granted.
-/
namespace EventServer.Json

open EventServer.Lib.CString EventServer.Stream

variable {ν : Type}

inductive Key where
  | name (s : List Byte)
  | index (i : Nat)
  deriving DecidableEq

/-- A Lua value as the decoder builds it. -/
inductive Tree (ν : Type) where
  | null
  | boolean (b : Bool)
  | number (x : ν)
  | string (s : List Byte)
  | table (pairs : List (Key × Tree ν))

/-- The later value of a key counts. -/
def setKey (k : Key) (v : Tree ν) : List (Key × Tree ν) → List (Key × Tree ν)
  | [] => [(k, v)]
  | (k', v') :: pairs => if k' = k then (k, v) :: pairs else (k', v') :: setKey k v pairs

def push (limit : Nat) (v : Tree ν) (stack : List (Tree ν)) : Option (List (Tree ν)) :=
  if stack.length < limit then some (v :: stack) else none

/-- A call on a stack with its top first. `none` is a slot that was not granted, a pop from an
empty stack, or a field of a value that is no table. -/
def LuaCall.exec (limit : Nat) : LuaCall ν → List (Tree ν) → Option (List (Tree ν))
  | .newtable, stack => push limit (.table []) stack
  | .pushlstring s, stack => push limit (.string s) stack
  | .pushnumber x, stack => push limit (.number x) stack
  | .pushboolean b, stack => push limit (.boolean b) stack
  | .pushlightuserdata, stack => push limit .null stack
  | .rawset, v :: .string k :: .table pairs :: stack =>
    some (.table (setKey (.name k) v pairs) :: stack)
  | .rawseti i, v :: .table pairs :: stack => some (.table (setKey (.index i) v pairs) :: stack)
  | _, _ => none

def execAll (limit : Nat) : List (LuaCall ν) → List (Tree ν) → Option (List (Tree ν))
  | [], stack => some stack
  | c :: calls, stack => (c.exec limit stack).bind (execAll limit calls)

theorem execAll_append (limit : Nat) (calls more : List (LuaCall ν)) (stack : List (Tree ν)) :
    execAll limit (calls ++ more) stack = (execAll limit calls stack).bind (execAll limit more) := by
  induction calls generalizing stack with
  | nil => rfl
  | cons c calls ih =>
    rw [List.cons_append, execAll, execAll]
    cases c.exec limit stack with
    | none => rfl
    | some stack' => exact ih stack'

theorem execAll_singleton (limit : Nat) (c : LuaCall ν) (stack : List (Tree ν)) :
    execAll limit [c] stack = c.exec limit stack := by
  rw [execAll]
  cases c.exec limit stack with
  | none => rfl
  | some stack' => rfl

theorem calls_append (a b : Out ν) : (a ++ b).calls = a.calls ++ b.calls := rfl

theorem ok_bind {α β : Type} {x : Except Error α} {f : α → Except Error β} {b : β}
    (h : x >>= f = .ok b) : ∃ a, x = .ok a ∧ f a = .ok b := by
  cases x with
  | error e => cases h
  | ok a => exact ⟨a, rfl, h⟩

/-- The calls push one value. -/
def Pushes (limit : Nat) (out : Out ν) (stack : List (Tree ν)) : Prop :=
  ∃ v, execAll limit out.calls stack = some (v :: stack)

/-- The calls fill the table on top. -/
def Fills (limit : Nat) (out : Out ν) (stack : List (Tree ν)) : Prop :=
  ∀ pairs, ∃ pairs', execAll limit out.calls (.table pairs :: stack) = some (.table pairs' :: stack)

section Parser

variable {limit size : Nat} {next : List Byte → Next ν}

theorem Fills.append {a b : Out ν} {stack : List (Tree ν)} (ha : Fills limit a stack)
    (hb : Fills limit b stack) : Fills limit (a ++ b) stack := by
  intro pairs
  obtain ⟨pairs₁, h₁⟩ := ha pairs
  obtain ⟨pairs₂, h₂⟩ := hb pairs₁
  exact ⟨pairs₂, by rw [calls_append, execAll_append, h₁, Option.bind_some, h₂]⟩

theorem Fills.newtable {out : Out ν} {stack : List (Tree ν)} (h : Fills limit out stack)
    (hroom : stack.length < limit) : Pushes limit (Out.call .newtable ++ out) stack := by
  obtain ⟨pairs, hpairs⟩ := h []
  refine ⟨.table pairs, ?_⟩
  have hpush : execAll limit (Out.call (.newtable : LuaCall ν)).calls stack =
      some (.table [] :: stack) :=
    (execAll_singleton limit .newtable stack).trans (if_pos hroom)
  rw [calls_append, execAll_append, hpush, Option.bind_some, hpairs]

/-- One turn of the loop over the members. -/
theorem fills_member {out : Out ν} {stack : List (Tree ν)} (place k : List Byte)
    (hout : ∀ pairs, Pushes limit out (.string k :: .table pairs :: stack))
    (hroom : stack.length + 1 < limit) :
    Fills limit (Out.key place k ++ out ++ Out.call .rawset) stack := by
  intro pairs
  obtain ⟨v, hv⟩ := hout pairs
  refine ⟨setKey (.name k) v pairs, ?_⟩
  have hkey : execAll limit (Out.key place k : Out ν).calls (.table pairs :: stack) =
      some (.string k :: .table pairs :: stack) :=
    (execAll_singleton limit (.pushlstring k) _).trans (if_pos hroom)
  rw [calls_append, calls_append, execAll_append, execAll_append, hkey, Option.bind_some, hv,
    Option.bind_some]
  rfl

/-- One turn of the loop over the elements. -/
theorem fills_element {out : Out ν} {stack : List (Tree ν)} (i : Nat)
    (hout : ∀ pairs, Pushes limit out (.table pairs :: stack)) :
    Fills limit (out ++ Out.call (.rawseti i)) stack := by
  intro pairs
  obtain ⟨v, hv⟩ := hout pairs
  refine ⟨setKey (.index i) v pairs, ?_⟩
  rw [calls_append, execAll_append, hv, Option.bind_some]
  rfl

theorem objectLoop_fills {value : Next ν → Except Error (Out ν × List Byte)}
    {stack : List (Tree ν)} (hroom : stack.length + 1 < limit)
    (hvalue : ∀ t out s k pairs, value t = .ok (out, s) →
      Pushes limit out (.string k :: .table pairs :: stack)) {fuel : Nat} {t : Next ν}
    {out : Out ν} {s : List Byte} (h : objectLoop size next value fuel t = .ok (out, s)) :
    Fills limit out stack := by
  induction fuel generalizing t out s with
  | zero => cases h
  | succ fuel ih =>
    rw [objectLoop] at h
    split at h
    · rename_i k htoken
      dsimp only at h
      split at h
      · obtain ⟨⟨out₁, s₁⟩, hv, h⟩ := ok_bind h
        have hmember := fills_member t.place k (fun pairs => hvalue _ _ _ k pairs hv) hroom
        dsimp only at h
        split at h
        · cases h
          exact hmember
        · obtain ⟨⟨out₂, s₂⟩, hloop, h⟩ := ok_bind h
          cases h
          exact hmember.append (ih hloop)
        · cases h
      · cases h
    · cases h

theorem arrayLoop_fills {value : Next ν → Except Error (Out ν × List Byte)}
    {stack : List (Tree ν)}
    (hvalue : ∀ t out s pairs, value t = .ok (out, s) → Pushes limit out (.table pairs :: stack))
    {fuel i : Nat} {t : Next ν} {out : Out ν} {s : List Byte}
    (h : arrayLoop size next value fuel i t = .ok (out, s)) : Fills limit out stack := by
  induction fuel generalizing i t out s with
  | zero => cases h
  | succ fuel ih =>
    rw [arrayLoop] at h
    obtain ⟨⟨out₁, s₁⟩, hv, h⟩ := ok_bind h
    have helement := fills_element i fun pairs => hvalue _ _ _ pairs hv
    dsimp only at h
    split at h
    · cases h
      exact helement
    · obtain ⟨⟨out₂, s₂⟩, hloop, h⟩ := ok_bind h
      cases h
      exact helement.append (ih hloop)
    · cases h

variable {env : Env ν} (hgranted : ∀ top slots, env.checkstack top slots → top + slots ≤ limit)

include hgranted

theorem descend_room {depth top slots depth' : Nat} {s : List Byte}
    (h : descend env size depth top slots s = .ok depth') : top + slots ≤ limit := by
  unfold descend at h
  split at h
  · rename_i hcheck
    exact hgranted top slots hcheck.2
  · cases h

theorem processValue_pushes (stack : List (Tree ν)) {fuel depth : Nat} {t : Next ν} {out : Out ν}
    {s : List Byte}
    (h : processValue size next env fuel depth stack.length t = .ok (out, s))
    (hroom : stack.length < limit) : Pushes limit out stack := by
  induction fuel generalizing depth t out s stack with
  | zero => cases h
  | succ fuel ih =>
    have hpush : ∀ v : Tree ν, push limit v stack = some (v :: stack) := fun v => if_pos hroom
    rw [processValue] at h
    split at h
    · cases h
      exact ⟨_, (execAll_singleton limit _ stack).trans (hpush _)⟩
    · cases h
      exact ⟨_, (execAll_singleton limit _ stack).trans (hpush _)⟩
    · cases h
      exact ⟨_, (execAll_singleton limit _ stack).trans (hpush _)⟩
    · cases h
      exact ⟨_, (execAll_singleton limit _ stack).trans (hpush _)⟩
    · obtain ⟨depth', hdescend, h⟩ := ok_bind h
      have hfree := descend_room hgranted hdescend
      dsimp only at h
      split at h
      · cases h
        exact ⟨_, (execAll_singleton limit _ stack).trans (hpush _)⟩
      · obtain ⟨⟨out', s'⟩, hloop, h⟩ := ok_bind h
        cases h
        refine Fills.newtable ?_ hroom
        exact objectLoop_fills (by omega)
          (fun t out s k pairs hv => ih (.string k :: .table pairs :: stack) hv
            (by simp only [List.length_cons]; omega)) hloop
    · obtain ⟨depth', hdescend, h⟩ := ok_bind h
      have hfree := descend_room hgranted hdescend
      dsimp only at h
      split at h
      · cases h
        exact ⟨_, (execAll_singleton limit _ stack).trans (hpush _)⟩
      · obtain ⟨⟨out', s'⟩, hloop, h⟩ := ok_bind h
        cases h
        refine Fills.newtable ?_ hroom
        exact arrayLoop_fills
          (fun t out s pairs hv => ih (.table pairs :: stack) hv
            (by simp only [List.length_cons]; omega)) hloop
    · cases h

end Parser

/-- Whatever text is accepted, the calls leave one value over the text on the stack, and take no
slot that was not granted. -/
theorem decode_stack {num : NumberToken ν} {env : Env ν} {limit : Nat}
    (hgranted : ∀ top slots, env.checkstack top slots → top + slots ≤ limit) (hlimit : 1 < limit)
    {text : List Byte} {out : Out ν} (h : decode num env text = .ok out) :
    ∃ v, execAll limit out.calls [.string text] = some [v, .string text] := by
  unfold decode at h
  split at h
  · cases h
  · obtain ⟨⟨out', s⟩, hvalue, h⟩ := ok_bind h
    dsimp only at h
    split at h
    · cases h
      exact processValue_pushes hgranted [.string text] hvalue hlimit
    · cases h

theorem decode_stack_array :
    ∃ v, execAll 8000 ([.newtable, .pushnumber 1, .rawseti 1] : List (LuaCall Nat))
      [.string (lit ['[', '1', ']'])] = some [v, .string (lit ['[', '1', ']'])] :=
  @decode_stack Nat nextNumberToken Env.decimal 8000 (fun _ _ h => of_decide_eq_true h) (by decide)
    (lit ['[', '1', ']']) ⟨[.newtable, .pushnumber 1, .rawseti 1], []⟩ (by decide +kernel)

end EventServer.Json
