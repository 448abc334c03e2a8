import EventServer.Stream.IMemFile

/-!
# What a worker hands over

One iteration of `WorkProc` on the Lua stack of its worker, which lives as long
as the worker does. What the code of a task does is a parameter: the results it
sets by `SetUserResult`, and the values or the error that `lua_pcall` leaves.
`none` is a panic, that is an error raised outside a protected call, or an access
outside a buffer.
-/
namespace EventServer.Threads

open EventServer.Lib.Blocks EventServer.Lib.CInt EventServer.Stream

/-- The bytes of a Lua string; its header and terminator fit in memory as well. -/
structure LuaString where
  bytes : List Byte
  short : bytes.length + 1 < sizeMax
  deriving DecidableEq

inductive LuaValue where
  | str (s : LuaString)
  /-- A number, by the text it is converted to. -/
  | num (text : LuaString)
  /-- Any other type, nil among them. -/
  | other
  deriving DecidableEq

/-- The text of a value that converts to a string. -/
def LuaValue.text? : LuaValue → Option LuaString
  | .str s => some s
  | .num text => some text
  | .other => none

/-- How `lua_pcall` ends, or `luaL_loadbuffer` where the code does not compile. -/
inductive Outcome where
  | error (v : LuaValue)
  | returned (vs : List LuaValue)
  deriving DecidableEq

/-- A task as its worker sees it: whether it has a coroutine, and what its code does. -/
structure Script where
  co : Bool
  /-- The arguments of the calls of `SetUserResult`. -/
  userResults : List LuaString
  outcome : Outcome
  deriving DecidableEq

/-- The fields of `_LuaTask` that a worker writes. -/
structure TaskRet where
  retbuf : FastBufAlloc Byte 128
  ok : Bool
  userRet : Bool

/-- A task on its way to be executed. -/
def TaskRet.posted : TaskRet := ⟨.fresh, false, false⟩

/-- What `Update` pushes on the coroutine. -/
def TaskRet.handed (cmd : TaskRet) : Bool × List Byte := (cmd.ok, cmd.retbuf.content)

/-- `__SetUserResult()`. -/
def setUserResult (cmd : TaskRet) (code : LuaString) : Option TaskRet := do
  let b ← cmd.retbuf.grow code.bytes.length
  let b ← b.poke 0 code.bytes
  return { cmd with retbuf := b, userRet := true }

/-- `ldocall()`: the stack, top first, and whether the status is not 0. -/
def ldocall (stack : List LuaValue) (clear : Bool) : Outcome → List LuaValue × Bool
  | .error v => (v :: stack, true)
  | .returned vs => (if clear then stack else vs.reverse ++ stack, false)

/-- `lua_isstring(_state, -1)`. Below an empty stack stands a nil. -/
def topIsString (stack : List LuaValue) : Bool :=
  (stack.head?.bind LuaValue.text?).isSome

/-- The value on top becomes the result, and is popped. -/
def takeResult (cmd : TaskRet) (stack : List LuaValue) : Option (List LuaValue × TaskRet) := do
  let szRet ← stack.head?.bind LuaValue.text?
  let len := szRet.bytes.length
  let b ← cmd.retbuf.grow (len + 1)
  let b ← b.poke 0 szRet.bytes
  let b ← b.poke len [0]
  let b ← b.setcplen len
  return (stack.tail, { cmd with retbuf := b })

/-- The body of the loop of `WorkProc`, for a task that was popped. -/
def execute (stack : List LuaValue) (t : Script) : Option (List LuaValue × TaskRet) := do
  let cmd ← t.userResults.foldlM setUserResult .posted
  let (stack, failed) := ldocall stack (!t.co) t.outcome
  if cmd.userRet then
    return (stack, { cmd with ok := false })
  else if failed then
    takeResult { cmd with ok := false } stack
  else if t.co && topIsString stack then
    takeResult { cmd with ok := true } stack
  else
    return (stack, { cmd with ok := true })

/-- The loop over the tasks in the order they are popped: the stack after each, and its results. -/
def workProc (stack : List LuaValue) : List Script → Option (List (List LuaValue × TaskRet))
  | [] => some []
  | t :: ts => do
    let after ← execute stack t
    let rest ← workProc after.1 ts
    return after :: rest

/-- What is handed over for a task when nothing was executed before it. -/
def alone (base : List LuaValue) (t : Script) : Option (Bool × List Byte) :=
  (execute base t).map fun after => after.2.handed

/-- All tasks are executed; after each the stack is as high as before the first, and what is handed
over for it is what it gives alone. -/
def Isolated (base : List LuaValue) (ts : List Script) : Prop :=
  ∃ afters, workProc base ts = some afters ∧
    List.Forall₂ (fun t after => after.1.length = base.length ∧
      (t.co → alone base t = some after.2.handed)) ts afters

/-- What a task's own outcome amounts to when the worker clears up behind it. -/
def Script.answer (t : Script) : Bool × List Byte :=
  if t.userResults ≠ [] then (false, [])
  else match t.outcome with
    | .error v => (false, (v.text?.map LuaString.bytes).getD [])
    | .returned [v] => (true, if t.co then (v.text?.map LuaString.bytes).getD [] else [])
    | .returned _ => (true, [])

/-- The task leaves on the stack just what the worker pops for it. -/
def Balanced (base : List LuaValue) (t : Script) : Prop :=
  match t.outcome with
  | .error v => t.userResults = [] ∧ v.text?.isSome
  | .returned [] => t.co → t.userResults = [] → topIsString base = false
  | .returned [v] => t.co → t.userResults = [] ∧ v.text?.isSome
  | .returned _ => t.co = false

/-! ## The result buffer -/

theorem setUserResult_spec {cmd : TaskRet} (hw : cmd.retbuf.Wf) (code : LuaString) :
    ∃ cmd', setUserResult cmd code = some cmd' ∧ cmd'.retbuf.Wf ∧
      cmd'.retbuf.cpLen = cmd.retbuf.cpLen ∧ cmd'.userRet = true := by
  have hs := code.short
  obtain ⟨b₁, hb₁, hw₁, hc₁, ha₁, -⟩ := FastBufAlloc.grow_spec hw
    code.bytes.length (by omega)
  obtain ⟨blk, hblk, -⟩ := hw₁.buf_eq
  obtain ⟨b₂, hb₂, hw₂, hc₂, -, -⟩ := FastBufAlloc.poke_spec hw₁ hblk 0
    code.bytes (by omega)
  exact ⟨{ cmd with retbuf := b₂, userRet := true }, by simp [setUserResult, hb₁, hb₂], hw₂,
    hc₂.trans hc₁, rfl⟩

/-- The recorded length never changes: none of these calls is seen by `cplen()`. -/
theorem setUserResults_spec (us : List LuaString) (cmd : TaskRet) (hw : cmd.retbuf.Wf) :
    ∃ cmd', us.foldlM setUserResult cmd = some cmd' ∧ cmd'.retbuf.Wf ∧
      cmd'.retbuf.cpLen = cmd.retbuf.cpLen ∧ (us ≠ [] → cmd'.userRet = true) := by
  induction us generalizing cmd with
  | nil => exact ⟨cmd, rfl, hw, rfl, fun h => absurd rfl h⟩
  | cons u us ih =>
    obtain ⟨cmd₁, h₁, hw₁, hc₁, hu₁⟩ := setUserResult_spec hw u
    obtain ⟨cmd₂, h₂, hw₂, hc₂, hu₂⟩ := ih cmd₁ hw₁
    refine ⟨cmd₂, by simp [List.foldlM_cons, h₁, h₂], hw₂, hc₂.trans hc₁, fun _ => ?_⟩
    cases us with
    | nil =>
      simp only [List.foldlM_nil, pure, Option.some.injEq] at h₂
      exact h₂ ▸ hu₁
    | cons v us => exact hu₂ (List.cons_ne_nil v us)

theorem takeResult_spec (cmd : TaskRet) (hw : cmd.retbuf.Wf) {v : LuaValue} {s : LuaString}
    (hv : v.text? = some s) (stack : List LuaValue) :
    ∃ cmd', takeResult cmd (v :: stack) = some (stack, cmd') ∧ cmd'.handed = (cmd.ok, s.bytes) := by
  have hs := s.short
  obtain ⟨b₁, hb₁, hw₁, -, ha₁, -⟩ := FastBufAlloc.grow_spec hw
    (s.bytes.length + 1) (by omega)
  obtain ⟨blk, hblk, hl⟩ := hw₁.buf_eq
  obtain ⟨b₂, hb₂, hw₂, -, ha₂, hbuf₂⟩ := FastBufAlloc.poke_spec hw₁ hblk 0
    s.bytes (by omega)
  obtain ⟨b₃, hb₃, hw₃, -, ha₃, hbuf₃⟩ := FastBufAlloc.poke_spec hw₂ hbuf₂
    s.bytes.length [0] (by simp only [List.length_singleton]; omega)
  obtain ⟨b₄, hb₄, -, -, -, hcont⟩ := FastBufAlloc.setcplen_spec hw₃ hbuf₃
    s.bytes.length (by omega)
  refine ⟨{ cmd with retbuf := b₄ }, ?_, ?_⟩
  · exact bind_eq_of_some hv (bind_eq_of_some hb₁ (bind_eq_of_some hb₂
      (bind_eq_of_some hb₃ (bind_eq_of_some hb₄ rfl))))
  · have hl₂ : (splice blk 0 s.bytes).length = blk.length := by
      rw [splice_length (Nat.zero_le _)]
      omega
    rw [TaskRet.handed, hcont, take_splice_of_le [0] (Nat.le_refl _) (by omega)]
    simp [splice]

theorem takeResult_of_other (cmd : TaskRet) {v : LuaValue} (hv : v.text? = none)
    (stack : List LuaValue) : takeResult cmd (v :: stack) = none := by
  simp [takeResult, hv]

/-! ## One task -/

section Branches

variable (base : List LuaValue) (co : Bool) {us : List LuaString}

theorem execute_user (hus : us ≠ []) (o : Outcome) :
    ∃ cmd, execute base ⟨co, us, o⟩ = some ((ldocall base (!co) o).1, cmd) ∧
      cmd.handed = (false, []) := by
  obtain ⟨cmd, hcmd, hw, hcp, hu⟩ := setUserResults_spec us .posted FastBufAlloc.wf_fresh
  refine ⟨{ cmd with ok := false }, by simp [execute, hcmd, hu hus], ?_⟩
  have hcont : cmd.retbuf.content = [] :=
    List.length_eq_zero_iff.mp (hw.content_length.trans hcp)
  simp [TaskRet.handed, hcont]

theorem execute_error {v : LuaValue} {s : LuaString} (hv : v.text? = some s) :
    ∃ cmd, execute base ⟨co, [], .error v⟩ = some (base, cmd) ∧ cmd.handed = (false, s.bytes) :=
  takeResult_spec { TaskRet.posted with ok := false } FastBufAlloc.wf_fresh hv base

theorem execute_error_other {v : LuaValue} (hv : v.text? = none) :
    execute base ⟨co, [], .error v⟩ = none :=
  takeResult_of_other { TaskRet.posted with ok := false } hv base

/-- A text on top of the stack is taken for the result of the task, whoever left it there. -/
theorem execute_taken (vs : List LuaValue) {v : LuaValue} {rest : List LuaValue} {s : LuaString}
    (htop : vs.reverse ++ base = v :: rest) (hv : v.text? = some s) :
    ∃ cmd, execute base ⟨true, [], .returned vs⟩ = some (rest, cmd) ∧
      cmd.handed = (true, s.bytes) := by
  obtain ⟨cmd, he, hh⟩ :=
    takeResult_spec { TaskRet.posted with ok := true } FastBufAlloc.wf_fresh hv rest
  refine ⟨cmd, ?_, hh⟩
  rw [← he]
  simp [execute, ldocall, htop, topIsString, hv, TaskRet.posted]

theorem execute_kept (vs : List LuaValue)
    (htop : co = true → topIsString (vs.reverse ++ base) = false) :
    ∃ cmd, execute base ⟨co, [], .returned vs⟩ =
        some ((ldocall base (!co) (.returned vs)).1, cmd) ∧ cmd.handed = (true, []) := by
  refine ⟨{ TaskRet.posted with ok := true }, ?_, by simp [TaskRet.handed, TaskRet.posted]⟩
  cases co with
  | false => simp [execute, TaskRet.posted, ldocall]
  | true => simp [execute, TaskRet.posted, ldocall, htop rfl]

end Branches

/-- A balanced task gives its own answer and leaves the stack as it was. -/
theorem execute_of_balanced {base : List LuaValue} {t : Script} (ht : Balanced base t) :
    ∃ cmd, execute base t = some (base, cmd) ∧ cmd.handed = t.answer := by
  obtain ⟨co, us, o⟩ := t
  by_cases hus : us = []
  · subst hus
    match o, ht with
    | .error v, ht =>
      obtain ⟨s, hs⟩ := Option.isSome_iff_exists.mp ht.2
      obtain ⟨cmd, he, hh⟩ := execute_error base co hs
      exact ⟨cmd, he, by simp [hh, Script.answer, hs]⟩
    | .returned [], ht =>
      obtain ⟨cmd, he, hh⟩ := execute_kept base co [] (ht · rfl)
      exact ⟨cmd, by simpa [ldocall] using he, hh⟩
    | .returned [v], ht =>
      cases co with
      | false =>
        obtain ⟨cmd, he, hh⟩ := execute_kept base false [v] nofun
        exact ⟨cmd, he, hh⟩
      | true =>
        obtain ⟨s, hs⟩ := Option.isSome_iff_exists.mp (ht rfl).2
        obtain ⟨cmd, he, hh⟩ := execute_taken base [v] rfl hs
        exact ⟨cmd, he, by simp [hh, Script.answer, hs]⟩
    | .returned (v :: w :: vs), (ht : co = false) =>
      subst ht
      obtain ⟨cmd, he, hh⟩ := execute_kept base false (v :: w :: vs) nofun
      exact ⟨cmd, he, hh⟩
  · obtain ⟨cmd, he, hh⟩ := execute_user base co hus o
    refine ⟨cmd, he.trans ?_, by simp [hh, Script.answer, hus]⟩
    -- the call left nothing, or `ldocall` asked for no results
    match o, ht with
    | .error v, ht => exact absurd ht.1 hus
    | .returned [], _ => simp [ldocall]
    | .returned [v], ht =>
      cases co with
      | false => rfl
      | true => exact absurd (ht rfl).1 hus
    | .returned (v :: w :: vs), (ht : co = false) => simp [ldocall, ht]

theorem execute_returned_height {base vs : List LuaValue} {after : List LuaValue × TaskRet}
    (he : execute base ⟨true, [], .returned vs⟩ = some after) :
    after.1.length + (topIsString (vs.reverse ++ base)).toNat = vs.length + base.length := by
  cases htop : topIsString (vs.reverse ++ base) with
  | false =>
    obtain ⟨cmd, he', -⟩ := execute_kept base true vs fun _ => htop
    rw [he', Option.some.injEq] at he
    simp [← he, ldocall]
  | true =>
    obtain ⟨s, hs⟩ := Option.isSome_iff_exists.mp htop
    obtain ⟨v, hv, hs⟩ := Option.bind_eq_some_iff.mp hs
    obtain ⟨rest, hrest⟩ := List.head?_eq_some_iff.mp hv
    obtain ⟨cmd, he', -⟩ := execute_taken base vs hrest hs
    rw [he', Option.some.injEq] at he
    have hl := congrArg List.length hrest
    simp only [List.length_append, List.length_reverse, List.length_cons] at hl
    simp [← he, hl]

/-- A task that keeps the height of the stack is balanced. -/
theorem balanced_of_height {base : List LuaValue} {t : Script} {after : List LuaValue × TaskRet}
    (he : execute base t = some after) (hh : after.1.length = base.length) : Balanced base t := by
  obtain ⟨co, us, o⟩ := t
  by_cases hus : us = []
  · subst hus
    match o with
    | .error v =>
      cases hv : v.text? with
      | none => rw [execute_error_other base co hv] at he; exact absurd he nofun
      | some s => exact ⟨rfl, by simp [hv]⟩
    | .returned [] =>
      rintro (rfl : co = true) -
      simpa [hh] using execute_returned_height he
    | .returned [v] =>
      rintro (rfl : co = true)
      have hlen := execute_returned_height he
      refine ⟨rfl, ?_⟩
      cases hv : v.text? with
      | none => simp [topIsString, hv, hh] at hlen
      | some s => rfl
    | .returned (v :: w :: vs) =>
      cases co with
      | false => rfl
      | true =>
        have hlen := execute_returned_height he
        have hpop := Bool.toNat_le (topIsString ((v :: w :: vs).reverse ++ base))
        simp only [List.length_cons] at hlen
        omega
  · obtain ⟨cmd, he', -⟩ := execute_user base co hus o
    rw [he', Option.some.injEq] at he
    match o with
    | .error v => simp [← he, ldocall] at hh
    | .returned [] => exact fun _ h => absurd h hus
    | .returned [v] =>
      rintro (rfl : co = true)
      simp [← he, ldocall] at hh
    | .returned (v :: w :: vs) =>
      cases co with
      | false => rfl
      | true =>
        simp [← he, ldocall] at hh
        omega

/-! ## The loop -/

theorem workProc_of_balanced {base : List LuaValue} {ts : List Script}
    (hts : ∀ t ∈ ts, Balanced base t) :
    ∃ afters, workProc base ts = some afters ∧
      List.Forall₂ (fun t after => execute base t = some after ∧ after.1 = base ∧
        after.2.handed = t.answer) ts afters := by
  induction ts with
  | nil => exact ⟨[], rfl, .nil⟩
  | cons t ts ih =>
    obtain ⟨ht, hts⟩ := List.forall_mem_cons.mp hts
    obtain ⟨cmd, he, hh⟩ := execute_of_balanced ht
    obtain ⟨afters, hrun, hall⟩ := ih hts
    exact ⟨(base, cmd) :: afters, by simp [workProc, he, hrun], .cons ⟨he, rfl, hh⟩ hall⟩

/-- As long as the height is kept, every task was balanced: the first one that is not finds the
stack still as it was at the start. -/
theorem Isolated.balanced {base : List LuaValue} {ts : List Script} (h : Isolated base ts) :
    ∀ t ∈ ts, Balanced base t := by
  induction ts with
  | nil => simp
  | cons t ts ih =>
    obtain ⟨afters, hrun, hall⟩ := h
    simp only [workProc, Option.bind_eq_bind, Option.bind_eq_some_iff, pure,
      Option.some.injEq] at hrun
    obtain ⟨after, he, rest, hrest, rfl⟩ := hrun
    obtain ⟨⟨hheight, -⟩, hothers⟩ := List.forall₂_cons.mp hall
    have ht : Balanced base t := balanced_of_height he hheight
    obtain ⟨cmd, he', -⟩ := execute_of_balanced ht
    obtain rfl : (base, cmd) = after := by simpa [he'] using he
    exact List.forall_mem_cons.mpr ⟨ht, ih ⟨rest, hrest, hothers⟩⟩

/-- Nothing leaks between the tasks of a worker exactly when each of them is balanced. -/
theorem isolated_iff (base : List LuaValue) (ts : List Script) :
    Isolated base ts ↔ ∀ t ∈ ts, Balanced base t := by
  constructor
  · exact Isolated.balanced
  · intro hts
    obtain ⟨afters, hrun, hall⟩ := workProc_of_balanced hts
    refine ⟨afters, hrun, hall.imp ?_⟩
    intro t after hafter
    obtain ⟨he, hbase, -⟩ := hafter
    exact ⟨by rw [hbase], fun _ => by simp [alone, he]⟩

/-- The second task returns nothing, and is given what the first one left on the stack. -/
theorem leftover_taken :
    let a : LuaValue := .str ⟨[97], by decide⟩
    let b : LuaValue := .str ⟨[98], by decide⟩
    let two : Script := ⟨true, [], .returned [a, b]⟩
    let nothing : Script := ⟨true, [], .returned []⟩
    (workProc [.other] [two, nothing]).map (·.map fun after => (after.1.length, after.2.handed)) =
        some [(2, true, [98]), (1, true, [97])] ∧
      alone [.other] nothing = some (true, []) ∧ ¬ Isolated [.other] [two, nothing] := by
  intro a b two nothing
  refine ⟨by decide +kernel, by decide +kernel, ?_⟩
  intro h
  exact absurd (h.balanced two List.mem_cons_self) nofun

end EventServer.Threads
