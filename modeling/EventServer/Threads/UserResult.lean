import EventServer.Threads.WorkProc

/-!
# The result that a script sets

`SetUserResult` grows the result buffer and copies the bytes into it. The worker then
leaves the buffer as it is: only its own two branches record a length. `Update` resumes
the coroutine with as many bytes as were recorded, and those are none.
-/
namespace EventServer.Threads

open EventServer.Lib.Blocks EventServer.Stream

/-- What `Update` resumes the coroutine of a returned task with, if it is suspended. -/
def resumedWith (yielded : Bool) (cmd : TaskRet) : Option (Bool × List Byte) :=
  if yielded then some cmd.handed else none

/-- A worker executes the task, and its suspended coroutine is resumed with these bytes. -/
def Delivered (base : List LuaValue) (t : Script) (bytes : List Byte) : Prop :=
  ∃ stack cmd ok, execute base t = some (stack, cmd) ∧ resumedWith true cmd = some (ok, bytes)

theorem setUserResult_stores {cmd cmd' : TaskRet} (hw : cmd.retbuf.Wf) {code : LuaString}
    (he : setUserResult cmd code = some cmd') :
    ∃ blk, cmd'.retbuf.buf = some blk ∧ blk.take code.bytes.length = code.bytes := by
  have hs := code.short
  obtain ⟨b₁, hgrow, hw₁, -, halloc, -⟩ := FastBufAlloc.grow_spec hw code.bytes.length (by omega)
  obtain ⟨blk, hblk, -⟩ := hw₁.buf_eq
  obtain ⟨b₂, hpoke, -, -, -, hbuf⟩ := FastBufAlloc.poke_spec hw₁ hblk 0 code.bytes (by omega)
  have hcmd : cmd' = { cmd with retbuf := b₂, userRet := true } := by
    simpa [setUserResult, hgrow, hpoke] using he.symm
  subst hcmd
  exact ⟨_, hbuf, take_drop_splice (Nat.zero_le _) code.bytes⟩

/-- The bytes are in the buffer. -/
theorem execute_stores (base : List LuaValue) (co : Bool) (us : List LuaString) (s : LuaString)
    (o : Outcome) :
    ∃ stack cmd blk, execute base ⟨co, us ++ [s], o⟩ = some (stack, cmd) ∧
      cmd.retbuf.buf = some blk ∧ blk.take s.bytes.length = s.bytes ∧ cmd.retbuf.cpLen = 0 := by
  obtain ⟨cmd₁, h₁, hw₁, hc₁, -⟩ := setUserResults_spec us .posted FastBufAlloc.wf_fresh
  obtain ⟨cmd₂, h₂, -, hc₂, hu₂⟩ := setUserResult_spec hw₁ s
  obtain ⟨blk, hblk, htake⟩ := setUserResult_stores hw₁ h₂
  refine ⟨(ldocall base (!co) o).1, { cmd₂ with ok := false }, blk, ?_, hblk, htake,
    hc₂.trans hc₁⟩
  simp [execute, List.foldlM_append, h₁, h₂, hu₂]

/-- Whatever was set, the coroutine is resumed with the empty string. -/
theorem delivered_iff_empty (base : List LuaValue) {us : List LuaString} (hus : us ≠ [])
    (o : Outcome) (bytes : List Byte) : Delivered base ⟨true, us, o⟩ bytes ↔ bytes = [] := by
  obtain ⟨cmd, he, hhanded⟩ := execute_user base true hus o
  constructor
  · intro hdelivered
    obtain ⟨stack, cmd', ok, he', hresumed⟩ := hdelivered
    obtain ⟨-, rfl⟩ := Prod.mk.inj (Option.some.inj (he.symm.trans he'))
    have hpair : cmd.handed = (ok, bytes) := Option.some.inj hresumed
    rw [hhanded] at hpair
    exact (Prod.mk.inj hpair).2.symm
  · rintro rfl
    exact ⟨_, cmd, false, he, congrArg some hhanded⟩

/-- The coroutine gets the bytes of the last call of `SetUserResult` only if there are none. -/
theorem user_result_delivered_iff (base : List LuaValue) (us : List LuaString) (s : LuaString)
    (o : Outcome) : Delivered base ⟨true, us ++ [s], o⟩ s.bytes ↔ s.bytes = [] :=
  delivered_iff_empty base (List.concat_ne_nil s us) o s.bytes

/-- A script sets `ok`, and its coroutine gets nothing. -/
theorem user_result_lost :
    ¬ Delivered [] ⟨true, [⟨[111, 107], by decide⟩], .returned []⟩ [111, 107] := by
  rw [delivered_iff_empty [] (List.cons_ne_nil _ []) _ _]
  exact List.cons_ne_nil _ _

end EventServer.Threads
