import EventServer.Lib.Transition
import Mathlib.Data.List.Perm.Basic
import Mathlib.Data.List.Nodup

/-!
# Who owns a pooled message

`s_pool` is one queue of messages for all Lua states, under one lock. `new` and
`new_local` take its first message, or construct one; `LuaLXZCLXZMessage_collect`
appends a message and frees the first one of ten. It runs when a script calls
`:delete()`, and once more when the userdata of a `new_local` message is
collected, whether or not the script deleted it before.
-/
namespace EventServer.Pool

open EventServer.Lib.Transition

/-- The address of a `CLXZMessage`. -/
abbrev MessagePtr := Nat

/-- What a call of `new` or `new_local` gave to a script. -/
structure Handle where
  ptr : MessagePtr
  /-- Pushed by `new_local`, with ownership. -/
  owned : Bool
  /-- The script called `:delete()`. -/
  deleted : Bool
  /-- Its userdata was collected. -/
  collected : Bool
  deriving DecidableEq

/-- The script neither deleted the message nor lost it to the collector. -/
def Handle.holds (h : Handle) : Bool := !h.deleted && !h.collected

structure PoolSys where
  /-- `s_pool`. -/
  pool : List MessagePtr
  allocated : List MessagePtr
  /-- In the order of the calls, from all Lua states. -/
  handles : List Handle
  deriving DecidableEq

/-- One call, with the address a constructed message gets if one is needed. -/
inductive Event where
  | new (fresh : MessagePtr)
  | newLocal (fresh : MessagePtr)
  | delete (i : Nat)
  | gc (i : Nat)
  deriving DecidableEq

/-- What a call does with messages. -/
inductive Effect where
  | handedOut (p : MessagePtr)
  | recycled (p : MessagePtr)
  /-- The pool was full: `freed` was deleted. -/
  | recycledFreeing (p freed : MessagePtr)
  deriving DecidableEq

namespace PoolSys

def start : PoolSys := ⟨[], [], []⟩

/-- The messages that scripts hold. -/
def held (s : PoolSys) : List MessagePtr := (s.handles.filter Handle.holds).map Handle.ptr

/-- `new` and `new_local`: the first message of the pool, or a new one at an address that is free. -/
def handOut (s : PoolSys) (owned : Bool) (fresh : MessagePtr) : Option (PoolSys × Effect) :=
  match s.pool with
  | p :: rest =>
    some ({ s with pool := rest, handles := s.handles ++ [⟨p, owned, false, false⟩] }, .handedOut p)
  | [] =>
    if fresh ∈ s.allocated then none
    else some ({ s with
      allocated := fresh :: s.allocated
      handles := s.handles ++ [⟨fresh, owned, false, false⟩] }, .handedOut fresh)

/-- `LuaLXZCLXZMessage_collect`. -/
def collect (s : PoolSys) (p : MessagePtr) : PoolSys × Effect :=
  let pool := s.pool ++ [p]
  if 10 ≤ pool.length then
    match pool with
    | q :: rest =>
      ({ s with pool := rest, allocated := s.allocated.erase q }, .recycledFreeing p q)
    | [] => ({ s with pool }, .recycled p)
  else ({ s with pool }, .recycled p)

/-- `:delete()`, at most once for each message obtained and not after its userdata is gone; and the
collection of an owned userdata. -/
def step (s : PoolSys) : Event → Option (PoolSys × Effect)
  | .new fresh => s.handOut false fresh
  | .newLocal fresh => s.handOut true fresh
  | .delete i => do
    let h ← s.handles[i]?
    if h.deleted || h.collected then none
    else some ({ s with handles := s.handles.set i { h with deleted := true } }.collect h.ptr)
  | .gc i => do
    let h ← s.handles[i]?
    if !h.owned || h.collected then none
    else some ({ s with handles := s.handles.set i { h with collected := true } }.collect h.ptr)

/-- No owned userdata is collected after the script deleted its message. -/
def Meets (s : PoolSys) : Event → Prop
  | .gc i => ∀ h, s.handles[i]? = some h → h.deleted = false
  | _ => True

/-- The runs all of whose steps meet the condition. -/
def restrained : Lts PoolSys where
  init s := s = start
  step s t := ∃ e eff, s.Meets e ∧ s.step e = some (t, eff)

/-! ## The invariant -/

/-- No message is twice among those in the pool and those held, and all of them are allocated. -/
structure Inv (s : PoolSys) : Prop where
  nodup : (s.pool ++ s.held).Nodup
  allocated : ∀ p ∈ s.pool ++ s.held, p ∈ s.allocated

theorem inv_start : start.Inv := ⟨List.nodup_nil, by simp [start, held]⟩

theorem held_append (s : PoolSys) (pool allocated : List MessagePtr) (p : MessagePtr)
    (owned : Bool) :
    (⟨pool, allocated, s.handles ++ [⟨p, owned, false, false⟩]⟩ : PoolSys).held = s.held ++ [p] := by
  simp [held, Handle.holds]

theorem held_perm_set {s : PoolSys} {i : Nat} {h h' : Handle} (hi : s.handles[i]? = some h)
    (hold : h.holds = true) (hnew : h'.holds = false) (pool allocated : List MessagePtr) :
    s.held.Perm (h.ptr :: (⟨pool, allocated, s.handles.set i h'⟩ : PoolSys).held) := by
  obtain ⟨hlt, rfl⟩ := List.getElem?_eq_some_iff.mp hi
  have hset : s.handles.set i h' = s.handles.take i ++ h' :: s.handles.drop (i + 1) :=
    List.set_eq_take_append_cons_drop.trans (if_pos hlt)
  have hsplit : s.handles = s.handles.take i ++ s.handles[i] :: s.handles.drop (i + 1) := by
    rw [List.getElem_cons_drop, List.take_append_drop]
  simp only [held, hset]
  conv_lhs => rw [hsplit]
  simp only [List.filter_append, List.filter_cons, hold, hnew, ↓reduceIte, Bool.false_eq_true,
    List.map_append, List.map_cons]
  exact List.perm_middle

theorem inv_handOut {s t : PoolSys} {owned : Bool} {fresh : MessagePtr} {eff : Effect} (hs : s.Inv)
    (h : s.handOut owned fresh = some (t, eff)) :
    t.Inv ∧ ∃ p, eff = .handedOut p ∧ p ∉ s.held := by
  unfold handOut at h
  split at h
  · rename_i p rest hpool
    obtain ⟨rfl, rfl⟩ := Prod.mk.inj (Option.some.inj h)
    have hperm : (s.pool ++ s.held).Perm (rest ++ (s.held ++ [p])) := by
      rw [hpool, ← List.append_assoc]
      exact (List.perm_append_singleton p (rest ++ s.held)).symm
    refine ⟨⟨?_, ?_⟩, p, rfl, ?_⟩
    · rw [held_append]
      exact hperm.nodup_iff.mp hs.nodup
    · intro x hx
      rw [held_append] at hx
      exact hs.allocated x (hperm.mem_iff.mpr hx)
    · intro hp
      have hnodup := hs.nodup
      rw [hpool, List.cons_append, List.nodup_cons] at hnodup
      exact hnodup.1 (List.mem_append_right _ hp)
  · rename_i hpool
    split at h
    · cases h
    · rename_i hfresh
      obtain ⟨rfl, rfl⟩ := Prod.mk.inj (Option.some.inj h)
      have hnot : fresh ∉ s.held :=
        fun hx => hfresh (hs.allocated fresh (List.mem_append_right _ hx))
      refine ⟨⟨?_, ?_⟩, fresh, rfl, hnot⟩
      · have hnodup := hs.nodup
        rw [hpool, List.nil_append] at hnodup
        rw [held_append, hpool, List.nil_append]
        exact (List.perm_append_singleton fresh s.held).nodup_iff.mpr
          (List.nodup_cons.mpr ⟨hnot, hnodup⟩)
      · intro x hx
        rw [held_append, hpool, List.nil_append, List.mem_append, List.mem_singleton] at hx
        rcases hx with hx | rfl
        · exact List.mem_cons_of_mem _ (hs.allocated x (List.mem_append_right _ hx))
        · exact List.mem_cons_self

/-- Either the message is appended, or it is and the first one is freed. -/
theorem collect_cases (s : PoolSys) (p : MessagePtr) :
    s.collect p = ({ s with pool := s.pool ++ [p] }, .recycled p) ∨
      ∃ q rest, s.pool ++ [p] = q :: rest ∧ s.collect p =
        ({ s with pool := rest, allocated := s.allocated.erase q }, .recycledFreeing p q) := by
  obtain ⟨q, rest, hq⟩ : ∃ q rest, s.pool ++ [p] = q :: rest :=
    List.exists_cons_of_ne_nil (by simp)
  simp only [collect, hq]
  split
  · exact .inr ⟨q, rest, rfl, rfl⟩
  · exact .inl rfl

theorem inv_collect {s t : PoolSys} {p : MessagePtr} {eff : Effect}
    (hnodup : (s.pool ++ p :: s.held).Nodup)
    (hall : ∀ x ∈ s.pool ++ p :: s.held, x ∈ s.allocated) (h : s.collect p = (t, eff)) :
    t.Inv ∧ (eff = .recycled p ∨ ∃ q, eff = .recycledFreeing p q ∧ q ∉ t.pool ∧ q ∉ t.held) := by
  have hassoc : s.pool ++ p :: s.held = (s.pool ++ [p]) ++ s.held := by simp
  rw [hassoc] at hnodup hall
  rcases collect_cases s p with hc | ⟨q, rest, hq, hc⟩
  · obtain ⟨rfl, rfl⟩ := Prod.mk.inj (hc.symm.trans h)
    exact ⟨⟨hnodup, hall⟩, .inl rfl⟩
  · obtain ⟨rfl, rfl⟩ := Prod.mk.inj (hc.symm.trans h)
    rw [hq, List.cons_append, List.nodup_cons] at hnodup
    obtain ⟨hfirst, hrest⟩ := hnodup
    refine ⟨⟨hrest, ?_⟩, .inr ⟨q, rfl, ?_, ?_⟩⟩
    · intro x hx
      have hne : x ≠ q := fun he => hfirst (he ▸ hx)
      refine (List.mem_erase_of_ne hne).mpr (hall x ?_)
      rw [hq]
      exact List.mem_cons_of_mem _ hx
    · exact fun hx => hfirst (List.mem_append_left _ hx)
    · exact fun hx => hfirst (List.mem_append_right _ hx)

theorem inv_giveUp {s t : PoolSys} {i : Nat} {h h' : Handle} {eff : Effect} (hs : s.Inv)
    (hi : s.handles[i]? = some h) (hold : h.holds = true) (hnew : h'.holds = false)
    (hc : collect { s with handles := s.handles.set i h' } h.ptr = (t, eff)) :
    t.Inv ∧ (eff = .recycled h.ptr ∨
      ∃ q, eff = .recycledFreeing h.ptr q ∧ q ∉ t.pool ∧ q ∉ t.held) := by
  have hperm := (held_perm_set hi hold hnew s.pool s.allocated).append_left s.pool
  refine inv_collect (hperm.nodup_iff.mp hs.nodup) ?_ hc
  intro x hx
  exact hs.allocated x (hperm.mem_iff.mpr hx)

/-- What a call may do: hand out a message that nobody holds, or recycle one, and then free only a
message that is neither in the pool nor held. -/
def EffectSafe (s t : PoolSys) : Effect → Prop
  | .handedOut p => p ∉ s.held
  | .recycled _ => True
  | .recycledFreeing _ q => q ∉ t.pool ∧ q ∉ t.held

theorem inv_step {s t : PoolSys} {e : Event} {eff : Effect} (hs : s.Inv) (hm : s.Meets e)
    (h : s.step e = some (t, eff)) : t.Inv ∧ EffectSafe s t eff := by
  have hgive : ∀ {i : Nat} {h h' : Handle}, s.handles[i]? = some h → h.holds = true →
      h'.holds = false → collect { s with handles := s.handles.set i h' } h.ptr = (t, eff) →
      t.Inv ∧ EffectSafe s t eff := by
    intro i h h' hi hold hnew hc
    obtain ⟨hinv, rfl | ⟨q, rfl, hq⟩⟩ := inv_giveUp hs hi hold hnew hc
    · exact ⟨hinv, trivial⟩
    · exact ⟨hinv, hq⟩
  cases e with
  | new fresh =>
    obtain ⟨hinv, p, rfl, hp⟩ := inv_handOut hs h
    exact ⟨hinv, hp⟩
  | newLocal fresh =>
    obtain ⟨hinv, p, rfl, hp⟩ := inv_handOut hs h
    exact ⟨hinv, hp⟩
  | delete i =>
    simp only [step, Option.bind_eq_bind, Option.bind_eq_some_iff, Option.ite_none_left_eq_some,
      Option.some.injEq] at h
    obtain ⟨h, hi, hflags, hc⟩ := h
    exact hgive hi (by simpa [Handle.holds] using hflags) (by simp [Handle.holds]) hc
  | gc i =>
    simp only [step, Option.bind_eq_bind, Option.bind_eq_some_iff, Option.ite_none_left_eq_some,
      Option.some.injEq] at h
    obtain ⟨h, hi, hflags, hc⟩ := h
    have hdel := hm h hi
    have howned : h.owned = true ∧ h.collected = false := by simpa using hflags
    exact hgive hi (by simp [Handle.holds, hdel, howned.2]) (by simp [Handle.holds]) hc

/-- In every run in which no owned userdata is collected after the script deleted its message: the
pool holds no message twice, no message has two holders or is in the pool while it is held, and all
of them are allocated; and the next call, if it meets the condition too, hands out only what nobody
holds and frees only what is neither in the pool nor held. -/
theorem pooled_message_one_owner {s : PoolSys} (hs : Reachable restrained s) :
    s.pool.Nodup ∧ s.held.Nodup ∧ (∀ p ∈ s.held, p ∉ s.pool) ∧
      (∀ p, p ∈ s.pool ∨ p ∈ s.held → p ∈ s.allocated) ∧
      ∀ e t eff, s.Meets e → s.step e = some (t, eff) → EffectSafe s t eff := by
  have hinv : s.Inv := by
    refine hs.invariant (P := Inv) ?_ ?_
    · intro s h
      rw [show s = start from h]
      exact inv_start
    · intro s t _ hs hstep
      obtain ⟨e, eff, hm, hstep⟩ := hstep
      exact (inv_step hs hm hstep).1
  obtain ⟨hpool, hheld, hdisj⟩ := List.nodup_append.mp hinv.nodup
  refine ⟨hpool, hheld, ?_, ?_, ?_⟩
  · intro p hp hq
    exact hdisj p hq p hp rfl
  · intro p hp
    exact hinv.allocated p (List.mem_append.mpr hp)
  · intro e t eff hm hstep
    exact (inv_step hinv hm hstep).2

/-- A message of `new` that is deleted, and one of `new_local` that is collected, with the same
address: the second takes the first one from the pool. -/
theorem pooled_message_one_owner_run :
    let s : PoolSys := ⟨[0], [0], [⟨0, false, true, false⟩, ⟨0, true, false, true⟩]⟩
    (run step start [.new 0, .delete 0, .newLocal 1, .gc 1]).map Prod.fst = some s ∧
      s.pool.Nodup := by
  intro s
  refine ⟨by decide, ?_⟩
  have h₀ : Reachable restrained start := .init rfl
  have h₁ := h₀.step ⟨.new 0, _, trivial, rfl⟩
  have h₂ := h₁.step ⟨.delete 0, _, trivial, rfl⟩
  have h₃ := h₂.step ⟨.newLocal 1, _, trivial, rfl⟩
  have hm : Meets ⟨[], [0], [⟨0, false, true, false⟩, ⟨0, true, false, false⟩]⟩ (.gc 1) := by
    intro h hh
    obtain rfl := Option.some.inj hh
    rfl
  have h₄ : Reachable restrained s := h₃.step ⟨.gc 1, _, hm, rfl⟩
  exact (pooled_message_one_owner h₄).1

/-- `:delete()` on a message of `new_local`, and the collection of its userdata. -/
theorem deleted_and_collected :
    let events : List Event := [.newLocal 0, .delete 0, .gc 0]
    (run step start events).map (fun r => r.1.pool) = some [0, 0] ∧
      (run step start (events ++ [.new 1, .newLocal 1])).map (fun r => r.1.held) = some [0, 0] := by
  decide

end PoolSys

end EventServer.Pool
