import EventServer.Threads.ExactlyOnce

/-!
# Several servers

Every server has a Lua state and an event thread of its own, but the workers,
the list of returned tasks and `g_server` are there once. A server's thread
posts tasks for its Lua state; it runs `Update` when its user event is active,
and a worker activates the event of `g_server` alone.
-/
namespace EventServer.Threads

open EventServer.Lib.Transition

/-! ## What is posted and what is collected -/

/-- The coroutine and the Lua state of a call of `PostTask` that has not appended yet. -/
def Poster.request {W : Type} : Poster W → Option (Option LuaState × LuaState)
  | .counted _ co main _ => some (co, main)
  | .admitted _ co main => some (co, main)
  | _ => none

namespace Sys

variable {W P U : Type}

/-- Every task that was posted, or is about to be, is of a kind. -/
structure Posted (Q : Option LuaState → LuaState → Prop) (s : Sys W P U) : Prop where
  request : ∀ p co main, (s.poster p).request = some (co, main) → Q co main
  appended : ∀ w, ∀ t ∈ s.appended w, Q t.co t.main

/-- Every call of `Update` is on behalf of a Lua state of a kind. -/
structure UpdatedFor (Q : LuaState → Prop) (s : Sys W P U) : Prop where
  updater : ∀ u co lst, s.updater u = .working co lst → Q co
  consumed : ∀ c ∈ s.consumed, Q c.co

section Steps

variable {Q : Option LuaState → LuaState → Prop} {R : LuaState → Prop} {s t : Sys W P U}

theorem Posted.congr (h : Posted Q s) (hp : t.poster = s.poster) (ha : t.appended = s.appended) :
    Posted Q t :=
  ⟨by rw [hp]; exact h.request, by rw [ha]; exact h.appended⟩

theorem Posted.setPoster [DecidableEq P] (h : Posted Q s) (p : P) (x : Poster W)
    (hx : ∀ co main, x.request = some (co, main) → Q co main) : Posted Q (s.setPoster p x) := by
  refine ⟨fun q co main hq => ?_, h.appended⟩
  by_cases hqp : q = p
  · subst hqp
    exact hx co main (by simpa [Sys.setPoster] using hq)
  · exact h.request q co main (by simpa [Sys.setPoster, Function.update_of_ne hqp] using hq)

theorem UpdatedFor.congr (h : UpdatedFor R s) (hu : t.updater = s.updater)
    (hc : t.consumed = s.consumed) : UpdatedFor R t :=
  ⟨by rw [hu]; exact h.updater, by rw [hc]; exact h.consumed⟩

theorem UpdatedFor.setUpdater [DecidableEq U] (h : UpdatedFor R s) (u : U) (x : Updater)
    (hx : ∀ co lst, x = .working co lst → R co) : UpdatedFor R (s.setUpdater u x) := by
  refine ⟨fun v co lst hv => ?_, h.consumed⟩
  by_cases hvu : v = u
  · subst hvu
    exact hx co lst (by simpa [Sys.setUpdater] using hv)
  · exact h.updater v co lst (by simpa [Sys.setUpdater, Function.update_of_ne hvu] using hv)

variable [DecidableEq W] [DecidableEq P] [DecidableEq U] {count₀ : Nat}

/-- Only a call of `PostTask` that starts brings in something new. -/
theorem step_posted (h : Posted Q s) (hstep : Step count₀ s t)
    (hnew : ∀ p w co main n, s.poster p = .outside → t.poster p = .counted w co main n →
      Q co main) : Posted Q t := by
  cases hstep with
  | semInit _ | semInitFails _ | pop _ _ | popNone _ _ | waitNull _ _ | semWait _ _ | wake _ _
  | execute _ | postTaskReturn _ _ | deleteTask _ _ | setMaxTask _ | swap _ _ | consume _ _
  | finish _ => exact h.congr rfl rfl
  | @getTaskCount p w co main hp =>
    apply h.setPoster _ _
    intro co' main' hx
    obtain ⟨rfl, rfl⟩ := Prod.mk.inj (Option.some.inj hx)
    exact hnew p w co main _ hp (Function.update_self _ _ _)
  | overflow _ _ | setEventNull _ _ | setEvent _ _ =>
    exact h.setPoster _ _ (by simp [Poster.request])
  | @belowLimit p w co main n hp hn =>
    refine h.setPoster _ _ fun co' main' hx => h.request p co' main' ?_
    rw [hp]
    exact hx
  | @pushBack p w co main hp =>
    have hposter : Posted Q (s.setPoster p (.pushed w)) :=
      h.setPoster _ _ (by simp [Poster.request])
    refine ⟨hposter.request, fun w' task htask => ?_⟩
    by_cases hw : w' = w
    · subst hw
      simp only [Function.update_self, List.mem_append, List.mem_singleton] at htask
      rcases htask with hold | rfl
      · exact h.appended _ task hold
      · exact h.request p co main (by rw [hp]; rfl)
    · exact h.appended w' task (by simpa [Function.update_of_ne hw] using htask)
  | @semPost p w n hp hs =>
    exact (h.setPoster p .outside (by simp [Poster.request])).congr rfl rfl

theorem step_updatedFor (h : UpdatedFor R s) (hstep : Step count₀ s t)
    (hnew : ∀ u co lst, s.updater u = .outside → t.updater u = .working co lst → R co) :
    UpdatedFor R t := by
  cases hstep with
  | semInit _ | semInitFails _ | pop _ _ | popNone _ _ | waitNull _ _ | semWait _ _ | wake _ _
  | execute _ | postTaskReturn _ _ | deleteTask _ _ | setMaxTask _ | getTaskCount _ _ _ _
  | overflow _ _ | belowLimit _ _ | pushBack _ | setEventNull _ _ | setEvent _ _ | semPost _ _ =>
    exact h.congr rfl rfl
  | @swap u co hu =>
    refine (h.setUpdater u (.working co s.poolsRet) fun co' lst hx => ?_).congr rfl rfl
    obtain ⟨rfl, -⟩ := Updater.working.inj hx
    exact hnew u co s.poolsRet hu (Function.update_self _ _ _)
  | @consume u co task rest resumed hu =>
    have hco : R co := h.updater u co _ hu
    have hupd : UpdatedFor R (s.setUpdater u (.working co rest)) := by
      apply h.setUpdater u _
      intro co' lst hx
      obtain ⟨rfl, -⟩ := Updater.working.inj hx
      exact hco
    refine ⟨hupd.updater, fun c hc => ?_⟩
    rcases List.mem_append.mp hc with hold | hmem
    · exact h.consumed c hold
    · obtain rfl := List.mem_singleton.mp hmem
      exact hco
  | finish _ => exact h.setUpdater _ _ (by simp)

end Steps

end Sys

/-! ## Servers -/

structure Servers (W S : Type) where
  /-- Workers, and the threads of the servers as posters and as callers of `Update`. -/
  sys : Sys W S S
  /-- The worker is through with a task and has not triggered yet. -/
  triggering : W → Bool
  /-- `_user_trigger` of the server is active. -/
  active : S → Bool

namespace Servers

variable {W S : Type}

def start : Servers W S := ⟨Sys.start, fun _ => false, fun _ => false⟩

variable [DecidableEq W] [DecidableEq S]

/-- `other` is every step that is none of the rest: it starts no call of `PostTask` or `Update`, and
no worker comes back from a task. -/
inductive Step (count₀ : Nat) (luaState : S → LuaState) (gServer : Option S) :
    Servers W S → Servers W S → Prop where
  | threadExecute {s p} (w : W) (co : Option LuaState) (h : s.sys.poster p = .outside) :
      Step count₀ luaState gServer s { s with
        sys := s.sys.setPoster p (.counted w co (luaState p) (s.sys.worker w).tasks.length) }
  | postTaskReturn {s w t} (h : (s.sys.worker w).phase = .executed t) (hco : t.co.isSome) :
      Step count₀ luaState gServer s { s with
        sys := { s.sys.setWorker w { s.sys.worker w with phase := .checking } with
          poolsRet := s.sys.poolsRet ++ [t] }
        triggering := Function.update s.triggering w true }
  | deleteTask {s w t} (h : (s.sys.worker w).phase = .executed t) (hco : ¬ t.co.isSome) :
      Step count₀ luaState gServer s { s with
        sys := { s.sys.setWorker w { s.sys.worker w with phase := .checking } with
          deleted := s.sys.deleted ++ [t] }
        triggering := Function.update s.triggering w true }
  /-- `if (g_server) g_server->user_trigger()`. -/
  | userTrigger {s w} (h : s.triggering w = true) :
      Step count₀ luaState gServer s { s with
        triggering := Function.update s.triggering w false
        active := fun u => s.active u || gServer = some u }
  /-- `usertrigger_cb()` calls `Update(_state)`. -/
  | usertriggerCb {s u} (ha : s.active u = true) (h : s.sys.updater u = .outside) :
      Step count₀ luaState gServer s { s with
        sys := { s.sys.setUpdater u (.working (luaState u) s.sys.poolsRet) with poolsRet := [] }
        active := Function.update s.active u false }
  | other {s sys} (h : Sys.Step count₀ s.sys sys)
      (hpost : ∀ p, s.sys.poster p = .outside → sys.poster p = .outside)
      (hupdate : ∀ u, s.sys.updater u = .outside → sys.updater u = .outside)
      (hreturn : ∀ w t, (s.sys.worker w).phase = .executed t → (sys.worker w).phase = .executed t)
      (htrigger : ∀ w, s.triggering w = true → (sys.worker w).phase = (s.sys.worker w).phase) :
      Step count₀ luaState gServer s { s with sys }

def lts (W S : Type) [DecidableEq W] [DecidableEq S] (count₀ : Nat) (luaState : S → LuaState)
    (gServer : Option S) : Lts (Servers W S) where
  init s := s = start
  step := Step count₀ luaState gServer

/-- Only `g_server` starts a call of `PostTask` with a coroutine. -/
def AsksItself (gServer : Option S) (s t : Servers W S) : Prop :=
  ∀ p w co main n, s.sys.poster p = .outside → t.sys.poster p = .counted w (some co) main n →
    ∀ g, gServer = some g → p = g

/-- The runs in which only `g_server` posts tasks for coroutines. -/
def single (W S : Type) [DecidableEq W] [DecidableEq S] (count₀ : Nat) (luaState : S → LuaState)
    (gServer : Option S) : Lts (Servers W S) where
  init s := s = start
  step s t := Step count₀ luaState gServer s t ∧ AsksItself gServer s t

/-- A resumed task was resumed on behalf of the Lua state that it was posted for. -/
def Honoured (s : Servers W S) : Prop :=
  ∀ c ∈ s.sys.consumed, c.resumed = true → c.task.main = c.co

variable {count₀ : Nat} {luaState : S → LuaState} {gServer : Option S} {s t : Servers W S}

/-- A step of the servers is a step of the threads, or none. -/
theorem step_sys (h : Step count₀ luaState gServer s t) :
    Sys.Step count₀ s.sys t.sys ∨ t.sys = s.sys := by
  cases h with
  | threadExecute w co h => exact .inl (.getTaskCount w co _ h)
  | postTaskReturn h hco => exact .inl (.postTaskReturn h hco)
  | deleteTask h hco => exact .inl (.deleteTask h hco)
  | userTrigger _ => exact .inr rfl
  | usertriggerCb _ h => exact .inl (.swap _ h)
  | other h _ _ _ _ => exact .inl h

theorem reachable_sys (h : Reachable (lts W S count₀ luaState gServer) s) :
    Reachable (Sys.lts W S S count₀) s.sys := by
  refine Reachable.invariant (P := fun s => Reachable (Sys.lts W S S count₀) s.sys) ?_ ?_ h
  · rintro s rfl
    exact .init rfl
  · intro s t _ hs hstep
    rcases step_sys hstep with hsys | hsame
    · exact hs.step hsys
    · rwa [hsame]

theorem reachable_of_single (h : Reachable (single W S count₀ luaState gServer) s) :
    Reachable (lts W S count₀ luaState gServer) s := by
  refine Reachable.invariant (P := Reachable (lts W S count₀ luaState gServer)) ?_ ?_ h
  · intro s hs
    exact .init hs
  · intro s t _ hs hstep
    exact hs.step hstep.1

/-- The Lua state is that of `g_server`. -/
def IsMain (luaState : S → LuaState) (gServer : Option S) (co : LuaState) : Prop :=
  ∃ g, gServer = some g ∧ co = luaState g

/-- No event but that of `g_server` is ever active, so `Update` is on behalf of its Lua state
always. -/
theorem updates_main (h : Reachable (lts W S count₀ luaState gServer) s) :
    (∀ u, s.active u = true → gServer = some u) ∧ s.sys.UpdatedFor (IsMain luaState gServer) := by
  refine Reachable.invariant (P := fun s => (∀ u, s.active u = true → gServer = some u) ∧
    s.sys.UpdatedFor (IsMain luaState gServer)) ?_ ?_ h
  · rintro s rfl
    exact ⟨by simp [start], by simp [start, Sys.start], by simp [start, Sys.start]⟩
  · rintro s t - ⟨hactive, hupd⟩ hstep
    cases hstep with
    | threadExecute _ _ _ | postTaskReturn _ _ | deleteTask _ _ =>
      exact ⟨hactive, hupd.congr rfl rfl⟩
    | userTrigger _ =>
      refine ⟨fun u hu => ?_, hupd⟩
      simp only [Bool.or_eq_true, decide_eq_true_eq] at hu
      exact hu.elim (hactive u) id
    | @usertriggerCb u ha hu =>
      constructor
      · intro v hv
        by_cases hvu : v = u
        · simp [hvu] at hv
        · exact hactive v (by simpa [Function.update_of_ne hvu] using hv)
      · refine (hupd.setUpdater u (.working (luaState u) s.sys.poolsRet) fun co lst hx => ?_).congr
          rfl rfl
        obtain ⟨rfl, -⟩ := Updater.working.inj hx
        exact ⟨u, hactive u ha, rfl⟩
    | other hsys _ hupdate _ _ =>
      refine ⟨hactive, Sys.step_updatedFor hupd hsys fun u co lst hu hw => ?_⟩
      rw [hupdate u hu] at hw
      exact absurd hw (by simp)

/-- A task for a coroutine is for the Lua state of `g_server`. -/
def ForMain (luaState : S → LuaState) (gServer : Option S) (co : Option LuaState)
    (main : LuaState) : Prop :=
  co.isSome → ∀ g, gServer = some g → main = luaState g

theorem posted_main (h : Reachable (single W S count₀ luaState gServer) s) :
    s.sys.Posted (ForMain luaState gServer) := by
  refine Reachable.invariant (P := fun s => s.sys.Posted (ForMain luaState gServer)) ?_ ?_ h
  · rintro s rfl
    exact ⟨by simp [start, Sys.start, Poster.request], by simp [start, Sys.start]⟩
  · rintro s t - hposted ⟨hstep, hasks⟩
    cases hstep with
    | @threadExecute p w co hp =>
      apply hposted.setPoster _ _
      intro co' main hx hco g hg
      obtain ⟨rfl, rfl⟩ := Prod.mk.inj (Option.some.inj hx)
      obtain ⟨c, rfl⟩ := Option.isSome_iff_exists.mp hco
      rw [hasks p w c _ _ hp (Function.update_self _ _ _) g hg]
    | postTaskReturn _ _ | deleteTask _ _ | userTrigger _ | usertriggerCb _ _ =>
      exact hposted.congr rfl rfl
    | other hsys hpost _ _ _ =>
      apply Sys.step_posted hposted hsys
      intro p w co main n hp hq
      rw [hpost p hp] at hq
      exact absurd hq (by simp)

/-- A task comes back to the server that asked when no server but `g_server` asks. -/
theorem returned_to_asker (h : Reachable (single W S count₀ luaState gServer) s) : Honoured s := by
  have hrun := reachable_of_single h
  intro c hc _
  obtain ⟨g, hg, hco⟩ := (updates_main hrun).2.consumed c hc
  -- What was consumed was appended at some time.
  have hacc := Sys.accounted_of_reachable (reachable_sys hrun)
  have hlies : c.task ∈ s.sys.ledger.lies .consumed := List.mem_map_of_mem hc
  obtain ⟨hsome, w, hexec⟩ := hacc.belongs .consumed c.task hlies
  have hmain := (posted_main h).appended w c.task (hacc.executed_appended hexec)
  rw [hco, hmain hsome g hg]

/-! ## A task from post to resume -/

section Run

variable (luaState : S → LuaState) (g asker : S) {L : Lts (Servers Unit S)}

/-- A server asks a worker, which returns the task and triggers `g_server`; that one resumes it. -/
theorem exists_resumed (hinit : L.init start)
    (hstep : ∀ s t, Step 0 luaState (some g) s t → (∀ p w co main n, s.sys.poster p = .outside →
      t.sys.poster p = .counted w (some co) main n → p = asker) → L.step s t) :
    ∃ s, Reachable L s ∧
      s.sys.consumed = [⟨⟨0, some 7, luaState asker⟩, luaState g, true⟩] := by
  have hquiet : ∀ {s t : Servers Unit S}, Step 0 luaState (some g) s t →
      (∀ p, s.sys.poster p = .outside → t.sys.poster p = .outside) → L.step s t := by
    intro s t hs hout
    apply hstep s t hs
    intro p w co main n hp hq
    rw [hout p hp] at hq
    exact absurd hq (by simp)
  -- Most steps are taken while the worker has nothing to hand back.
  have hother : ∀ {s : Servers Unit S} {sys : Sys Unit S S}, Sys.Step 0 s.sys sys →
      (∀ p, s.sys.poster p = .outside → sys.poster p = .outside) →
      (∀ u, s.sys.updater u = .outside → sys.updater u = .outside) →
      (∀ t, (s.sys.worker ()).phase ≠ .executed t) → s.triggering () = false →
      L.step s { s with sys } := by
    intro s sys hs hpost hupdate hphase htrigger
    refine hquiet (.other hs hpost hupdate (fun _ t ht => absurd ht (hphase t)) fun _ ht => ?_) hpost
    exact absurd ht (by simp [htrigger])
  have hinside : ∀ {f : S → Poster Unit} {x y : Poster Unit}, y ≠ .outside →
      ∀ q, Function.update f asker y q = .outside →
        Function.update (Function.update f asker y) asker x q = .outside := by
    intro f x y hy q hq
    have hqa : q ≠ asker := fun he => by subst he; exact hy (by simpa using hq)
    simpa [Function.update_of_ne hqa] using hq
  have h₀ : Reachable L start := .init hinit
  have h₁ := h₀.step (hother (.semInit (w := ()) rfl) (fun _ h => h) (fun _ h => h)
    (fun _ h => by cases h) rfl)
  have h₂ := h₁.step (hstep _ _ (.threadExecute (p := asker) () (some 7) rfl) (by
    intro p w co main n _ hq
    by_contra hp
    simp [Sys.setPoster, Function.update_of_ne hp, Sys.setWorker, start, Sys.start] at hq))
  have hbelow : ([] : List LuaTask).length < LuaThread.created.maxTasks := by decide
  have h₃ := h₂.step (hother (.belowLimit (Function.update_self _ _ _) hbelow)
    (hinside (by simp)) (fun _ h => h) (fun _ h => by cases h) rfl)
  have h₄ := h₃.step (hother (.pushBack (Function.update_self _ _ _))
    (hinside (by simp)) (fun _ h => h) (fun _ h => by cases h) rfl)
  have h₅ := h₄.step (hother (.pop (w := ()) rfl rfl) (fun _ h => h) (fun _ h => h)
    (fun _ h => by cases h) rfl)
  have h₆ := h₅.step (hother (.execute (w := ()) rfl) (fun _ h => h) (fun _ h => h)
    (fun _ h => by cases h) rfl)
  have h₇ := h₆.step (hquiet (.postTaskReturn (w := ()) rfl rfl) fun _ h => h)
  have h₈ := h₇.step (hquiet (.userTrigger (w := ()) rfl) fun _ h => h)
  have h₉ := h₈.step (hquiet (.usertriggerCb (u := g) (by simp) rfl) fun _ h => h)
  have h₁₀ := h₉.step (hother (.consume true (Function.update_self _ _ _)) (fun _ h => h)
    (by
      intro u hu
      have hug : u ≠ g := fun he => by subst he; simp [Sys.setUpdater] at hu
      simpa [Sys.setUpdater, Function.update_of_ne hug] using hu)
    (fun _ h => by cases h) rfl)
  exact ⟨_, h₁₀, rfl⟩

end Run

/-- Two servers with a Lua state each. -/
def twoStates : Bool → LuaState
  | true => 1
  | false => 2

/-- The one that `g_server` points to gets its task back. -/
theorem returned_to_asker_main : ∃ s : Servers Unit Bool,
    Reachable (single Unit Bool 0 twoStates (some true)) s ∧
      s.sys.consumed = [⟨⟨0, some 7, 1⟩, 1, true⟩] ∧ Honoured s := by
  obtain ⟨s, hs, hc⟩ := exists_resumed twoStates true true
    (L := single Unit Bool 0 twoStates (some true)) rfl fun s t hstep hask =>
      ⟨hstep, fun p w co main n hp hq g hg => by
        rw [hask p w co main n hp hq]
        exact Option.some.inj hg⟩
  exact ⟨s, hs, hc, returned_to_asker hs⟩

/-- A task of the other one is resumed on the thread of `g_server`. -/
theorem other_asker_not_honoured :
    ¬ ∀ s : Servers Unit Bool,
      Reachable (lts Unit Bool 0 twoStates (some true)) s → Honoured s := by
  intro hall
  obtain ⟨s, hs, hc⟩ := exists_resumed twoStates true false
    (L := lts Unit Bool 0 twoStates (some true)) rfl fun s t hstep _ => hstep
  have hmem : (⟨⟨0, some 7, 2⟩, 1, true⟩ : Consumed) ∈ s.sys.consumed := by
    rw [hc]
    exact List.mem_singleton_self _
  exact absurd (hall s hs _ hmem rfl) (by decide)

end Servers
end EventServer.Threads
