import EventServer.Threads.LuaThread

/-!
# No lost wake-up

A worker checks its queue only after the semaphore exists, and posters append
before they look for it. So between an empty check and `sem_wait` every new
task has either raised the count or has a poster that is about to.
-/
namespace EventServer.Threads.Sys

open EventServer.Lib.Transition

variable {W P U : Type}

/-- A poster that has appended to the queue of `w` and not yet posted. -/
def Notifying (w : W) (x : Poster W) : Prop := x = .pushed w ∨ x = .posting w

/-- The worker found its queue empty and has not come back to it. -/
def Resting (th : LuaThread) : Prop := th.phase = .idle ∨ th.phase = .waiting

/-- A resting worker has nothing to do, a count to take, or a poster to come. -/
def Signalled (poster : P → Poster W) (w : W) (th : LuaThread) : Prop :=
  ∀ n, Resting th → th.sem = some n → th.tasks = [] ∨ 0 < n ∨ ∃ p, Notifying w (poster p)

def Awake (s : Sys W P U) : Prop := ∀ w, Signalled s.poster w (s.worker w)

theorem awake_start : Awake (start : Sys W P U) := by
  intro w n hr
  rcases hr with h | h <;> cases h

theorem Awake.congr {s s' : Sys W P U} (h : Awake s) (hw : s'.worker = s.worker)
    (hp : s'.poster = s.poster) : Awake s' := by
  intro w
  rw [hw, hp]
  exact h w

theorem signalled_of_busy {poster : P → Poster W} {w : W} {th : LuaThread} (h : ¬ Resting th) :
    Signalled poster w th := fun _ hr => absurd hr h

theorem Awake.setWorker [DecidableEq W] {s : Sys W P U} (h : Awake s) (w : W) (th : LuaThread)
    (hth : Signalled s.poster w th) : Awake (s.setWorker w th) := by
  intro w'
  by_cases hw : w' = w
  · subst hw
    simpa [Sys.setWorker] using hth
  · simpa [Sys.setWorker, Function.update_of_ne hw] using h w'

/-- A step of a poster: it may stop notifying once the count is raised or where there is no
semaphore. -/
theorem Awake.setPoster [DecidableEq P] {s : Sys W P U} (h : Awake s) (p : P) {x : Poster W}
    (hx : ∀ w n, Notifying w (s.poster p) → (s.worker w).sem = some n → 0 < n ∨ Notifying w x) :
    Awake (s.setPoster p x) := by
  intro w n hr hs
  rcases h w n hr hs with ht | hn | ⟨q, hq⟩
  · exact .inl ht
  · exact .inr (.inl hn)
  · by_cases hqp : q = p
    · subst hqp
      rcases hx w n hq hs with hn | hx
      · exact .inr (.inl hn)
      · exact .inr (.inr ⟨q, by simpa [Sys.setPoster] using hx⟩)
    · exact .inr (.inr ⟨q, by simpa [Sys.setPoster, Function.update_of_ne hqp] using hq⟩)

theorem Awake.setPoster_of_quiet [DecidableEq P] {s : Sys W P U} (h : Awake s) (p : P)
    {x : Poster W} (hq : ∀ w, ¬ Notifying w (s.poster p)) : Awake (s.setPoster p x) := by
  apply h.setPoster
  intro w _ hn
  exact absurd hn (hq w)

variable [DecidableEq W] [DecidableEq P] [DecidableEq U]

theorem step_awake {count₀ : Nat} {s s' : Sys W P U} (h : Awake s) (hstep : Step count₀ s s') :
    Awake s' := by
  cases hstep with
  | semInit _ | semInitFails _ | pop _ _ | waitNull _ _ | wake _ _ =>
    exact h.setWorker _ _ (signalled_of_busy (by simp [Resting]))
  | popNone _ ht => exact h.setWorker _ _ fun _ _ _ => .inl ht
  | @semWait w n hidle hs => exact h.setWorker _ _ fun n _ hn => h w n (.inl hidle) hn
  | execute _ | postTaskReturn _ _ | deleteTask _ _ =>
    exact (h.setWorker _ _ (signalled_of_busy (by simp [Resting]))).congr rfl rfl
  | getTaskCount w co main hp | overflow hp _ | belowLimit hp _ =>
    exact h.setPoster_of_quiet _ (by simp [hp, Notifying])
  | @pushBack p w co main hp =>
    -- First the poster moves, then the queue grows under its eyes.
    have hposter : Awake (s.setPoster p (.pushed w)) := by
      apply h.setPoster_of_quiet
      simp [hp, Notifying]
    refine (hposter.setWorker w { s.worker w with
      tasks := (s.worker w).tasks ++ [⟨s.next, co, main⟩] } fun _ _ _ => ?_).congr rfl rfl
    exact .inr (.inr ⟨p, by simp [Sys.setPoster, Notifying]⟩)
  | @setEventNull p w hp hs =>
    apply h.setPoster _
    intro w' n hn hs'
    rw [hp] at hn
    rcases hn with hn | hn <;> cases hn
    rw [hs] at hs'
    cases hs'
  | @setEvent p w n hp hs =>
    apply h.setPoster _
    intro w' n hn hs'
    rw [hp] at hn
    rcases hn with hn | hn <;> cases hn
    exact .inr (.inr rfl)
  | @semPost p w n hp hs =>
    have hworker : Awake (s.setWorker w { s.worker w with sem := some (n + 1) }) := by
      refine h.setWorker w _ fun m _ hm => .inr (.inl ?_)
      obtain rfl : n + 1 = m := by simpa using hm
      omega
    apply hworker.setPoster _
    intro w' m hn hm
    have hn' : Notifying w' (s.poster p) := hn
    rw [hp] at hn'
    rcases hn' with hn' | hn' <;> cases hn'
    obtain rfl : n + 1 = m := by simpa [Sys.setWorker] using hm
    exact .inl (by omega)
  | @setMaxTask w maxTasks => exact h.setWorker _ _ fun n hr hs => h w n hr hs
  | swap _ _ | consume _ _ | finish _ => exact h.congr rfl rfl

/-- No worker sleeps over a task: when it is blocked in `sem_wait` with count 0, its queue is empty
or a poster is between `push_back` and the end of `SetEvent`. -/
theorem no_lost_wakeup {count₀ : Nat} {s : Sys W P U} (h : Reachable (lts W P U count₀) s) :
    ¬ ∃ w, (s.worker w).tasks ≠ [] ∧ (s.worker w).phase = .waiting ∧ (s.worker w).sem = some 0 ∧
      ∀ p, ¬ Notifying w (s.poster p) := by
  have hawake : Awake s := by
    refine Reachable.invariant (P := Awake) ?_ ?_ h
    · rintro s rfl
      exact awake_start
    · intro s t _ hs hstep
      exact step_awake hs hstep
  intro hlost
  obtain ⟨w, ht, hwait, hsem, hp⟩ := hlost
  rcases hawake w 0 (.inr hwait) hsem with h0 | h0 | ⟨p, hn⟩
  · exact ht h0
  · omega
  · exact hp p hn

/-- Between the empty check and `sem_wait` a poster appends a task, so that the worker is blocked over
it; the poster has still to come to `SetEvent`. -/
theorem no_lost_wakeup_pushed : ∃ s : Sys Unit Unit Unit, Reachable (lts Unit Unit Unit 0) s ∧
    (s.worker ()).phase = .waiting ∧ (s.worker ()).sem = some 0 ∧
    (s.worker ()).tasks = [⟨0, none, 7⟩] ∧ s.poster () = .pushed () ∧
    ¬ ∃ w, (s.worker w).tasks ≠ [] ∧ (s.worker w).phase = .waiting ∧ (s.worker w).sem = some 0 ∧
      ∀ p, ¬ Notifying w (s.poster p) := by
  have h₀ : Reachable (lts Unit Unit Unit 0) start := .init rfl
  have h₁ := h₀.step (Step.semInit (w := ()) rfl)
  have h₂ := h₁.step (Step.popNone (w := ()) rfl rfl)
  have h₃ := h₂.step (Step.getTaskCount (p := ()) () none 7 rfl)
  have h₄ := h₃.step (Step.belowLimit (p := ()) rfl (by decide))
  have h₅ := h₄.step (Step.pushBack (p := ()) rfl)
  have h₆ := h₅.step (Step.semWait (w := ()) (n := 0) rfl rfl)
  exact ⟨_, h₆, rfl, rfl, rfl, rfl, no_lost_wakeup h₆⟩

end EventServer.Threads.Sys
