import EventServer.Threads.LuaThread
import Mathlib.Data.Finset.Card

/-!
# The limit on queued tasks

`PostTask` takes the length of the queue in one critical section and appends in
another. What counts against the limit is therefore the queue together with the
threads between the two.
-/
namespace EventServer.Threads.Sys

open EventServer.Lib.Transition

variable {W P U : Type}

/-- A thread that found fewer than `limit` tasks in the queue of `w` and has not appended yet. -/
def Outstanding (w : W) (limit : Nat) : Poster W → Prop
  | .counted w' _ _ sizeTasks => w' = w ∧ sizeTasks < limit
  | .admitted w' _ _ => w' = w
  | _ => False

/-- The tasks of `w` and the outstanding threads are at most `k`. -/
def Within (w : W) (limit k : Nat) (s : Sys W P U) : Prop :=
  ∀ ps : Finset P, (∀ p ∈ ps, Outstanding w limit (s.poster p)) →
    (s.worker w).tasks.length + ps.card ≤ k

/-- A thread that comes to be outstanding found room for itself. -/
def FindsRoom (w : W) (limit : Nat) (s t : Sys W P U) : Prop :=
  ∀ p, Outstanding w limit (t.poster p) → ¬ Outstanding w limit (s.poster p) →
    ∃ k < limit, Within w limit k s

section Runs

variable [DecidableEq W] [DecidableEq P] [DecidableEq U]

/-- The runs in which `SetMaxTask` has set the limit of `w` before anything is posted to `w`, and
does not change it. -/
def limited (W P U : Type) [DecidableEq W] [DecidableEq P] [DecidableEq U] (count₀ : Nat) (w : W)
    (limit : Nat) : Lts (Sys W P U) where
  init s := Reachable (lts W P U count₀) s ∧ (s.worker w).maxTasks = limit ∧
    (s.worker w).tasks = [] ∧ ∀ p, ¬ Outstanding w limit (s.poster p)
  step s t := Step count₀ s t ∧ (t.worker w).maxTasks = limit

/-- Those of them in which every thread that is admitted found room. -/
def spaced (W P U : Type) [DecidableEq W] [DecidableEq P] [DecidableEq U] (count₀ : Nat) (w : W)
    (limit : Nat) : Lts (Sys W P U) where
  init := (limited W P U count₀ w limit).init
  step s t := (limited W P U count₀ w limit).step s t ∧ FindsRoom w limit s t

end Runs

variable {w : W} {limit : Nat} {s t : Sys W P U}

theorem within_of_empty (ht : (s.worker w).tasks = [])
    (hp : ∀ p, ¬ Outstanding w limit (s.poster p)) (k : Nat) : Within w limit k s := by
  intro ps hps
  have hnone : ps = ∅ := Finset.eq_empty_of_forall_notMem fun p hmem => hp p (hps p hmem)
  rw [ht, hnone]
  exact Nat.zero_le k

theorem Within.mono {k : Nat} (h : Within w limit k s)
    (hlen : (t.worker w).tasks.length ≤ (s.worker w).tasks.length)
    (hp : ∀ p, Outstanding w limit (t.poster p) → Outstanding w limit (s.poster p)) :
    Within w limit k t := by
  intro ps hps
  have hle := h ps fun p hmem => hp p (hps p hmem)
  omega

theorem Within.congr {k : Nat} (h : Within w limit k s) (hw : t.worker = s.worker)
    (hp : t.poster = s.poster) : Within w limit k t :=
  h.mono (by rw [hw]) fun p hout => by rwa [hp] at hout

theorem Within.length_le {k : Nat} (h : Within w limit k s) : (s.worker w).tasks.length ≤ k :=
  h ∅ (by simp)

theorem Within.setWorker [DecidableEq W] {k : Nat} (h : Within w limit k s) (w' : W)
    (th : LuaThread) (hlen : th.tasks.length ≤ (s.worker w').tasks.length) :
    Within w limit k (s.setWorker w' th) := by
  refine h.mono ?_ fun _ hp => hp
  by_cases hw : w = w'
  · subst hw
    simpa [Sys.setWorker] using hlen
  · simp [Sys.setWorker, Function.update_of_ne hw]

theorem Within.setPoster [DecidableEq P] {k : Nat} (h : Within w limit k s) (p : P) (x : Poster W)
    (hx : Outstanding w limit x → Outstanding w limit (s.poster p)) :
    Within w limit k (s.setPoster p x) := by
  refine h.mono le_rfl fun q hq => ?_
  by_cases hqp : q = p
  · subst hqp
    exact hx (by simpa [Sys.setPoster] using hq)
  · simpa [Sys.setPoster, Function.update_of_ne hqp] using hq

/-- A thread that joins the outstanding ones takes one place. -/
theorem Within.join [DecidableEq P] {k : Nat} (h : Within w limit k s) (p : P) (x : Poster W) :
    Within w limit (k + 1) (s.setPoster p x) := by
  intro ps hps
  have hrest := h (ps.erase p) fun q hq => by
    have hqs := hps q (Finset.mem_of_mem_erase hq)
    simpa [Sys.setPoster, Function.update_of_ne (Finset.ne_of_mem_erase hq)] using hqs
  have hcard := Finset.pred_card_le_card_erase (s := ps) (a := p)
  have hlen : ((s.setPoster p x).worker w).tasks.length = (s.worker w).tasks.length := rfl
  omega

/-- A thread that appends gives up the place it had. -/
theorem Within.append [DecidableEq W] [DecidableEq P] {k : Nat} (h : Within w limit k s) {p : P}
    {co : Option LuaState} {main : LuaState} (hp : s.poster p = .admitted w co main)
    (task : LuaTask) :
    Within w limit k ((s.setWorker w { s.worker w with
      tasks := (s.worker w).tasks ++ [task] }).setPoster p (.pushed w)) := by
  intro ps hps
  have hout : p ∉ ps := fun hmem => by
    have hpp := hps p hmem
    simp [Sys.setPoster, Outstanding] at hpp
  have hall := h (insert p ps) fun q hq => by
    rcases Finset.mem_insert.mp hq with rfl | hmem
    · rw [hp, Outstanding]
    · have hqp : q ≠ p := fun he => hout (he ▸ hmem)
      have hqs := hps q hmem
      simpa [Sys.setPoster, Sys.setWorker, Function.update_of_ne hqp] using hqs
  rw [Finset.card_insert_of_notMem hout] at hall
  simp only [Sys.setPoster, Sys.setWorker, Function.update_self, List.length_append,
    List.length_singleton]
  omega

variable [DecidableEq W] [DecidableEq P] [DecidableEq U]

theorem step_within {count₀ : Nat} (h : Within w limit limit s)
    (hmax : (s.worker w).maxTasks = limit) (hstep : Step count₀ s t)
    (hroom : FindsRoom w limit s t) :
    Within w limit limit t := by
  cases hstep with
  | semInit _ | semInitFails _ | popNone _ _ | waitNull _ _ | semWait _ _ | wake _ _
  | setMaxTask _ => exact h.setWorker _ _ le_rfl
  | pop _ ht => exact h.setWorker _ _ (by rw [ht]; exact Nat.le_succ _)
  | execute _ | postTaskReturn _ _ | deleteTask _ _ =>
    refine (h.setWorker _ _ ?_).congr rfl rfl
    exact le_rfl
  | @getTaskCount p w' co main hp =>
    by_cases hout : Outstanding w limit (.counted w' co main (s.worker w').tasks.length)
    · obtain ⟨k, hk, hwithin⟩ := hroom p (by simpa [Sys.setPoster] using hout)
        (by simp [hp, Outstanding])
      intro ps hps
      exact (hwithin.join p _ ps hps).trans hk
    · exact h.setPoster _ _ fun hx => absurd hx hout
  | overflow _ _ | setEventNull _ _ | setEvent _ _ => exact h.setPoster _ _ False.elim
  | @belowLimit p w' co main n hp hn =>
    apply h.setPoster _ _
    intro hw
    rw [hp]
    obtain rfl : w' = w := hw
    exact ⟨rfl, hn.trans_eq hmax⟩
  | @pushBack p w' co main hp =>
    by_cases hw : w' = w
    · subst hw
      exact (h.append hp _).congr rfl rfl
    · refine (h.setPoster p (.pushed w') False.elim).mono ?_ fun _ hq => hq
      simp [Sys.setPoster, Sys.setWorker, Function.update_of_ne (Ne.symm hw)]
  | semPost _ _ =>
    refine (h.setWorker _ _ ?_).setPoster _ _ False.elim
    exact le_rfl
  | swap _ _ | consume _ _ | finish _ => exact h.congr rfl rfl

/-- The limit is a bound on the queue as long as every thread that is admitted found room. -/
theorem queue_bounded {count₀ : Nat} (h : Reachable (spaced W P U count₀ w limit) s) :
    (s.worker w).tasks.length ≤ limit := by
  have hinv : (s.worker w).maxTasks = limit ∧ Within w limit limit s := by
    refine Reachable.invariant (P := fun s => (s.worker w).maxTasks = limit ∧
      Within w limit limit s) ?_ ?_ h
    · rintro s ⟨-, hmax, htasks, hp⟩
      exact ⟨hmax, within_of_empty htasks hp limit⟩
    · rintro s t - ⟨hmax, hwithin⟩ ⟨⟨hstep, hmax'⟩, hroom⟩
      exact ⟨hmax', step_within hwithin hmax hstep hroom⟩
  exact hinv.2.length_le

/-- The program after `SetMaxTask(1)` and nothing else. -/
def limitOne (P : Type) : Sys Unit P Unit :=
  start.setWorker () { LuaThread.created with maxTasks := 1 }

theorem init_limitOne (P : Type) [DecidableEq P] :
    (limited Unit P Unit 0 () 1).init (limitOne P) :=
  ⟨.step (.init rfl) (.setMaxTask 1), rfl, rfl, fun _ hp => hp⟩

/-- A single thread posts up to the limit. -/
theorem queue_bounded_full : ∃ s : Sys Unit Unit Unit,
    Reachable (spaced Unit Unit Unit 0 () 1) s ∧ (s.worker ()).tasks.length = 1 ∧
      (s.worker ()).tasks.length ≤ 1 := by
  have hempty : Within () 1 0 (limitOne Unit) := within_of_empty rfl (fun _ => id) 0
  have h₀ : Reachable (spaced Unit Unit Unit 0 () 1) (limitOne Unit) := .init (init_limitOne Unit)
  have h₁ := h₀.step ⟨⟨Step.getTaskCount (p := ()) () none 0 rfl, rfl⟩,
    fun _ _ _ => ⟨0, Nat.one_pos, hempty⟩⟩
  have h₂ := h₁.step ⟨⟨Step.belowLimit (p := ()) rfl Nat.one_pos, rfl⟩,
    fun _ _ hnew => absurd ⟨rfl, Nat.one_pos⟩ hnew⟩
  have h₃ := h₂.step ⟨⟨Step.pushBack (p := ()) rfl, rfl⟩, fun _ hp _ => hp.elim⟩
  exact ⟨_, h₃, rfl, queue_bounded h₃⟩

/-! ## Threads that do not find room -/

section Crowd

variable {count₀ : Nat}

theorem maxTasks_limited (h : Reachable (limited W P U count₀ w limit) s) :
    (s.worker w).maxTasks = limit := by
  cases h with
  | init h => exact h.2.1
  | step _ h => exact h.2

/-- An outstanding thread can go on and append, whatever the queue has become. -/
theorem append_outstanding (h : Reachable (limited W P U count₀ w limit) s) {p : P}
    (hp : Outstanding w limit (s.poster p)) :
    ∃ t, Reachable (limited W P U count₀ w limit) t ∧
      (t.worker w).tasks.length = (s.worker w).tasks.length + 1 ∧
      ∀ q, q ≠ p → t.poster q = s.poster q := by
  have hmax := maxTasks_limited h
  have hpush : ∀ {s : Sys W P U} {co main}, Reachable (limited W P U count₀ w limit) s →
      s.poster p = .admitted w co main → ∃ t, Reachable (limited W P U count₀ w limit) t ∧
        (t.worker w).tasks.length = (s.worker w).tasks.length + 1 ∧
        ∀ q, q ≠ p → t.poster q = s.poster q := by
    intro s co main hs hp
    refine ⟨_, hs.step ⟨Step.pushBack hp, ?_⟩, ?_, ?_⟩
    · simpa [Sys.setPoster, Sys.setWorker] using maxTasks_limited hs
    · simp [Sys.setPoster, Sys.setWorker]
    · intro q hq
      simp [Sys.setPoster, Sys.setWorker, Function.update_of_ne hq]
  cases hs : s.poster p with
  | counted w' co main n =>
    rw [hs] at hp
    obtain ⟨rfl, hn⟩ := hp
    have hadmit := h.step ⟨Step.belowLimit hs (hn.trans_eq hmax.symm), hmax⟩
    obtain ⟨t, ht, hlen, hrest⟩ := hpush hadmit (Function.update_self _ _ _)
    refine ⟨t, ht, hlen, fun q hq => (hrest q hq).trans ?_⟩
    simp [Sys.setPoster, Function.update_of_ne hq]
  | admitted w' co main =>
    rw [hs] at hp
    obtain rfl : w' = w := hp
    exact hpush h hs
  | outside | pushed _ | posting _ =>
    rw [hs] at hp
    exact hp.elim

theorem append_all (ps : Finset P) (h : Reachable (limited W P U count₀ w limit) s)
    (hps : ∀ p ∈ ps, Outstanding w limit (s.poster p)) :
    ∃ t, Reachable (limited W P U count₀ w limit) t ∧
      (t.worker w).tasks.length = (s.worker w).tasks.length + ps.card := by
  induction ps using Finset.induction_on generalizing s with
  | empty => exact ⟨s, h, rfl⟩
  | insert p ps hp ih =>
    obtain ⟨t, ht, hlen, hrest⟩ := append_outstanding h (hps p (Finset.mem_insert_self p ps))
    obtain ⟨t', ht', hlen'⟩ := ih ht fun q hq => by
      rw [hrest q fun he => hp (he ▸ hq)]
      exact hps q (Finset.mem_insert_of_mem hq)
    refine ⟨t', ht', ?_⟩
    rw [hlen', hlen, Finset.card_insert_of_notMem hp]
    omega

/-- Room is needed: where a thread counts fewer than `limit` tasks, but together with the
outstanding threads there is no place left, the queue can come to exceed the limit. -/
theorem exceeded_of_crowded (h : Reachable (limited W P U count₀ w limit) s) {p : P}
    (hp : s.poster p = .outside) (hlen : (s.worker w).tasks.length < limit) {ps : Finset P}
    (hps : ∀ q ∈ ps, Outstanding w limit (s.poster q))
    (hfull : limit ≤ (s.worker w).tasks.length + ps.card) :
    ∃ t, Reachable (limited W P U count₀ w limit) t ∧ limit < (t.worker w).tasks.length := by
  have hmem : p ∉ ps := fun hmem => by
    have hout := hps p hmem
    rwa [hp] at hout
  have hmax := maxTasks_limited h
  have hcount := h.step ⟨Step.getTaskCount w none 0 hp, hmax⟩
  obtain ⟨t, ht, hsum⟩ := append_all (insert p ps) hcount fun q hq => by
    rcases Finset.mem_insert.mp hq with rfl | hq
    · simpa [Sys.setPoster, Outstanding] using hlen
    · have hqp : q ≠ p := fun he => hmem (he ▸ hq)
      simpa [Sys.setPoster, Function.update_of_ne hqp] using hps q hq
  refine ⟨t, ht, ?_⟩
  rw [Finset.card_insert_of_notMem hmem] at hsum
  have hsame : ((s.setPoster p (.counted w none 0 (s.worker w).tasks.length)).worker w).tasks =
      (s.worker w).tasks := rfl
  rw [hsame] at hsum
  omega

end Crowd

/-- Two threads count the empty queue before either appends. -/
theorem two_posters_exceed :
    ¬ ∀ s : Sys Unit Bool Unit, Reachable (limited Unit Bool Unit 0 () 1) s →
      (s.worker ()).tasks.length ≤ 1 := by
  intro hbound
  have hcounted := (Reachable.init (init_limitOne Bool)).step
    ⟨Step.getTaskCount (p := true) () none 0 rfl, rfl⟩
  have hout : ∀ q ∈ ({true} : Finset Bool), Outstanding () 1
      (((limitOne Bool).setPoster true (.counted () none 0 0)).poster q) := by
    intro q hq
    obtain rfl := Finset.mem_singleton.mp hq
    exact ⟨rfl, by omega⟩
  obtain ⟨t, ht, hlen⟩ := exceeded_of_crowded hcounted (p := false) rfl (by decide) hout (by decide)
  exact absurd (hbound t ht) (by omega)

end EventServer.Threads.Sys
