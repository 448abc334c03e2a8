import EventServer.Threads.LuaThread

/-!
# Every task exactly once

What the queues are for, without threads and locks: a ledger of where each task
lies. A task is entered once and then hops from place to place; it is executed
when it leaves the hands of its worker. The program takes only such steps, so
what holds of every ledger holds of the program in every interleaving.
-/
namespace EventServer.Threads

open EventServer.Lib.Transition EventServer.Lib.Tokens

/-- Where a task can lie. -/
inductive Place (W U : Type) where
  /-- In `_tasks` of the worker. -/
  | queued (w : W)
  /-- Popped by the worker, not yet executed. -/
  | held (w : W)
  /-- Executed, not yet handed over. -/
  | returning (w : W)
  /-- In `_poolsRet`. -/
  | pool
  /-- In `lstRet` of a call of `Update`. -/
  | swapped (u : U)
  | consumed
  | deleted
  deriving DecidableEq

theorem Place.forall_worker {W U : Type} [DecidableEq W] (w : W) {C : Place W U → Prop}
    (own : C (.queued w) ∧ C (.held w) ∧ C (.returning w))
    (others : ∀ w', w' ≠ w → C (.queued w') ∧ C (.held w') ∧ C (.returning w'))
    (common : C .pool ∧ (∀ u, C (.swapped u)) ∧ C .consumed ∧ C .deleted) (r : Place W U) :
    C r := by
  have hany : ∀ w', C (.queued w') ∧ C (.held w') ∧ C (.returning w') := by
    intro w'
    by_cases hw : w' = w
    · exact hw ▸ own
    · exact others w' hw
  obtain ⟨hpool, hswapped, hconsumed, hdeleted⟩ := common
  cases r with
  | queued w' => exact (hany w').1
  | held w' => exact (hany w').2.1
  | returning w' => exact (hany w').2.2
  | pool => exact hpool
  | swapped u => exact hswapped u
  | consumed => exact hconsumed
  | deleted => exact hdeleted

theorem Place.forall_updater {W U : Type} [DecidableEq U] (u : U) {C : Place W U → Prop}
    (own : C (.swapped u)) (others : ∀ u', u' ≠ u → C (.swapped u'))
    (workers : ∀ w, C (.queued w) ∧ C (.held w) ∧ C (.returning w))
    (common : C .pool ∧ C .consumed ∧ C .deleted) (r : Place W U) : C r := by
  cases r with
  | queued w => exact (workers w).1
  | held w => exact (workers w).2.1
  | returning w => exact (workers w).2.2
  | pool => exact common.1
  | swapped u' =>
    by_cases hu : u' = u
    · exact hu ▸ own
    · exact others u' hu
  | consumed => exact common.2.1
  | deleted => exact common.2.2

structure Ledger (W U : Type) where
  lies : Place W U → List LuaTask
  appended : W → List LuaTask
  executed : W → List LuaTask
  next : Nat

namespace Ledger

variable {W U : Type}

/-- The ways a task can take. -/
inductive Hop : Place W U → Place W U → List LuaTask → Prop where
  | pop (w : W) (t : LuaTask) : Hop (.queued w) (.held w) [t]
  | execute (w : W) (t : LuaTask) : Hop (.held w) (.returning w) [t]
  | postTaskReturn (w : W) (t : LuaTask) (h : t.co.isSome) : Hop (.returning w) .pool [t]
  | deleteTask (w : W) (t : LuaTask) (h : ¬ t.co.isSome) : Hop (.returning w) .deleted [t]
  | swap (u : U) (ts : List LuaTask) : Hop .pool (.swapped u) ts
  | consume (u : U) (t : LuaTask) : Hop (.swapped u) .consumed [t]

theorem Hop.ne {p q : Place W U} {ts : List LuaTask} (h : Hop p q ts) : p ≠ q := by
  cases h <;> simp

variable [DecidableEq W] [DecidableEq U]

/-- Leaving the worker's hands is being executed. -/
def logged (executed : W → List LuaTask) (ts : List LuaTask) : Place W U → W → List LuaTask
  | .held w => Function.update executed w (executed w ++ ts)
  | _ => executed

inductive Step : Ledger W U → Ledger W U → Prop where
  | stay (l : Ledger W U) : Step l l
  | append (l : Ledger W U) (w : W) (t : LuaTask) (ht : t.id = l.next) :
      Step l ⟨Function.update l.lies (.queued w) (l.lies (.queued w) ++ [t]),
        Function.update l.appended w (l.appended w ++ [t]), l.executed, l.next + 1⟩
  | hop (l : Ledger W U) {p q : Place W U} {ts rest : List LuaTask} (h : Hop p q ts)
      (hp : l.lies p = ts ++ rest) :
      Step l ⟨Function.update (Function.update l.lies p rest) q (l.lies q ++ ts), l.appended,
        logged l.executed ts p, l.next⟩

/-- The tasks that may lie in a place. -/
def Belongs (l : Ledger W U) (t : LuaTask) : Place W U → Prop
  | .queued w => t ∈ l.appended w
  | .held w => t ∈ l.appended w
  | .returning w => t ∈ l.executed w
  | .pool => t.co.isSome ∧ ∃ w, t ∈ l.executed w
  | .swapped _ => t.co.isSome ∧ ∃ w, t ∈ l.executed w
  | .consumed => t.co.isSome ∧ ∃ w, t ∈ l.executed w
  | .deleted => ¬ t.co.isSome ∧ ∃ w, t ∈ l.executed w

/-- The places an executed task of `w` can lie in. -/
def Done (w : W) (t : LuaTask) (p : Place W U) : Prop :=
  p = .returning w ∨
    if t.co.isSome then p = .pool ∨ (∃ u, p = .swapped u) ∨ p = .consumed else p = .deleted

structure Accounted (l : Ledger W U) : Prop where
  order : ∀ w, l.appended w = l.executed w ++ l.lies (.held w) ++ l.lies (.queued w)
  fresh : ∀ w t, t ∈ l.appended w → t.id < l.next
  once : Separate l.appended
  separate : Separate l.lies
  belongs : ∀ p t, t ∈ l.lies p → l.Belongs t p
  done : ∀ w t, t ∈ l.executed w → ∃ p, Done w t p ∧ t ∈ l.lies p

theorem accounted_empty : Accounted (⟨fun _ => [], fun _ => [], fun _ => [], 0⟩ : Ledger W U) where
  order _ := rfl
  fresh _ _ ht := absurd ht List.not_mem_nil
  once := separate_empty
  separate := separate_empty
  belongs _ _ ht := absurd ht List.not_mem_nil
  done _ _ ht := absurd ht List.not_mem_nil

section

variable {l : Ledger W U}

theorem Accounted.executed_appended (h : Accounted l) {w : W} {t : LuaTask}
    (ht : t ∈ l.executed w) : t ∈ l.appended w := by
  rw [h.order w, List.append_assoc]
  exact List.mem_append_left _ ht

theorem Accounted.lies_fresh (h : Accounted l) {p : Place W U} {t : LuaTask} (ht : t ∈ l.lies p) :
    t.id < l.next := by
  have hb := h.belongs p t ht
  cases p with
  | queued w | held w => exact h.fresh w t hb
  | returning w => exact h.fresh w t (h.executed_appended hb)
  | pool | swapped _ | consumed | deleted =>
    obtain ⟨-, w, hw⟩ := hb
    exact h.fresh w t (h.executed_appended hw)

omit [DecidableEq W] [DecidableEq U] in
theorem Belongs.mono {l' : Ledger W U} {t : LuaTask} {p : Place W U} (h : l.Belongs t p)
    (ha : ∀ w, t ∈ l.appended w → t ∈ l'.appended w)
    (he : ∀ w, t ∈ l.executed w → t ∈ l'.executed w) : l'.Belongs t p := by
  cases p with
  | queued w | held w => exact ha w h
  | returning w => exact he w h
  | pool | swapped _ | consumed | deleted =>
    obtain ⟨hco, w, hw⟩ := h
    exact ⟨hco, w, he w hw⟩

theorem accounted_append (h : Accounted l) (w : W) {t : LuaTask} (ht : t.id = l.next) :
    Accounted ⟨Function.update l.lies (.queued w) (l.lies (.queued w) ++ [t]),
      Function.update l.appended w (l.appended w ++ [t]), l.executed, l.next + 1⟩ where
  order w' := by
    by_cases hw : w' = w
    · subst hw
      simp [h.order w']
    · simp [hw, h.order w']
  fresh w' t' ht' := by
    rcases mem_add.1 ht' with hm | ⟨rfl, -⟩
    · have := h.fresh w' t' hm
      simp only
      omega
    · simp only
      omega
  once := h.once.add w fun w' hm => by
    have := h.fresh w' t hm
    omega
  separate := h.separate.add (.queued w) fun p hm => by
    have := h.lies_fresh hm
    omega
  belongs p t' hm := by
    rcases mem_add.1 hm with hm | ⟨rfl, rfl⟩
    · exact (h.belongs p t' hm).mono (fun w' hw => mem_add.2 (.inl hw)) fun _ he => he
    · exact mem_add.2 (.inr ⟨rfl, rfl⟩)
  done w' t' hm := by
    obtain ⟨p, hd, hl⟩ := h.done w' t' hm
    exact ⟨p, hd, mem_add.2 (.inl hl)⟩

omit [DecidableEq U] in
theorem mem_logged {executed : W → List LuaTask} {ts : List LuaTask} {p : Place W U} {w : W}
    {t : LuaTask} : t ∈ logged executed ts p w ↔ t ∈ executed w ∨ p = .held w ∧ t ∈ ts := by
  cases p with
  | held w' =>
    by_cases hw : w = w'
    · subst hw
      simp [logged]
    · simp [logged, Function.update_of_ne hw, Ne.symm hw]
  | queued _ | returning _ | pool | swapped _ | consumed | deleted => simp [logged]

theorem belongs_hop (h : Accounted l) {p q : Place W U} {ts rest : List LuaTask} (hop : Hop p q ts)
    (hp : l.lies p = ts ++ rest) {t : LuaTask} (ht : t ∈ ts)
    {lies : Place W U → List LuaTask} {next : Nat} :
    (⟨lies, l.appended, logged l.executed ts p, next⟩ : Ledger W U).Belongs t q := by
  have hb := h.belongs p t (by rw [hp]; exact List.mem_append_left _ ht)
  cases hop with
  | pop w t' => exact hb
  | execute w t' => exact (mem_logged (p := Place.held (U := U) w)).2 (.inr ⟨rfl, ht⟩)
  | postTaskReturn w t' hco =>
    obtain rfl := List.mem_singleton.1 ht
    exact ⟨hco, w, hb⟩
  | deleteTask w t' hco =>
    obtain rfl := List.mem_singleton.1 ht
    exact ⟨hco, w, hb⟩
  | swap u ts => exact hb
  | consume u t' => exact hb

omit [DecidableEq W] [DecidableEq U] in
/-- An executed task hops to another place of executed tasks. -/
theorem done_hop {p q : Place W U} {ts : List LuaTask} (hop : Hop p q ts) {w : W} {t : LuaTask}
    (ht : t ∈ ts) (hd : Done w t p) : Done w t q := by
  cases hop with
  | pop w' t' | execute w' t' =>
    unfold Done at hd
    split at hd <;> simp at hd
  | postTaskReturn w' t' hco =>
    obtain rfl := List.mem_singleton.1 ht
    exact .inr (by rw [if_pos hco]; exact .inl rfl)
  | deleteTask w' t' hco =>
    obtain rfl := List.mem_singleton.1 ht
    exact .inr (by rw [if_neg hco])
  | swap u ts =>
    by_cases hco : t.co.isSome
    · exact .inr (by rw [if_pos hco]; exact .inr (.inl ⟨u, rfl⟩))
    · simp [Done, hco] at hd
  | consume u t' =>
    by_cases hco : t.co.isSome
    · exact .inr (by rw [if_pos hco]; exact .inr (.inr rfl))
    · simp [Done, hco] at hd

theorem accounted_hop (h : Accounted l) {p q : Place W U} {ts rest : List LuaTask}
    (hop : Hop p q ts) (hp : l.lies p = ts ++ rest) :
    Accounted ⟨Function.update (Function.update l.lies p rest) q (l.lies q ++ ts), l.appended,
      logged l.executed ts p, l.next⟩ where
  order w := by
    have ho := h.order w
    cases hop with
    | pop w' t =>
      by_cases hw : w = w'
      · subst hw
        simp [ho, hp, logged]
      · simp [ho, hw, logged]
    | execute w' t =>
      by_cases hw : w = w'
      · subst hw
        simp [ho, hp, logged]
      · simp [ho, hw, logged]
    | postTaskReturn _ _ _ | deleteTask _ _ _ | swap _ _ | consume _ _ => simp [ho, logged]
  fresh := h.fresh
  once := h.once
  separate := h.separate.move hop.ne hp
  belongs r t hm := by
    rcases mem_of_mem_move hp hm with hm | ⟨ht, rfl⟩
    · exact (h.belongs r t hm).mono (fun _ ha => ha) fun w he => mem_logged.2 (.inl he)
    · exact belongs_hop h hop hp ht
  done w t hm := by
    rcases mem_logged.1 hm with he | ⟨rfl, ht⟩
    · obtain ⟨r, hd, hl⟩ := h.done w t he
      rcases mem_move hop.ne hp hl with hl | ⟨rfl, ht, hl⟩
      · exact ⟨r, hd, hl⟩
      · exact ⟨q, done_hop hop ht hd, hl⟩
    · -- Just executed.
      cases hop
      exact ⟨.returning w, .inl rfl, by simp [List.mem_singleton.1 ht]⟩

theorem accounted_step {l' : Ledger W U} (h : Accounted l) (hstep : Step l l') : Accounted l' := by
  cases hstep with
  | stay => exact h
  | append w t ht => exact accounted_append h w ht
  | hop hop hp => exact accounted_hop h hop hp

end

end Ledger

def WorkerPhase.held : WorkerPhase → List LuaTask
  | .holding t => [t]
  | _ => []

def WorkerPhase.returning : WorkerPhase → List LuaTask
  | .executed t => [t]
  | _ => []

namespace Sys

variable {W P U : Type}

/-- Where the tasks lie in a state of the program. -/
def lies (s : Sys W P U) : Place W U → List LuaTask
  | .queued w => (s.worker w).tasks
  | .held w => (s.worker w).phase.held
  | .returning w => (s.worker w).phase.returning
  | .pool => s.poolsRet
  | .swapped u => (s.updater u).lstRet
  | .consumed => s.consumed.map Consumed.task
  | .deleted => s.deleted

def ledger (s : Sys W P U) : Ledger W U := ⟨s.lies, s.appended, s.executed, s.next⟩

variable [DecidableEq W] [DecidableEq P] [DecidableEq U]

omit [DecidableEq P] in
theorem ledger_setWorker (s : Sys W P U) (w : W) (th : LuaThread)
    (ht : th.tasks = (s.worker w).tasks) (hh : th.phase.held = (s.worker w).phase.held)
    (hr : th.phase.returning = (s.worker w).phase.returning) :
    Ledger.Step s.ledger (s.setWorker w th).ledger := by
  have hl : (s.setWorker w th).lies = s.lies := by
    refine funext (Place.forall_worker w ?_ (fun w' hw => ?_) ?_)
    · simp [lies, setWorker, ht, hh, hr]
    · simp [lies, setWorker, hw]
    · simp [lies, setWorker]
  have hs : (s.setWorker w th).ledger = s.ledger := by
    rw [ledger, hl]
    rfl
  rw [hs]
  exact .stay _

omit [DecidableEq P] in
theorem ledger_hop {s s' : Sys W P U} {p q : Place W U} {ts : List LuaTask} (rest : List LuaTask)
    (hop : Ledger.Hop p q ts) (hp : s.lies p = ts ++ rest)
    (hl : ∀ r, s'.lies r = Function.update (Function.update s.lies p rest) q (s.lies q ++ ts) r)
    (ha : s'.appended = s.appended) (he : s'.executed = Ledger.logged s.executed ts p)
    (hn : s'.next = s.next) : Ledger.Step s.ledger s'.ledger := by
  have hs : s'.ledger = ⟨Function.update (Function.update s.lies p rest) q (s.lies q ++ ts),
      s.appended, Ledger.logged s.executed ts p, s.next⟩ := by
    rw [ledger, funext hl, ha, he, hn]
  rw [hs]
  exact .hop s.ledger hop hp

/-- Every step of the program is a step of its ledger. -/
theorem step_ledger {count₀ : Nat} {s s' : Sys W P U} (hstep : Step count₀ s s') :
    Ledger.Step s.ledger s'.ledger := by
  cases hstep with
  | @semInit w h | @semInitFails w h | @popNone w h _ | @waitNull w h _ | @semWait w _ h _
  | @wake w _ h _ =>
    exact ledger_setWorker s w _ rfl (by simp [h, WorkerPhase.held])
      (by simp [h, WorkerPhase.returning])
  | @setMaxTask w _ => exact ledger_setWorker s w _ rfl rfl rfl
  | getTaskCount _ _ _ _ | overflow _ _ | belowLimit _ _ | setEventNull _ _ | setEvent _ _ =>
    exact .stay _
  | @semPost p w n h hs =>
    exact ledger_setWorker s w { s.worker w with sem := some (n + 1) } rfl rfl rfl
  | @pop w t rest h ht =>
    refine ledger_hop rest (.pop w t) ht (Place.forall_worker w ?_ (fun w' hw => ?_) ?_) rfl rfl rfl
    · simp [lies, setWorker, h, WorkerPhase.held, WorkerPhase.returning]
    · simp [lies, setWorker, hw]
    · simp [lies, setWorker]
  | @execute w t h =>
    refine ledger_hop [] (.execute w t) (by simp [lies, h, WorkerPhase.held])
      (Place.forall_worker w ?_ (fun w' hw => ?_) ?_) rfl rfl rfl
    · simp [lies, setWorker, h, WorkerPhase.held, WorkerPhase.returning]
    · simp [lies, setWorker, hw]
    · simp [lies, setWorker]
  | @postTaskReturn w t h hco =>
    refine ledger_hop [] (.postTaskReturn w t hco) (by simp [lies, h, WorkerPhase.returning])
      (Place.forall_worker w ?_ (fun w' hw => ?_) ?_) rfl rfl rfl
    · simp [lies, setWorker, h, WorkerPhase.held, WorkerPhase.returning]
    · simp [lies, setWorker, hw]
    · simp [lies, setWorker]
  | @deleteTask w t h hco =>
    refine ledger_hop [] (.deleteTask w t hco) (by simp [lies, h, WorkerPhase.returning])
      (Place.forall_worker w ?_ (fun w' hw => ?_) ?_) rfl rfl rfl
    · simp [lies, setWorker, h, WorkerPhase.held, WorkerPhase.returning]
    · simp [lies, setWorker, hw]
    · simp [lies, setWorker]
  | @pushBack p w co main h =>
    have hl : ∀ r, ({ (s.setWorker w { s.worker w with
        tasks := (s.worker w).tasks ++ [⟨s.next, co, main⟩] }).setPoster p (.pushed w) with
          next := s.next + 1
          appended := Function.update s.appended w (s.appended w ++ [⟨s.next, co, main⟩]) } :
        Sys W P U).lies r = Function.update s.lies (.queued w)
          (s.lies (.queued w) ++ [⟨s.next, co, main⟩]) r := by
      refine Place.forall_worker w ?_ (fun w' hw => ?_) ?_
      · simp [lies, setWorker, setPoster]
      · simp [lies, setWorker, setPoster, hw]
      · simp [lies, setWorker, setPoster]
    have hs := Ledger.Step.append s.ledger w ⟨s.next, co, main⟩ rfl
    rw [ledger, ledger, funext hl]
    exact hs
  | @swap u co h =>
    refine ledger_hop [] (.swap u s.poolsRet) (List.append_nil _).symm
      (Place.forall_updater u ?_ (fun u' hu => ?_) (fun w => ?_) ?_) rfl rfl rfl
    · simp [lies, setUpdater, h, Updater.lstRet]
    · simp [lies, setUpdater, hu]
    · simp [lies, setUpdater]
    · simp [lies, setUpdater]
  | @consume u co t rest resumed h =>
    refine ledger_hop rest (.consume u t) (by simp [lies, h, Updater.lstRet])
      (Place.forall_updater u ?_ (fun u' hu => ?_) (fun w => ?_) ?_) rfl rfl rfl
    · simp [lies, setUpdater, Updater.lstRet]
    · simp [lies, setUpdater, hu]
    · simp [lies, setUpdater]
    · simp [lies, setUpdater]
  | @finish u co h =>
    have hl : (s.setUpdater u .outside).lies = s.lies := by
      refine funext (Place.forall_updater u ?_ (fun u' hu => ?_) (fun w => ?_) ?_)
      · simp [lies, setUpdater, h, Updater.lstRet]
      · simp [lies, setUpdater, hu]
      · simp [lies, setUpdater]
      · simp [lies, setUpdater]
    have he : (s.setUpdater u .outside).ledger = s.ledger := by
      rw [ledger, hl]
      rfl
    rw [he]
    exact .stay _

theorem accounted_of_reachable {count₀ : Nat} {s : Sys W P U}
    (h : Reachable (lts W P U count₀) s) : s.ledger.Accounted := by
  refine Reachable.invariant (P := fun s : Sys W P U => s.ledger.Accounted) ?_ ?_ h
  · rintro s rfl
    have hl : (start : Sys W P U).lies = fun _ => [] := by
      funext p
      cases p <;> rfl
    change Ledger.Accounted ⟨(start : Sys W P U).lies, fun _ => [], fun _ => [], 0⟩
    rw [hl]
    exact Ledger.accounted_empty
  · intro s s' _ hs hstep
    exact Ledger.accounted_step hs (step_ledger hstep)

/-- Every worker executes its tasks in the order of the queue, each once; one that is not executed
is in the queue or in the worker's hands. An executed task with a coroutine is once in exactly one
place: its worker's hands, `_poolsRet`, the list of one `Update`, or consumed. Nothing else is
ever there. -/
theorem tasks_exactly_once {count₀ : Nat} {s : Sys W P U} (h : Reachable (lts W P U count₀) s) :
    (∀ w, s.appended w = s.executed w ++ (s.worker w).phase.held ++ (s.worker w).tasks) ∧
    (∀ w, (s.appended w).Nodup) ∧
    (∀ w w' t, t ∈ s.appended w → t ∈ s.appended w' → w = w') ∧
    (∀ w t, t ∈ s.executed w → t.co.isSome →
      ∃ p, (p = .returning w ∨ p = .pool ∨ (∃ u, p = .swapped u) ∨ p = .consumed) ∧
        ∀ q, (s.lies q).count t = if q = p then 1 else 0) ∧
    (∀ p t, (p = .pool ∨ (∃ u, p = .swapped u) ∨ p = .consumed) → t ∈ s.lies p →
      t.co.isSome ∧ ∃ w, t ∈ s.executed w) := by
  have ha := accounted_of_reachable h
  refine ⟨ha.order, ha.once.nodup, fun w w' t => ha.once.unique, fun w t he hco => ?_,
    fun p t hp ht => ?_⟩
  · obtain ⟨p, hd, hl⟩ := ha.done w t he
    rw [Ledger.Done, if_pos hco] at hd
    exact ⟨p, hd, ha.separate.count_eq hl⟩
  · have hb := ha.belongs p t ht
    obtain rfl | ⟨u, rfl⟩ | rfl := hp <;> exact hb

theorem exists_popped : ∃ s : Sys Unit Unit Unit, Reachable (lts Unit Unit Unit 0) s ∧
    s.appended () = [⟨0, some 1, 2⟩] ∧ s.executed () = [] ∧
    (s.worker ()).phase = .holding ⟨0, some 1, 2⟩ ∧ (s.worker ()).tasks = [] := by
  have h₀ : Reachable (lts Unit Unit Unit 0) start := .init rfl
  have h₁ := h₀.step (Step.semInit (w := ()) rfl)
  have h₂ := h₁.step (Step.getTaskCount (p := ()) () (some 1) 2 rfl)
  have h₃ := h₂.step (Step.belowLimit (p := ()) rfl (by decide))
  have h₄ := h₃.step (Step.pushBack (p := ()) rfl)
  have h₅ := h₄.step (Step.pop (w := ()) rfl (show _ = [(⟨0, some 1, 2⟩ : LuaTask)] from rfl))
  exact ⟨_, h₅, rfl, rfl, rfl, rfl⟩

/-- That task, executed, lies in one place. -/
theorem tasks_exactly_once_executed : ∃ s : Sys Unit Unit Unit,
    Reachable (lts Unit Unit Unit 0) s ∧ ⟨0, some 1, 2⟩ ∈ s.executed () ∧
      ∃ p, ∀ q, (s.lies q).count ⟨0, some 1, 2⟩ = if q = p then 1 else 0 := by
  obtain ⟨s, h, -, -, hphase, -⟩ := exists_popped
  have h' := h.step (Step.execute hphase)
  obtain ⟨p, -, hp⟩ := (tasks_exactly_once h').2.2.2.1 () ⟨0, some 1, 2⟩ (by simp) rfl
  exact ⟨_, h', by simp, p, hp⟩

/-- A popped task is neither executed nor in the queue. -/
theorem popped_not_queued :
    ¬ ∀ s : Sys Unit Unit Unit, Reachable (lts Unit Unit Unit 0) s →
      ∀ w t, t ∈ s.appended w → t ∉ s.executed w → t ∈ (s.worker w).tasks := by
  intro hall
  obtain ⟨s, h, ha, he, -, ht⟩ := exists_popped
  have hq := hall s h () ⟨0, some 1, 2⟩ (by simp [ha]) (by simp [he])
  simp [ht] at hq

end Sys
end EventServer.Threads
