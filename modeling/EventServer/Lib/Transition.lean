import Mathlib.Logic.Basic

/-!
# Runs and invariants

Two ways to take step after step: a relation between states, whose reachable
states are proved about by an invariant, and a partial function from operations
to outputs, whose runs are proved about by a forward simulation.
-/
namespace EventServer.Lib.Transition

variable {σ τ ι ο : Type}

structure Lts (σ : Type) where
  init : σ → Prop
  step : σ → σ → Prop

inductive Reachable (L : Lts σ) : σ → Prop
  | init {s : σ} : L.init s → Reachable L s
  | step {s t : σ} : Reachable L s → L.step s t → Reachable L t

/-- What holds initially and is kept by every step from a reachable state holds
in every reachable state. -/
theorem Reachable.invariant {L : Lts σ} {P : σ → Prop} (hinit : ∀ s, L.init s → P s)
    (hstep : ∀ s t, Reachable L s → P s → L.step s t → P t) {s : σ} (hs : Reachable L s) : P s := by
  induction hs with
  | init h => exact hinit _ h
  | step hr h ih => exact hstep _ _ hr ih h

/-- Feed a list of operations to a partial step; the outputs are collected. -/
def run (step : σ → ι → Option (σ × ο)) : σ → List ι → Option (σ × List ο)
  | s, [] => some (s, [])
  | s, i :: is => do
    let (s, o) ← step s i
    let (s, os) ← run step s is
    return (s, o :: os)

theorem run_cons {step : σ → ι → Option (σ × ο)} {s t : σ} {i : ι} {is : List ι} {os : List ο}
    (h : run step s (i :: is) = some (t, os)) :
    ∃ s' o os', step s i = some (s', o) ∧ run step s' is = some (t, os') ∧ os = o :: os' := by
  simp only [run, Option.bind_eq_bind, Option.bind_eq_some_iff, Option.pure_def,
    Option.some.injEq, Prod.mk.injEq] at h
  obtain ⟨⟨s', o⟩, hs, ⟨t', os'⟩, ht, rfl, rfl⟩ := h
  exact ⟨s', o, os', hs, ht, rfl⟩

theorem run_of_step {step : σ → ι → Option (σ × ο)} {s s' t : σ} {i : ι} {is : List ι} {o : ο}
    {os : List ο} (hstep : step s i = some (s', o)) (hrun : run step s' is = some (t, os)) :
    run step s (i :: is) = some (t, o :: os) := by
  simp only [run, hstep, hrun, Option.bind_eq_bind, Option.bind_some, Option.pure_def]

theorem run_keeps {step : σ → ι → Option (σ × ο)} {P : σ → Prop} {is : List ι}
    (hstep : ∀ i ∈ is, ∀ s s' o, step s i = some (s', o) → P s → P s') {s t : σ} {os : List ο}
    (h : run step s is = some (t, os)) (hs : P s) : P t := by
  induction is generalizing s os with
  | nil =>
    obtain ⟨rfl, -⟩ := Prod.mk.inj (Option.some.inj h)
    exact hs
  | cons i is ih =>
    obtain ⟨s', o, os', hi, hrun, -⟩ := run_cons h
    exact ih (fun j hj => hstep j (List.mem_cons_of_mem _ hj)) hrun
      (hstep i List.mem_cons_self s s' o hi hs)

/-- A condition that every step of a run meets in the state it is taken from. -/
def Along (step : σ → ι → Option (σ × ο)) (P : σ → ι → Prop) : σ → List ι → Prop
  | _, [] => True
  | s, i :: is => P s i ∧ ∀ s' o, step s i = some (s', o) → Along step P s' is

theorem along_cons {step : σ → ι → Option (σ × ο)} {P : σ → ι → Prop} {s s' : σ} {i : ι} {o : ο}
    {is : List ι} (hP : P s i) (hstep : step s i = some (s', o)) (h : Along step P s' is) :
    Along step P s (i :: is) := by
  refine ⟨hP, fun s'' o' hstep' => ?_⟩
  obtain ⟨rfl, -⟩ := Prod.mk.inj (Option.some.inj (hstep.symm.trans hstep'))
  exact h

theorem along_mono {step : σ → ι → Option (σ × ο)} {P Q : σ → ι → Prop} {is : List ι}
    (h : ∀ i ∈ is, ∀ s, P s i → Q s i) {s : σ} (halong : Along step P s is) :
    Along step Q s is := by
  induction is generalizing s with
  | nil => trivial
  | cons i is ih =>
    exact ⟨h i List.mem_cons_self s halong.1, fun s' o hi =>
      ih (fun j hj => h j (List.mem_cons_of_mem i hj)) (halong.2 s' o hi)⟩

theorem along_trivial (step : σ → ι → Option (σ × ο)) (s : σ) (is : List ι) :
    Along step (fun _ _ => True) s is := by
  induction is generalizing s with
  | nil => trivial
  | cons i is ih => exact ⟨trivial, fun s' _ _ => ih s'⟩

/-- A run that is not defined ends at one step: what is before it is a run, from whose state the step is
not defined. -/
theorem run_eq_none {step : σ → ι → Option (σ × ο)} {s : σ} {is : List ι}
    (h : run step s is = none) :
    ∃ js i ks t os, is = js ++ i :: ks ∧ run step s js = some (t, os) ∧ step t i = none := by
  induction is generalizing s with
  | nil => cases h
  | cons i is ih =>
    cases hi : step s i with
    | none => exact ⟨[], i, is, s, [], rfl, rfl, hi⟩
    | some r =>
      obtain ⟨s', o⟩ := r
      have hrest : run step s' is = none := by
        cases hrun : run step s' is with
        | none => rfl
        | some r' =>
          rw [run_of_step hi hrun] at h
          cases h
      obtain ⟨js, j, ks, t, os, rfl, hrun, hj⟩ := ih hrest
      exact ⟨i :: js, j, ks, t, o :: os, rfl, run_of_step hi hrun, hj⟩

/-- Every operation of a run that is defined is one in some state. -/
theorem run_mem {step : σ → ι → Option (σ × ο)} {s t : σ} {is : List ι} {os : List ο}
    (h : run step s is = some (t, os)) {i : ι} (hi : i ∈ is) : ∃ s', (step s' i).isSome := by
  induction is generalizing s os with
  | nil => cases hi
  | cons j is ih =>
    obtain ⟨s', o, os', hj, hrun, -⟩ := run_cons h
    rcases List.mem_cons.mp hi with rfl | hi
    · exact ⟨s, Option.isSome_iff_exists.mpr ⟨_, hj⟩⟩
    · exact ih hrun hi

/-- Where a step is defined exactly under a condition, a run is defined exactly if the condition is
met along it. -/
theorem run_isSome_iff {step : σ → ι → Option (σ × ο)} {P C : σ → ι → Prop}
    (hstep : ∀ s i, P s i → ((step s i).isSome ↔ C s i)) {s : σ} {is : List ι}
    (halong : Along step P s is) : (run step s is).isSome ↔ Along step C s is := by
  induction is generalizing s with
  | nil => exact iff_of_true rfl trivial
  | cons i is ih =>
    have hdefined := hstep s i halong.1
    cases hi : step s i with
    | none =>
      rw [hi] at hdefined
      simp only [run, hi]
      exact iff_of_false Bool.false_ne_true fun h => Bool.false_ne_true (hdefined.mpr h.1)
    | some r =>
      obtain ⟨s', o⟩ := r
      have hC : C s i := hdefined.mp (by rw [hi]; rfl)
      have hrest := ih (halong.2 s' o hi)
      have hrun : (run step s (i :: is)).isSome = (run step s' is).isSome := by
        simp only [run, hi, Option.bind_eq_bind, Option.bind_some]
        cases run step s' is <;> rfl
      rw [hrun, hrest]
      exact ⟨along_cons hC hi, fun h => h.2 s' o hi⟩

/-- What a step keeps under the condition, and what its output then is, along a run. -/
theorem run_along {step : σ → ι → Option (σ × ο)} {P : σ → ι → Prop} {I : σ → Prop}
    {Q : ο → Prop}
    (hstep : ∀ s i s' o, P s i → I s → step s i = some (s', o) → I s' ∧ Q o) {s t : σ}
    {is : List ι} {os : List ο} (halong : Along step P s is) (hs : I s)
    (h : run step s is = some (t, os)) : I t ∧ ∀ o ∈ os, Q o := by
  induction is generalizing s os with
  | nil =>
    obtain ⟨rfl, rfl⟩ := Prod.mk.inj (Option.some.inj h)
    exact ⟨hs, nofun⟩
  | cons i is ih =>
    obtain ⟨s', o, os', hi, hrun, rfl⟩ := run_cons h
    obtain ⟨hs', ho⟩ := hstep s i s' o halong.1 hs hi
    obtain ⟨ht, hos⟩ := ih (halong.2 s' o hi) hs' hrun
    exact ⟨ht, List.forall_mem_cons.mpr ⟨ho, hos⟩⟩

/-- Steps that are defined and keep an invariant of the state and the outputs so far do so along a
run. -/
theorem run_progress {step : σ → ι → Option (σ × ο)} {P : σ → ι → Prop} {I : σ → List ο → Prop}
    (hstep : ∀ s os i, P s i → I s os → ∃ s' o, step s i = some (s', o) ∧ I s' (os ++ [o]))
    {s : σ} {os : List ο} {is : List ι} (halong : Along step P s is) (hI : I s os) :
    ∃ t os', run step s is = some (t, os') ∧ I t (os ++ os') := by
  induction is generalizing s os with
  | nil => exact ⟨s, [], rfl, by rwa [List.append_nil]⟩
  | cons i is ih =>
    obtain ⟨s', o, he, hI'⟩ := hstep s os i halong.1 hI
    obtain ⟨t, os', hrun, ht⟩ := ih (halong.2 s' o he) hI'
    refine ⟨t, o :: os', run_of_step he hrun, ?_⟩
    rwa [List.append_assoc] at ht

/-- Where a step's output has a property exactly when the step meets a condition, all outputs of a run
have it exactly when the condition is met along the run. -/
theorem run_outputs_iff {step : σ → ι → Option (σ × ο)} {P R : σ → ι → Prop} {I : σ → Prop}
    {Q : ο → Prop}
    (hstep : ∀ s i s' o, P s i → I s → step s i = some (s', o) → I s' ∧ (Q o ↔ R s i)) {s t : σ}
    {is : List ι} {os : List ο} (halong : Along step P s is) (hs : I s)
    (h : run step s is = some (t, os)) : (∀ o ∈ os, Q o) ↔ Along step R s is := by
  induction is generalizing s os with
  | nil =>
    obtain ⟨rfl, rfl⟩ := Prod.mk.inj (Option.some.inj h)
    exact ⟨fun _ => trivial, fun _ => nofun⟩
  | cons i is ih =>
    obtain ⟨s', o, os', hi, hrun, rfl⟩ := run_cons h
    obtain ⟨hs', ho⟩ := hstep s i s' o halong.1 hs hi
    have hrest := ih (halong.2 s' o hi) hs' hrun
    rw [List.forall_mem_cons, ho, hrest]
    exact ⟨fun hr => along_cons hr.1 hi hr.2, fun hr => ⟨hr.1, hr.2 s' o hi⟩⟩

/-- A step beside which a history is kept that it does not look at. -/
def withGhost {γ : Type} (step : σ → ι → Option (σ × ο)) (ghost : σ → ι → γ → γ) (s : σ × γ)
    (i : ι) : Option ((σ × γ) × ο) := do
  let (t, o) ← step s.1 i
  return ((t, ghost s.1 i s.2), o)

theorem withGhost_of_step {γ : Type} {step : σ → ι → Option (σ × ο)} {ghost : σ → ι → γ → γ}
    {s s' : σ} {i : ι} {o : ο} (hstep : step s i = some (s', o)) (x : γ) :
    withGhost step ghost (s, x) i = some ((s', ghost s i x), o) := by
  simp only [withGhost, hstep, Option.bind_eq_bind, Option.bind_some, Option.pure_def]

/-- Steps that are defined and keep an invariant of state and history do so along a run, which ends
in the state it ends in without the history. -/
theorem run_withGhost {γ : Type} {step : σ → ι → Option (σ × ο)} {ghost : σ → ι → γ → γ}
    {ok : ι → Prop} {P : σ → ι → Prop} {I : σ → γ → Prop}
    (hstep : ∀ s x i, ok i → P s i → I s x →
      ∃ s' o, step s i = some (s', o) ∧ I s' (ghost s i x))
    {s : σ} {x : γ} {is : List ι} (hok : ∀ i ∈ is, ok i) (halong : Along step P s is)
    (hI : I s x) :
    ∃ t y os, run (withGhost step ghost) (s, x) is = some ((t, y), os) ∧
      run step s is = some (t, os) ∧ I t y := by
  induction is generalizing s x with
  | nil => exact ⟨s, x, [], rfl, rfl, hI⟩
  | cons i is ih =>
    obtain ⟨s', o, he, hI'⟩ := hstep s x i (hok i List.mem_cons_self) halong.1 hI
    obtain ⟨t, y, os, hghost, hrun, ht⟩ := ih (fun j hj => hok j (List.mem_cons_of_mem i hj))
      (halong.2 s' o he) hI'
    exact ⟨t, y, o :: os, run_of_step (withGhost_of_step he x) hghost, run_of_step he hrun, ht⟩

theorem run_append (step : σ → ι → Option (σ × ο)) (s : σ) (is js : List ι) :
    run step s (is ++ js) = (run step s is).bind fun r =>
      (run step r.1 js).map fun r' => (r'.1, r.2 ++ r'.2) := by
  induction is generalizing s with
  | nil => simp [run]
  | cons i is ih =>
    cases h : step s i with
    | none => simp [run, h]
    | some r =>
      simp only [List.cons_append, run, h, Option.bind_eq_bind, Option.bind_some, ih]
      cases run step r.1 is with
      | none => rfl
      | some r' =>
        simp only [Option.bind_some, Option.pure_def]
        cases run step r'.1 js <;> rfl

/-- The same for a step that is always defined. -/
def runSpec (spec : τ → ι → τ × ο) : τ → List ι → τ × List ο
  | t, [] => (t, [])
  | t, i :: is =>
    let r := runSpec spec (spec t i).1 is
    (r.1, (spec t i).2 :: r.2)

theorem runSpec_append (spec : τ → ι → τ × ο) (t : τ) (is js : List ι) :
    runSpec spec t (is ++ js) =
      ((runSpec spec (runSpec spec t is).1 js).1,
        (runSpec spec t is).2 ++ (runSpec spec (runSpec spec t is).1 js).2) := by
  induction is generalizing t with
  | nil => rfl
  | cons i is ih => simp only [List.cons_append, runSpec, ih]

/-- Forward simulation: steps that are matched one by one are matched along
every run, with the same outputs, and the run is defined. -/
theorem run_simulates {step : σ → ι → Option (σ × ο)} {spec : τ → ι → τ × ο}
    {R : σ → τ → Prop} {ok : ι → Prop}
    (hstep : ∀ s t i, ok i → R s t →
      ∃ s', step s i = some (s', (spec t i).2) ∧ R s' (spec t i).1)
    {s : σ} {t : τ} (is : List ι) (hok : ∀ i ∈ is, ok i) (hR : R s t) :
    ∃ s', run step s is = some (s', (runSpec spec t is).2) ∧ R s' (runSpec spec t is).1 := by
  induction is generalizing s t with
  | nil => exact ⟨s, rfl, hR⟩
  | cons i is ih =>
    obtain ⟨s₁, h₁, hR₁⟩ := hstep s t i (hok i (by simp)) hR
    obtain ⟨s₂, h₂, hR₂⟩ := ih (fun j hj => hok j (by simp [hj])) hR₁
    exact ⟨s₂, by simp [run, runSpec, h₁, h₂], hR₂⟩

/-- Steps that agree with a specification wherever they are defined do so along every run that is. -/
theorem run_agrees {step : σ → ι → Option (σ × ο)} {spec : τ → ι → τ × ο} {R : σ → τ → Prop}
    {ok : ι → Prop}
    (hstep : ∀ s t i s' o, ok i → R s t → step s i = some (s', o) →
      o = (spec t i).2 ∧ R s' (spec t i).1)
    {s s' : σ} {t : τ} {is : List ι} {os : List ο} (hok : ∀ i ∈ is, ok i) (hR : R s t)
    (h : run step s is = some (s', os)) :
    os = (runSpec spec t is).2 ∧ R s' (runSpec spec t is).1 := by
  induction is generalizing s t os with
  | nil =>
    obtain ⟨rfl, rfl⟩ := Prod.mk.inj (Option.some.inj h)
    exact ⟨rfl, hR⟩
  | cons i is ih =>
    obtain ⟨s₁, o, os', hi, hrun, rfl⟩ := run_cons h
    obtain ⟨ho, hR₁⟩ := hstep s t i s₁ o (hok i List.mem_cons_self) hR hi
    obtain ⟨hos, hR'⟩ := ih (fun j hj => hok j (List.mem_cons_of_mem i hj)) hR₁ hrun
    exact ⟨congrArg₂ List.cons ho hos, hR'⟩

/-- Steps whose output does not depend on the state. -/
theorem run_map {step : σ → ι → Option (σ × ο)} {f : ι → ο} {I : σ → Prop} {ok : ι → Prop}
    (hstep : ∀ s i, ok i → I s → ∃ s', step s i = some (s', f i) ∧ I s') {s : σ} {is : List ι}
    (hok : ∀ i ∈ is, ok i) (hs : I s) : ∃ s', run step s is = some (s', is.map f) ∧ I s' := by
  induction is generalizing s with
  | nil => exact ⟨s, rfl, hs⟩
  | cons i is ih =>
    obtain ⟨s₁, h₁, hs₁⟩ := hstep s i (hok i List.mem_cons_self) hs
    obtain ⟨s₂, h₂, hs₂⟩ := ih (fun j hj => hok j (List.mem_cons_of_mem i hj)) hs₁
    exact ⟨s₂, run_of_step h₁ h₂, hs₂⟩

end EventServer.Lib.Transition
