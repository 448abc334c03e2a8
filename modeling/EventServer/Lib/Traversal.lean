import Mathlib.Data.Finset.Card
import Mathlib.Logic.Relation

/-!
# Depth-first traversal

A traversal follows an edge, and where its target is new all edges of the target
in their order before it goes on. The log of the edges followed has the edges of
every node that is reached, each node's once and in order, and no others.
-/
namespace EventServer.Lib.Traversal

open Relation

variable {α β : Type}

/-- An edge with its label; the one a traversal starts with has no source. -/
structure Edge (α β : Type) where
  source : Option α
  label : β
  target : α

def targets (log : List (Edge α β)) : List α := log.map Edge.target

theorem targets_append (log new : List (Edge α β)) :
    targets (log ++ new) = targets log ++ targets new := List.map_append

section Graph

variable (succ : α → List (β × α))

def edges (p : α) : List (Edge α β) := (succ p).map fun e => ⟨some p, e.1, e.2⟩

def Points (p q : α) : Prop := ∃ d, (d, q) ∈ succ p

theorem source_of_mem_edges {p : α} {e : Edge α β} (h : e ∈ edges succ p) : e.source = some p := by
  obtain ⟨_, -, rfl⟩ := List.mem_map.mp h
  rfl

theorem points_of_mem_edges {p : α} {e : Edge α β} (h : e ∈ edges succ p) :
    Points succ p e.target := by
  obtain ⟨s, hs, rfl⟩ := List.mem_map.mp h
  exact ⟨s.1, hs⟩

/-- The sources of edges were seen. -/
def Seen (log es : List (Edge α β)) : Prop := ∀ e ∈ es, ∀ x, e.source = some x → x ∈ targets log

theorem Seen.mono {log es : List (Edge α β)} (h : Seen log es) (new : List (Edge α β)) :
    Seen (log ++ new) es := by
  intro e he x hx
  rw [targets_append]
  exact List.mem_append_left _ (h e he x hx)

theorem seen_edges (log : List (Edge α β)) (e : Edge α β) :
    Seen (log ++ [e]) (edges succ e.target) := by
  intro e' he' x hx
  obtain rfl := Option.some.inj ((source_of_mem_edges succ he').symm.trans hx)
  simp [targets]

variable [DecidableEq α]

/-- What was followed from one source. -/
def outOf (k : Option α) (log : List (Edge α β)) : List (Edge α β) := log.filter (·.source = k)

theorem outOf_append (k : Option α) (log new : List (Edge α β)) :
    outOf k (log ++ new) = outOf k log ++ outOf k new := List.filter_append ..

theorem outOf_eq_nil {k : Option α} {es : List (Edge α β)} (h : ∀ e ∈ es, e.source ≠ k) :
    outOf k es = [] := by
  rw [outOf, List.filter_eq_nil_iff]
  exact fun e he => by simpa using h e he

theorem outOf_eq_self {k : Option α} {es : List (Edge α β)} (h : ∀ e ∈ es, e.source = k) :
    outOf k es = es := by
  rw [outOf, List.filter_eq_self]
  exact fun e he => by simpa using h e he

/-- The fuel bounds how deep the traversal is nested. -/
def visit : Nat → List (Edge α β) → Edge α β → Option (List (Edge α β))
  | 0, _, _ => none
  | fuel + 1, log, e =>
    if e.target ∈ targets log then some (log ++ [e])
    else (edges succ e.target).foldlM (visit fuel) (log ++ [e])

/-- What is logged when some edges are followed. -/
structure Followed (log es new : List (Edge α β)) : Prop where
  /-- The edges asked for are the only ones from what was seen before. -/
  old : ∀ k, (∀ x, k = some x → x ∈ targets log) → outOf k new = outOf k es
  /-- What is seen only now has all its edges followed. -/
  fresh : ∀ x ∉ targets log, outOf (some x) new = if x ∈ targets new then edges succ x else []
  hit : ∀ e ∈ es, e.target ∈ targets new
  reached : ∀ x ∈ targets new, ∃ e ∈ es, ReflTransGen (Points succ) e.target x

variable {succ}

theorem followed_nil (log : List (Edge α β)) : Followed succ log [] [] :=
  ⟨fun _ _ => rfl, fun _ _ => rfl, nofun, nofun⟩

theorem followed_append {log es fs new₁ new₂ : List (Edge α β)} (hfs : Seen log fs)
    (h₁ : Followed succ log es new₁) (h₂ : Followed succ (log ++ new₁) fs new₂) :
    Followed succ log (es ++ fs) (new₁ ++ new₂) := by
  have hsame : ∀ {k gs}, Seen log gs → (∀ x, k = some x → x ∉ targets log) → k.isSome →
      outOf k gs = [] := by
    intro k gs hgs hk hsome
    refine outOf_eq_nil fun e he heq => ?_
    obtain ⟨x, rfl⟩ := Option.isSome_iff_exists.mp hsome
    exact hk x rfl (hgs e he x heq)
  refine ⟨fun k hk => ?_, fun x hx => ?_, fun e he => ?_, fun x hx => ?_⟩
  · have hk' : ∀ x, k = some x → x ∈ targets (log ++ new₁) := fun x hx => by
      rw [targets_append]
      exact List.mem_append_left _ (hk x hx)
    rw [outOf_append, outOf_append, h₁.old k hk, h₂.old k hk']
  · have hnew : ∀ {y}, some x = some y → y ∉ targets log := by
      rintro y ⟨⟩
      exact hx
    rw [outOf_append, targets_append, h₁.fresh x hx]
    by_cases h : x ∈ targets new₁
    · have hold := h₂.old (some x) (by rintro y ⟨⟩; simp [targets_append, h])
      rw [hold, hsame hfs (fun y => hnew) rfl, if_pos h, if_pos (List.mem_append_left _ h),
        List.append_nil]
    · have hx' : x ∉ targets (log ++ new₁) := by simp [targets_append, hx, h]
      rw [if_neg h, h₂.fresh x hx', List.nil_append]
      simp [h]
  · rw [targets_append]
    rcases List.mem_append.mp he with he | he
    · exact List.mem_append_left _ (h₁.hit e he)
    · exact List.mem_append_right _ (h₂.hit e he)
  · rw [targets_append] at hx
    rcases List.mem_append.mp hx with hx | hx
    · obtain ⟨e, he, hr⟩ := h₁.reached x hx
      exact ⟨e, List.mem_append_left _ he, hr⟩
    · obtain ⟨e, he, hr⟩ := h₂.reached x hx
      exact ⟨e, List.mem_append_right _ he, hr⟩

/-- An edge to what was seen. -/
theorem followed_again {log : List (Edge α β)} {e : Edge α β} (hsrc : Seen log [e])
    (hmem : e.target ∈ targets log) : Followed succ log [e] [e] := by
  refine ⟨fun _ _ => rfl, fun x hx => ?_, fun e' he' => ?_, fun x hx => ?_⟩
  · have hne : x ≠ e.target := fun heq => hx (heq ▸ hmem)
    rw [if_neg (by simpa [targets] using hne)]
    refine outOf_eq_nil fun e' he' heq => ?_
    exact hx (hsrc e' he' x heq)
  · exact List.mem_map_of_mem he'
  · obtain rfl : x = e.target := by simpa [targets] using hx
    exact ⟨e, List.mem_singleton_self e, .refl⟩

/-- An edge to something new, and then its edges. -/
theorem followed_first {log new : List (Edge α β)} {e : Edge α β} (hsrc : Seen log [e])
    (hnew : e.target ∉ targets log)
    (h : Followed succ (log ++ [e]) (edges succ e.target) new) :
    Followed succ log [e] (e :: new) := by
  have hseen : ∀ {x}, x ∈ targets (log ++ [e]) ↔ x ∈ targets log ∨ x = e.target := by
    intro x
    simp [targets]
  have hout : ∀ k, outOf k (e :: new) = outOf k [e] ++ outOf k new := fun k =>
    outOf_append k [e] new
  refine ⟨fun k hk => ?_, fun x hx => ?_, fun e' he' => ?_, fun x hx => ?_⟩
  · have hnone : outOf k (edges succ e.target) = [] := outOf_eq_nil fun e' he' heq =>
      hnew (hk _ (heq ▸ source_of_mem_edges succ he'))
    rw [hout, h.old k fun x hx => hseen.mpr (.inl (hk x hx)), hnone, List.append_nil]
  · have hfirst : outOf (some x) [e] = [] :=
      outOf_eq_nil fun e' he' heq => hx (hsrc e' he' x heq)
    rw [hout, hfirst, List.nil_append]
    by_cases heq : x = e.target
    · subst heq
      rw [h.old _ (by rintro x ⟨⟩; exact hseen.mpr (.inr rfl)), if_pos (by simp [targets])]
      exact outOf_eq_self fun e' he' => source_of_mem_edges succ he'
    · rw [h.fresh x fun hx' => (hseen.mp hx').elim hx heq]
      simp [targets, heq]
  · obtain rfl := List.mem_singleton.mp he'
    exact List.mem_map_of_mem List.mem_cons_self
  · refine ⟨e, List.mem_singleton_self e, ?_⟩
    rcases List.mem_cons.mp hx with rfl | hx
    · exact .refl
    · obtain ⟨e', he', hr⟩ := h.reached x hx
      exact .head (points_of_mem_edges succ he') hr

/-- Following edges one after the other, where following one of them is understood. -/
theorem followed_foldlM {fuel : Nat}
    (hvisit : ∀ {log log' : List (Edge α β)} {e}, Seen log [e] →
      visit succ fuel log e = some log' → ∃ new, log' = log ++ new ∧ Followed succ log [e] new)
    {es log log' : List (Edge α β)} (hsrc : Seen log es)
    (h : es.foldlM (visit succ fuel) log = some log') :
    ∃ new, log' = log ++ new ∧ Followed succ log es new := by
  induction es generalizing log with
  | nil =>
    obtain rfl := Option.some.inj h
    exact ⟨[], (List.append_nil log).symm, followed_nil log⟩
  | cons e es ih =>
    obtain ⟨log₁, hfirst, hrest⟩ := Option.bind_eq_some_iff.mp h
    have hone : Seen log [e] := fun e' he' => hsrc e' (List.mem_cons.mpr (.inl
      (List.mem_singleton.mp he')))
    have hothers : Seen log es := fun e' he' => hsrc e' (List.mem_cons_of_mem e he')
    obtain ⟨new₁, rfl, h₁⟩ := hvisit hone hfirst
    obtain ⟨new₂, rfl, h₂⟩ := ih (hothers.mono new₁) hrest
    exact ⟨new₁ ++ new₂, List.append_assoc .., followed_append hothers h₁ h₂⟩

theorem visit_followed {fuel : Nat} {log log' : List (Edge α β)} {e : Edge α β}
    (hsrc : Seen log [e]) (h : visit succ fuel log e = some log') :
    ∃ new, log' = log ++ new ∧ Followed succ log [e] new := by
  induction fuel generalizing log log' e with
  | zero => cases h
  | succ fuel ih =>
    rw [visit] at h
    split at h
    · next hmem =>
      obtain rfl := Option.some.inj h
      exact ⟨[e], rfl, followed_again hsrc hmem⟩
    · next hnew =>
      obtain ⟨new, rfl, hf⟩ := followed_foldlM ih (seen_edges succ log e) h
      exact ⟨e :: new, by simp, followed_first hsrc hnew hf⟩

/-! ## Enough fuel -/

/-- The nodes not seen yet. -/
def unseen (nodes : Finset α) (log : List (Edge α β)) : Finset α :=
  nodes.filter (· ∉ targets log)

theorem unseen_append_subset (nodes : Finset α) (log new : List (Edge α β)) :
    unseen nodes (log ++ new) ⊆ unseen nodes log := by
  intro x hx
  simp only [unseen, Finset.mem_filter, targets_append, List.mem_append, not_or] at hx ⊢
  exact ⟨hx.1, hx.2.1⟩

theorem unseen_lt {nodes : Finset α} {log : List (Edge α β)} {e : Edge α β}
    (hmem : e.target ∈ nodes) (hnew : e.target ∉ targets log) :
    (unseen nodes (log ++ [e])).card < (unseen nodes log).card := by
  refine Finset.card_lt_card ⟨unseen_append_subset nodes log [e], fun hsub => ?_⟩
  have hin : e.target ∈ unseen nodes (log ++ [e]) :=
    hsub (Finset.mem_filter.mpr ⟨hmem, hnew⟩)
  exact (Finset.mem_filter.mp hin).2 (by simp [targets])

/-- With more fuel than unseen nodes every traversal inside the nodes is defined. -/
theorem visit_isSome {nodes : Finset α} (hclosed : ∀ p ∈ nodes, ∀ e ∈ succ p, e.2 ∈ nodes)
    {fuel : Nat} {log : List (Edge α β)} {e : Edge α β} (hsrc : Seen log [e])
    (hmem : e.target ∈ nodes) (hfuel : (unseen nodes log).card < fuel) :
    ∃ log', visit succ fuel log e = some log' := by
  induction fuel generalizing log e with
  | zero => exact absurd hfuel (Nat.not_lt_zero _)
  | succ fuel ih =>
    rw [visit]
    split
    · exact ⟨_, rfl⟩
    · next hnew =>
      have hinner : ∀ (es log : List (Edge α β)), Seen log es → (∀ e ∈ es, e.target ∈ nodes) →
          (unseen nodes log).card < fuel → ∃ log', es.foldlM (visit succ fuel) log = some log' := by
        intro es
        induction es with
        | nil => exact fun log _ _ _ => ⟨log, rfl⟩
        | cons e es ihes =>
          intro log hsrc hes hlt
          have hone : Seen log [e] := fun e' he' => hsrc e' (List.mem_cons.mpr (.inl
            (List.mem_singleton.mp he')))
          have hothers : Seen log es := fun e' he' => hsrc e' (List.mem_cons_of_mem e he')
          obtain ⟨log₁, h₁⟩ := ih hone (hes e List.mem_cons_self) hlt
          obtain ⟨new, rfl, -⟩ := visit_followed hone h₁
          obtain ⟨log₂, h₂⟩ := ihes (log ++ new) (hothers.mono new)
            (fun e' he' => hes e' (List.mem_cons_of_mem e he'))
            (Nat.lt_of_le_of_lt (Finset.card_le_card (unseen_append_subset nodes log new)) hlt)
          exact ⟨log₂, by simp [h₁, h₂]⟩
      refine hinner _ _ (seen_edges succ log e) (fun e' he' => ?_) ?_
      · obtain ⟨s, hs, rfl⟩ := List.mem_map.mp he'
        exact hclosed _ hmem s hs
      · have hlt := unseen_lt hmem hnew
        omega

/-! ## From a root -/

/-- A traversal from a root sees what the root reaches, and follows each edge of that once and in
order. -/
theorem visit_root {fuel : Nat} {d : β} {r : α} {log : List (Edge α β)}
    (h : visit succ fuel [] ⟨none, d, r⟩ = some log) :
    (∀ x, x ∈ targets log ↔ ReflTransGen (Points succ) r x) ∧
      outOf none log = [⟨none, d, r⟩] ∧
      ∀ x, outOf (some x) log = if x ∈ targets log then edges succ x else [] := by
  obtain ⟨new, hnew, hf⟩ := visit_followed (by simp [Seen]) h
  obtain rfl : log = new := hnew
  refine ⟨fun x => ⟨fun hx => ?_, fun hr => ?_⟩, ?_, fun x => hf.fresh x (by simp [targets])⟩
  · obtain ⟨e, he, hr⟩ := hf.reached x hx
    obtain rfl := List.mem_singleton.mp he
    exact hr
  · induction hr with
    | refl => exact hf.hit _ (List.mem_singleton_self _)
    | @tail p q _ hpq ih =>
      obtain ⟨l, hl⟩ := hpq
      have hout : (⟨some p, l, q⟩ : Edge α β) ∈ outOf (some p) log := by
        rw [hf.fresh p (by simp [targets]), if_pos ih]
        exact List.mem_map_of_mem hl
      exact List.mem_map_of_mem (List.mem_of_mem_filter hout)
  · exact hf.old none nofun

end Graph
end EventServer.Lib.Traversal
