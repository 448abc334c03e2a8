import EventServer.Mime.Wrap

/-!
# Line breaks and dots

`eol` and `dot` of `mime.c`. A break may be written in four ways, and `eol` writes all of
them in one. A receiver of mail reads a line with a single dot as the end of the text; `dot`
doubles the dots that it would take away.
-/
namespace EventServer.Mime

open EventServer.Lib.CString EventServer.Lib.Machine EventServer.Stream

/-! ## Line breaks -/

def eolcandidate (c : Int) : Prop := c = 13 ∨ c = 10

instance (c : Int) : Decidable (eolcandidate c) := inferInstanceAs (Decidable (_ ∨ _))

/-- The byte is a `char`, and widened with its sign. -/
def eolprocess (marker : List Byte) (last : Int) (c : Byte) : Int × List Byte :=
  if eolcandidate c.toInt then
    if eolcandidate last then (0, if c.toInt = last then marker else [])
    else (c.toInt, marker)
  else (0, [c])

/-- `luaL_optstring(L, 3, CRLF)`, as `luaL_addstring` reads it. -/
def optMarker (marker : Option (List Byte)) : List Byte := (marker.map cstr).getD CRLF

def mimeGlobalEol (marker : Option (List Byte)) (ctx : Int) (B : Option (List Byte)) :
    Option (List Byte) × Int :=
  match B with
  | none => (none, 0)
  | some input =>
    let (ctx, buffer) := run (eolprocess (optMarker marker)) ctx input
    (some buffer, ctx)

/-- Mac OS, Unix, DOS and the last one turned round. -/
def conventions : List (List Byte) := [[CR], [LF], [CR, LF], [LF, CR]]

def Unbroken (l : List Byte) : Prop := ∀ c ∈ l, c ≠ CR ∧ c ≠ LF

/-- The contexts in which a break of the convention is one break. -/
def Fresh (nl : List Byte) (ctx : Int) : Prop := ctx = 0 ∨ ∃ c : Byte, nl = [c] ∧ ctx = c.toInt

theorem feed_eol (marker : Option (List Byte)) (ctx : Int) (pieces : List (List Byte)) :
    feed (mimeGlobalEol marker) ctx pieces =
      (run (eolprocess (optMarker marker)) ctx pieces.flatten).2 := by
  rw [feed_run (eolprocess (optMarker marker)) (fun n piece => rfl)]
  exact List.append_nil _

theorem not_eolcandidate {c : Byte} (h : c ≠ CR ∧ c ≠ LF) : ¬eolcandidate c.toInt := by
  rintro (hc | hc)
  · exact h.1 (BitVec.eq_of_toInt_eq hc)
  · exact h.2 (BitVec.eq_of_toInt_eq hc)

theorem eolprocess_plain (marker : List Byte) (ctx : Int) {c : Byte} (h : c ≠ CR ∧ c ≠ LF) :
    eolprocess marker ctx c = (0, [c]) := by
  rw [eolprocess, if_neg (not_eolcandidate h)]

theorem run_eol_unbroken (marker : List Byte) {nl : List Byte} {ctx : Int} (hctx : Fresh nl ctx)
    {l : List Byte} (hl : Unbroken l) :
    Fresh nl (run (eolprocess marker) ctx l).1 ∧ (run (eolprocess marker) ctx l).2 = l := by
  induction l generalizing ctx with
  | nil => exact ⟨hctx, rfl⟩
  | cons c l ih =>
    obtain ⟨hc, hl⟩ := List.forall_mem_cons.mp hl
    obtain ⟨hfresh, hout⟩ := ih (Or.inl rfl) hl
    rw [run_cons, eolprocess_plain marker ctx hc, hout]
    exact ⟨hfresh, rfl⟩

/-- A break of the convention makes one marker. -/
theorem run_eol_break (marker : List Byte) {nl : List Byte} (hnl : nl ∈ conventions) {ctx : Int}
    (hctx : Fresh nl ctx) :
    Fresh nl (run (eolprocess marker) ctx nl).1 ∧ (run (eolprocess marker) ctx nl).2 = marker := by
  have hzero : ¬eolcandidate 0 := by decide
  simp only [conventions, List.mem_cons, List.not_mem_nil, or_false] at hnl
  rcases hctx with rfl | ⟨c, rfl, rfl⟩
  · rcases hnl with rfl | rfl | rfl | rfl
    · exact ⟨Or.inr ⟨CR, rfl, rfl⟩, List.append_nil _⟩
    · exact ⟨Or.inr ⟨LF, rfl, rfl⟩, List.append_nil _⟩
    · exact ⟨Or.inl rfl, List.append_nil _⟩
    · exact ⟨Or.inl rfl, List.append_nil _⟩
  · rcases hnl with hc | hc | hc | hc
    · cases hc
      exact ⟨Or.inl rfl, List.append_nil _⟩
    · cases hc
      exact ⟨Or.inl rfl, List.append_nil _⟩
    · cases hc
    · cases hc

theorem run_eol_lines (marker : List Byte) {nl : List Byte} (hnl : nl ∈ conventions) {ctx : Int}
    (hctx : Fresh nl ctx) {ls : List (List Byte)} (hls : ∀ l ∈ ls, Unbroken l) :
    (run (eolprocess marker) ctx (nl.intercalate ls)).2 = marker.intercalate ls := by
  induction ls generalizing ctx with
  | nil => rfl
  | cons l ls ih =>
    obtain ⟨hl, hls⟩ := List.forall_mem_cons.mp hls
    obtain ⟨hfresh, hout⟩ := run_eol_unbroken marker hctx hl
    by_cases hnil : ls = []
    · rw [hnil, List.intercalate_singleton, List.intercalate_singleton, hout]
    · obtain ⟨hfresh', hout'⟩ := run_eol_break marker hnl hfresh
      rw [List.intercalate_cons_of_ne_nil hnil, List.intercalate_cons_of_ne_nil hnil, run_append,
        run_append, hout, hout', ih hfresh' hls]

/-- A text that keeps to one of the four conventions gets the marker for each of its breaks,
however it is cut. -/
theorem eol_uniform (marker : Option (List Byte)) {nl : List Byte} (hnl : nl ∈ conventions)
    {ls : List (List Byte)} (hls : ∀ l ∈ ls, Unbroken l) {pieces : List (List Byte)}
    (hpieces : pieces.flatten = nl.intercalate ls) :
    feed (mimeGlobalEol marker) 0 pieces = (optMarker marker).intercalate ls := by
  rw [feed_eol, hpieces, run_eol_lines (optMarker marker) hnl (Or.inl rfl) hls]

theorem eol_uniform_mac :
    feed (mimeGlobalEol none) 0 [lit "a".toList ++ [CR], CR :: lit "b".toList] =
      lit "a".toList ++ CRLF ++ CRLF ++ lit "b".toList :=
  @eol_uniform none [CR] (by decide) [lit "a".toList, [], lit "b".toList]
    (by unfold Unbroken; decide) [lit "a".toList ++ [CR], CR :: lit "b".toList] (by decide)

/-- What was converted once is not changed again. -/
theorem eol_idempotent (ctx : Int) (pieces sent : List (List Byte))
    (hsent : sent.flatten = feed (mimeGlobalEol none) ctx pieces) :
    feed (mimeGlobalEol none) 0 sent = sent.flatten := by
  have hbreak : run (eolprocess CRLF) 0 CRLF = (0, CRLF) := by decide
  have hstep : ∀ ctx c, run (eolprocess CRLF) 0 (eolprocess CRLF ctx c).2 =
      (0, (eolprocess CRLF ctx c).2) := by
    intro ctx c
    by_cases hc : c ≠ CR ∧ c ≠ LF
    · rw [eolprocess_plain CRLF ctx hc, run_singleton, eolprocess_plain CRLF 0 hc]
    · have hcand : eolcandidate c.toInt := by
        rw [not_and_or, not_not, not_not] at hc
        rcases hc with rfl | rfl
        · exact Or.inl rfl
        · exact Or.inr rfl
      rw [eolprocess, if_pos hcand]
      split
      · split
        · exact hbreak
        · rfl
      · exact hbreak
  rw [feed_eol, hsent, feed_eol]
  rw [show optMarker none = CRLF from rfl, run_fixes hstep]

theorem eol_idempotent_mixed :
    feed (mimeGlobalEol none) 0 [[CR], LF :: CRLF ++ CRLF] = CRLF ++ CRLF ++ CRLF :=
  eol_idempotent 0 [[LF, CR, LF, LF]] [[CR], LF :: CRLF ++ CRLF] (by decide)

/-! ## Dots -/

/-- The byte `c` after `state`: what is appended, and the next state. -/
def dot (state : Nat) (c : Byte) : Nat × List Byte :=
  if c = CR then (1, [c])
  else if c = LF then (if state = 1 then 2 else 0, [c])
  else if c = chr '.' then (0, if state = 2 then [c, chr '.'] else [c])
  else (0, [c])

def mimeGlobalDot (state : Nat) (B : Option (List Byte)) : Option (List Byte) × Nat :=
  match B with
  | none => (none, 2)
  | some input =>
    let (state, buffer) := run dot state input
    (some buffer, state)

/-- Where a receiver stands. -/
inductive Place where
  | lineStart
  | inLine
  | afterCR
  deriving DecidableEq

def Place.next (place : Place) (c : Byte) : Place :=
  if c = CR then .afterCR else if c = LF ∧ place = .afterCR then .lineStart else .inLine

/-- What a receiver of mail makes of what was sent: a line with a single dot ends the text, and
of any other line that begins with a dot the first one is taken away. The text is returned with
what follows it. -/
def receive : Place → List Byte → Option (List Byte × List Byte)
  | _, [] => none
  | place, c :: sent =>
    if place = .lineStart ∧ c = chr '.' then
      if CRLF.isPrefixOf sent then some ([], sent.drop 2) else receive .inLine sent
    else (receive (place.next c) sent).map fun r => (c :: r.1, r.2)

/-- The state of `dot` is the place of the receiver. -/
def Place.state : Place → Nat
  | lineStart => 2
  | inLine => 0
  | afterCR => 1

theorem feed_dot (state : Nat) (pieces : List (List Byte)) :
    feed mimeGlobalDot state pieces = (run dot state pieces.flatten).2 := by
  rw [feed_run dot (fun n piece => rfl)]
  exact List.append_nil _

theorem state_next {place : Place} {c : Byte} (h : ¬(place = .lineStart ∧ c = chr '.')) :
    dot place.state c = ((place.next c).state, [c]) := by
  by_cases hcr : c = CR
  · simp [dot, Place.next, Place.state, hcr]
  · by_cases hlf : c = LF
    · cases place with
      | lineStart => simp [dot, Place.next, Place.state, hlf, show LF ≠ CR by decide]
      | inLine => simp [dot, Place.next, Place.state, hlf, show LF ≠ CR by decide]
      | afterCR => simp [dot, Place.next, Place.state, hlf, show LF ≠ CR by decide]
    · cases place with
      | lineStart =>
        have hdot : c ≠ chr '.' := fun hdot => h ⟨rfl, hdot⟩
        simp [dot, Place.next, Place.state, hcr, hlf, hdot]
      | inLine => simp [dot, Place.next, Place.state, hcr, hlf]
      | afterCR => simp [dot, Place.next, Place.state, hcr, hlf]

theorem receive_cons {place : Place} {c : Byte} (h : ¬(place = .lineStart ∧ c = chr '.'))
    (sent : List Byte) :
    receive place (c :: sent) = (receive (place.next c) sent).map fun r => (c :: r.1, r.2) := by
  rw [receive, if_neg h]

/-- The end of the text, from any place in it. -/
theorem receive_end (place : Place) (rest : List Byte) :
    receive place (CRLF ++ chr '.' :: CRLF ++ rest) = some (CRLF, rest) := by
  have hcr : ¬(place = .lineStart ∧ CR = chr '.') := fun h => absurd h.2 (by decide)
  have hlf : ¬(Place.afterCR = .lineStart ∧ LF = chr '.') := by decide
  have hsent : CRLF ++ chr '.' :: CRLF ++ rest = CR :: LF :: chr '.' :: CR :: LF :: rest := rfl
  rw [hsent, receive_cons hcr, show place.next CR = .afterCR from rfl, receive_cons hlf]
  rfl

theorem receive_dot (text rest : List Byte) (place : Place) :
    receive place ((run dot place.state text).2 ++ (CRLF ++ chr '.' :: CRLF ++ rest)) =
      some (text ++ CRLF, rest) := by
  induction text generalizing place with
  | nil => exact receive_end place rest
  | cons c text ih =>
    by_cases h : place = .lineStart ∧ c = chr '.'
    · -- The receiver takes the first of the two dots away and goes on behind the second.
      obtain ⟨rfl, rfl⟩ := h
      have hstep : dot Place.lineStart.state (chr '.') = (Place.inLine.state, [chr '.', chr '.']) := by
        decide
      have hdots : ∀ sent, receive .lineStart (chr '.' :: chr '.' :: sent) =
          receive .inLine (chr '.' :: sent) := by
        intro sent
        rw [receive, if_pos ⟨rfl, rfl⟩, if_neg (by simp [CRLF, CR, chr])]
      rw [run_cons, hstep, List.append_assoc, List.cons_append, List.cons_append, List.nil_append,
        hdots, receive_cons (by decide), show Place.inLine.next (chr '.') = .inLine from rfl, ih]
      rfl
    · rw [run_cons, state_next h, List.append_assoc, List.cons_append, List.nil_append,
        receive_cons h, ih]
      rfl

/-- A receiver reads every text that went through `dot` to its end and no further. -/
theorem dot_transparent (pieces : List (List Byte)) (rest : List Byte) :
    receive .lineStart
        (feed mimeGlobalDot 2 pieces ++ (CRLF ++ chr '.' :: CRLF ++ rest)) =
      some (pieces.flatten ++ CRLF, rest) := by
  rw [feed_dot]
  exact receive_dot pieces.flatten rest .lineStart

end EventServer.Mime
