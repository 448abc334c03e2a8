import EventServer.Mime.Quoted

/-!
# Quoted-printable text in lines

`qpwrp` breaks a code of a text into lines, and what comes out is a code of the same text.
-/
namespace EventServer.Mime

open EventServer.Lib.CString EventServer.Lib.Machine EventServer.Stream

/-! ## The filters over the format -/

theorem ne_zero_of_class {c : Byte} (h : qpclass c = .plain ∨ qpclass c = .ifLast) : c ≠ 0 := by
  revert c
  decide +kernel

theorem qppad_headD (p : List Byte) (h : (qppad p).headD 0 = 0) : qppad p = [] := by
  cases p with
  | nil => rfl
  | cons c p =>
    rw [qppad, List.flatMap_cons] at h
    split at h
    · rename_i hc
      exact absurd h (ne_zero_of_class (Or.inl hc))
    · have heq : chr '=' = 0 := h
      exact absurd heq (by decide)

/-- Only the empty text has a code that begins with a terminator. -/
theorem Encodes.headD {code text : List Byte} (h : Encodes code text) (hcode : code.headD 0 = 0) :
    code = [] ∧ text = [] := by
  cases h with
  | nil => exact ⟨rfl, rfl⟩
  | plain hc _ => exact absurd hcode (ne_zero_of_class (Or.inl hc))
  | blank hc _ _ _ => exact absurd hcode (ne_zero_of_class (Or.inr hc))
  | quoted c _ =>
    have heq : chr '=' = 0 := hcode
    exact absurd heq (by decide)
  | hard _ =>
    have heq : CR = 0 := hcode
    exact absurd heq (by decide)
  | soft _ =>
    have heq : chr '=' = 0 := hcode
    exact absurd heq (by decide)

theorem encodes_pump_qp (pieces : List (List Byte)) :
    Encodes (pump (mimeGlobalQp none) (some []) pieces) pieces.flatten := by
  rw [mimeGlobalQp, pump_filter (held_qpencode _) (reread_qpencode _) .none,
    lastResult_getD (qppad_headD _)]
  exact encodes_run .none pieces.flatten

theorem pump_unqp {sent : List (List Byte)} {text : List Byte} (h : Encodes sent.flatten text) :
    pump mimeGlobalUnqp (some []) sent = text := by
  rw [mimeGlobalUnqp, pump_filter unread_qpdecode reread_qpdecode .none, run_qpdecode h]
  exact List.append_nil text

section Wrap

variable {length left : Int}

theorem qpwrp_self {c : Byte} (hc : c ≠ CR ∧ c ≠ LF ∧ c ≠ chr '=') :
    qpwrp length left c =
      if left ≤ 1 then (length - 1, EQCRLF ++ [c]) else (left - 1, [c]) := by
  rw [qpwrp, if_neg hc.1, if_neg hc.2.1, if_neg hc.2.2]

/-- An escape goes into one line. -/
theorem run_qpwrp_quoted (hlength : 4 ≤ length) (c : Byte) :
    run (qpwrp length) left (qpquote c) =
      if left ≤ 3 then (length - 3, EQCRLF ++ qpquote c) else (left - 3, qpquote c) := by
  obtain ⟨x, y, hxy, hx, hy⟩ := qpquote_eq c
  have heq : qpwrp length left (chr '=') =
      if left ≤ 3 then (length - 1, EQCRLF ++ [chr '=']) else (left - 1, [chr '=']) := by
    rw [qpwrp, if_neg (by decide), if_neg (by decide), if_pos rfl]
  rw [hxy, run_cons, run_cons, run_singleton, heq]
  by_cases hleft : left ≤ 3
  · rw [if_pos hleft, if_pos hleft, qpwrp_self (plain_ne hx), if_neg (by omega),
      qpwrp_self (plain_ne hy), if_neg (by omega)]
    simp only [Int.sub_sub, List.append_assoc]
    rfl
  · rw [if_neg hleft, if_neg hleft, qpwrp_self (plain_ne hx), if_neg (by omega),
      qpwrp_self (plain_ne hy), if_neg (by omega)]
    simp only [Int.sub_sub]
    rfl

theorem run_qpwrp_hard : run (qpwrp length) left CRLF = (length, CRLF) := rfl

theorem run_qpwrp_soft : run (qpwrp length) left EQCRLF =
    (length, if left ≤ 3 then EQCRLF ++ EQCRLF else EQCRLF) := by
  have heq : qpwrp length left (chr '=') =
      if left ≤ 3 then (length - 1, EQCRLF ++ [chr '=']) else (left - 1, [chr '=']) := by
    rw [qpwrp, if_neg (by decide), if_neg (by decide), if_pos rfl]
  have hbreak : ∀ left, run (qpwrp length) left [CR, LF] = (length, CRLF) := fun left => rfl
  rw [EQCRLF, run_cons, hbreak, heq]
  split
  · rfl
  · rfl

theorem begins_run_qpwrp {c : Byte} (hc : c ≠ CR ∧ c ≠ LF) (code : List Byte) :
    (run (qpwrp length) left (c :: code)).2 ≠ [] ∧
      ¬CRLF <+: (run (qpwrp length) left (c :: code)).2 := by
  have hstep : ∃ d more, (qpwrp length left c).2 = d :: more ∧ d ≠ CR := by
    rw [qpwrp, if_neg hc.1, if_neg hc.2]
    split
    · split
      · exact ⟨_, _, rfl, by decide⟩
      · exact ⟨_, _, rfl, hc.1⟩
    · split
      · exact ⟨_, _, rfl, by decide⟩
      · exact ⟨_, _, rfl, hc.1⟩
  obtain ⟨d, more, hd, hcr⟩ := hstep
  rw [run_cons, hd]
  refine ⟨List.cons_ne_nil _ _, ?_⟩
  intro hbreak
  exact hcr (List.cons_prefix_cons.mp hbreak).1.symm

/-- Breaking a code into lines makes another code of the same text. -/
theorem encodes_run_qpwrp (hlength : 4 ≤ length) {code text : List Byte} (h : Encodes code text) :
    Encodes (run (qpwrp length) left code).2 text := by
  induction h generalizing left with
  | nil => exact .nil
  | plain hc h ih =>
    rw [run_cons, qpwrp_self (plain_ne hc)]
    split
    · exact .soft (.plain hc ih)
    · exact .plain hc ih
  | @blank c code text hc hne hbreak h ih =>
    obtain ⟨d, more, rfl⟩ := List.exists_cons_of_ne_nil hne
    have hbegins := fun left => @begins_run_qpwrp length left d (h.head_ne hbreak) more
    rw [run_cons, qpwrp_self (blank_ne hc)]
    split
    · exact .soft (.blank hc (hbegins _).1 (hbegins _).2 ih)
    · exact .blank hc (hbegins _).1 (hbegins _).2 ih
  | quoted c h ih =>
    rw [run_append, run_qpwrp_quoted hlength]
    split
    · exact .soft (.quoted c ih)
    · exact .quoted c ih
  | hard h ih =>
    rw [run_append, run_qpwrp_hard]
    exact .hard ih
  | soft h ih =>
    rw [run_append, run_qpwrp_soft]
    split
    · exact .soft (.soft ih)
    · exact .soft ih

end Wrap

theorem Encodes.append_soft {code text : List Byte} (h : Encodes code text) :
    Encodes (code ++ EQCRLF) text := by
  induction h with
  | nil => exact .soft .nil
  | plain hc h ih => exact .plain hc ih
  | @blank c code text hc hne hbreak h ih =>
    obtain ⟨d, more, rfl⟩ := List.exists_cons_of_ne_nil hne
    refine .blank hc (List.cons_ne_nil _ _) ?_ ih
    intro hbreak'
    exact (h.head_ne hbreak).1 (List.cons_prefix_cons.mp hbreak').1.symm
  | quoted c h ih =>
    rw [List.append_assoc]
    exact .quoted c ih
  | hard h ih => exact .hard ih
  | soft h ih => exact .soft ih

theorem encodes_feed_qpwrp {length left : Int} (hlength : 4 ≤ length)
    {coded : List (List Byte)} {text : List Byte} (h : Encodes coded.flatten text) :
    Encodes (feed (mimeGlobalQpwrp length) left coded) text := by
  have hrun : Encodes (run (qpwrp length) left coded.flatten).2 text :=
    encodes_run_qpwrp hlength h
  rw [feed_run (qpwrp length) (fun n piece => rfl), mimeGlobalQpwrp]
  dsimp only
  split
  · exact hrun.append_soft
  · rw [Option.getD_none, List.append_nil]
    exact hrun

/-! ## The width of the lines -/

/-- The lines of a text, without the carriage returns. -/
def linesOf (text : List Byte) : List (List Byte) := (text.filter (· ≠ CR)).splitOn LF

theorem linesOf_unbroken {p : List Byte} (hp : Unbroken p) : linesOf p = [p] := by
  have hfilter : p.filter (· ≠ CR) = p :=
    List.filter_eq_self.mpr fun c hc => by simpa using (hp c hc).1
  rw [linesOf, hfilter, List.splitOn, List.splitOnP_eq_singleton]
  exact fun c hc => by simpa using (hp c hc).2

theorem linesOf_break {p : List Byte} (hp : Unbroken p) (text : List Byte) :
    linesOf (p ++ (CRLF ++ text)) = p :: linesOf text := by
  have hfilter : p.filter (· ≠ CR) = p :=
    List.filter_eq_self.mpr fun c hc => by simpa using (hp c hc).1
  have hbreak : (CRLF ++ text).filter (· ≠ CR) = LF :: text.filter (· ≠ CR) := by
    rw [CRLF, List.cons_append, List.filter_cons_of_neg (by simp), List.cons_append,
      List.filter_cons_of_pos (by decide), List.nil_append]
  rw [linesOf, List.filter_append, hfilter, hbreak, List.splitOn,
    List.splitOnP_append_cons_of_forall_mem (fun c hc => by simpa using (hp c hc).2) LF (by simp)]
  rfl

theorem unbroken_snoc {p : List Byte} (hp : Unbroken p) {c : Byte} (hc : c ≠ CR ∧ c ≠ LF) :
    Unbroken (p ++ [c]) := by
  intro d hd
  rcases List.mem_append.mp hd with hd | hd
  · exact hp d hd
  · rw [List.mem_singleton.mp hd]
    exact hc

/-- What ends the last line. -/
def closing (length left : Int) : List Byte := if left < length then EQCRLF else []

/-- From a line that holds `p`, with room for one more byte at least. -/
theorem width_run_qpwrp {w : Nat} (hw : 2 ≤ w) (text : List Byte) {p : List Byte}
    (hp : Unbroken p) (hlen : p.length < w) :
    ∀ l ∈ linesOf (p ++ ((run (qpwrp w) (w - p.length) text).2 ++
      closing w (run (qpwrp w) (w - p.length) text).1)), l.length ≤ w := by
  have hsoft : ∀ (p rest : List Byte), p ++ (EQCRLF ++ rest) = p ++ [chr '='] ++ (CRLF ++ rest) :=
    fun p rest => by rw [EQCRLF, CRLF, List.append_assoc]; rfl
  have heq : chr '=' ≠ CR ∧ chr '=' ≠ LF := by decide
  induction text generalizing p with
  | nil =>
    rw [run_nil, List.nil_append, closing]
    split
    · rw [show p ++ EQCRLF = p ++ (EQCRLF ++ []) from rfl, hsoft,
        linesOf_break (unbroken_snoc hp heq), linesOf_unbroken (List.forall_mem_nil _)]
      simp only [List.forall_mem_cons, List.length_append, List.length_singleton,
        List.length_nil, List.not_mem_nil, false_implies, implies_true, and_true]
      omega
    · rw [List.append_nil, linesOf_unbroken hp]
      simp only [List.mem_singleton, forall_eq]
      omega
  | cons c text ih =>
    -- A byte goes into this line, or into the next one behind a soft break.
    have hadd : c ≠ CR ∧ c ≠ LF → p.length + 1 < w →
        ∀ l ∈ linesOf (p ++ (([c] ++ (run (qpwrp w) (w - p.length - 1) text).2) ++
          closing w (run (qpwrp w) (w - p.length - 1) text).1)), l.length ≤ w := by
      intro hc hroom
      have hnext := ih (unbroken_snoc hp hc) (by
        rw [List.length_append, List.length_singleton]
        exact hroom)
      rw [List.length_append, List.length_singleton, Nat.cast_add, Nat.cast_one,
        ← Int.sub_sub] at hnext
      rw [List.append_assoc, ← List.append_assoc]
      exact hnext
    have hbreak : c ≠ CR ∧ c ≠ LF →
        ∀ l ∈ linesOf (p ++ ((EQCRLF ++ [c] ++ (run (qpwrp w) (w - 1) text).2) ++
          closing w (run (qpwrp w) (w - 1) text).1)), l.length ≤ w := by
      intro hc
      have hnext := ih (unbroken_snoc (List.forall_mem_nil _) hc) (by
        rw [List.length_append, List.length_singleton, List.length_nil]
        omega)
      rw [List.nil_append, List.length_singleton, Nat.cast_one] at hnext
      rw [List.append_assoc, List.append_assoc, hsoft, linesOf_break (unbroken_snoc hp heq),
        List.forall_mem_cons, List.length_append, List.length_singleton]
      exact ⟨hlen, hnext⟩
    by_cases hcr : c = CR
    · rw [run_cons, qpwrp, if_pos hcr]
      exact ih hp hlen
    · by_cases hlf : c = LF
      · have hnext := ih (p := []) (List.forall_mem_nil _) (by rw [List.length_nil]; omega)
        rw [List.length_nil, Nat.cast_zero, sub_zero, List.nil_append] at hnext
        rw [run_cons, qpwrp, if_neg hcr, if_pos hlf, List.append_assoc, linesOf_break hp,
          List.forall_mem_cons]
        exact ⟨Nat.le_of_lt hlen, hnext⟩
      · rw [run_cons, qpwrp, if_neg hcr, if_neg hlf]
        split
        · split
          · exact hbreak ⟨hcr, hlf⟩
          · exact hadd ⟨hcr, hlf⟩ (by omega)
        · split
          · exact hbreak ⟨hcr, hlf⟩
          · exact hadd ⟨hcr, hlf⟩ (by omega)

/-- An encoded text that is broken into lines is a code of the text with no line too long. -/
theorem qp_lines {w : Nat} (hw : 4 ≤ w) (pieces coded : List (List Byte))
    (hcoded : coded.flatten = pump (mimeGlobalQp none) (some []) pieces) :
    Encodes (feed (mimeGlobalQpwrp w) w coded) pieces.flatten ∧
      ∀ l ∈ linesOf (feed (mimeGlobalQpwrp w) w coded), l.length ≤ w := by
  have hcode : Encodes coded.flatten pieces.flatten := hcoded ▸ encodes_pump_qp pieces
  refine ⟨encodes_feed_qpwrp (by omega) hcode, ?_⟩
  have hwidth := width_run_qpwrp (by omega : 2 ≤ w) coded.flatten (p := [])
    (List.forall_mem_nil _) (by rw [List.length_nil]; omega)
  rw [List.length_nil, Nat.cast_zero, sub_zero, List.nil_append] at hwidth
  rw [feed_run (qpwrp w) (fun n piece => rfl), mimeGlobalQpwrp]
  rw [closing] at hwidth
  split
  · rename_i hleft
    rw [if_pos hleft] at hwidth
    exact hwidth
  · rename_i hleft
    rw [if_neg hleft] at hwidth
    exact hwidth

theorem qp_lines_four :
    (∀ l ∈ linesOf (feed (mimeGlobalQpwrp 4) 4 [lit "a=20".toList ++ CRLF, lit "=3Db".toList]),
      l.length ≤ 4) ∧
    feed (mimeGlobalQpwrp 4) 4 [lit "a=20".toList ++ CRLF, lit "=3Db".toList] =
      lit "a".toList ++ EQCRLF ++ lit "=20".toList ++ CRLF ++ lit "=3D".toList ++ EQCRLF ++
        lit "b".toList ++ EQCRLF :=
  ⟨(qp_lines (w := 4) (by decide) [lit "a ".toList, CRLF ++ lit "=b".toList]
    [lit "a=20".toList ++ CRLF, lit "=3Db".toList] (by decide +kernel)).2, by decide +kernel⟩

/-- Encoded, broken into lines and decoded, with a cut of the text anywhere in between. -/
theorem unqp_qpwrp_qp {length : Int} (hlength : 4 ≤ length) (left : Int)
    (pieces coded sent : List (List Byte))
    (hcoded : coded.flatten = pump (mimeGlobalQp none) (some []) pieces)
    (hsent : sent.flatten = feed (mimeGlobalQpwrp length) left coded) :
    pump mimeGlobalUnqp (some []) sent = pieces.flatten := by
  have hcode : Encodes coded.flatten pieces.flatten := hcoded ▸ encodes_pump_qp pieces
  exact pump_unqp (hsent ▸ encodes_feed_qpwrp hlength hcode)

theorem unqp_qpwrp_qp_cut :
    pump mimeGlobalUnqp (some []) [lit "a=".toList ++ CRLF ++ lit "=2".toList,
      lit "0".toList ++ EQCRLF ++ EQCRLF] = lit "a ".toList :=
  @unqp_qpwrp_qp 4 (by decide) 4 [lit "a ".toList] [lit "a=20=".toList, CRLF]
    [lit "a=".toList ++ CRLF ++ lit "=2".toList, lit "0".toList ++ EQCRLF ++ EQCRLF]
    (by decide +kernel) (by decide +kernel)

end EventServer.Mime
