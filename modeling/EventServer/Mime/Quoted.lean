import EventServer.Mime.Breaks

/-!
# Quoted-printable filters

`qp`, `unqp` and `qpwrp` of `mime.c`. What they pass to each other is a text of the
format: bytes that stand for themselves, bytes that are quoted, line breaks, and soft breaks
that stand for nothing.
-/
namespace EventServer.Mime

open EventServer.Lib.CString EventServer.Lib.Machine EventServer.Stream

inductive QpClass where
  | plain
  | quoted
  | cr
  | ifLast
  deriving DecidableEq

/-- `qpclass` as `qpsetup` fills it. -/
def qpclass (c : Byte) : QpClass :=
  if c = CR then .cr
  else if c = chr ' ' ∨ c = chr '\t' then .ifLast
  else if 62 ≤ c.toNat ∧ c.toNat ≤ 126 ∨ 33 ≤ c.toNat ∧ c.toNat ≤ 60 then .plain
  else .quoted

def qpbase : List Byte := lit "0123456789ABCDEF".toList

/-- `qpunbase` as `qpsetup` fills it. -/
def qpunbase (c : Byte) : Nat :=
  if 48 ≤ c.toNat ∧ c.toNat ≤ 57 then c.toNat - 48
  else if 65 ≤ c.toNat ∧ c.toNat ≤ 70 then c.toNat - 55
  else if 97 ≤ c.toNat ∧ c.toNat ≤ 102 then c.toNat - 87
  else 255

def EQCRLF : List Byte := [chr '=', CR, LF]

def qpquote (c : Byte) : List Byte :=
  [chr '=', qpbase.getD (c.toNat >>> 4) 0, qpbase.getD (c.toNat &&& 0x0f) 0]

/-- The loop of `qpencode` over the bytes held back. -/
def qpencodeLoop (marker : List Byte) : List Byte → List Byte × List Byte
  | [] => ([], [])
  | input0 :: input =>
    let next := qpencodeLoop marker input
    match qpclass input0, input with
    | .cr, [] => ([input0], [])
    | .cr, input1 :: _ =>
      if input1 = LF then ([], marker) else (next.1, qpquote input0 ++ next.2)
    | .ifLast, input1 :: input2 :: _ =>
      if input1 = CR ∧ input2 = LF then ([], qpquote input0 ++ marker)
      else (next.1, input0 :: next.2)
    | .ifLast, _ => (input0 :: input, [])
    | .quoted, _ => (next.1, qpquote input0 ++ next.2)
    | .plain, _ => (next.1, input0 :: next.2)

def qpencode (marker input : List Byte) (c : Byte) : List Byte × List Byte :=
  qpencodeLoop marker (input ++ [c])

/-- What `qppad` appends. -/
def qppad (input : List Byte) : List Byte :=
  (input.flatMap fun c => if qpclass c = .plain then [c] else qpquote c) ++
    if input = [] then [] else EQCRLF

def qpdecode (input : List Byte) (c : Byte) : List Byte × List Byte :=
  match input ++ [c] with
  | [] => ([], [])
  | input0 :: input =>
    if input0 = chr '=' then
      match input with
      | input1 :: input2 :: _ =>
        if input1 = CR ∧ input2 = LF then ([], [])
        else
          let c := qpunbase input1
          let d := qpunbase input2
          if c > 15 ∨ d > 15 then ([], [input0, input1, input2])
          else ([], [BitVec.ofNat 8 (c <<< 4 + d)])
      | _ => (input0 :: input, [])
    else if input0 = CR then
      match input with
      | [] => ([input0], [])
      | input1 :: _ => ([], if input1 = LF then [input0, input1] else [])
    else ([], if input0 = chr '\t' ∨ 31 < input0.toNat ∧ input0.toNat < 127 then [input0] else [])

def mimeGlobalQp (marker : Option (List Byte)) := filter (qpencode (optMarker marker)) qppad

def mimeGlobalUnqp := filter qpdecode fun _ => []

/-- The loop body of `mime_global_qpwrp`. -/
def qpwrp (length left : Int) (c : Byte) : Int × List Byte :=
  if c = CR then (left, [])
  else if c = LF then (length, CRLF)
  else if c = chr '=' then
    if left ≤ 3 then (length - 1, EQCRLF ++ [c]) else (left - 1, [c])
  else if left ≤ 1 then (length - 1, EQCRLF ++ [c])
  else (left - 1, [c])

def mimeGlobalQpwrp (length left : Int) (B : Option (List Byte)) : Option (List Byte) × Int :=
  match B with
  | none => (if left < length then some EQCRLF else none, length)
  | some input =>
    let (left, buffer) := run (qpwrp length) left input
    (some buffer, left)

/-! ## The format -/

/-- A code of a text: a quoted byte is not taken apart, and no blank stands at the end of a
line. -/
inductive Encodes : List Byte → List Byte → Prop
  | nil : Encodes [] []
  | plain {c : Byte} {code text : List Byte} : qpclass c = .plain → Encodes code text →
      Encodes (c :: code) (c :: text)
  | blank {c : Byte} {code text : List Byte} : qpclass c = .ifLast → code ≠ [] →
      ¬CRLF <+: code → Encodes code text → Encodes (c :: code) (c :: text)
  | quoted (c : Byte) {code text : List Byte} : Encodes code text →
      Encodes (qpquote c ++ code) (c :: text)
  | hard {code text : List Byte} : Encodes code text → Encodes (CRLF ++ code) (CRLF ++ text)
  | soft {code text : List Byte} : Encodes code text → Encodes (EQCRLF ++ code) text

theorem eq_cr_of_class {c : Byte} (h : qpclass c = .cr) : c = CR := by
  revert c
  decide +kernel

/-- A byte that stands for itself begins neither a break nor an escape. -/
theorem plain_ne {c : Byte} (h : qpclass c = .plain) : c ≠ CR ∧ c ≠ LF ∧ c ≠ chr '=' := by
  revert c
  decide +kernel

theorem blank_ne {c : Byte} (h : qpclass c = .ifLast) : c ≠ CR ∧ c ≠ LF ∧ c ≠ chr '=' := by
  revert c
  decide +kernel

/-- The digits of a quoted byte. -/
theorem qpquote_eq (c : Byte) : ∃ x y, qpquote c = [chr '=', x, y] ∧
    qpclass x = .plain ∧ qpclass y = .plain := by
  refine ⟨_, _, rfl, ?_⟩
  revert c
  decide +kernel

theorem Encodes.ne_nil {code text : List Byte} (h : Encodes code text) (htext : text ≠ []) :
    code ≠ [] := by
  cases h with
  | nil => exact absurd rfl htext
  | plain | blank => exact List.cons_ne_nil _ _
  | quoted c | hard | soft => exact List.cons_ne_nil _ _

/-- A code starts with a carriage return only where it starts with a break. -/
theorem Encodes.head_ne {c : Byte} {code text : List Byte} (h : Encodes (c :: code) text)
    (hbreak : ¬CRLF <+: c :: code) : c ≠ CR ∧ c ≠ LF := by
  generalize hw : c :: code = w at h hbreak
  cases h with
  | nil => cases hw
  | plain hc h =>
    cases hw
    exact ⟨(plain_ne hc).1, (plain_ne hc).2.1⟩
  | blank hc _ _ h =>
    cases hw
    exact ⟨(blank_ne hc).1, (blank_ne hc).2.1⟩
  | quoted d h =>
    cases hw
    decide
  | hard h => exact absurd (List.prefix_append CRLF _) hbreak
  | soft h =>
    cases hw
    decide

theorem Encodes.break_of_break {code text : List Byte} (h : Encodes code text)
    (hbreak : CRLF <+: code) : CRLF <+: text := by
  obtain ⟨rest, rfl⟩ := hbreak
  generalize hw : CRLF ++ rest = w at h
  cases h with
  | nil => cases hw
  | plain hc h =>
    cases hw
    exact absurd rfl (plain_ne hc).1
  | blank hc _ _ h =>
    cases hw
    exact absurd rfl (blank_ne hc).1
  | quoted c h => cases hw
  | hard h => exact List.prefix_append CRLF _
  | soft h => cases hw

/-! ## The encoder makes the format -/

/-- What `qpencode` may hold back: what might begin a break, or might be the last of a line. -/
inductive Held : List Byte → Prop
  | none : Held []
  | cr {c : Byte} : qpclass c = .cr → Held [c]
  | blank {c : Byte} : qpclass c = .ifLast → Held [c]
  | blankAnd {c : Byte} (d : Byte) : qpclass c = .ifLast → Held [c, d]

section Encoder

variable (marker : List Byte) {c : Byte}

theorem loop_plain (h : qpclass c = .plain) (input : List Byte) :
    qpencodeLoop marker (c :: input) =
      ((qpencodeLoop marker input).1, c :: (qpencodeLoop marker input).2) := by
  rw [qpencodeLoop.eq_def]
  simp only [h]

theorem loop_quoted (h : qpclass c = .quoted) (input : List Byte) :
    qpencodeLoop marker (c :: input) =
      ((qpencodeLoop marker input).1, qpquote c ++ (qpencodeLoop marker input).2) := by
  rw [qpencodeLoop.eq_def]
  simp only [h]

theorem loop_cr (h : qpclass c = .cr) (d : Byte) (input : List Byte) :
    qpencodeLoop marker (c :: d :: input) =
      if d = LF then ([], marker)
      else ((qpencodeLoop marker (d :: input)).1,
        qpquote c ++ (qpencodeLoop marker (d :: input)).2) := by
  rw [qpencodeLoop.eq_def]
  simp only [h]

theorem loop_blank (h : qpclass c = .ifLast) (d e : Byte) (input : List Byte) :
    qpencodeLoop marker (c :: d :: e :: input) =
      if d = CR ∧ e = LF then ([], qpquote c ++ marker)
      else ((qpencodeLoop marker (d :: e :: input)).1,
        c :: (qpencodeLoop marker (d :: e :: input)).2) := by
  rw [qpencodeLoop.eq_def]
  simp only [h]

theorem loop_hold_one (h : qpclass c = .cr ∨ qpclass c = .ifLast) :
    qpencodeLoop marker [c] = ([c], []) := by
  rw [qpencodeLoop.eq_def]
  rcases h with h | h
  · simp only [h]
  · simp only [h]

theorem loop_hold_two (h : qpclass c = .ifLast) (d : Byte) :
    qpencodeLoop marker [c, d] = ([c, d], []) := by
  rw [qpencodeLoop.eq_def]
  simp only [h]

theorem held_one (c : Byte) : Held (qpencodeLoop marker [c]).1 := by
  cases h : qpclass c with
  | plain =>
    rw [loop_plain marker h]
    exact .none
  | quoted =>
    rw [loop_quoted marker h]
    exact .none
  | cr =>
    rw [loop_hold_one marker (Or.inl h)]
    exact .cr h
  | ifLast =>
    rw [loop_hold_one marker (Or.inr h)]
    exact .blank h

theorem held_two (c d : Byte) : Held (qpencodeLoop marker [c, d]).1 := by
  cases h : qpclass c with
  | plain =>
    rw [loop_plain marker h]
    exact held_one marker d
  | quoted =>
    rw [loop_quoted marker h]
    exact held_one marker d
  | cr =>
    rw [loop_cr marker h]
    split
    · exact .none
    · exact held_one marker d
  | ifLast =>
    rw [loop_hold_two marker h]
    exact .blankAnd d h

theorem held_qpencode (p : List Byte) (c : Byte) (hp : Held p) : Held (qpencode marker p c).1 := by
  cases hp with
  | none => exact held_one marker c
  | cr h => exact held_two marker _ c
  | blank h => exact held_two marker _ c
  | @blankAnd b d h =>
    rw [qpencode, List.cons_append, List.cons_append, List.nil_append, loop_blank marker h]
    split
    · exact .none
    · exact held_two marker d c

theorem reread_qpencode (p : List Byte) (hp : Held p) : run (qpencode marker) [] p = (p, []) := by
  cases hp with
  | none => rfl
  | cr h => exact (run_singleton _ _ _).trans (loop_hold_one marker (Or.inl h))
  | blank h => exact (run_singleton _ _ _).trans (loop_hold_one marker (Or.inr h))
  | @blankAnd b d h =>
    have hone : qpencode marker [] b = ([b], []) := loop_hold_one marker (Or.inr h)
    have htwo : qpencode marker [b] d = ([b, d], []) := loop_hold_two marker h d
    rw [run_cons, hone, run_singleton, htwo]
    rfl

end Encoder

/-- One turn of the loop: a code of what stays behind becomes one of what there was. -/
theorem encodes_one {c : Byte} {code text : List Byte}
    (h : Encodes code ((qpencodeLoop CRLF [c]).1 ++ text)) :
    Encodes ((qpencodeLoop CRLF [c]).2 ++ code) ([c] ++ text) := by
  cases hc : qpclass c with
  | plain =>
    rw [loop_plain CRLF hc] at h ⊢
    exact .plain hc h
  | quoted =>
    rw [loop_quoted CRLF hc] at h ⊢
    rw [List.append_assoc]
    exact .quoted c h
  | cr =>
    rw [loop_hold_one CRLF (Or.inl hc)] at h ⊢
    exact h
  | ifLast =>
    rw [loop_hold_one CRLF (Or.inr hc)] at h ⊢
    exact h

theorem encodes_two {c d : Byte} {code text : List Byte}
    (h : Encodes code ((qpencodeLoop CRLF [c, d]).1 ++ text)) :
    Encodes ((qpencodeLoop CRLF [c, d]).2 ++ code) ([c, d] ++ text) := by
  cases hc : qpclass c with
  | plain =>
    rw [loop_plain CRLF hc] at h ⊢
    exact .plain hc (encodes_one h)
  | quoted =>
    rw [loop_quoted CRLF hc] at h ⊢
    rw [List.append_assoc]
    exact .quoted c (encodes_one h)
  | cr =>
    rw [loop_cr CRLF hc] at h ⊢
    by_cases hlf : d = LF
    · rw [if_pos hlf] at h ⊢
      rw [eq_cr_of_class hc, hlf]
      exact .hard h
    · rw [if_neg hlf] at h ⊢
      rw [List.append_assoc]
      exact .quoted c (encodes_one h)
  | ifLast =>
    rw [loop_hold_two CRLF hc] at h ⊢
    exact h

theorem encodes_qpencode {p : List Byte} (hp : Held p) {c : Byte} {code text : List Byte}
    (h : Encodes code ((qpencode CRLF p c).1 ++ text)) :
    Encodes ((qpencode CRLF p c).2 ++ code) (p ++ c :: text) := by
  cases hp with
  | none => exact encodes_one h
  | cr _ => exact encodes_two h
  | blank _ => exact encodes_two h
  | @blankAnd b d hb =>
    rw [qpencode, List.cons_append, List.cons_append, List.nil_append, loop_blank CRLF hb] at h ⊢
    by_cases hbreak : d = CR ∧ c = LF
    · rw [if_pos hbreak] at h ⊢
      rw [List.append_assoc, hbreak.1, hbreak.2]
      exact .quoted b (.hard h)
    · rw [if_neg hbreak] at h ⊢
      have hrest := encodes_two h
      refine .blank hb (hrest.ne_nil (List.cons_ne_nil _ _)) ?_ hrest
      intro hcode
      obtain ⟨rest, heq⟩ := hrest.break_of_break hcode
      cases heq
      exact hbreak ⟨rfl, rfl⟩

theorem encodes_qppad {p : List Byte} : Encodes (qppad p) p := by
  have hall : ∀ code text, Encodes code text →
      Encodes ((p.flatMap fun c => if qpclass c = .plain then [c] else qpquote c) ++ code)
        (p ++ text) := by
    intro code text h
    induction p with
    | nil => exact h
    | cons c p ih =>
      rw [List.flatMap_cons, List.append_assoc]
      split
      · rename_i hc
        exact .plain hc ih
      · exact .quoted c ih
  by_cases hp : p = []
  · rw [hp]
    exact .nil
  · have hsoft := hall EQCRLF [] (.soft .nil)
    rw [List.append_nil] at hsoft
    rw [qppad, if_neg hp]
    exact hsoft

theorem encodes_run {p : List Byte} (hp : Held p) (text : List Byte) :
    Encodes ((run (qpencode CRLF) p text).2 ++ qppad (run (qpencode CRLF) p text).1)
      (p ++ text) := by
  induction text generalizing p with
  | nil =>
    rw [run_nil, List.append_nil]
    exact encodes_qppad
  | cons c text ih =>
    rw [run_cons, List.append_assoc]
    exact encodes_qpencode hp (ih (held_qpencode CRLF p c hp))

/-! ## The decoder reads the format -/

theorem run_qpdecode_quoted (c : Byte) : run qpdecode [] (qpquote c) = ([], [c]) := by
  revert c
  decide +kernel

theorem qpdecode_self {c : Byte} (h : qpclass c = .plain ∨ qpclass c = .ifLast) :
    qpdecode [] c = ([], [c]) := by
  revert c
  decide +kernel

theorem run_qpdecode {code text : List Byte} (h : Encodes code text) :
    run qpdecode [] code = ([], text) := by
  have hhard : run qpdecode [] CRLF = ([], CRLF) := by decide +kernel
  have hsoft : run qpdecode [] EQCRLF = ([], []) := by decide +kernel
  induction h with
  | nil => rfl
  | plain hc h ih =>
    rw [run_cons, qpdecode_self (Or.inl hc), ih]
    rfl
  | blank hc _ _ h ih =>
    rw [run_cons, qpdecode_self (Or.inr hc), ih]
    rfl
  | quoted c h ih =>
    rw [run_append, run_qpdecode_quoted, ih]
    rfl
  | hard h ih => rw [run_append, hhard, ih]
  | soft h ih => rw [run_append, hsoft, ih, List.nil_append]

/-- What `qpdecode` may hold back. -/
inductive Unread : List Byte → Prop
  | none : Unread []
  | escape : Unread [chr '=']
  | escapeAnd (c : Byte) : Unread [chr '=', c]
  | cr : Unread [CR]

theorem unread_one (c : Byte) : Unread (qpdecode [] c).1 := by
  by_cases heq : c = chr '='
  · rw [heq]
    exact .escape
  · by_cases hcr : c = CR
    · rw [hcr]
      exact .cr
    · rw [qpdecode, List.nil_append]
      dsimp only
      rw [if_neg heq, if_neg hcr]
      exact .none

theorem unread_qpdecode (p : List Byte) (c : Byte) (hp : Unread p) : Unread (qpdecode p c).1 := by
  cases hp with
  | none => exact unread_one c
  | escape => exact .escapeAnd c
  | escapeAnd d =>
    rw [qpdecode, List.cons_append, List.cons_append, List.nil_append]
    dsimp only
    rw [if_pos rfl]
    split
    · exact .none
    · split
      · exact .none
      · exact .none
  | cr => exact .none

theorem reread_qpdecode (p : List Byte) (hp : Unread p) : run qpdecode [] p = (p, []) := by
  cases hp with
  | none => rfl
  | escape => rfl
  | escapeAnd c => rfl
  | cr => rfl

end EventServer.Mime
