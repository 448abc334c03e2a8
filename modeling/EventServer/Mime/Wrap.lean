import EventServer.Lib.Lines
import EventServer.Mime.Base64

/-!
# Line wrapping

`wrp` of `mime.c`. A carriage return is dropped, and a line feed makes a line break; other
bytes are counted, and a break stands before a byte for which nothing is left.
-/
namespace EventServer.Mime

open EventServer.Lib.CString EventServer.Lib.Lines EventServer.Lib.Machine EventServer.Stream

def CR : Byte := 13

def LF : Byte := 10

def CRLF : List Byte := [CR, LF]

/-- The loop body of `mime_global_wrp`. -/
def wrp (length left : Int) (c : Byte) : Int × List Byte :=
  if c = CR then (left, [])
  else if c = LF then (length, CRLF)
  else if left ≤ 0 then (length - 1, CRLF ++ [c])
  else (left - 1, [c])

def mimeGlobalWrp (length left : Int) (B : Option (List Byte)) : Option (List Byte) × Int :=
  match B with
  | none => (if left < length then some CRLF else none, length)
  | some input =>
    let (left, buffer) := run (wrp length) left input
    (some buffer, left)

/-- The lines of a text, each cut after every `w` bytes. -/
def wrapped (w : Nat) (text : List Byte) : List (List Byte) :=
  ((text.filter (· ≠ CR)).splitOn LF).flatMap (cut w)

theorem wrapped_ne_nil (w : Nat) (text : List Byte) : wrapped w text ≠ [] := by
  unfold wrapped
  obtain ⟨l, ls, h⟩ := List.exists_cons_of_ne_nil
    (List.splitOnP_ne_nil (· == LF) (text.filter (· ≠ CR)))
  rw [List.splitOn, h, List.flatMap_cons]
  exact List.append_ne_nil_of_left_ne_nil (cut_ne_nil w l) _

/-- The same with `p` in front of the first line. -/
def wrappedAfter (w : Nat) (p text : List Byte) : List (List Byte) :=
  (((text.filter (· ≠ CR)).splitOn LF).modifyHead (p ++ ·)).flatMap (cut w)

theorem wrappedAfter_nil (w : Nat) (text : List Byte) : wrappedAfter w [] text = wrapped w text := by
  unfold wrappedAfter wrapped
  congr 1
  cases (text.filter (· ≠ CR)).splitOn LF <;> rfl

theorem wrappedAfter_cr (w : Nat) (p text : List Byte) :
    wrappedAfter w p (CR :: text) = wrappedAfter w p text := by
  rw [wrappedAfter, List.filter_cons_of_neg (by simp), wrappedAfter]

theorem wrappedAfter_lf {w : Nat} {p : List Byte} (hp : p.length ≤ w) (text : List Byte) :
    wrappedAfter w p (LF :: text) = p :: wrapped w text := by
  have hsplit : (LF :: text.filter (· ≠ CR)).splitOn LF =
      [] :: (text.filter (· ≠ CR)).splitOn LF := by
    rw [List.splitOn, List.splitOnP_cons_eq_if_modifyHead, if_pos (by simp)]
    rfl
  rw [wrappedAfter, List.filter_cons_of_pos (by decide), hsplit, List.modifyHead_cons,
    List.append_nil, List.flatMap_cons, cut_short hp]
  rfl

theorem splitOn_cons {c : Byte} (hlf : c ≠ LF) (text : List Byte) :
    (c :: text).splitOn LF = (text.splitOn LF).modifyHead (c :: ·) := by
  rw [List.splitOn, List.splitOnP_cons_eq_if_modifyHead, if_neg (by simpa using hlf)]
  rfl

theorem wrappedAfter_cons {w : Nat} {c : Byte} (hcr : c ≠ CR) (hlf : c ≠ LF) (p text : List Byte) :
    wrappedAfter w p (c :: text) = wrappedAfter w (p ++ [c]) text := by
  rw [wrappedAfter, List.filter_cons_of_pos (by simpa using hcr), splitOn_cons hlf, wrappedAfter]
  congr 1
  cases (text.filter (· ≠ CR)).splitOn LF with
  | nil => rfl
  | cons l ls => simp

theorem wrappedAfter_full {w : Nat} (hw : 0 < w) {p : List Byte} (hp : p.length = w) {c : Byte}
    (hcr : c ≠ CR) (hlf : c ≠ LF) (text : List Byte) :
    wrappedAfter w p (c :: text) = p :: wrappedAfter w [c] text := by
  rw [wrappedAfter, List.filter_cons_of_pos (by simpa using hcr), splitOn_cons hlf, wrappedAfter]
  obtain ⟨l, ls, h⟩ := List.exists_cons_of_ne_nil
    (List.splitOnP_ne_nil (· == LF) (text.filter (· ≠ CR)))
  rw [List.splitOn, h, List.modifyHead_cons, List.modifyHead_cons, List.modifyHead_cons,
    List.flatMap_cons, List.flatMap_cons, cut_full hw hp]
  rfl

theorem wrappedAfter_ne_nil (w : Nat) (p text : List Byte) : wrappedAfter w p text ≠ [] := by
  unfold wrappedAfter
  obtain ⟨l, ls, h⟩ := List.exists_cons_of_ne_nil
    (List.splitOnP_ne_nil (· == LF) (text.filter (· ≠ CR)))
  rw [List.splitOn, h, List.modifyHead_cons, List.flatMap_cons]
  exact List.append_ne_nil_of_left_ne_nil (cut_ne_nil w (p ++ l)) _

theorem getLastD_cons_of_ne_nil {ls : List (List Byte)} (h : ls ≠ []) (p : List Byte) :
    (p :: ls).getLastD [] = ls.getLastD [] := by
  cases ls with
  | nil => exact absurd rfl h
  | cons l ls => rfl

/-- The loop from a line that holds `p`: what it appends, and what is left of the last line. -/
theorem run_wrp {w : Nat} (hw : 0 < w) (text : List Byte) {p : List Byte} (hp : p.length ≤ w) :
    p ++ (run (wrp w) (w - p.length) text).2 = CRLF.intercalate (wrappedAfter w p text) ∧
      (run (wrp w) (w - p.length) text).1 =
        w - ((wrappedAfter w p text).getLastD []).length := by
  induction text generalizing p with
  | nil =>
    have hlines : wrappedAfter w p [] = [p] := by
      simp [wrappedAfter, cut_short hp]
    rw [hlines, run_nil, List.append_nil, List.intercalate_singleton]
    exact ⟨rfl, rfl⟩
  | cons c text ih =>
    by_cases hcr : c = CR
    · rw [hcr, wrappedAfter_cr, run_cons, wrp, if_pos rfl]
      exact ih hp
    · by_cases hlf : c = LF
      · have hstep : wrp w (w - p.length) LF = ((w : Int), CRLF) := by
          rw [wrp, if_neg (by decide), if_pos rfl]
        have hrest := ih (p := []) (Nat.zero_le w)
        rw [List.length_nil, Nat.cast_zero, sub_zero, wrappedAfter_nil, List.nil_append] at hrest
        rw [hlf, wrappedAfter_lf hp, run_cons, hstep,
          List.intercalate_cons_of_ne_nil (wrapped_ne_nil w text),
          getLastD_cons_of_ne_nil (wrapped_ne_nil w text), hrest.1, hrest.2, List.append_assoc]
        exact ⟨rfl, rfl⟩
      · by_cases hfull : p.length = w
        · -- Nothing is left of this line: the byte starts the next one.
          have hstep : wrp w (w - p.length) c = ((w : Int) - 1, CRLF ++ [c]) := by
            rw [wrp, if_neg hcr, if_neg hlf, if_pos (by omega)]
          have hrest := ih (p := [c]) hw
          rw [List.length_singleton, Nat.cast_one] at hrest
          rw [wrappedAfter_full hw hfull hcr hlf, run_cons, hstep,
            List.intercalate_cons_of_ne_nil (wrappedAfter_ne_nil w [c] text),
            getLastD_cons_of_ne_nil (wrappedAfter_ne_nil w [c] text), ← hrest.1, hrest.2]
          simp only [List.append_assoc, and_self]
        · have hstep : wrp w (w - p.length) c = ((w : Int) - (p ++ [c]).length, [c]) := by
            rw [wrp, if_neg hcr, if_neg hlf, if_neg (by omega), List.length_append,
              List.length_singleton]
            congr 1
            omega
          have hrest := ih (p := p ++ [c]) (by
            rw [List.length_append, List.length_singleton]
            omega)
          rw [wrappedAfter_cons hcr hlf, run_cons, hstep, ← List.append_assoc]
          exact hrest

theorem feed_wrp {w : Nat} (hw : 0 < w) (pieces : List (List Byte)) :
    feed (mimeGlobalWrp w) w pieces = CRLF.intercalate (wrapped w pieces.flatten) ++
      (if (wrapped w pieces.flatten).getLastD [] = [] then [] else CRLF) := by
  have hrun := run_wrp hw pieces.flatten (p := []) (Nat.zero_le w)
  rw [List.length_nil, Nat.cast_zero, sub_zero, wrappedAfter_nil, List.nil_append] at hrun
  rw [feed_run (wrp w) (fun n piece => rfl), hrun.1, hrun.2, mimeGlobalWrp]
  congr 1
  by_cases hlast : (wrapped w pieces.flatten).getLastD [] = []
  · rw [if_pos hlast, hlast, if_neg (by simp)]
    rfl
  · rw [if_neg hlast, if_pos]
    · rfl
    · have hpos := List.length_pos_iff.mpr hlast
      omega

theorem flatten_splitOn (text : List Byte) :
    (text.splitOn LF).flatten = text.filter (· ≠ LF) := by
  induction text with
  | nil => rfl
  | cons c text ih =>
    by_cases hlf : c = LF
    · rw [hlf, List.splitOn, List.splitOnP_cons_eq_if_modifyHead, if_pos (by simp),
        List.filter_cons_of_neg (by simp), ← ih]
      rfl
    · rw [splitOn_cons hlf, List.filter_cons_of_pos (by simpa using hlf), ← ih]
      cases h : text.splitOn LF with
      | nil => exact absurd h (List.splitOnP_ne_nil (· == LF) text)
      | cons l ls => rfl

theorem length_of_mem_wrapped {w : Nat} (hw : 0 < w) {text l : List Byte} (h : l ∈ wrapped w text) :
    l.length ≤ w := by
  obtain ⟨line, -, hl⟩ := List.mem_flatMap.mp h
  exact length_of_mem_cut hw hl

theorem flatten_wrapped (w : Nat) (text : List Byte) :
    (wrapped w text).flatten = text.filter fun c => c ≠ CR ∧ c ≠ LF := by
  have hcut : ∀ ls : List (List Byte), (ls.flatMap (cut w)).flatten = ls.flatten := by
    intro ls
    induction ls with
    | nil => rfl
    | cons l ls ih =>
      rw [List.flatMap_cons, List.flatten_append, flatten_cut, ih, List.flatten_cons]
  rw [wrapped, hcut, flatten_splitOn, List.filter_filter]
  congr 1
  funext c
  simp [Bool.and_comm]

/-- A text wrapped in any pieces is its lines, each cut after every `w` bytes; no line of the
result is longer, and a last line that is not empty is ended. -/
theorem wrp_lines {w : Nat} (hw : 0 < w) (pieces : List (List Byte)) :
    feed (mimeGlobalWrp w) w pieces = CRLF.intercalate (wrapped w pieces.flatten) ++
        (if (wrapped w pieces.flatten).getLastD [] = [] then [] else CRLF) ∧
      (∀ l ∈ wrapped w pieces.flatten, l.length ≤ w) ∧
      (wrapped w pieces.flatten).flatten = pieces.flatten.filter fun c => c ≠ CR ∧ c ≠ LF :=
  ⟨feed_wrp hw pieces, fun _ h => length_of_mem_wrapped hw h, flatten_wrapped w pieces.flatten⟩

theorem wrp_lines_three :
    feed (mimeGlobalWrp 3) 3 [lit "abcd".toList, LF :: lit "e".toList] =
        lit "abc".toList ++ CRLF ++ lit "d".toList ++ CRLF ++ lit "e".toList ++ CRLF ∧
      ∀ l ∈ wrapped 3 [lit "abcd".toList, LF :: lit "e".toList].flatten, l.length ≤ 3 :=
  ⟨by decide +kernel,
    (wrp_lines (w := 3) (by decide) [lit "abcd".toList, LF :: lit "e".toList]).2.1⟩

/-! ## Base64 in lines -/

/-- Breaks carry nothing. -/
theorem filter_run_wrp (length left : Int) (text : List Byte) :
    (run (wrp length) left text).2.filter (!skipped ·) = text.filter (!skipped ·) := by
  have hcr : skipped CR := by decide +kernel
  have hlf : skipped LF := by decide +kernel
  induction text generalizing left with
  | nil => rfl
  | cons c text ih =>
    rw [run_cons, List.filter_append, ih, List.filter_cons]
    unfold wrp
    split
    · rename_i h
      simp [h, hcr]
    · split
      · rename_i h
        simp [h, hlf, hcr, CRLF]
      · split
        · by_cases hc : skipped c <;> simp [hc, hcr, hlf, CRLF]
        · by_cases hc : skipped c <;> simp [hc]

theorem filter_feed_wrp (length left : Int) (pieces : List (List Byte)) :
    (feed (mimeGlobalWrp length) left pieces).filter (!skipped ·) =
      pieces.flatten.filter (!skipped ·) := by
  have hbreak : CRLF.filter (!skipped ·) = [] := by decide +kernel
  rw [feed_run (wrp length) (fun n piece => rfl), List.filter_append, filter_run_wrp,
    mimeGlobalWrp]
  split
  · rw [Option.getD_some, hbreak, List.append_nil]
  · rw [Option.getD_none, List.filter_nil, List.append_nil]

/-- Encoded, broken into lines and decoded, with a cut of the text anywhere in between. -/
theorem unb64_wrp_b64 (length left : Int) (pieces coded sent : List (List Byte))
    (hcoded : coded.flatten = pump mimeGlobalB64 (some []) pieces)
    (hsent : sent.flatten = feed (mimeGlobalWrp length) left coded) :
    pump mimeGlobalUnb64 (some []) sent = pieces.flatten := by
  have hplain : (encoded pieces.flatten).filter (!skipped ·) = encoded pieces.flatten :=
    List.filter_eq_self.mpr fun c hc => by simp [not_skipped_encoded pieces.flatten c hc]
  rw [pump_unb64, run_ignore (fun s c => b64decode_skip s), hsent, filter_feed_wrp, hcoded,
    pump_b64, hplain, run_b64decode_encoded]

theorem unb64_wrp_b64_lines :
    pump mimeGlobalUnb64 (some []) [lit "AG".toList ++ CRLF ++ lit "I".toList, chr '=' :: CRLF] =
      [0, 98] :=
  unb64_wrp_b64 2 2 [[0, 98]] [lit "AGI=".toList]
    [lit "AG".toList ++ CRLF ++ lit "I".toList, chr '=' :: CRLF] (by decide +kernel)
    (by decide +kernel)

end EventServer.Mime
