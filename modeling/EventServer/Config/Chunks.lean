import EventServer.Config.Load
import Mathlib.Data.List.DropRight

/-!
# Lines and reads

The lines that `load` sees are those of the file, wherever the reads end. What is
carried from read to read is the start of a line: it holds no line end, so the
next piece continues it. A full buffer of 1024 bytes always ends at least one
line, because lines have at most 1000.
-/
namespace EventServer.Config

open EventServer.Lib.Blocks EventServer.Lib.CString EventServer.Lib.Transition EventServer.Stream

/-- How the lines of a file end. -/
inductive Style where
  | lf
  | crlf
  deriving DecidableEq

namespace Style

def term : Style → List Byte
  | .lf => [Config.lf]
  | .crlf => Config.crlf

/-- A line that can stand in a file of this style. -/
structure Clean (style : Style) (l : List Byte) : Prop where
  zero : 0 ∉ l
  lf : Config.lf ∉ l
  cr : style = .lf → cr ∉ l
  short : l.length ≤ 1000

def join (style : Style) (ls : List (List Byte)) : List Byte := ls.flatMap (· ++ style.term)

@[simp] theorem join_nil (style : Style) : style.join [] = [] := rfl

@[simp] theorem join_cons (style : Style) (l : List Byte) (ls : List (List Byte)) :
    style.join (l :: ls) = l ++ style.term ++ style.join ls := rfl

theorem join_append (style : Style) (ls ms : List (List Byte)) :
    style.join (ls ++ ms) = style.join ls ++ style.join ms := List.flatMap_append

theorem term_eq (style : Style) : ∃ pre, style.term = pre ++ [Config.lf] ∧ Config.lf ∉ pre ∧
    pre.length ≤ 1 ∧ 0 ∉ pre ∧ (style = .lf → pre = []) := by
  cases style with
  | lf => exact ⟨[], rfl, by decide, by decide, by decide, fun _ => rfl⟩
  | crlf => exact ⟨[Config.cr], rfl, by decide, by decide, by decide, nofun⟩

theorem term_ne_nil (style : Style) : style.term ≠ [] := by cases style <;> decide

theorem mem_join {style : Style} {ls : List (List Byte)} {x : Byte} (h : x ∈ style.join ls) :
    x ∈ style.term ∨ ∃ l ∈ ls, x ∈ l := by
  obtain ⟨l, hl, hx⟩ := List.mem_flatMap.mp h
  rcases List.mem_append.mp hx with hx | hx
  · exact .inr ⟨l, hl, hx⟩
  · exact .inl hx

theorem zero_not_mem_join {style : Style} {ls : List (List Byte)} (hls : ∀ l ∈ ls, style.Clean l) :
    0 ∉ style.join ls := by
  intro h
  rcases mem_join h with ht | ⟨l, hl, hx⟩
  · cases style <;> exact absurd ht (by decide)
  · exact (hls l hl).zero hx

theorem cr_not_mem_join {ls : List (List Byte)} (hls : ∀ l ∈ ls, Style.lf.Clean l) :
    Config.cr ∉ Style.lf.join ls := by
  intro h
  rcases mem_join h with ht | ⟨l, hl, hx⟩
  · exact absurd ht (by decide)
  · exact (hls l hl).cr rfl hx

end Style

/-! ## Splitting -/

/-- `splitLines` with enough fuel. -/
def textLines (sep text : List Byte) : List (List Byte) × List Byte :=
  splitLines sep text.length text

/-- Every line takes a separator from the text, so the length of the text is fuel enough. -/
theorem splitLines_fuel {sep : List Byte} (hsep : sep ≠ []) {fuel fuel' : Nat} {text : List Byte}
    (h : text.length ≤ fuel) (h' : text.length ≤ fuel') :
    splitLines sep fuel text = splitLines sep fuel' text := by
  have hnil : ∀ n, splitLines sep n [] = ([], []) := by
    intro n
    cases n with
    | zero => rfl
    | succ n => rw [splitLines, strstr, if_neg hsep]
  induction fuel generalizing fuel' text with
  | zero =>
    rw [List.length_eq_zero_iff.mp (Nat.le_zero.mp h), hnil, hnil]
  | succ fuel ih =>
    cases text with
    | nil => rw [hnil, hnil]
    | cons c text =>
      cases fuel' with
      | zero => simp at h'
      | succ fuel' =>
        have hpos := List.length_pos_iff.mpr hsep
        simp only [List.length_cons] at h h'
        rw [splitLines, splitLines]
        cases strstr (c :: text) sep with
        | none => rfl
        | some k =>
          have hd : ((c :: text).drop (k + sep.length)).length ≤ text.length := by
            rw [List.length_drop, List.length_cons]; omega
          simp only [ih (hd.trans (by omega)) (hd.trans (Nat.le_of_succ_le_succ h'))]

theorem textLines_of_none {sep text : List Byte} (h : strstr text sep = none) :
    textLines sep text = ([], text) := by
  unfold textLines
  cases hl : text.length with
  | zero => rfl
  | succ n => rw [splitLines, h]

theorem textLines_of_some {sep text : List Byte} (hsep : sep ≠ []) {k : Nat}
    (h : strstr text sep = some k) :
    textLines sep text = (getString text k :: (textLines sep (text.drop (k + sep.length))).1,
      (textLines sep (text.drop (k + sep.length))).2) := by
  have hpos := List.length_pos_iff.mpr hsep
  cases text with
  | nil => rw [strstr, if_neg hsep] at h; cases h
  | cons c text =>
    rw [textLines, List.length_cons, splitLines, h]
    have hshort : ((c :: text).drop (k + sep.length)).length ≤ text.length := by
      rw [List.length_drop, List.length_cons]
      omega
    have hfuel := splitLines_fuel hsep hshort (Nat.le_refl _)
    simp only [hfuel, textLines]

theorem strstr_term (style : Style) {l : List Byte} (hl : lf ∉ l) (rest : List Byte) :
    strstr (l ++ (style.term ++ rest)) style.term = some l.length := by
  obtain ⟨pre, hterm, hpre, -⟩ := style.term_eq
  rw [hterm]
  exact strstr_eq_some hl hpre rest

/-- Clean lines are found one by one, whatever follows them. -/
theorem textLines_join {style : Style} {ls : List (List Byte)} (hls : ∀ l ∈ ls, style.Clean l)
    (rest : List Byte) :
    textLines style.term (style.join ls ++ rest) =
      (ls ++ (textLines style.term rest).1, (textLines style.term rest).2) := by
  induction ls with
  | nil => rfl
  | cons l ls ih =>
    obtain ⟨hl, hls⟩ := List.forall_mem_cons.mp hls
    have htext : style.join (l :: ls) ++ rest = l ++ (style.term ++ (style.join ls ++ rest)) := by
      simp [List.append_assoc]
    have hfind := strstr_term style hl.lf (style.join ls ++ rest)
    have hline : getString (l ++ (style.term ++ (style.join ls ++ rest))) l.length = l := by
      have hshort := hl.short
      rw [getString, Nat.min_eq_right (by omega), List.take_left]
    have hrest : (l ++ (style.term ++ (style.join ls ++ rest))).drop
        (l.length + style.term.length) = style.join ls ++ rest := by
      rw [← List.drop_drop, List.drop_left, List.drop_left]
    rw [htext, textLines_of_some style.term_ne_nil hfind, hline, hrest, ih hls]
    rfl

theorem textLines_of_not_mem {style : Style} {text : List Byte} (h : lf ∉ text) :
    textLines style.term text = ([], text) := by
  refine textLines_of_none (strstr_eq_none (x := lf) ?_ h)
  cases style <;> decide

/-! ## A buffer -/

theorem separator_join {style : Style} {l : List Byte} {ls : List (List Byte)}
    (hl : style.Clean l) {left : List Byte} (hcr : style = .lf → cr ∉ style.join (l :: ls) ++ left) :
    separator (style.join (l :: ls) ++ left) = style.term := by
  unfold separator
  cases style with
  | lf =>
    rw [strstr_eq_none (x := cr) (by decide) (hcr rfl)]
    rfl
  | crlf =>
    have htext : Style.crlf.join (l :: ls) ++ left =
        l ++ (Style.crlf.term ++ (Style.crlf.join ls ++ left)) := by
      simp [List.append_assoc]
    have hfind : strstr (Style.crlf.join (l :: ls) ++ left) crlf = some l.length := by
      rw [htext]
      exact strstr_term .crlf hl.lf _
    rw [hfind]
    rfl

/-- Cut a file anywhere: whole lines, and the start of the next one. -/
theorem exists_cut {style : Style} {ls : List (List Byte)} (hls : ∀ l ∈ ls, style.Clean l)
    {text more : List Byte} (h : text ++ more = style.join ls) :
    ∃ done rest left, ls = done ++ rest ∧ text = style.join done ++ left ∧
      left ++ more = style.join rest ∧ lf ∉ left ∧ left.length ≤ 1001 := by
  induction ls generalizing text with
  | nil =>
    obtain ⟨rfl, rfl⟩ := List.append_eq_nil_iff.mp h
    exact ⟨[], [], [], rfl, rfl, rfl, List.not_mem_nil, Nat.zero_le _⟩
  | cons l ls ih =>
    obtain ⟨hl, hls⟩ := List.forall_mem_cons.mp hls
    obtain ⟨pre, hterm, hpre, hone, -⟩ := style.term_eq
    have hshort := hl.short
    rcases Nat.lt_or_ge text.length (l ++ style.term).length with hlen | hlen
    · -- The cut is in front of the line feed of the first line.
      have hfront : text <+: l ++ pre := by
        refine List.prefix_of_prefix_length_le ⟨more, h⟩ ⟨lf :: style.join ls, ?_⟩ ?_
        · simp [hterm]
        · simp only [hterm, List.length_append, List.length_singleton] at hlen ⊢
          omega
      refine ⟨[], l :: ls, text, rfl, rfl, h, ?_, ?_⟩
      · intro hmem
        rcases List.mem_append.mp (hfront.subset hmem) with hm | hm
        · exact hl.lf hm
        · exact hpre hm
      · have hle := hfront.length_le
        rw [List.length_append] at hle
        omega
    · obtain ⟨text', rfl⟩ : l ++ style.term <+: text :=
        List.prefix_of_prefix_length_le ⟨style.join ls, rfl⟩ ⟨more, h⟩ hlen
      have htail : text' ++ more = style.join ls := by
        rw [Style.join_cons, List.append_assoc (l ++ style.term)] at h
        exact List.append_cancel_left h
      obtain ⟨done, rest, left, rfl, rfl, hleft, hno, hle⟩ := ih hls htail
      exact ⟨l :: done, rest, left, rfl, by rw [Style.join_cons, List.append_assoc _ _ left], hleft, hno,
        hle⟩

theorem bufferLines_join {style : Style} {l : List Byte} {ls : List (List Byte)}
    (hls : ∀ x ∈ l :: ls, style.Clean x) {left : List Byte} (hleft : lf ∉ left)
    (hzero : 0 ∉ style.join (l :: ls) ++ left)
    (hcr : style = .lf → cr ∉ style.join (l :: ls) ++ left) (tail : List Byte) :
    bufferLines (style.join (l :: ls) ++ left ++ 0 :: tail) = (l :: ls, left) := by
  have hsep := separator_join (hls l List.mem_cons_self) hcr
  have hlines := textLines_join hls left
  rw [textLines_of_not_mem hleft, List.append_nil] at hlines
  rw [bufferLines, cstr_append_zero hzero, hsep]
  exact hlines

/-! ## A read -/

/-- The buffer in front of a read: what is carried over, its terminator, and behind that what the
last full buffer had there. -/
structure AtRead (buf left prev : List Byte) : Prop where
  size : buf.length = 2048
  front : left <+: buf
  short : left.length ≤ 1001
  stale : ∀ n, left.length < n → n ≤ 1024 → cstr (buf.drop n) = prev.drop n

theorem AtRead.fresh : AtRead (List.replicate 2048 0) [] [] where
  size := List.length_replicate
  front := List.nil_prefix
  short := Nat.zero_le _
  stale := by
    intro n _ hn
    obtain ⟨m, hm⟩ : ∃ m, 2048 - n = m + 1 := ⟨2047 - n, by omega⟩
    rw [List.drop_replicate, hm, List.replicate_succ, List.drop_nil]
    exact cstr_append_zero List.not_mem_nil _

namespace AtRead

variable {buf left prev : List Byte}

theorem splice_eq (h : AtRead buf left prev) (chunk : List Byte) :
    splice buf left.length chunk = left ++ chunk ++ buf.drop (left.length + chunk.length) := by
  rw [splice, ← List.prefix_iff_eq_take.mp h.front]

theorem readLoop_succ (h : AtRead buf left prev) {file : List Byte} (hfile : file ≠ []) (fuel : Nat)
    {buf₁ rest : List Byte} {lines : List (List Byte)} (hlines : lines ≠ [])
    (hbuf : terminate ((left ++ file).take 1024 ++ buf.drop ((left ++ file).take 1024).length)
      ((left ++ file).take 1024).length = buf₁)
    (hsplit : bufferLines buf₁ = (lines, rest)) :
    readLoop (fuel + 1) buf left.length file =
      lines ++ readLoop fuel (splice buf₁ 0 (rest ++ [0])) rest.length
        ((left ++ file).drop 1024) := by
  have hshort := h.short
  have hpos := List.length_pos_iff.mpr hfile
  have htake : file.take (min (1024 - left.length) file.length) =
      file.take (1024 - left.length) := List.take_eq_take_min.symm
  have hdrop : file.drop (min (1024 - left.length) file.length) =
      (left ++ file).drop 1024 := by
    have hleft : left.drop 1024 = [] := List.drop_of_length_le (by omega)
    rw [← drop_min, List.drop_append, hleft, List.nil_append]
  have htext : left ++ file.take (1024 - left.length) = (left ++ file).take 1024 := by
    have hleft : left.take 1024 = left := List.take_of_length_le (by omega)
    rw [List.take_append, hleft]
  have hlen : left.length + min (1024 - left.length) file.length =
      ((left ++ file).take 1024).length := by
    rw [← htext, List.length_append, List.length_take]
  have hfill : splice buf left.length (file.take (1024 - left.length)) =
      (left ++ file).take 1024 ++ buf.drop ((left ++ file).take 1024).length := by
    rw [h.splice_eq, ← List.length_append, htext]
  rw [readLoop, if_neg (by omega)]
  simp only [htake, hdrop, hlen, hfill, hbuf, hsplit]
  rw [if_neg hlines]

theorem moved {text tail : List Byte} (hsize : (text ++ 0 :: tail).length = 2048)
    (htext : text.length = 1024) (hzero : 0 ∉ text) (hshort : left.length ≤ 1001) :
    AtRead (splice (text ++ 0 :: tail) 0 (left ++ [0])) left text where
  size := by
    rw [splice_length (Nat.zero_le _), hsize, List.length_append, List.length_singleton]
    omega
  front := by
    rw [splice, List.take_zero, List.nil_append, List.append_assoc]
    exact List.prefix_append _ _
  short := hshort
  stale := by
    intro n hlt hle
    have hpast : 0 + (left ++ [0]).length ≤ n := by
      rw [List.length_append, List.length_singleton]
      omega
    rw [drop_splice _ (Nat.zero_le _) hpast, List.drop_append_of_le_length (by omega)]
    exact cstr_append_zero (fun hm => hzero (List.mem_of_mem_drop hm)) _

end AtRead

theorem terminate_of_full {text : List Byte} (hne : text ≠ [])
    (h : 1022 ≤ text.length ∨ text.getLast? = some lf) (x : Byte) (tail : List Byte) :
    terminate (text ++ x :: tail) text.length = text ++ 0 :: tail := by
  have hpos := List.length_pos_iff.mpr hne
  have hsplice : splice (text ++ x :: tail) text.length [0] = text ++ 0 :: tail := by
    rw [splice_append]
    simp
  rw [terminate, hsplice, if_neg]
  intro ⟨hlt, hend⟩
  rcases h with hlen | hlast
  · omega
  · rw [List.getElem?_append_left (by omega), ← List.getLast?_eq_getElem?] at hend
    exact hend hlast

theorem not_mem_of_front {style : Style} {ls : List (List Byte)} (hls : ∀ l ∈ ls, style.Clean l)
    {text : List Byte} (h : text <+: style.join ls) : 0 ∉ text ∧ (style = .lf → cr ∉ text) := by
  refine ⟨fun hm => Style.zero_not_mem_join hls (h.subset hm), ?_⟩
  rintro rfl hm
  exact Style.cr_not_mem_join hls (h.subset hm)

/-- A read to whose text no line end is added: the lines that end in it are taken. -/
theorem readLoop_lines {style : Style} {buf left prev file : List Byte} (hat : AtRead buf left prev)
    (hfile : file ≠ []) {done : List (List Byte)} (hdone : done ≠ [])
    (hclean : ∀ l ∈ done, style.Clean l) {text left' : List Byte} (hleft : lf ∉ left')
    (htext : (left ++ file).take 1024 = text) (hcut : text = style.join done ++ left')
    (hzero : 0 ∉ text) (hcr : style = .lf → cr ∉ text)
    (hend : 1022 ≤ text.length ∨ text.getLast? = some lf) (fuel : Nat) :
    ∃ tail, (text ++ 0 :: tail).length = 2048 ∧
      readLoop (fuel + 1) buf left.length file =
        done ++ readLoop fuel (splice (text ++ 0 :: tail) 0 (left' ++ [0])) left'.length
          ((left ++ file).drop 1024) := by
  subst htext
  have hsize := hat.size
  have hshort : ((left ++ file).take 1024).length ≤ 1024 := List.length_take_le _ _
  have hne : (left ++ file).take 1024 ≠ [] := by
    rw [ne_eq, List.take_eq_nil_iff, List.append_eq_nil_iff]
    intro h
    rcases h with h | h
    · omega
    · exact hfile h.2
  obtain ⟨x, tail, htail⟩ :
      ∃ x tail, buf.drop ((left ++ file).take 1024).length = x :: tail :=
    List.exists_cons_of_ne_nil (by rw [ne_eq, List.drop_eq_nil_iff]; omega)
  have hbuf : terminate ((left ++ file).take 1024 ++ buf.drop ((left ++ file).take 1024).length)
      ((left ++ file).take 1024).length = (left ++ file).take 1024 ++ 0 :: tail := by
    rw [htail]
    exact terminate_of_full hne hend x tail
  have hlines : bufferLines ((left ++ file).take 1024 ++ 0 :: tail) = (done, left') := by
    obtain ⟨l, ds, rfl⟩ := List.exists_cons_of_ne_nil hdone
    rw [hcut] at hzero hcr ⊢
    exact bufferLines_join hclean hleft hzero hcr tail
  refine ⟨tail, ?_, hat.readLoop_succ hfile fuel hdone hbuf hlines⟩
  have hlen := congrArg List.length htail
  rw [List.length_drop, List.length_cons] at hlen
  rw [List.length_append, List.length_cons]
  omega

/-- A read that fills the buffer: the lines that end in it are taken, the rest is carried over. -/
theorem readLoop_full {style : Style} {ls : List (List Byte)} (hls : ∀ l ∈ ls, style.Clean l)
    {buf left prev file more : List Byte} (hat : AtRead buf left prev)
    (hfile : left ++ file ++ more = style.join ls) (hlong : 1024 < (left ++ file).length)
    (fuel : Nat) :
    ∃ done rest left' buf', ls = done ++ rest ∧ (left ++ file).take 1024 = style.join done ++ left' ∧
      done ≠ [] ∧ lf ∉ left' ∧ left' ++ (left ++ file).drop 1024 ++ more = style.join rest ∧
      AtRead buf' left' ((left ++ file).take 1024) ∧
      readLoop (fuel + 1) buf left.length file =
        done ++ readLoop fuel buf' left'.length ((left ++ file).drop 1024) := by
  have hshort := hat.short
  have hsplit : (left ++ file).take 1024 ++ ((left ++ file).drop 1024 ++ more) = style.join ls := by
    rw [← List.append_assoc, List.take_append_drop, hfile]
  have hlen : ((left ++ file).take 1024).length = 1024 := List.length_take_of_le (by omega)
  obtain ⟨hzero, hcr⟩ := not_mem_of_front hls ⟨_, hsplit⟩
  obtain ⟨done, rest, left', rfl, hcut, hrest, hno, hle⟩ := exists_cut hls hsplit
  -- The buffer is longer than any line, so that one line at least ends in it.
  have hdone : done ≠ [] := by
    rintro rfl
    rw [hcut, Style.join_nil, List.nil_append] at hlen
    omega
  have hne : file ≠ [] := by
    rintro rfl
    rw [List.append_nil] at hlong
    omega
  obtain ⟨tail, hsize, hread⟩ := readLoop_lines hat hne hdone
    (fun l hl => hls l (List.mem_append_left _ hl)) hno rfl hcut hzero hcr (.inl (by omega)) fuel
  refine ⟨done, rest, left', _, rfl, hcut, hdone, hno, ?_, AtRead.moved hsize hlen hzero hle, hread⟩
  rw [List.append_assoc, hrest]

/-! ## All reads -/

/-- What the buffer holds at the last read of a file, behind what it held at the read before. -/
def lastRead : Nat → List Byte → List Byte → List Byte × List Byte
  | 0, prev, text => (prev, text)
  | fuel + 1, prev, text =>
    if text.length ≤ 1024 then (prev, text)
    else lastRead fuel (text.take 1024) ((text.take 1024).rtakeWhile (· ≠ lf) ++ text.drop 1024)

theorem readLoop_nil (fuel : Nat) (buf : List Byte) (offset : Nat) :
    readLoop fuel buf offset [] = [] := by
  cases fuel with
  | zero => rfl
  | succ fuel => rw [readLoop, List.length_nil, if_pos (Nat.min_zero _)]

theorem Style.join_concat (style : Style) {ls : List (List Byte)} (h : ls ≠ []) :
    ∃ front, style.join ls = front ++ [Config.lf] := by
  obtain ⟨ds, d, rfl⟩ := (List.eq_nil_or_concat' ls).resolve_left h
  obtain ⟨pre, hterm, -⟩ := style.term_eq
  refine ⟨style.join ds ++ (d ++ pre), ?_⟩
  rw [join_append, join_cons, join_nil, hterm]
  simp

theorem rtakeWhile_join {style : Style} {ls : List (List Byte)} (hls : ls ≠ []) {left : List Byte}
    (hleft : lf ∉ left) : (style.join ls ++ left).rtakeWhile (· ≠ lf) = left := by
  obtain ⟨front, hfront⟩ := style.join_concat hls
  have hall : ∀ x ∈ left.reverse, decide (x ≠ lf) = true := by
    intro x hx
    rw [decide_eq_true_eq]
    rintro rfl
    exact hleft (List.mem_reverse.mp hx)
  rw [hfront, List.rtakeWhile, List.append_assoc, List.reverse_append, List.reverse_append,
    List.append_assoc, List.takeWhile_append_of_pos hall]
  simp

/-- Up to the last read the lines are those of the file. -/
theorem readLoop_last {style : Style} {more : List Byte} (fuel : Nat) {ls : List (List Byte)}
    (hls : ∀ l ∈ ls, style.Clean l) {buf left prev file : List Byte} (hat : AtRead buf left prev)
    (hprev : style = .lf → cr ∉ prev) (hfile : left ++ file ++ more = style.join ls)
    (hne : file ≠ []) (hfuel : file.length < fuel) :
    ∃ done rest buf' left' prev' file' fuel', ls = done ++ rest ∧ file' ≠ [] ∧
      (left' ++ file').length ≤ 1024 ∧ left' ++ file' ++ more = style.join rest ∧
      AtRead buf' left' prev' ∧ (style = .lf → cr ∉ prev') ∧
      lastRead fuel prev (left ++ file) = (prev', left' ++ file') ∧
      readLoop fuel buf left.length file =
        done ++ readLoop (fuel' + 1) buf' left'.length file' := by
  induction fuel generalizing ls buf left prev file with
  | zero => omega
  | succ fuel ih =>
    rcases Nat.lt_or_ge 1024 (left ++ file).length with hlong | hlast
    · obtain ⟨done, rest, left', buf', rfl, hcut, hdone, hno, hrest, hat', hread⟩ :=
        readLoop_full hls hat hfile hlong fuel
      have hshort := hat.short
      have hcr : style = .lf → cr ∉ (left ++ file).take 1024 :=
        (not_mem_of_front hls ⟨_, by rw [← hfile, ← List.append_assoc, List.take_append_drop]⟩).2
      rw [List.length_append] at hlong
      have hne' : (left ++ file).drop 1024 ≠ [] := by
        rw [ne_eq, List.drop_eq_nil_iff, List.length_append]
        omega
      have hfuel' : ((left ++ file).drop 1024).length < fuel := by
        rw [List.length_drop, List.length_append]
        omega
      obtain ⟨done', rest', buf'', left'', prev'', file'', fuel'', rfl, hne'', hlen, hrest', hat'',
        hprev', hlast, hread'⟩ :=
        ih (fun l hl => hls l (List.mem_append_right _ hl)) hat' hcr hrest hne' hfuel'
      refine ⟨done ++ done', rest', buf'', left'', prev'', file'', fuel'',
        (List.append_assoc _ _ _).symm, hne'', hlen, hrest', hat'', hprev', ?_, ?_⟩
      · rw [lastRead, if_neg (by rw [List.length_append]; omega), ← hlast]
        congr 2
        rw [hcut, rtakeWhile_join hdone hno]
      · rw [hread, hread', List.append_assoc]
    · exact ⟨[], ls, buf, left, prev, file, fuel, rfl, hne, hlast, hfile, hat, hprev,
        by rw [lastRead, if_pos hlast], rfl⟩

theorem loadLines_join {style : Style} {ls : List (List Byte)} (hls : ∀ l ∈ ls, style.Clean l) :
    loadLines (style.join ls) = ls := by
  rcases List.eq_nil_or_concat' (style.join ls) with hnil | ⟨front, x, hjoin⟩
  · -- A terminator is not empty, so an empty file has no line.
    rw [hnil, loadLines, readLoop_nil]
    cases ls with
    | nil => rfl
    | cons l ls =>
      rw [Style.join_cons, List.append_eq_nil_iff, List.append_eq_nil_iff] at hnil
      exact absurd hnil.1.2 style.term_ne_nil
  · have hne : style.join ls ≠ [] := by rw [hjoin]; simp
    have hwhole : [] ++ style.join ls ++ [] = style.join ls := by simp
    obtain ⟨done, rest, buf, left, prev, file, fuel, rfl, hfile, hlen, hrest, hat, -, -, hread⟩ :=
      readLoop_last (style.join ls).length.succ hls AtRead.fresh (fun _ => List.not_mem_nil)
        hwhole hne (Nat.lt_succ_self _)
    have hclean : ∀ l ∈ rest, style.Clean l := fun l hl => hls l (List.mem_append_right _ hl)
    rw [List.append_nil] at hrest
    have htext : (left ++ file).take 1024 = style.join rest := by
      rw [List.take_of_length_le hlen, hrest]
    have hsome : rest ≠ [] := by
      rintro rfl
      exact hfile (List.append_eq_nil_iff.mp hrest).2
    obtain ⟨front, hfront⟩ := style.join_concat hsome
    obtain ⟨hzero, hcr⟩ := not_mem_of_front hclean (List.prefix_refl _)
    have hend : (style.join rest).getLast? = some lf := by
      rw [hfront]
      exact List.getLast?_concat
    obtain ⟨tail, -, hlast⟩ := readLoop_lines hat hfile hsome hclean List.not_mem_nil htext
      (List.append_nil _).symm hzero hcr (.inr hend) fuel
    have hdrop : (left ++ file).drop 1024 = [] := List.drop_of_length_le hlen
    rw [hlast, hdrop, readLoop_nil, List.append_nil] at hread
    exact hread

/-- Wherever the reads end, a file does what its lines do one after the other. -/
theorem load_eq_lines (env : Env) (s : Store) (style : Style) (ls : List (List Byte))
    (hls : ∀ l ∈ ls, style.Clean l) :
    s.load env (style.join ls) = run (applyLine env) s ls := by
  rw [Store.load, loadLines_join hls]

/-- The first read of this file ends between the two bytes of a line end. -/
theorem load_eq_lines_split :
    Store.fresh.load Env.sample (Style.crlf.join (List.replicate 300 [ch 'a', ch '=', ch '1'])) =
      run (applyLine Env.sample) Store.fresh (List.replicate 300 [ch 'a', ch '=', ch '1']) := by
  apply load_eq_lines Env.sample Store.fresh .crlf _
  intro l hl
  rw [(List.mem_replicate.mp hl).2]
  exact ⟨by decide, by decide, by decide, by decide⟩

end EventServer.Config
