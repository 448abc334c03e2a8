import EventServer.Config.Chunks
import EventServer.Config.Stored

/-!
# The last line end

To a file that does not end in a line feed `load` adds one, as `"\r\n"` and
without a terminator, unless the buffer is full up to its last two bytes. In the
first case a file with bare line feeds is taken for one with `"\r\n"`, so that all
of the last read becomes one line, and in a file with `"\r\n"` lines of the read
before follow. In the second case the last line is lost.
-/
namespace EventServer.Config

open EventServer.Lib.Blocks EventServer.Lib.CString EventServer.Lib.Transition EventServer.Stream

def Style.lines (style : Style) (text : List Byte) : List (List Byte) :=
  (textLines style.term text).1

theorem Style.lines_join {style : Style} {ls : List (List Byte)} (hls : ∀ l ∈ ls, style.Clean l) :
    style.lines (style.join ls) = ls := by
  have h := textLines_join hls []
  rw [List.append_nil, textLines_of_not_mem List.not_mem_nil, List.append_nil] at h
  rw [lines, h]

/-! ## The last read -/

theorem terminate_of_short {text : List Byte} (hne : text ≠ []) (hlen : text.length < 1022)
    (hend : text.getLast? ≠ some lf) (x y : Byte) (tail : List Byte) :
    terminate (text ++ x :: y :: tail) text.length = text ++ crlf ++ tail := by
  have hpos := List.length_pos_iff.mpr hne
  have hsplice : splice (text ++ x :: y :: tail) text.length [0] = text ++ 0 :: y :: tail := by
    rw [splice_append]
    simp
  rw [terminate, hsplice, if_pos, splice_append]
  · rfl
  · refine ⟨by omega, ?_⟩
    rw [List.getElem?_append_left (by omega), ← List.getLast?_eq_getElem?]
    exact hend

/-- The last read of a file that does not end in a line feed: behind the line end that is added,
the string goes on with what the buffer held before. -/
theorem readLoop_added {buf left prev file : List Byte} (hat : AtRead buf left prev)
    (hfile : file ≠ []) (hlen : (left ++ file).length < 1022)
    (hend : (left ++ file).getLast? ≠ some lf) (hzero : 0 ∉ left ++ file)
    {lines : List (List Byte)} {rest : List Byte} (hlines : lines ≠ [])
    (hsep : separator (left ++ file ++ crlf ++ prev.drop ((left ++ file).length + 2)) = crlf)
    (hsplit : textLines crlf (left ++ file ++ crlf ++ prev.drop ((left ++ file).length + 2)) =
      (lines, rest)) (fuel : Nat) :
    readLoop (fuel + 1) buf left.length file = lines := by
  have hsize := hat.size
  have htake : (left ++ file).take 1024 = left ++ file := List.take_of_length_le (by omega)
  have hdrop : (left ++ file).drop 1024 = [] := List.drop_of_length_le (by omega)
  obtain ⟨x, tail, htail⟩ : ∃ x tail, buf.drop (left ++ file).length = x :: tail :=
    List.exists_cons_of_ne_nil (by rw [ne_eq, List.drop_eq_nil_iff]; omega)
  obtain ⟨y, tail', rfl⟩ : ∃ y tail', tail = y :: tail' := by
    apply List.exists_cons_of_ne_nil
    rintro rfl
    have := congrArg List.length htail
    rw [List.length_drop, List.length_singleton] at this
    omega
  have hstale : cstr tail' = prev.drop ((left ++ file).length + 2) := by
    rw [← hat.stale _ (by rw [List.length_append]; omega) (by omega), ← List.drop_drop, htail]
    rfl
  have hbuf : terminate ((left ++ file).take 1024 ++ buf.drop ((left ++ file).take 1024).length)
      ((left ++ file).take 1024).length = left ++ file ++ crlf ++ tail' := by
    rw [htake, htail]
    exact terminate_of_short (List.append_ne_nil_of_right_ne_nil _ hfile) hlen hend x y tail'
  have hstring : cstr (left ++ file ++ crlf ++ tail') =
      left ++ file ++ crlf ++ prev.drop ((left ++ file).length + 2) := by
    rw [cstr_append, hstale]
    rw [List.mem_append]
    intro h
    rcases h with h | h
    · exact hzero h
    · exact absurd h (by decide)
  have hlast : bufferLines (left ++ file ++ crlf ++ tail') = (lines, rest) := by
    rw [bufferLines, hstring, hsep]
    exact hsplit
  rw [hat.readLoop_succ hfile fuel hlines hbuf hlast, hdrop, readLoop_nil, List.append_nil]

/-! ## The lines that are seen -/

/-- A file with lines and a last line that has no end. -/
def Style.openFile (style : Style) (ls : List (List Byte)) (last : List Byte) : List Byte :=
  style.join ls ++ last

/-- What the buffer held at the last full read, and what it holds at the last one. -/
def Style.buffers (style : Style) (ls : List (List Byte)) (last : List Byte) :
    List Byte × List Byte :=
  lastRead (style.openFile ls last).length.succ [] (style.openFile ls last)

def Style.lastText (style : Style) (ls : List (List Byte)) (last : List Byte) : List Byte :=
  (style.buffers ls last).2

/-- What the buffer still holds behind the last text and its line end. -/
def Style.staleText (style : Style) (ls : List (List Byte)) (last : List Byte) : List Byte :=
  (style.buffers ls last).1.drop ((style.lastText ls last).length + 2)

def Style.before (style : Style) (ls : List (List Byte)) (last : List Byte) : List (List Byte) :=
  style.lines ((style.openFile ls last).take
    ((style.openFile ls last).length - (style.lastText ls last).length))

theorem Style.openFile_append_term (style : Style) (ls : List (List Byte)) (last : List Byte) :
    style.openFile ls last ++ style.term = style.join (ls ++ [last]) := by
  rw [openFile, join_append, join_cons, join_nil, List.append_nil, List.append_assoc]

section Seen

variable {style : Style} {ls : List (List Byte)} {last : List Byte}

/-- The last read of the file: `done` are the lines in front of it, `rest` those that end in it. -/
structure AtEnd (style : Style) (ls : List (List Byte)) (last : List Byte)
    (done rest : List (List Byte)) (buf left file : List Byte) : Prop where
  lines : ls = done ++ rest
  more : file ≠ []
  fits : (left ++ file).length ≤ 1024
  text : left ++ file = style.join rest ++ last
  buffer : AtRead buf left (style.buffers ls last).1
  cr : style = .lf → Config.cr ∉ (style.buffers ls last).1
  lastText : style.lastText ls last = left ++ file

theorem exists_atEnd (hls : ∀ l ∈ ls ++ [last], style.Clean l) (hne : last ≠ []) :
    ∃ done rest buf left file fuel, AtEnd style ls last done rest buf left file ∧
      loadLines (style.openFile ls last) = done ++ readLoop (fuel + 1) buf left.length file := by
  have hwhole : [] ++ style.openFile ls last ++ style.term = style.join (ls ++ [last]) := by
    rw [List.nil_append, style.openFile_append_term]
  have hfile : style.openFile ls last ≠ [] := List.append_ne_nil_of_right_ne_nil _ hne
  obtain ⟨done, rest, buf, left, prev, file, fuel, hsplit, hfile', hlen, hrest, hat, hcr, hlast,
    hread⟩ := readLoop_last (style.openFile ls last).length.succ hls AtRead.fresh
      (fun _ => List.not_mem_nil) hwhole hfile (Nat.lt_succ_self _)
  have hbuffers : style.buffers ls last = (prev, left ++ file) := hlast
  have hsome : rest ≠ [] := by
    rintro rfl
    exact hfile' (List.append_eq_nil_iff.mp (List.append_eq_nil_iff.mp hrest).1).2
  obtain ⟨rs, x, rfl⟩ := (List.eq_nil_or_concat' rest).resolve_left hsome
  rw [← List.append_assoc, List.append_singleton_inj] at hsplit
  obtain ⟨hlines, rfl⟩ := hsplit
  rw [← style.openFile_append_term] at hrest
  refine ⟨done, rs, buf, left, file, fuel, ⟨hlines, hfile', hlen, List.append_cancel_right hrest,
    ?_, ?_, ?_⟩, hread⟩
  · rw [hbuffers]; exact hat
  · rw [hbuffers]; exact hcr
  · rw [Style.lastText, hbuffers]

namespace AtEnd

variable {done rest : List (List Byte)} {buf left file : List Byte}

theorem before (h : AtEnd style ls last done rest buf left file)
    (hls : ∀ l ∈ ls, style.Clean l) : style.before ls last = done := by
  have hfile : style.openFile ls last = style.join done ++ style.lastText ls last := by
    rw [h.lastText, h.text, Style.openFile, h.lines, Style.join_append, List.append_assoc]
  rw [Style.before, hfile, List.length_append, Nat.add_sub_cancel, List.take_left]
  refine Style.lines_join fun l hl => hls l ?_
  rw [h.lines]
  exact List.mem_append_left _ hl

theorem clean_rest (h : AtEnd style ls last done rest buf left file)
    (hls : ∀ l ∈ ls ++ [last], style.Clean l) : ∀ l ∈ rest ++ [last], style.Clean l := by
  intro l hl
  rw [h.lines] at hls
  apply hls l
  rw [List.append_assoc]
  exact List.mem_append_right _ hl

theorem lastText_eq (h : AtEnd style ls last done rest buf left file) :
    style.lastText ls last = style.join rest ++ last := by rw [h.lastText, h.text]

/-- With its line end the last text is the lines that end in it. -/
theorem lines_lastText (h : AtEnd style ls last done rest buf left file)
    (hls : ∀ l ∈ ls ++ [last], style.Clean l) :
    style.lines (style.lastText ls last ++ style.term) = rest ++ [last] := by
  have hjoin : style.lastText ls last ++ style.term = style.join (rest ++ [last]) := by
    rw [h.lastText_eq]
    exact style.openFile_append_term rest last
  rw [hjoin, Style.lines_join (h.clean_rest hls)]

theorem not_mem (h : AtEnd style ls last done rest buf left file)
    (hls : ∀ l ∈ ls ++ [last], style.Clean l) :
    0 ∉ left ++ file ∧ (style = .lf → Config.cr ∉ left ++ file) := by
  refine not_mem_of_front (h.clean_rest hls) ⟨style.term, ?_⟩
  rw [h.text]
  exact style.openFile_append_term rest last

theorem staleText (h : AtEnd style ls last done rest buf left file) :
    style.staleText ls last = (style.buffers ls last).1.drop ((left ++ file).length + 2) := by
  rw [Style.staleText, h.lastText]

theorem getLast? (h : AtEnd style ls last done rest buf left file)
    (hls : ∀ l ∈ ls ++ [last], style.Clean l) (hne : last ≠ []) :
    (left ++ file).getLast? ≠ some lf := by
  rw [h.text, List.getLast?_append_of_ne_nil _ hne]
  intro hlast
  have hlf := (hls last (List.mem_append_right _ (List.mem_singleton_self last))).lf
  exact hlf (List.mem_of_getLast? hlast)

end AtEnd

/-- No room for a line end: the last line is lost. -/
theorem loadLines_full (hls : ∀ l ∈ ls ++ [last], style.Clean l) (hne : last ≠ [])
    (hfull : 1022 ≤ (style.lastText ls last).length) : loadLines (style.openFile ls last) = ls := by
  obtain ⟨done, rest, buf, left, file, fuel, h, hread⟩ := exists_atEnd hls hne
  have hlast := hls last (List.mem_append_right _ (List.mem_singleton_self last))
  have hclean : ∀ l ∈ rest, style.Clean l := fun l hl =>
    h.clean_rest hls l (List.mem_append_left _ hl)
  have hsome : rest ≠ [] := by
    rintro rfl
    have hshort := hlast.short
    rw [h.lastText, h.text, Style.join_nil, List.nil_append] at hfull
    omega
  obtain ⟨hzero, hcr⟩ := h.not_mem hls
  have htake : (left ++ file).take 1024 = left ++ file := List.take_of_length_le h.fits
  have hdrop : (left ++ file).drop 1024 = [] := List.drop_of_length_le h.fits
  rw [h.lastText] at hfull
  obtain ⟨tail, -, hlines⟩ := readLoop_lines h.buffer h.more hsome hclean hlast.lf htake h.text
    hzero hcr (.inl hfull) fuel
  rw [hread, hlines, hdrop, readLoop_nil, List.append_nil, h.lines]

/-- The line end that is added is that of the file: the last line is read, and behind it what the
buffer still holds. -/
theorem loadLines_crlf (hls : ∀ l ∈ ls ++ [last], Style.crlf.Clean l) (hne : last ≠ [])
    (hshort : (Style.crlf.lastText ls last).length < 1022) :
    loadLines (Style.crlf.openFile ls last) =
      ls ++ [last] ++ Style.crlf.lines (Style.crlf.staleText ls last) := by
  obtain ⟨done, rest, buf, left, file, fuel, h, hread⟩ := exists_atEnd hls hne
  have hclean := h.clean_rest hls
  have htext : left ++ file ++ crlf = Style.crlf.join (rest ++ [last]) := by
    rw [h.text]
    exact Style.crlf.openFile_append_term rest last
  have hsep : separator (Style.crlf.join (rest ++ [last]) ++ Style.crlf.staleText ls last) =
      crlf := by
    obtain ⟨l, ls', hcons⟩ := List.exists_cons_of_ne_nil (List.append_ne_nil_of_right_ne_nil rest
      (List.cons_ne_nil last []))
    rw [hcons] at hclean ⊢
    exact separator_join (hclean l List.mem_cons_self) nofun
  have hlines : rest ++ [last] ++ Style.crlf.lines (Style.crlf.staleText ls last) ≠ [] := by simp
  rw [← htext, h.staleText] at hsep
  have hadded := readLoop_added h.buffer h.more (h.lastText ▸ hshort) (h.getLast? hls hne)
    (h.not_mem hls).1 hlines hsep (by rw [htext, ← h.staleText]; exact textLines_join hclean _) fuel
  rw [hread, hadded, h.lines]
  simp

/-- The line end that is added is not that of the file: all of the last text is one line. -/
theorem loadLines_lf (hls : ∀ l ∈ ls ++ [last], Style.lf.Clean l) (hne : last ≠ [])
    (hshort : (Style.lf.lastText ls last).length < 1022) :
    loadLines (Style.lf.openFile ls last) = Style.lf.before ls last ++ [Style.lf.lastText ls last] := by
  obtain ⟨done, rest, buf, left, file, fuel, h, hread⟩ := exists_atEnd hls hne
  have hcr : cr ∉ left ++ file := (h.not_mem hls).2 rfl
  have hfind : strstr (left ++ file ++ crlf ++ Style.lf.staleText ls last) crlf =
      some (left ++ file).length := by
    rw [List.append_assoc _ crlf]
    exact strstr_eq_some_head hcr _
  have hsep : separator (left ++ file ++ crlf ++ Style.lf.staleText ls last) = crlf := by
    rw [separator, hfind]
    rfl
  have hnone : strstr (Style.lf.staleText ls last) crlf = none := by
    apply strstr_eq_none (x := cr) (by decide)
    intro hm
    exact h.cr rfl (List.mem_of_mem_drop hm)
  have hsplit : textLines crlf (left ++ file ++ crlf ++ Style.lf.staleText ls last) =
      ([left ++ file], Style.lf.staleText ls last) := by
    have hline : getString (left ++ file ++ crlf ++ Style.lf.staleText ls last)
        (left ++ file).length = left ++ file := by
      rw [getString, Nat.min_eq_right (by rw [h.lastText] at hshort; omega), List.append_assoc,
        List.take_left]
    have hdrop : (left ++ file ++ crlf ++ Style.lf.staleText ls last).drop
        ((left ++ file).length + crlf.length) = Style.lf.staleText ls last := by
      rw [← List.length_append, List.drop_left]
    rw [textLines_of_some (by decide) hfind, hline, hdrop, textLines_of_none hnone]
  rw [h.staleText] at hsep hsplit
  have hadded := readLoop_added h.buffer h.more (h.lastText ▸ hshort) (h.getLast? hls hne)
    (h.not_mem hls).1 (List.cons_ne_nil _ _) hsep hsplit fuel
  rw [hread, hadded, h.before fun l hl => hls l (List.mem_append_left _ hl), h.lastText]

end Seen

/-! ## When it makes no difference -/

/-- What is lost, comes again or is joined to one line has no `=`, or says nothing new. -/
structure Undisturbed (env : Env) (style : Style) (ls : List (List Byte)) (last : List Byte) :
    Prop where
  /-- A buffer that is full up to two bytes loses the last line. -/
  full : 1022 ≤ (style.lastText ls last).length → ch '=' ∉ last
  /-- With `"\r\n"` the lines that are still in the buffer come again. -/
  crlf : style = .crlf → (style.lastText ls last).length < 1022 →
    ∀ line ∈ style.lines (style.staleText ls last),
      ch '=' ∉ line ∨ Repeats env (ls ++ [last]) line
  /-- With bare line feeds the last text becomes one line. -/
  lf : style = .lf → (style.lastText ls last).length < 1022 →
    lf ∉ style.lastText ls last ∨ ch '=' ∉ style.lastText ls last

theorem load_openFile_term (env : Env) {style : Style} {ls : List (List Byte)} {last : List Byte}
    (hls : ∀ l ∈ ls ++ [last], style.Clean l) :
    Store.fresh.load env (style.openFile ls last ++ style.term) =
      run (applyLine env) Store.fresh (ls ++ [last]) := by
  rw [style.openFile_append_term, Store.load, loadLines_join hls]

theorem before_append_lines {style : Style} {ls : List (List Byte)} {last : List Byte}
    (hls : ∀ l ∈ ls ++ [last], style.Clean l) (hne : last ≠ []) :
    style.before ls last ++ style.lines (style.lastText ls last ++ style.term) = ls ++ [last] := by
  obtain ⟨done, rest, buf, left, file, fuel, h, -⟩ := exists_atEnd hls hne
  rw [h.before fun l hl => hls l (List.mem_append_left _ hl), h.lines_lastText hls, h.lines,
    List.append_assoc]

/-- A last text without a line feed is the last line. -/
theorem lastText_of_not_mem {ls : List (List Byte)} {last : List Byte}
    (hls : ∀ l ∈ ls ++ [last], Style.lf.Clean l) (hne : last ≠ [])
    (h : lf ∉ Style.lf.lastText ls last) : Style.lf.lastText ls last = last := by
  obtain ⟨done, rest, buf, left, file, fuel, hat, -⟩ := exists_atEnd hls hne
  have htext := hat.lastText_eq
  cases rest with
  | nil => exact htext
  | cons l rest =>
    rw [htext, Style.join_cons] at h
    exact absurd (by simp [Style.term]) h

theorem mem_lastText {style : Style} {ls : List (List Byte)} {last : List Byte}
    (hls : ∀ l ∈ ls ++ [last], style.Clean l) (hne : last ≠ []) {line : List Byte}
    (hline : line ∈ style.lines (style.lastText ls last ++ style.term)) {c : Byte} (hc : c ∈ line) :
    c ∈ style.lastText ls last := by
  obtain ⟨done, rest, buf, left, file, fuel, hat, -⟩ := exists_atEnd hls hne
  rw [hat.lines_lastText hls, List.mem_append, List.mem_singleton] at hline
  rw [hat.lastText_eq, List.mem_append]
  rcases hline with hline | rfl
  · exact .inl (List.mem_flatMap.mpr ⟨line, hline, List.mem_append_left _ hc⟩)
  · exact .inr hc

section Optional

variable (env : Env) {ls : List (List Byte)} {last : List Byte}

/-- The store and no more of two runs. -/
theorem view_append {xs ys zs : List (List Byte)}
    (h : ∀ s a, run (applyLine env) Store.fresh xs = some (s, a) →
      (run (applyLine env) s ys).map (·.1.view) = (run (applyLine env) s zs).map (·.1.view)) :
    (run (applyLine env) Store.fresh (xs ++ ys)).map (·.1.view) =
      (run (applyLine env) Store.fresh (xs ++ zs)).map (·.1.view) := by
  rw [run_append, run_append]
  cases hrun : run (applyLine env) Store.fresh xs with
  | none => rfl
  | some r =>
    simp only [Option.bind_some, Option.map_map]
    exact h r.1 r.2 hrun

theorem view_silent (s : Store) {lines : List (List Byte)} (h : ∀ line ∈ lines, ch '=' ∉ line) :
    (run (applyLine env) s lines).map (·.1.view) = some s.view := by
  obtain ⟨a, ha⟩ := @run_silent env s lines h
  rw [ha]
  rfl

theorem load_full {style : Style} (hls : ∀ l ∈ ls ++ [last], style.Clean l) (hne : last ≠ [])
    (hfull : 1022 ≤ (style.lastText ls last).length) (hlast : ch '=' ∉ last) :
    (Store.fresh.load env (style.openFile ls last)).map (·.1.view) =
      (run (applyLine env) Store.fresh (ls ++ [last])).map (·.1.view) := by
  rw [Store.load, loadLines_full hls hne hfull]
  have happ := @view_append env ls [] [last] fun s a _ => by
    rw [view_silent env s (List.forall_mem_singleton.mpr hlast)]
    rfl
  rwa [List.append_nil] at happ

theorem load_crlf (hls : ∀ l ∈ ls ++ [last], Style.crlf.Clean l) (hne : last ≠ [])
    (hshort : (Style.crlf.lastText ls last).length < 1022)
    (hstale : ∀ line ∈ Style.crlf.lines (Style.crlf.staleText ls last),
      ch '=' ∉ line ∨ Repeats env (ls ++ [last]) line) :
    (Store.fresh.load env (Style.crlf.openFile ls last)).map (·.1.view) =
      (run (applyLine env) Store.fresh (ls ++ [last])).map (·.1.view) := by
  rw [Store.load, loadLines_crlf hls hne hshort]
  have happ := @view_append env (ls ++ [last]) (Style.crlf.lines (Style.crlf.staleText ls last)) []
    fun s a hs => by
      obtain ⟨t, b, hrun, hview⟩ := Store.run_again fun line hline =>
        (hstale line hline).imp_right fun h => Store.stores_of_repeats h hs
      rw [hrun, Option.map_some, hview]
      rfl
  rwa [List.append_nil] at happ

theorem load_lf (hls : ∀ l ∈ ls ++ [last], Style.lf.Clean l) (hne : last ≠ [])
    (hshort : (Style.lf.lastText ls last).length < 1022)
    (hone : lf ∉ Style.lf.lastText ls last ∨ ch '=' ∉ Style.lf.lastText ls last) :
    (Store.fresh.load env (Style.lf.openFile ls last)).map (·.1.view) =
      (run (applyLine env) Store.fresh (ls ++ [last])).map (·.1.view) := by
  rw [Store.load, loadLines_lf hls hne hshort, ← before_append_lines hls hne]
  refine view_append env fun s a _ => ?_
  rcases hone with hline | hsilent
  · have hlast := lastText_of_not_mem hls hne hline
    have hlines : Style.lf.lines (last ++ Style.lf.term) = [last] := by
      have hclean := hls last (List.mem_append_right _ (List.mem_singleton_self last))
      have hjoin := Style.lines_join (List.forall_mem_singleton.mpr hclean)
      rwa [Style.join_cons, Style.join_nil, List.append_nil] at hjoin
    rw [hlast, hlines]
  · rw [view_silent env s (List.forall_mem_singleton.mpr hsilent), view_silent env s]
    exact fun line hline hmem => hsilent (mem_lastText hls hne hline hmem)

end Optional

/-- Nothing is lost, comes again or is joined that has an `=`. -/
theorem view_of_undisturbed (env : Env) {style : Style} {ls : List (List Byte)} {last : List Byte}
    (hls : ∀ l ∈ ls ++ [last], style.Clean l) (hne : last ≠ [])
    (h : Undisturbed env style ls last) :
    (Store.fresh.load env (style.openFile ls last)).map (·.1.view) =
      (Store.fresh.load env (style.openFile ls last ++ style.term)).map (·.1.view) := by
  rw [load_openFile_term env hls]
  rcases Nat.lt_or_ge (style.lastText ls last).length 1022 with hshort | hfull
  · cases style with
    | crlf => exact load_crlf env hls hne hshort (h.crlf rfl hshort)
    | lf => exact load_lf env hls hne hshort (h.lf rfl hshort)
  · exact load_full env hls hne hfull (h.full hfull)

/-- The lines that are loaded without the end of the last line. -/
def Style.seen (style : Style) (ls : List (List Byte)) (last : List Byte) : List (List Byte) :=
  if 1022 ≤ (style.lastText ls last).length then ls
  else match style with
    | .crlf => ls ++ [last] ++ Style.crlf.lines (Style.crlf.staleText ls last)
    | .lf => Style.lf.before ls last ++ [Style.lf.lastText ls last]

theorem loadLines_openFile {style : Style} {ls : List (List Byte)} {last : List Byte}
    (hls : ∀ l ∈ ls ++ [last], style.Clean l) (hne : last ≠ []) :
    loadLines (style.openFile ls last) = style.seen ls last := by
  unfold Style.seen
  split
  · rename_i hfull
    exact loadLines_full hls hne hfull
  · rename_i hshort
    cases style with
    | crlf => exact loadLines_crlf hls hne (Nat.not_le.mp hshort)
    | lf => exact loadLines_lf hls hne (Nat.not_le.mp hshort)

/-- A name is lost, or one is new. -/
theorem view_of_newName (env : Env) {style : Style} {ls : List (List Byte)} {last : List Byte}
    (hls : ∀ l ∈ ls ++ [last], style.Clean l) (hne : last ≠ [])
    (h : NewName env (ls ++ [last]) (style.seen ls last) ∨
      NewName env (style.seen ls last) (ls ++ [last]))
    (hload : (Store.fresh.load env (style.openFile ls last ++ style.term)).isSome) :
    (Store.fresh.load env (style.openFile ls last)).map (·.1.view) ≠
      (Store.fresh.load env (style.openFile ls last ++ style.term)).map (·.1.view) := by
  obtain ⟨⟨t, b⟩, ht⟩ := Option.isSome_iff_exists.mp hload
  rw [ht, Store.load, loadLines_openFile hls hne]
  rw [load_openFile_term env hls] at ht
  cases hs : run (applyLine env) Store.fresh (style.seen ls last) with
  | none => rintro ⟨⟩
  | some r =>
    intro heq
    have hnames : r.1.names = t.names := by
      have hview : r.1.view = t.view := Option.some.inj heq
      have hmap : ∀ s : Store, s.names = s.view.map Prod.fst := by
        intro s
        rw [Store.names, Store.view, List.map_map]
        rfl
      rw [hmap, hmap, hview]
    rcases h with hlost | hadded
    · exact Store.names_ne_of_newName hlost ht hs hnames.symm
    · exact Store.names_ne_of_newName hadded hs ht hnames

/-- Loading a file gives the same entries with and without the end of its last line if nothing is
lost, comes again or is joined that has an `=`, and others if the names of the lines that are loaded
are others. -/
theorem final_line_end_optional (env : Env) (style : Style) (ls : List (List Byte))
    (last : List Byte) (hls : ∀ l ∈ ls ++ [last], style.Clean l) (hne : last ≠ []) :
    (Undisturbed env style ls last →
      (Store.fresh.load env (style.openFile ls last)).map (·.1.view) =
        (Store.fresh.load env (style.openFile ls last ++ style.term)).map (·.1.view)) ∧
    (NewName env (ls ++ [last]) (style.seen ls last) ∨
        NewName env (style.seen ls last) (ls ++ [last]) →
      (Store.fresh.load env (style.openFile ls last ++ style.term)).isSome →
      (Store.fresh.load env (style.openFile ls last)).map (·.1.view) ≠
        (Store.fresh.load env (style.openFile ls last ++ style.term)).map (·.1.view)) :=
  ⟨view_of_undisturbed env hls hne, view_of_newName env hls hne⟩

theorem clean_two (style : Style) :
    ∀ l ∈ [[ch 'a', ch '=', ch '1']] ++ [[ch 'b', ch '=', ch '2']], style.Clean l := by
  intro l hl
  simp only [List.cons_append, List.nil_append, List.mem_cons, List.not_mem_nil, or_false] at hl
  rcases hl with rfl | rfl
  · exact ⟨by decide, by decide, fun _ => by decide, by decide⟩
  · exact ⟨by decide, by decide, fun _ => by decide, by decide⟩

/-- 1024 bytes up to the value of the last line, which is `k=5`. -/
def twoReads : List (List Byte) :=
  [List.replicate 1000 (ch 'x'), "abc=12345678".toList.map ch, "zz=9".toList.map ch]

def lastOfTwo : List Byte := "k=5".toList.map ch

theorem clean_twoReads : ∀ l ∈ twoReads ++ [lastOfTwo], Style.crlf.Clean l := by
  simp only [twoReads, List.cons_append, List.nil_append, List.forall_mem_cons]
  refine ⟨⟨?_, ?_, nofun, ?_⟩, ⟨by decide, by decide, nofun, by decide⟩,
    ⟨by decide, by decide, nofun, by decide⟩, ⟨by decide, by decide, nofun, by decide⟩, nofun⟩
  · exact fun h => absurd (List.mem_replicate.mp h).2 (by decide)
  · exact fun h => absurd (List.mem_replicate.mp h).2 (by decide)
  · rw [List.length_replicate]

theorem otherName_replicate (name : List Byte) (n : Nat) :
    OtherName Env.sample name (List.replicate n (ch 'x')) := by
  intro m w hcall
  have hsilent : ch '=' ∉ List.replicate n (ch 'x') :=
    fun h => absurd (List.mem_replicate.mp h).2 (by decide)
  rw [lineCall_of_not_mem hsilent] at hcall
  cases hcall

theorem repeats_twoReads :
    Repeats Env.sample (twoReads ++ [lastOfTwo]) ("abc=12345678".toList.map ch) ∧
      Repeats Env.sample (twoReads ++ [lastOfTwo]) ("zz=9".toList.map ch) := by
  constructor
  · refine ⟨_, _, _, [List.replicate 1000 (ch 'x')], _, ["zz=9".toList.map ch, lastOfTwo], rfl, rfl,
      rfl, rfl, ?_⟩
    simp only [List.cons_append, List.nil_append, List.forall_mem_cons]
    refine ⟨otherName_replicate _ _, ?_, ?_, nofun⟩
    · intro n w heq
      cases heq
      decide
    · intro n w heq
      cases heq
      decide
  · refine ⟨_, _, _, [List.replicate 1000 (ch 'x'), "abc=12345678".toList.map ch], _, [lastOfTwo],
      rfl, rfl, rfl, rfl, ?_⟩
    simp only [List.cons_append, List.nil_append, List.forall_mem_cons]
    refine ⟨otherName_replicate _ _, ?_, ?_, nofun⟩
    · intro n w heq
      cases heq
      decide
    · intro n w heq
      cases heq
      decide

theorem undisturbed_twoReads : Undisturbed Env.sample .crlf twoReads lastOfTwo := by
  have hshort : (Style.crlf.lastText twoReads lastOfTwo).length < 1022 := by decide +kernel
  have hstale : Style.crlf.lines (Style.crlf.staleText twoReads lastOfTwo) =
      [List.replicate 995 (ch 'x'), "abc=12345678".toList.map ch, "zz=9".toList.map ch] := by
    decide +kernel
  have hsilent : ch '=' ∉ List.replicate 995 (ch 'x') :=
    fun h => absurd (List.mem_replicate.mp h).2 (by decide)
  refine ⟨fun hfull => absurd hshort (Nat.not_lt.mpr hfull), ?_, nofun⟩
  intro _ _ line hline
  rw [hstale, List.mem_cons, List.mem_cons, List.mem_singleton] at hline
  rcases hline with rfl | rfl | rfl
  · exact .inl hsilent
  · exact .inr repeats_twoReads.1
  · exact .inr repeats_twoReads.2

theorem newName_lf : NewName Env.sample ([[ch 'a', ch '=', ch '1']] ++ [[ch 'b', ch '=', ch '2']])
    (Style.lf.seen [[ch 'a', ch '=', ch '1']] [ch 'b', ch '=', ch '2']) := by
  have hseen : Style.lf.seen [[ch 'a', ch '=', ch '1']] [ch 'b', ch '=', ch '2'] =
      [[ch 'a', ch '=', ch '1', lf, ch 'b', ch '=', ch '2']] := by decide +kernel
  refine ⟨[ch 'b', ch '=', ch '2'], by decide, [ch 'b'], .int 2, by decide, ?_⟩
  rw [hseen, List.forall_mem_singleton]
  intro n w heq
  cases heq
  decide

/-- Behind the last line three lines of the first read come again; and with bare line feeds the
name of the last line is lost. -/
theorem final_line_end_optional_two_reads :
    (Store.fresh.load Env.sample (Style.crlf.openFile twoReads lastOfTwo)).map (·.1.view) =
        (Store.fresh.load Env.sample
          (Style.crlf.openFile twoReads lastOfTwo ++ Style.crlf.term)).map (·.1.view) ∧
      (Store.fresh.load Env.sample
          (Style.lf.openFile [[ch 'a', ch '=', ch '1']] [ch 'b', ch '=', ch '2'])).map (·.1.view) ≠
        (Store.fresh.load Env.sample (Style.lf.openFile [[ch 'a', ch '=', ch '1']]
          [ch 'b', ch '=', ch '2'] ++ Style.lf.term)).map (·.1.view) := by
  have hne : lastOfTwo ≠ [] := by decide
  have hload : (Store.fresh.load Env.sample (Style.lf.openFile [[ch 'a', ch '=', ch '1']]
      [ch 'b', ch '=', ch '2'] ++ Style.lf.term)).isSome := by decide +kernel
  exact ⟨(final_line_end_optional Env.sample .crlf twoReads lastOfTwo clean_twoReads hne).1
      undisturbed_twoReads,
    (final_line_end_optional Env.sample .lf [[ch 'a', ch '=', ch '1']] [ch 'b', ch '=', ch '2']
      (clean_two .lf) (by decide)).2 (.inl newName_lf) hload⟩

/-- `a=1`, `b=2` with bare line feeds: there is one entry, `a`, with the rest of the file as its
value. -/
theorem final_line_end_lf :
    (Store.fresh.load Env.sample
        (Style.lf.openFile [[ch 'a', ch '=', ch '1']] [ch 'b', ch '=', ch '2'])).map (·.1.view) ≠
      (Store.fresh.load Env.sample (Style.lf.openFile [[ch 'a', ch '=', ch '1']]
        [ch 'b', ch '=', ch '2'] ++ Style.lf.term)).map (·.1.view) := by
  rw [load_openFile_term _ (clean_two .lf), Store.load,
    loadLines_lf (clean_two .lf) (by decide) (by decide)]
  decide

end EventServer.Config
