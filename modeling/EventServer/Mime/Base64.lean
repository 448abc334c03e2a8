import EventServer.Mime.Filter
import EventServer.Lib.CString
import Mathlib.Logic.Function.Basic

/-!
# Base64 filters

`b64` and `unb64` of `mime.c`. Four characters carry three bytes; the decoder
skips every character that carries nothing.
-/
namespace EventServer.Mime

open EventServer.Lib.CString EventServer.Lib.Machine EventServer.Stream

def b64base : List Byte :=
  lit "ABCDEFGHIJKLMNOPQRSTUVWXYZabcdefghijklmnopqrstuvwxyz0123456789+/".toList

/-- `b64unbase` as `b64setup` fills it. -/
def b64unbase : Byte → Byte :=
  let filled := (List.range 64).foldl
    (fun b64unbase i => Function.update b64unbase (b64base.getD i 0) (BitVec.ofNat 8 i)) fun _ => 255
  Function.update filled (chr '=') 0

def b64encode (input : List Byte) (c : Byte) : List Byte × List Byte :=
  match input ++ [c] with
  | [input0, input1, input2] =>
    let value := input0.toNat <<< 8
    let value := (value + input1.toNat) <<< 8
    let value := value + input2.toNat
    let code3 := b64base.getD (value &&& 0x3f) 0
    let value := value >>> 6
    let code2 := b64base.getD (value &&& 0x3f) 0
    let value := value >>> 6
    let code1 := b64base.getD (value &&& 0x3f) 0
    let value := value >>> 6
    let code0 := b64base.getD value 0
    ([], [code0, code1, code2, code3])
  | input => (input, [])

/-- What `b64pad` appends. -/
def b64pad : List Byte → List Byte
  | [input0] =>
    let value := input0.toNat <<< 4
    let code1 := b64base.getD (value &&& 0x3f) 0
    let code0 := b64base.getD (value >>> 6) 0
    [code0, code1, chr '=', chr '=']
  | [input0, input1] =>
    let value := input0.toNat <<< 8
    let value := (value ||| input1.toNat) <<< 2
    let code2 := b64base.getD (value &&& 0x3f) 0
    let value := value >>> 6
    let code1 := b64base.getD (value &&& 0x3f) 0
    let code0 := b64base.getD (value >>> 6) 0
    [code0, code1, code2, chr '=']
  | _ => []

def b64decode (input : List Byte) (c : Byte) : List Byte × List Byte :=
  if (b64unbase c).toNat > 64 then (input, [])
  else
    match input ++ [c] with
    | [input0, input1, input2, input3] =>
      let value := (b64unbase input0).toNat <<< 6
      let value := (value ||| (b64unbase input1).toNat) <<< 6
      let value := (value ||| (b64unbase input2).toNat) <<< 6
      let value := value ||| (b64unbase input3).toNat
      let decoded2 := BitVec.ofNat 8 (value &&& 0xff)
      let value := value >>> 8
      let decoded1 := BitVec.ofNat 8 (value &&& 0xff)
      let decoded0 := BitVec.ofNat 8 (value >>> 8)
      let valid := if input2 = chr '=' then 1 else if input3 = chr '=' then 2 else 3
      ([], [decoded0, decoded1, decoded2].take valid)
    | input => (input, [])

def mimeGlobalB64 := filter b64encode b64pad

def mimeGlobalUnb64 := filter b64decode fun _ => []

/-- The encoded text, three bytes at a time. -/
def encoded : List Byte → List Byte
  | a :: b :: c :: text => (b64encode [a, b] c).2 ++ encoded text
  | text => b64pad text

/-- Characters that the decoder skips. -/
def skipped (c : Byte) : Bool := (b64unbase c).toNat > 64

/-! ## The tables -/

theorem b64unbase_b64base {v : Nat} (hv : v < 64) :
    b64unbase (b64base.getD v 0) = BitVec.ofNat 8 v := by
  revert v
  decide +kernel

theorem b64base_ne_pad {v : Nat} (hv : v < 64) : b64base.getD v 0 ≠ chr '=' := by
  revert v
  decide +kernel

theorem b64base_ne_zero {v : Nat} (hv : v < 64) : b64base.getD v 0 ≠ 0 := by
  revert v
  decide +kernel

theorem toNat_b64unbase {v : Nat} (hv : v < 64) : (b64unbase (b64base.getD v 0)).toNat = v := by
  rw [b64unbase_b64base hv, BitVec.toNat_ofNat, Nat.mod_eq_of_lt (by omega)]

theorem b64unbase_pad : (b64unbase (chr '=')).toNat = 0 := by
  decide +kernel

/-! ## What is held back -/

theorem b64decode_hold {input : List Byte} (h : input.length < 3) {c : Byte}
    (hc : (b64unbase c).toNat ≤ 64) : b64decode input c = (input ++ [c], []) := by
  have hskip : ¬(b64unbase c).toNat > 64 := Nat.not_lt.mpr hc
  match input, h with
  | [], _ => rw [b64decode, if_neg hskip]; rfl
  | [_], _ => rw [b64decode, if_neg hskip]; rfl
  | [_, _], _ => rw [b64decode, if_neg hskip]; rfl

theorem b64decode_skip (input : List Byte) {c : Byte} (hc : skipped c) :
    b64decode input c = (input, []) := by
  rw [b64decode, if_pos (by simpa [skipped] using hc)]

/-- What the encoder may hold back. -/
def Short (p : List Byte) : Prop := p.length ≤ 2

/-- What the decoder may hold back. -/
structure Pending (p : List Byte) : Prop where
  length_le : p.length ≤ 3
  valid : ∀ c ∈ p, (b64unbase c).toNat ≤ 64

theorem short_nil : Short [] := Nat.zero_le 2

theorem pending_nil : Pending [] := ⟨Nat.zero_le 3, List.forall_mem_nil _⟩

theorem short_b64encode (p : List Byte) (c : Byte) (hp : Short p) : Short (b64encode p c).1 := by
  match p, hp with
  | [], _ => simp [b64encode, Short]
  | [_], _ => simp [b64encode, Short]
  | [_, _], _ => simp [b64encode, Short]

theorem reread_b64encode (p : List Byte) (hp : Short p) : run b64encode [] p = (p, []) := by
  match p, hp with
  | [], _ => rfl
  | [_], _ => rfl
  | [_, _], _ => rfl

theorem pending_b64decode (p : List Byte) (c : Byte) (hp : Pending p) :
    Pending (b64decode p c).1 := by
  by_cases hc : (b64unbase c).toNat > 64
  · rw [b64decode, if_pos hc]
    exact hp
  · by_cases hlen : p.length < 3
    · rw [b64decode_hold hlen (Nat.not_lt.mp hc)]
      refine ⟨by simp only [List.length_append, List.length_singleton]; omega, ?_⟩
      intro x hx
      rcases List.mem_append.mp hx with hx | hx
      · exact hp.valid x hx
      · rw [List.mem_singleton.mp hx]
        exact Nat.not_lt.mp hc
    · obtain ⟨a, b, d, rfl⟩ := List.length_eq_three.mp
        (Nat.le_antisymm hp.length_le (Nat.not_lt.mp hlen))
      rw [b64decode, if_neg hc]
      exact ⟨Nat.zero_le 3, by simp⟩

/-- Valid characters are held back until there are four. -/
theorem run_b64decode_hold {p q : List Byte} (hlen : (p ++ q).length ≤ 3)
    (hq : ∀ c ∈ q, (b64unbase c).toNat ≤ 64) : run b64decode p q = (p ++ q, []) := by
  induction q generalizing p with
  | nil => rw [run_nil, List.append_nil]
  | cons c q ih =>
    rw [List.length_append, List.length_cons] at hlen
    rw [run_cons, b64decode_hold (by omega) (hq c List.mem_cons_self),
      ih (by simp only [List.length_append, List.length_singleton]; omega)
        (fun d hd => hq d (List.mem_cons_of_mem c hd)), List.append_assoc]
    rfl

theorem reread_b64decode (p : List Byte) (hp : Pending p) : run b64decode [] p = (p, []) :=
  run_b64decode_hold hp.length_le hp.valid

/-! ## Four characters -/

/-- Four characters that carry digits are read together. -/
theorem run_b64decode_four {c0 c1 c2 c3 : Byte} (h0 : (b64unbase c0).toNat ≤ 64)
    (h1 : (b64unbase c1).toNat ≤ 64) (h2 : (b64unbase c2).toNat ≤ 64) :
    run b64decode [] [c0, c1, c2, c3] = b64decode [c0, c1, c2] c3 := by
  have hold : run b64decode [] [c0, c1, c2] = ([c0, c1, c2], []) :=
    run_b64decode_hold (p := []) (Nat.le_refl 3) (by simp [h0, h1, h2])
  rw [show [c0, c1, c2, c3] = [c0, c1, c2] ++ [c3] from rfl, run_append, hold, run_singleton]
  rfl

theorem shift_or {v d : Nat} (hd : d < 64) : v <<< 6 ||| d = v * 64 + d := by
  rw [← Nat.shiftLeft_add_eq_or_of_lt hd, Nat.shiftLeft_eq]

theorem mask_six (v : Nat) : v &&& 0x3f = v % 64 := Nat.and_two_pow_sub_one_eq_mod v 6

theorem shift_six (v : Nat) : v >>> 6 = v / 64 := Nat.shiftRight_eq_div_pow v 6

theorem mask_eight (v : Nat) : v &&& 0xff = v % 256 := Nat.and_two_pow_sub_one_eq_mod v 8

theorem shift_eight (v : Nat) : v >>> 8 = v / 256 := Nat.shiftRight_eq_div_pow v 8

/-- The digit of a number below 64. -/
def digit (v : Nat) : Byte := b64base.getD v 0

theorem b64encode_three (a b c : Byte) :
    b64encode [a, b] c = ([], [digit (a.toNat / 4), digit (a.toNat % 4 * 16 + b.toNat / 16),
      digit (b.toNat % 16 * 4 + c.toNat / 64), digit (c.toNat % 64)]) := by
  have hb := b.isLt
  have hc := c.isLt
  simp only [b64encode, List.cons_append, List.nil_append, mask_six, shift_six, Nat.shiftLeft_eq,
    Prod.mk.injEq, List.cons.injEq, digit, true_and, and_true]
  refine ⟨congrArg (b64base.getD · 0) ?_, congrArg (b64base.getD · 0) ?_,
    congrArg (b64base.getD · 0) ?_, congrArg (b64base.getD · 0) ?_⟩
  all_goals omega

theorem b64pad_one (a : Byte) :
    b64pad [a] = [digit (a.toNat / 4), digit (a.toNat % 4 * 16), chr '=', chr '='] := by
  simp only [b64pad, mask_six, shift_six, Nat.shiftLeft_eq, List.cons.injEq, digit, and_true]
  refine ⟨congrArg (b64base.getD · 0) ?_, congrArg (b64base.getD · 0) ?_⟩
  all_goals omega

theorem b64pad_two (a b : Byte) :
    b64pad [a, b] = [digit (a.toNat / 4), digit (a.toNat % 4 * 16 + b.toNat / 16),
      digit (b.toNat % 16 * 4), chr '='] := by
  have hb := b.isLt
  have hor : a.toNat * 2 ^ 8 ||| b.toNat = a.toNat * 2 ^ 8 + b.toNat := by
    rw [← Nat.shiftLeft_eq, ← Nat.shiftLeft_add_eq_or_of_lt hb]
  simp only [b64pad, mask_six, shift_six, Nat.shiftLeft_eq, hor, List.cons.injEq, digit, and_true]
  refine ⟨congrArg (b64base.getD · 0) ?_, congrArg (b64base.getD · 0) ?_,
    congrArg (b64base.getD · 0) ?_⟩
  all_goals omega

/-- Three bytes of four digits; the last two characters may be padding. -/
theorem b64decode_four {c0 c1 c2 c3 : Byte} {d0 d1 d2 d3 : Nat} (h0 : (b64unbase c0).toNat = d0)
    (h1 : (b64unbase c1).toNat = d1) (h2 : (b64unbase c2).toNat = d2)
    (h3 : (b64unbase c3).toNat = d3) (hd1 : d1 < 64) (hd2 : d2 < 64) (hd3 : d3 < 64) :
    b64decode [c0, c1, c2] c3 = ([], [BitVec.ofNat 8 (d0 * 4 + d1 / 16),
      BitVec.ofNat 8 (d1 * 16 + d2 / 4), BitVec.ofNat 8 (d2 * 64 + d3)].take
        (if c2 = chr '=' then 1 else if c3 = chr '=' then 2 else 3)) := by
  subst h0 h1 h2 h3
  rw [b64decode, if_neg (by omega)]
  simp only [List.cons_append, List.nil_append, shift_or hd1, shift_or hd2, shift_or hd3,
    mask_eight, shift_eight]
  congr 3
  · congr 1
    omega
  · congr 1
    · apply BitVec.eq_of_toNat_eq
      simp only [BitVec.toNat_ofNat]
      omega
    · congr 1
      apply BitVec.eq_of_toNat_eq
      simp only [BitVec.toNat_ofNat]
      omega

theorem toNat_digit {v : Nat} (hv : v < 64) : (b64unbase (digit v)).toNat = v := toNat_b64unbase hv

theorem run_b64decode_three (a b c : Byte) :
    run b64decode [] (b64encode [a, b] c).2 = ([], [a, b, c]) := by
  have ha := a.isLt
  have hb := b.isLt
  have hc := c.isLt
  have h0 := toNat_digit (v := a.toNat / 4) (by omega)
  have h1 := toNat_digit (v := a.toNat % 4 * 16 + b.toNat / 16) (by omega)
  have h2 := toNat_digit (v := b.toNat % 16 * 4 + c.toNat / 64) (by omega)
  have h3 := toNat_digit (v := c.toNat % 64) (by omega)
  have hpad2 : digit (b.toNat % 16 * 4 + c.toNat / 64) ≠ chr '=' := b64base_ne_pad (by omega)
  have hpad3 : digit (c.toNat % 64) ≠ chr '=' := b64base_ne_pad (by omega)
  rw [b64encode_three, run_b64decode_four (by omega) (by omega) (by omega),
    b64decode_four h0 h1 h2 h3 (by omega) (by omega) (by omega), if_neg hpad2, if_neg hpad3]
  simp only [List.take_succ_cons, List.take_zero, Prod.mk.injEq, List.cons.injEq, true_and, and_true]
  refine ⟨?_, ?_, ?_⟩
  all_goals
    apply BitVec.eq_of_toNat_eq
    simp only [BitVec.toNat_ofNat]
    omega

theorem run_b64decode_two (a b : Byte) : run b64decode [] (b64pad [a, b]) = ([], [a, b]) := by
  have ha := a.isLt
  have hb := b.isLt
  have h0 := toNat_digit (v := a.toNat / 4) (by omega)
  have h1 := toNat_digit (v := a.toNat % 4 * 16 + b.toNat / 16) (by omega)
  have h2 := toNat_digit (v := b.toNat % 16 * 4) (by omega)
  have hpad2 : digit (b.toNat % 16 * 4) ≠ chr '=' := b64base_ne_pad (by omega)
  rw [b64pad_two, run_b64decode_four (by omega) (by omega) (by omega),
    b64decode_four h0 h1 h2 b64unbase_pad (by omega) (by omega) (by omega), if_neg hpad2,
    if_pos rfl]
  simp only [List.take_succ_cons, List.take_zero, Prod.mk.injEq, List.cons.injEq, true_and, and_true]
  refine ⟨?_, ?_⟩
  all_goals
    apply BitVec.eq_of_toNat_eq
    simp only [BitVec.toNat_ofNat]
    omega

theorem run_b64decode_one (a : Byte) : run b64decode [] (b64pad [a]) = ([], [a]) := by
  have ha := a.isLt
  have h0 := toNat_digit (v := a.toNat / 4) (by omega)
  have h1 := toNat_digit (v := a.toNat % 4 * 16) (by omega)
  have hpad := b64unbase_pad
  rw [b64pad_one, run_b64decode_four (by omega) (by omega) (by omega),
    b64decode_four h0 h1 hpad hpad (by omega) (by omega) (by omega), if_pos rfl]
  simp only [List.take_succ_cons, List.take_zero, Prod.mk.injEq, List.cons.injEq, true_and, and_true]
  apply BitVec.eq_of_toNat_eq
  simp only [BitVec.toNat_ofNat]
  omega

/-! ## Whole texts -/

theorem run_b64encode (text : List Byte) :
    (run b64encode [] text).2 ++ b64pad (run b64encode [] text).1 = encoded text := by
  induction text using encoded.induct with
  | case1 a b c text ih =>
    have hthree : run b64encode [] [a, b, c] = ([], (b64encode [a, b] c).2) := rfl
    rw [show a :: b :: c :: text = [a, b, c] ++ text from rfl, run_append, hthree,
      List.append_assoc, ih]
    rfl
  | case2 text htext =>
    match text, htext with
    | [], _ => rfl
    | [_], _ => rfl
    | [_, _], _ => rfl
    | a :: b :: c :: text, htext => exact absurd rfl (htext a b c text)

theorem run_b64decode_encoded (text : List Byte) : run b64decode [] (encoded text) = ([], text) := by
  induction text using encoded.induct with
  | case1 a b c text ih =>
    rw [encoded, run_append, run_b64decode_three, ih]
    rfl
  | case2 text htext =>
    match text, htext with
    | [], _ => rfl
    | [a], _ => exact run_b64decode_one a
    | [a, b], _ => exact run_b64decode_two a b
    | a :: b :: c :: text, htext => exact absurd rfl (htext a b c text)

/-- Only the empty text is encoded as nothing. -/
theorem encoded_headD (text : List Byte) (h : (encoded text).headD 0 = 0) : text = [] := by
  match text with
  | [] => rfl
  | [a] =>
    change (b64pad [a]).headD 0 = 0 at h
    rw [b64pad_one] at h
    exact absurd h (b64base_ne_zero (by have := a.isLt; omega))
  | [a, b] =>
    change (b64pad [a, b]).headD 0 = 0 at h
    rw [b64pad_two] at h
    exact absurd h (b64base_ne_zero (by have := a.isLt; omega))
  | a :: b :: c :: text =>
    rw [encoded, b64encode_three] at h
    exact absurd h (b64base_ne_zero (by have := a.isLt; omega))

theorem not_skipped_digit {v : Nat} (hv : v < 64) : skipped (digit v) = false := by
  have h := toNat_digit hv
  simp only [skipped, h, decide_eq_false_iff_not]
  omega

theorem not_skipped_pad : skipped (chr '=') = false := by decide +kernel

/-- The encoder makes no character that the decoder skips. -/
theorem not_skipped_encoded (text : List Byte) : ∀ c ∈ encoded text, skipped c = false := by
  induction text using encoded.induct with
  | case1 a b c text ih =>
    have ha := a.isLt
    have hb := b.isLt
    have hc := c.isLt
    rw [encoded, b64encode_three]
    simp only [List.cons_append, List.nil_append, List.forall_mem_cons]
    exact ⟨not_skipped_digit (by omega), not_skipped_digit (by omega),
      not_skipped_digit (by omega), not_skipped_digit (by omega), ih⟩
  | case2 text htext =>
    match text, htext with
    | [], _ => exact List.forall_mem_nil _
    | [a], _ =>
      have ha := a.isLt
      change ∀ c ∈ b64pad [a], skipped c = false
      rw [b64pad_one]
      simp only [List.forall_mem_cons]
      exact ⟨not_skipped_digit (by omega), not_skipped_digit (by omega), not_skipped_pad,
        not_skipped_pad, List.forall_mem_nil _⟩
    | [a, b], _ =>
      have ha := a.isLt
      have hb := b.isLt
      change ∀ c ∈ b64pad [a, b], skipped c = false
      rw [b64pad_two]
      simp only [List.forall_mem_cons]
      exact ⟨not_skipped_digit (by omega), not_skipped_digit (by omega),
        not_skipped_digit (by omega), not_skipped_pad, List.forall_mem_nil _⟩
    | a :: b :: c :: text, htext => exact absurd rfl (htext a b c text)

theorem pump_b64 (pieces : List (List Byte)) :
    pump mimeGlobalB64 (some []) pieces = encoded pieces.flatten := by
  have hshort : Short (run b64encode [] pieces.flatten).1 :=
    run_keeps short_b64encode short_nil pieces.flatten
  rw [mimeGlobalB64, pump_filter short_b64encode reread_b64encode short_nil, lastResult_getD,
    run_b64encode]
  generalize (run b64encode [] pieces.flatten).1 = p at hshort
  intro h
  match p, hshort with
  | [], _ => rfl
  | [a], _ => exact absurd (encoded_headD [a] h) (by simp)
  | [a, b], _ => exact absurd (encoded_headD [a, b] h) (by simp)

theorem pump_unb64 (pieces : List (List Byte)) :
    pump mimeGlobalUnb64 (some []) pieces = (run b64decode [] pieces.flatten).2 := by
  rw [mimeGlobalUnb64, pump_filter pending_b64decode reread_b64decode pending_nil]
  exact List.append_nil _

/-- A text encoded in any pieces, to which characters that carry nothing were added and which
was cut again anywhere, is decoded to itself. -/
theorem unb64_b64 (pieces sent : List (List Byte))
    (h : sent.flatten.filter (!skipped ·) = pump mimeGlobalB64 (some []) pieces) :
    pump mimeGlobalUnb64 (some []) sent = pieces.flatten := by
  rw [pump_unb64, run_ignore (fun s c => b64decode_skip s), h, pump_b64, run_b64decode_encoded]

theorem unb64_b64_lines :
    pump mimeGlobalUnb64 (some []) [lit "A".toList, lit "GI".toList ++ [13, 10], lit "=".toList] =
      [0, 98] :=
  unb64_b64 [[0], [98]] [lit "A".toList, lit "GI".toList ++ [13, 10], lit "=".toList]
    (by decide +kernel)

end EventServer.Mime
