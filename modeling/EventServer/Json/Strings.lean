import EventServer.Json.Encode

/-!
# Strings there and back

Every byte, as the encoder writes it, is read by the decoder as that byte, also where the bytes
are not text in any encoding.
-/
namespace EventServer.Json

open EventServer.Lib.CString EventServer.Stream

def written (c : Byte) (i : Nat) : Byte := ((char2escape c).getD []).getD i 0

/-- A byte is written as itself, with a backslash, or as a code point. -/
theorem char2escape_cases (c : Byte) :
    (char2escape c = none ∧ c ≠ chr '"' ∧ c ≠ 0 ∧ c ≠ chr '\\') ∨
      (∃ e, char2escape c = some [chr '\\', e] ∧ escape2char e = c ∧ c ≠ chr 'u' ∧ c ≠ 0) ∨
      ∃ x y, char2escape c = some [chr '\\', chr 'u', chr '0', chr '0', x, y] ∧
        decodeHex4 [chr '0', chr '0', x, y] = some c.toNat ∧ c.toNat < 128 := by
  have hall : ∀ c : Byte,
      (char2escape c = none ∧ c ≠ chr '"' ∧ c ≠ 0 ∧ c ≠ chr '\\') ∨
        (char2escape c = some [chr '\\', written c 1] ∧ escape2char (written c 1) = c ∧
          c ≠ chr 'u' ∧ c ≠ 0) ∨
        (char2escape c =
            some [chr '\\', chr 'u', chr '0', chr '0', written c 4, written c 5] ∧
          decodeHex4 [chr '0', chr '0', written c 4, written c 5] = some c.toNat ∧
          c.toNat < 128) := by
    decide +kernel
  rcases hall c with h | h | h
  · exact Or.inl h
  · exact Or.inr (Or.inl ⟨_, h⟩)
  · exact Or.inr (Or.inr ⟨_, _, h⟩)

/-- A code point below 128 is one byte. -/
theorem unicodeEscape_small {x y c : Byte} (hhex : decodeHex4 [chr '0', chr '0', x, y] = some c.toNat)
    (hc : c.toNat < 128) (rest : List Byte) :
    unicodeEscape (chr '\\' :: chr 'u' :: chr '0' :: chr '0' :: x :: y :: rest) = some ([c], 6) := by
  have hhex' : decodeHex4 (chr '0' :: chr '0' :: x :: y :: rest) = some c.toNat := hhex
  have hplane : ¬c.toNat &&& 0xF800 = 0xD800 := by
    have hle : c.toNat &&& 0xF800 ≤ c.toNat := Nat.and_le_left
    omega
  have hutf8 : codepointToUtf8 c.toNat = [c] := by
    rw [codepointToUtf8, if_pos (by omega), BitVec.ofNat_toNat, BitVec.setWidth_eq]
  rw [unicodeEscape]
  simp only [List.drop_succ_cons, List.drop_zero, hhex', Option.bind_eq_bind, Option.bind_some,
    if_neg hplane, hutf8, if_neg (List.cons_ne_nil c [])]

/-- The loop takes one byte. -/
theorem stringLoop_escape (c : Byte) (rest tmp : List Byte) :
    stringLoop ((char2escape c).getD [c] ++ rest) tmp = stringLoop rest (tmp ++ [c]) := by
  have hquote : chr '\\' ≠ chr '"' := by decide
  have hzero : chr '\\' ≠ 0 := by decide
  rcases char2escape_cases c with ⟨h, hq, hz, hb⟩ | ⟨e, h, he, hu, hz⟩ | ⟨x, y, h, hhex, hc⟩
  · rw [h, Option.getD_none, List.singleton_append, stringLoop, if_neg hq, if_neg hz, if_neg hb]
  · rw [h, Option.getD_some, List.cons_append, List.singleton_append, stringLoop, if_neg hquote,
      if_neg hzero, if_pos rfl]
    simp only [List.headD_cons, he, if_neg hu, if_neg hz, List.tail_cons]
  · have hesc : escape2char (chr 'u') = chr 'u' := by decide
    have hrest : [chr '\\', chr 'u', chr '0', chr '0', x, y] ++ rest =
        chr '\\' :: chr 'u' :: chr '0' :: chr '0' :: x :: y :: rest := rfl
    rw [h, Option.getD_some, hrest, stringLoop, if_neg hquote, if_neg hzero, if_pos rfl]
    simp only [List.headD_cons, hesc, if_true, unicodeEscape_small hhex hc rest]
    rfl

theorem stringLoop_escaped (str rest tmp : List Byte) :
    stringLoop (escape str ++ chr '"' :: rest) tmp = .ok (tmp ++ str, rest) := by
  induction str generalizing tmp with
  | nil =>
    rw [escape, List.flatMap_nil, List.nil_append, stringLoop, if_pos rfl, List.append_nil]
  | cons c str ih =>
    have hcons : escape (c :: str) = (char2escape c).getD [c] ++ escape str := rfl
    rw [hcons, List.append_assoc, stringLoop_escape, ih, List.append_assoc, List.singleton_append]

variable {ν : Type}

/-- A string is read back at any place in a text. -/
theorem nextToken_appendString (num : NumberToken ν) (env : Env ν) (str rest : List Byte) :
    nextToken num env (appendString str ++ rest) = ⟨appendString str ++ rest, .string str, rest⟩ := by
  have htext : appendString str ++ rest = chr '"' :: (escape str ++ chr '"' :: rest) := by
    rw [appendString, List.cons_append, List.cons_append, List.append_assoc]
    rfl
  have hskip : skip (chr '"' :: (escape str ++ chr '"' :: rest)) =
      chr '"' :: (escape str ++ chr '"' :: rest) := List.dropWhile_cons_of_neg (by decide)
  have htype : ch2token (chr '"') = .unknown := by decide
  rw [htext, nextToken, hskip, List.headD_cons, htype]
  simp only [nextUnknown, List.headD_cons, if_true, List.tail_cons, stringLoop_escaped,
    List.nil_append]

end EventServer.Json
