import EventServer.Lib.Blocks
import EventServer.Lib.CInt
import EventServer.Lib.Utf8
import EventServer.Stream.IMemFile

/-!
# `set_char_zero`

A text that was cut off at some byte is shortened to its whole characters, whose
first bytes tell their lengths. The loop counts in `int`: the number of bytes comes
from a `size_t`, and the position behind the last character may be too large.
-/
namespace EventServer.Lua

open EventServer.Lib.Blocks EventServer.Lib.CInt EventServer.Lib.Utf8 EventServer.Stream

/-- The length of the character that begins with the byte; other bytes count for six. -/
def charSize (a : Byte) : Nat :=
  if a.toNat < 0x80 then 1
  else if 192 ≤ a.toNat ∧ a.toNat ≤ 223 then 2
  else if 224 ≤ a.toNat ∧ a.toNat ≤ 239 then 3
  else if 240 ≤ a.toNat ∧ a.toNat ≤ 247 then 4
  else if 248 ≤ a.toNat ∧ a.toNat ≤ 251 then 5
  else 6

theorem charSize_pos (a : Byte) : 0 < charSize a := by
  unfold charSize
  split_ifs <;> decide

theorem charSize_le (a : Byte) : charSize a ≤ 6 := by
  unfold charSize
  split_ifs <;> decide

/-- The loop: the offset it returns and the buffer it leaves. Undefined are an overflow and a read
or write outside the buffer. -/
def setCharZeroLoop (nLen : Int) (utf8Buf : List Byte) (offset : Nat) : Option (Nat × List Byte) :=
  if nLen > offset then do
    let a ← utf8Buf[offset]?
    let stop ← addInt offset (charSize a)
    if nLen < stop then
      let utf8Buf ← blit utf8Buf offset (List.replicate (nLen - offset).toNat 0)
      return (offset, utf8Buf)
    else setCharZeroLoop nLen utf8Buf (offset + charSize a)
  else some (offset, utf8Buf)
termination_by (nLen - offset).toNat
decreasing_by
  have hpos := charSize_pos a
  omega

def setCharZero (utf8Buf : List Byte) (nLen : Int) : Option (Nat × List Byte) :=
  setCharZeroLoop nLen utf8Buf 0

/-- `lua_set_char_zero()`: the string it pushes. -/
def luaSetCharZero (str : List Byte) : Option (List Byte) := do
  let (size, buff) ← setCharZero (str ++ [0]) (toInt32 str.length)
  return buff.take size

/-! ## The loop -/

theorem delimited_encode : Delimited encode charSize := by
  intro c
  obtain ⟨b, rest, he, hb⟩ := encode_cases c
  refine ⟨b, rest, he, ?_⟩
  unfold charSize
  split_ifs <;> omega

/-- The buffer with its bytes from `offset` up to `nLen` set to zero. -/
def zeroed (utf8Buf : List Byte) (offset nLen : Nat) : List Byte :=
  splice utf8Buf offset (List.replicate (nLen - offset) 0)

section Loop

variable {nLen : Nat} {buf : List Byte}

/-- One turn of the loop, in the terms of the walk over the first `nLen` bytes. -/
theorem setCharZeroLoop_step (hbuf : nLen ≤ buf.length) (hint : nLen < 2 ^ 31) {q : Nat} {a : Byte}
    (ha : (buf.take nLen)[q]? = some a) :
    setCharZeroLoop nLen buf q =
      if 2 ^ 31 ≤ q + charSize a then none
      else if nLen < q + charSize a then some (q, zeroed buf q nLen)
      else setCharZeroLoop nLen buf (q + charSize a) := by
  obtain ⟨hq, hbyte⟩ : q < nLen ∧ buf[q]? = some a := by
    rw [List.getElem?_take] at ha
    split at ha
    · next hq => exact ⟨hq, ha⟩
    · cases ha
  rw [setCharZeroLoop, if_pos (by omega), hbyte, Option.bind_eq_bind, Option.bind_some]
  by_cases hover : 2 ^ 31 ≤ q + charSize a
  · have hadd : addInt q (charSize a) = none := if_neg (by omega)
    rw [hadd, if_pos hover]
    rfl
  · have hadd : addInt q (charSize a) = some ((q : Int) + charSize a) :=
      addInt_of_fits (by omega) (by omega)
    rw [hadd, if_neg hover, Option.bind_eq_bind, Option.bind_some]
    by_cases hstop : nLen < q + charSize a
    · have hcount : ((nLen : Int) - q).toNat = nLen - q := by omega
      rw [if_pos (by omega), if_pos hstop, hcount, blit, if_pos (by rw [List.length_replicate]; omega)]
      rfl
    · rw [if_neg (by omega), if_neg hstop]

/-- The loop stops where the walk is stuck, or else a step leaves the range of `int`. -/
theorem setCharZeroLoop_cases (hbuf : nLen ≤ buf.length) (hint : nLen < 2 ^ 31) (q : Nat)
    (hq : q ≤ nLen) :
    (∃ p, Boundary charSize ((buf.take nLen).drop q) p ∧ Stuck charSize (buf.take nLen) (q + p) ∧
        (∀ b, (buf.take nLen)[q + p]? = some b → q + p + charSize b < 2 ^ 31) ∧
        setCharZeroLoop nLen buf q = some (q + p, zeroed buf (q + p) nLen)) ∨
      setCharZeroLoop nLen buf q = none ∧
        ∃ p b, Boundary charSize ((buf.take nLen).drop q) p ∧
          (buf.take nLen)[q + p]? = some b ∧ 2 ^ 31 ≤ q + p + charSize b := by
  have hlen : (buf.take nLen).length = nLen := List.length_take_of_le hbuf
  induction hn : nLen - q using Nat.strong_induction_on generalizing q with
  | _ n ih =>
    rcases hq.eq_or_lt with hend | hlt
    · -- The loop has come to the end.
      have hout : ∀ b, (buf.take nLen)[q + 0]? ≠ some b := by
        intro b hb
        rw [List.getElem?_eq_none (by omega)] at hb
        cases hb
      refine .inl ⟨0, .start _, fun b hb => absurd hb (hout b), fun b hb => absurd hb (hout b), ?_⟩
      rw [setCharZeroLoop, if_neg (by omega), zeroed, Nat.sub_eq_zero_of_le (by omega),
        List.replicate_zero, splice_nil, Nat.add_zero]
    · obtain ⟨a, ha⟩ : ∃ a, (buf.take nLen)[q]? = some a :=
        ⟨_, List.getElem?_eq_getElem (by omega)⟩
      have hpos := charSize_pos a
      have hfirst : ∀ b, (buf.take nLen)[q + 0]? = some b → a = b := fun b hb =>
        Option.some.inj (ha.symm.trans hb)
      rw [setCharZeroLoop_step hbuf hint ha]
      split
      · next hover => exact .inr ⟨rfl, 0, a, .start _, ha, hover⟩
      · split
        · next hstop =>
          refine .inl ⟨0, .start _, fun b hb => ?_, fun b hb => ?_, rfl⟩
          · obtain rfl := hfirst b hb
            omega
          · obtain rfl := hfirst b hb
            omega
        · have hfit : q + charSize a ≤ nLen := by omega
          have hgo : ∀ {p}, Boundary charSize ((buf.take nLen).drop (q + charSize a)) p →
              Boundary charSize ((buf.take nLen).drop q) (charSize a + p) :=
            fun hp => .step_drop ha (by omega) hp
          rcases ih (nLen - (q + charSize a)) (by omega) (q + charSize a) hfit rfl with
            ⟨p, hp, hstuck, hsafe, he⟩ | ⟨he, p, b, hp, hb, hover⟩
          · rw [Nat.add_assoc] at hstuck hsafe he
            exact .inl ⟨charSize a + p, hgo hp, hstuck, hsafe, he⟩
          · rw [Nat.add_assoc] at hb
            exact .inr ⟨he, charSize a + p, b, hgo hp, hb, by omega⟩

/-- No step of the walk leaves the range of `int`. -/
def StepsFit (s : List Byte) : Prop :=
  ∀ p b, Boundary charSize s p → s[p]? = some b → p + charSize b < 2 ^ 31

theorem setCharZero_cases (hbuf : nLen ≤ buf.length) (hint : nLen < 2 ^ 31) :
    StepsFit (buf.take nLen) ∧ (∃ p, Boundary charSize (buf.take nLen) p ∧
        Stuck charSize (buf.take nLen) p ∧
        setCharZero buf nLen = some (p, zeroed buf p nLen)) ∨
      ¬ StepsFit (buf.take nLen) ∧ setCharZero buf nLen = none := by
  have hlen : (buf.take nLen).length = nLen := List.length_take_of_le hbuf
  rcases setCharZeroLoop_cases hbuf hint 0 (Nat.zero_le nLen) with
    ⟨p, hp, hstuck, hsafe, he⟩ | ⟨he, p, b, hp, hb, hover⟩
  · rw [List.drop_zero] at hp
    rw [Nat.zero_add] at hstuck hsafe he
    refine .inl ⟨fun p' b hp' hb => ?_, p, hp, hstuck, he⟩
    rcases (hp'.le_stuck hp hstuck).eq_or_lt with rfl | hlt
    · simpa using hsafe b hb
    · have hfit := hp'.fits_of_lt hp hlt hb
      omega
  · rw [List.drop_zero] at hp
    rw [Nat.zero_add] at hb hover
    exact .inr ⟨fun hfit => absurd (hfit p b hp hb) (by omega), he⟩

theorem take_zeroed {p : Nat} (hp : p ≤ nLen) (hbuf : nLen ≤ buf.length) :
    (zeroed buf p nLen).take p = buf.take p :=
  take_splice_of_le _ (le_refl p) (by omega)

theorem getElem?_zeroed {p i : Nat} (hp : p ≤ i) (hi : i < nLen) (hbuf : nLen ≤ buf.length) :
    (zeroed buf p nLen)[i]? = some 0 := by
  have hcell : (List.replicate (nLen - p) (0 : Byte))[i - p]? = some 0 := by
    rw [List.getElem?_replicate, if_pos (by omega)]
  rw [zeroed, getElem?_splice (by omega), if_neg (by omega), List.length_replicate,
    if_pos (by omega), hcell]

end Loop

/-- The loop ends with an offset inside the string, the bytes before it are as they were, and
those behind it are zero. -/
def Clears (utf8Buf : List Byte) (nLen : Int) : Prop :=
  ∃ (offset : Nat) (after : List Byte), setCharZero utf8Buf nLen = some (offset, after) ∧
    offset ≤ nLen ∧ after.take offset = utf8Buf.take offset ∧
    ∀ i : Nat, offset ≤ i → i < nLen → after[i]? = some 0

theorem clears_iff {buf : List Byte} {nLen : Int} (hbuf : nLen ≤ buf.length)
    (hint : nLen < 2 ^ 31) : Clears buf nLen ↔ 0 ≤ nLen ∧ StepsFit (buf.take nLen.toNat) := by
  constructor
  · intro h
    obtain ⟨offset, after, he, hle, -⟩ := h
    obtain ⟨n, rfl⟩ := Int.eq_ofNat_of_zero_le (show 0 ≤ nLen by omega)
    refine ⟨by omega, ?_⟩
    have hn : n ≤ buf.length := by omega
    rcases setCharZero_cases hn (by omega) with ⟨hfit, -⟩ | ⟨-, hnone⟩
    · exact hfit
    · rw [hnone] at he
      cases he
  · intro h
    obtain ⟨h0, hfit⟩ := h
    obtain ⟨n, rfl⟩ := Int.eq_ofNat_of_zero_le h0
    have hn : n ≤ buf.length := by omega
    rcases setCharZero_cases hn (by omega) with ⟨-, p, hp, -, he⟩ | ⟨hno, -⟩
    · have hle := hp.le_length
      rw [List.length_take] at hle
      exact ⟨p, zeroed buf p n, he, by omega, take_zeroed (by omega) (by omega),
        fun i hi hin => getElem?_zeroed hi (by omega) (by omega)⟩
    · exact absurd hfit hno

/-! ## Texts -/

/-- The string is shortened to its whole characters; a string of whole characters is not changed,
nor is the result. -/
def Shortens (str : List Byte) : Prop :=
  ∃ s, luaSetCharZero str = some s ∧ LongestWhole encode s str ∧ (Whole encode str → s = str) ∧
    luaSetCharZero s = some s

/-- Fewer than `2^31` bytes up to the end of the character that the `n`th byte belongs to. -/
def Room (cs : List Char) (n : Nat) : Prop :=
  ∃ k, ((cs.flatMap encode).take n).length ≤ ((cs.take k).flatMap encode).length ∧
    ((cs.take k).flatMap encode).length < 2 ^ 31

/-- The letter at a boundary of the cut text, and where its character ends. -/
theorem next_boundary {cs : List Char} {n p : Nat} {b : Byte}
    (hp : Boundary charSize ((cs.flatMap encode).take n) p)
    (hb : ((cs.flatMap encode).take n)[p]? = some b) :
    ∃ k, p = ((cs.take k).flatMap encode).length ∧
      p + charSize b = ((cs.take (k + 1)).flatMap encode).length := by
  obtain ⟨k, hk, rfl⟩ := delimited_encode.boundary_cut hp
  rw [List.getElem?_take] at hb
  split at hb
  · exact ⟨k, rfl, (delimited_encode.size_at_boundary hk hb).2.symm⟩
  · cases hb

theorem stepsFit_cut {cs : List Char} {n : Nat} (h : Room cs n) :
    StepsFit ((cs.flatMap encode).take n) := by
  obtain ⟨k, hcut, hk⟩ := h
  intro p b hp hb
  obtain ⟨j, hj, hnext⟩ := next_boundary hp hb
  have hin := (List.getElem?_eq_some_iff.mp hb).1
  have hjk : j < k := by
    by_contra hge
    have hle : ((cs.take k).flatMap encode).length ≤ ((cs.take j).flatMap encode).length :=
      length_flatMap_take_mono cs (not_lt.mp hge)
    omega
  have hle : ((cs.take (j + 1)).flatMap encode).length ≤ ((cs.take k).flatMap encode).length :=
    length_flatMap_take_mono cs hjk
  omega

/-- A string that an `int` can count goes to the loop as it is. -/
theorem luaSetCharZero_cases {str : List Byte} (h : str.length < 2 ^ 31) :
    StepsFit str ∧ (∃ p, Boundary charSize str p ∧ Stuck charSize str p ∧
        luaSetCharZero str = some (str.take p)) ∨
      ¬ StepsFit str ∧ luaSetCharZero str = none := by
  have hcount : toInt32 str.length = str.length := toInt32_of_lt h
  have hbuf : str.length ≤ (str ++ [0]).length := by
    rw [List.length_append]
    omega
  have hstr : (str ++ [0]).take str.length = str := List.take_left
  have hcases := setCharZero_cases hbuf h
  rw [hstr] at hcases
  rw [luaSetCharZero, hcount]
  rcases hcases with ⟨hfit, p, hp, hstuck, he⟩ | ⟨hno, he⟩
  · have hpart : (zeroed (str ++ [0]) p str.length).take p = str.take p := by
      rw [take_zeroed hp.le_length hbuf, List.take_append_of_le_length hp.le_length]
    rw [he]
    exact .inl ⟨hfit, p, hp, hstuck, congrArg some hpart⟩
  · rw [he]
    exact .inr ⟨hno, rfl⟩

theorem longestWhole_of_room {cs : List Char} {n : Nat} (h : Room cs n) :
    ∃ s, luaSetCharZero ((cs.flatMap encode).take n) = some s ∧
      LongestWhole encode s ((cs.flatMap encode).take n) := by
  have hfit := stepsFit_cut h
  obtain ⟨k, hcut, hk⟩ := h
  have hlen : ((cs.flatMap encode).take n).length < 2 ^ 31 := by omega
  rcases luaSetCharZero_cases hlen with ⟨-, p, hp, hstuck, he⟩ | ⟨hno, -⟩
  · exact ⟨_, he, delimited_encode.longestWhole hp hstuck⟩
  · exact absurd hfit hno

theorem luaSetCharZero_whole {str : List Byte} (h : Whole encode str) (hlen : str.length < 2 ^ 31) :
    luaSetCharZero str = some str := by
  obtain ⟨cs, rfl⟩ := h
  have hroom : Room cs (cs.flatMap encode).length :=
    ⟨cs.length, by rw [List.take_length, List.take_length], by rw [List.take_length]; exact hlen⟩
  obtain ⟨s, he, hs⟩ := longestWhole_of_room hroom
  rw [List.take_length] at he hs
  rw [he, hs.eq_of_whole ⟨cs, rfl⟩]

theorem shortens_of_room {cs : List Char} {n : Nat} (h : Room cs n) :
    Shortens ((cs.flatMap encode).take n) := by
  obtain ⟨s, he, hs⟩ := longestWhole_of_room h
  obtain ⟨k, hcut, hk⟩ := h
  have hle := hs.prefixed.length_le
  exact ⟨s, he, hs, hs.eq_of_whole, luaSetCharZero_whole hs.whole (by omega)⟩

/-- What is pushed for a string that an `int` cannot count misses at least `2^31` bytes. -/
theorem luaSetCharZero_length {str s : List Byte} (h : 2 ^ 31 ≤ str.length)
    (he : luaSetCharZero str = some s) : s.length + 2 ^ 31 ≤ str.length := by
  have hcount := toInt32_le str.length
  have hlt := toInt32_lt str.length
  have hwrap : str.length < 2 ^ 32 → toInt32 str.length < 0 := fun h' => by
    rw [toInt32_of_ge h h']
    omega
  rw [luaSetCharZero] at he
  rcases Int.lt_or_le (toInt32 str.length) 0 with hneg | hpos
  · have hloop : setCharZero (str ++ [0]) (toInt32 str.length) = some (0, str ++ [0]) := by
      rw [setCharZero, setCharZeroLoop, if_neg (by omega)]
    rw [hloop] at he
    obtain rfl := Option.some.inj he
    rw [List.take_zero, List.length_nil]
    omega
  · obtain ⟨n, hn⟩ := Int.eq_ofNat_of_zero_le hpos
    rw [hn] at he
    have hbuf : n ≤ (str ++ [0]).length := by
      rw [List.length_append]
      omega
    rcases setCharZero_cases hbuf (by omega) with ⟨-, p, hp, -, hloop⟩ | ⟨-, hloop⟩
    · have hle := hp.le_length
      rw [List.length_take] at hle
      rw [hloop] at he
      obtain rfl := Option.some.inj he
      rw [List.length_take]
      omega
    · rw [hloop] at he
      cases he

theorem room_of_shortens {cs : List Char} {n : Nat} (h : Shortens ((cs.flatMap encode).take n)) :
    Room cs n := by
  obtain ⟨s, he, hs, -⟩ := h
  obtain ⟨p, hp, hstuck⟩ := exists_stuck charSize_pos ((cs.flatMap encode).take n)
  have hlast := delimited_encode.longestWhole hp hstuck
  have hlen := hs.longest _ hlast.prefixed hlast.whole
  rw [List.length_take_of_le hp.le_length] at hlen
  rcases Nat.lt_or_ge ((cs.flatMap encode).take n).length (2 ^ 31) with hint | hbig
  · rcases luaSetCharZero_cases hint with ⟨hfit, -⟩ | ⟨-, hnone⟩
    · rcases hp.le_length.eq_or_lt with hend | hin
      · obtain ⟨k, -, hk⟩ := delimited_encode.boundary_cut hp
        exact ⟨k, by omega, by omega⟩
      · have hb := List.getElem?_eq_getElem hin
        obtain ⟨k, -, hnext⟩ := next_boundary hp hb
        have hover := hstuck _ hb
        have hstep := hfit p _ hp hb
        exact ⟨k + 1, by omega, by omega⟩
    · rw [hnone] at he
      cases he
  · -- The last whole character ends too near the end of the string.
    have hshort := luaSetCharZero_length hbig he
    have hin : p < ((cs.flatMap encode).take n).length := by omega
    have hover := hstuck _ (List.getElem?_eq_getElem hin)
    have hsize := charSize_le ((cs.flatMap encode).take n)[p]
    omega

/-- A text that is cut off is shortened to its whole characters exactly if an `int` can count the
bytes up to the end of the last one, and a byte string is cleared behind the last step exactly if an
`int` can count it and the position behind every step. -/
theorem set_char_zero_iff :
    (∀ (cs : List Char) (n : Nat), Shortens ((cs.flatMap encode).take n) ↔ Room cs n) ∧
      ∀ (buf : List Byte) (nLen : Int), nLen ≤ buf.length → nLen < 2 ^ 31 →
        (Clears buf nLen ↔ 0 ≤ nLen ∧ StepsFit (buf.take nLen.toNat)) :=
  ⟨fun _ _ => ⟨room_of_shortens, shortens_of_room⟩, fun _ _ => clears_iff⟩

/-! ## The strings of a script -/

/-- `LJ_MAX_STR`. -/
def ljMaxStr : Nat := 0x7fffff00

/-- LuaJIT makes no longer string. -/
def LuaString (str : List Byte) : Prop := str.length ≤ ljMaxStr

theorem stepsFit_of_luaString {str : List Byte} (h : LuaString str) : StepsFit str := by
  intro p b _ hb
  have hmax : ljMaxStr + 6 < 2 ^ 31 := by decide
  have hin := (List.getElem?_eq_some_iff.mp hb).1
  have hsize := charSize_le b
  unfold LuaString at h
  omega

theorem room_of_luaString {cs : List Char} {n : Nat} (h : LuaString ((cs.flatMap encode).take n)) :
    Room cs n := by
  obtain ⟨p, hp, hstuck⟩ := exists_stuck charSize_pos ((cs.flatMap encode).take n)
  have hmax : ljMaxStr + 6 < 2 ^ 31 := by decide
  unfold LuaString at h
  rcases hp.le_length.eq_or_lt with hend | hin
  · obtain ⟨k, -, hk⟩ := delimited_encode.boundary_cut hp
    exact ⟨k, by omega, by omega⟩
  · -- The character that the cut falls into has at most six bytes.
    have hb := List.getElem?_eq_getElem hin
    obtain ⟨k, -, hnext⟩ := next_boundary hp hb
    have hover := hstuck _ hb
    have hsize := charSize_le ((cs.flatMap encode).take n)[p]
    exact ⟨k + 1, by omega, by omega⟩

/-- A text that is cut off anywhere is shortened to its whole characters, and of any bytes those in
front of the offset stay and those behind it become zero. -/
theorem set_char_zero_whole :
    (∀ (cs : List Char) (n : Nat), LuaString ((cs.flatMap encode).take n) →
      Shortens ((cs.flatMap encode).take n)) ∧
      ∀ (buf : List Byte) (nLen : Int), 0 ≤ nLen → nLen ≤ buf.length →
        LuaString (buf.take nLen.toNat) → Clears buf nLen := by
  refine ⟨fun cs n h => (set_char_zero_iff.1 cs n).mpr (room_of_luaString h), ?_⟩
  intro buf nLen h0 hbuf h
  have hint : nLen < 2 ^ 31 := by
    have hmax : ljMaxStr < 2 ^ 31 := by decide
    rw [LuaString, List.length_take_of_le (by omega)] at h
    omega
  exact (set_char_zero_iff.2 buf nLen hbuf hint).mpr ⟨h0, stepsFit_of_luaString h⟩

/-- The third of these characters is cut off behind its second byte. -/
theorem set_char_zero_cut :
    ['a', 'é', '中'].flatMap encode = [97, 195, 169, 228, 184, 173] ∧
      Shortens ((['a', 'é', '中'].flatMap encode).take 5) ∧
      Clears [97, 195, 169, 228, 184, 0] 5 ∧ Clears [0x80, 97, 98, 99] 4 := by
  refine ⟨by decide, set_char_zero_whole.1 ['a', 'é', '中'] 5 ?_,
    set_char_zero_whole.2 _ 5 (by decide) (by decide) ?_,
    set_char_zero_whole.2 _ 4 (by decide) (by decide) ?_⟩
  all_goals
    unfold LuaString
    decide

end EventServer.Lua
