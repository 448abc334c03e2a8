import EventServer.Json.Token
import EventServer.Lib.Blocks
import EventServer.Lib.CInt

/-!
# The string buffer

`strbuf_t` with the growth it is created with; `buf` has `size` cells. The
operations without a check trust their caller that there is room. `none` is a
write outside the cells, an overflow of an `int`, or `die()`.
-/
namespace EventServer.Json

open EventServer.Lib.Blocks EventServer.Lib.CInt EventServer.Stream

structure Strbuf where
  buf : List Byte
  length : Nat

namespace Strbuf

def defaultSize : Nat := 1023

def initSize (len : Int) : Option Nat :=
  if len ≤ 0 then some defaultSize else (addInt len 1).map Int.toNat

/-- `strbuf_init()` and `strbuf_new()`. -/
def init (len : Int) : Option Strbuf := do
  let size ← initSize len
  let buf ← blit (List.replicate size 0) 0 [0]
  return ⟨buf, 0⟩

def reset (s : Strbuf) : Strbuf := { s with length := 0 }

def emptyLength (s : Strbuf) : Int := s.buf.length - s.length - 1

/-- The loop that doubles the size. -/
def doubled (newsize reqsize : Nat) : Option Nat :=
  if newsize < reqsize then
    if 0 < newsize ∧ newsize * 2 < 2 ^ 31 then doubled (newsize * 2) reqsize else none
  else some newsize
termination_by reqsize - newsize

def calculateNewSize (s : Strbuf) (len : Int) : Option Nat := do
  if len ≤ 0 then none
  else
    let reqsize ← addInt len 1
    if reqsize < s.buf.length then some reqsize.toNat else doubled s.buf.length reqsize.toNat

/-- What new cells hold does not matter; here they are zero. -/
def realloc (buf : List Byte) (newsize : Nat) : List Byte :=
  buf.take newsize ++ List.replicate (newsize - buf.length) 0

def resize (s : Strbuf) (len : Int) : Option Strbuf := do
  let newsize ← s.calculateNewSize len
  return { s with buf := realloc s.buf newsize }

def ensureEmptyLength (s : Strbuf) (len : Int) : Option Strbuf :=
  if s.emptyLength < len then do
    let n ← addInt s.length len
    s.resize n
  else some s

/-- `strbuf_append_char_unsafe()` and `strbuf_append_mem_unsafe()`. -/
def put (s : Strbuf) (c : List Byte) : Option Strbuf := do
  let buf ← blit s.buf s.length c
  return ⟨buf, s.length + c.length⟩

def appendMem (s : Strbuf) (c : List Byte) : Option Strbuf := do
  let s ← s.ensureEmptyLength c.length
  s.put c

def appendChar (s : Strbuf) (c : Byte) : Option Strbuf := s.appendMem [c]

/-- The loop of `strbuf_append_string()`. -/
def appendLoop : List Byte → Strbuf → Int → Option Strbuf
  | [], s, _ => some s
  | c :: str, s, space =>
    if space < 1 then do
      let s ← s.resize (s.length + 1)
      let s' ← s.put [c]
      appendLoop str s' (s.emptyLength - 1)
    else do
      let s ← s.put [c]
      appendLoop str s (space - 1)

def appendString (s : Strbuf) (str : List Byte) : Option Strbuf := appendLoop str s s.emptyLength

/-- `strbuf_ensure_null()`. -/
def ensureNull (s : Strbuf) : Option Strbuf := do
  let buf ← blit s.buf s.length [0]
  return { s with buf }

/-- `strbuf_string()`. -/
def string (s : Strbuf) : List Byte := s.buf.take s.length

/-! ## What a buffer holds -/

/-- The text and room for its terminator. -/
structure Holds (s : Strbuf) (text : List Byte) : Prop where
  room : text.length < s.buf.length
  length : s.length = text.length
  string : s.string = text

/-- A buffer that started with the default size. -/
structure Kept (s : Strbuf) (text : List Byte) : Prop extends Holds s text where
  doubled : ∃ k, s.buf.length = defaultSize * 2 ^ k

/-- The largest size that is an `int`. -/
def maxSize : Nat := defaultSize * 2 ^ 21

/-- The loop ends with a size that is large enough, unless none is an `int`. -/
theorem doubled_spec (k reqsize : Nat) :
    (∃ j, doubled (defaultSize * 2 ^ k) reqsize = some (defaultSize * 2 ^ j) ∧ k ≤ j ∧
      reqsize ≤ defaultSize * 2 ^ j) ∨
    doubled (defaultSize * 2 ^ k) reqsize = none ∧ maxSize < reqsize := by
  by_cases hlt : defaultSize * 2 ^ k < reqsize
  · have hpos : 0 < defaultSize * 2 ^ k := Nat.mul_pos (by decide) (Nat.two_pow_pos k)
    have hnext : defaultSize * 2 ^ k * 2 = defaultSize * 2 ^ (k + 1) := by
      rw [Nat.pow_succ, Nat.mul_assoc]
    by_cases hfits : defaultSize * 2 ^ (k + 1) < 2 ^ 31
    · have hstep : doubled (defaultSize * 2 ^ k) reqsize =
          doubled (defaultSize * 2 ^ (k + 1)) reqsize := by
        rw [doubled, if_pos hlt, hnext, if_pos ⟨hpos, hfits⟩]
      rw [hstep]
      obtain ⟨j, hj, hkj, hreq⟩ | hnone := doubled_spec (k + 1) reqsize
      · exact .inl ⟨j, hj, by omega, hreq⟩
      · exact .inr hnone
    · refine .inr ⟨by rw [doubled, if_pos hlt, hnext, if_neg (fun h => hfits h.2)], ?_⟩
      have hk : 21 ≤ k := by
        by_contra hk
        have hle : defaultSize * 2 ^ (k + 1) ≤ defaultSize * 2 ^ 21 :=
          Nat.mul_le_mul_left _ (Nat.pow_le_pow_right (by decide) (by omega))
        have hmax : defaultSize * 2 ^ 21 < 2 ^ 31 := by decide
        omega
      have hle : maxSize ≤ defaultSize * 2 ^ k :=
        Nat.mul_le_mul_left _ (Nat.pow_le_pow_right (by decide) hk)
      omega
  · exact .inl ⟨k, by rw [doubled, if_neg hlt], Nat.le_refl k, by omega⟩
termination_by reqsize - defaultSize * 2 ^ k
decreasing_by
  rw [← hnext]
  omega

theorem init_spec {len : Int} {size : Nat} (h : initSize len = some size) (hpos : 0 < size) :
    ∃ s, init len = some s ∧ Holds s [] ∧ s.buf.length = size := by
  have hfits : 0 + [(0 : Byte)].length ≤ (List.replicate size (0 : Byte)).length := by
    rw [List.length_replicate]
    exact hpos
  have hlen : (splice (List.replicate size (0 : Byte)) 0 [0]).length = size := by
    rw [splice_length (Nat.zero_le _), List.length_replicate, List.length_singleton]
    omega
  refine ⟨⟨splice (List.replicate size 0) 0 [0], 0⟩, ?_, ⟨?_, rfl, rfl⟩, hlen⟩
  · rw [init, h, Option.bind_eq_bind, Option.bind_some, blit_of_fits hfits]
    rfl
  · rw [hlen]
    exact hpos

theorem length_realloc (buf : List Byte) (newsize : Nat) :
    (realloc buf newsize).length = newsize := by
  rw [realloc, List.length_append, List.length_take, List.length_replicate]
  omega

theorem take_realloc {buf : List Byte} {n newsize : Nat} (hn : n ≤ buf.length)
    (hnew : n ≤ newsize) : (realloc buf newsize).take n = buf.take n := by
  rw [realloc, List.take_append_of_le_length (by rw [List.length_take]; omega), List.take_take,
    Nat.min_eq_left hnew]

section Room

variable {s : Strbuf} {text : List Byte} (h : Holds s text)

include h

theorem emptyLength_eq : s.emptyLength = ((s.buf.length - text.length - 1 : Nat) : Int) := by
  have hroom := h.room
  rw [emptyLength, h.length]
  omega

/-- Writing into the room there is. -/
theorem put_spec {c : List Byte} (hfit : text.length + c.length < s.buf.length) :
    ∃ s', s.put c = some s' ∧ Holds s' (text ++ c) ∧ s'.buf.length = s.buf.length := by
  have hblit : s.length + c.length ≤ s.buf.length := by
    rw [h.length]
    omega
  have hpos : s.length ≤ s.buf.length := by omega
  have hlen : (splice s.buf s.length c).length = s.buf.length := by
    rw [splice_length hpos]
    omega
  refine ⟨⟨splice s.buf s.length c, s.length + c.length⟩, ?_, ⟨?_, ?_, ?_⟩, hlen⟩
  · rw [put, blit_of_fits hblit]
    rfl
  · rw [hlen, List.length_append]
    exact hfit
  · rw [List.length_append, h.length]
  · have htext : s.buf.take s.length = text := h.string
    rw [string, splice, htext, List.take_append_of_le_length, List.take_of_length_le]
    · rw [List.length_append, h.length]
    · rw [List.length_append, h.length]

/-- Where there is room for all of it nothing is resized. -/
theorem appendString_spec {str : List Byte} (hfit : text.length + str.length < s.buf.length) :
    ∃ s', s.appendString str = some s' ∧ Holds s' (text ++ str) ∧
      s'.buf.length = s.buf.length := by
  have hloop : ∀ (str : List Byte) (s : Strbuf) (text : List Byte), Holds s text →
      text.length + str.length < s.buf.length →
      ∃ s', appendLoop str s s.emptyLength = some s' ∧ Holds s' (text ++ str) ∧
        s'.buf.length = s.buf.length := by
    intro str
    induction str with
    | nil => exact fun s text h _ => ⟨s, rfl, by rwa [List.append_nil], rfl⟩
    | cons c str ih =>
      intro s text h hfit
      rw [List.length_cons] at hfit
      obtain ⟨s₁, h₁, hh₁, hlen⟩ := put_spec h (c := [c]) (by rw [List.length_singleton]; omega)
      have hspace : s.emptyLength - 1 = s₁.emptyLength := by
        have hroom := hh₁.room
        rw [emptyLength_eq hh₁, emptyLength_eq h, hlen, List.length_append, List.length_singleton]
        rw [List.length_append, List.length_singleton, hlen] at hroom
        omega
      have hroom₁ : (text ++ [c]).length + str.length < s₁.buf.length := by
        rw [List.length_append, List.length_singleton, hlen]
        omega
      obtain ⟨s₂, h₂, hh₂, hlen₂⟩ := ih s₁ (text ++ [c]) hh₁ hroom₁
      have hge : ¬s.emptyLength < 1 := by
        rw [emptyLength_eq h]
        omega
      refine ⟨s₂, ?_, ?_, hlen₂.trans hlen⟩
      · rw [appendLoop, if_neg hge, h₁, Option.bind_eq_bind, Option.bind_some, hspace, h₂]
      · rwa [List.append_assoc] at hh₂
  exact hloop str s text h hfit

end Room

section Kept

variable {s : Strbuf} {text : List Byte} (h : Kept s text)

include h

theorem kept_reset : Kept s.reset [] :=
  ⟨⟨Nat.lt_of_le_of_lt (Nat.zero_le _) h.room, rfl, rfl⟩, h.doubled⟩

theorem kept_of_length {s' : Strbuf} {text' : List Byte} (h' : Holds s' text')
    (hlen : s'.buf.length = s.buf.length) : Kept s' text' := by
  obtain ⟨k, hk⟩ := h.doubled
  exact ⟨h', k, hlen.trans hk⟩

/-- After a check there is room, and nothing was lost, unless the process ended. -/
theorem ensureEmptyLength_spec (n : Nat) :
    (∃ s', s.ensureEmptyLength n = some s' ∧ Kept s' text ∧ text.length + n < s'.buf.length) ∨
    s.ensureEmptyLength n = none ∧ maxSize ≤ text.length + n := by
  have hroom := h.room
  have hmax : maxSize < 2 ^ 31 := by decide
  rw [ensureEmptyLength, emptyLength_eq h.toHolds]
  split
  · next hlt =>
    have hadd : (s.length : Int) + n = ((text.length + n : Nat) : Int) := by
      rw [h.length, Int.natCast_add]
    have hadd' : ((text.length + n : Nat) : Int) + 1 = ((text.length + n + 1 : Nat) : Int) := rfl
    by_cases hfits : text.length + n + 1 < 2 ^ 31
    · have hlen : addInt s.length n = some ((text.length + n : Nat) : Int) := by
        rw [addInt_of_fits (by omega) (by omega), hadd]
      have hreq : addInt ((text.length + n : Nat) : Int) 1 =
          some ((text.length + n + 1 : Nat) : Int) := by
        rw [addInt_of_fits (by omega) (by omega), hadd']
      have hsize : s.calculateNewSize ((text.length + n : Nat) : Int) =
          doubled s.buf.length (text.length + n + 1) := by
        rw [calculateNewSize, if_neg (by omega), hreq, Option.bind_eq_bind, Option.bind_some,
          if_neg (by omega), Int.toNat_natCast]
      obtain ⟨k, hk⟩ := h.doubled
      rw [hlen, Option.bind_eq_bind, Option.bind_some, resize, hsize, hk]
      obtain ⟨j, hj, hkj, hle⟩ | ⟨hnone, hlt⟩ := doubled_spec k (text.length + n + 1)
      · have hgrow : s.buf.length ≤ defaultSize * 2 ^ j := by
          rw [hk]
          exact Nat.mul_le_mul_left _ (Nat.pow_le_pow_right (by decide) hkj)
        have hlen := length_realloc s.buf (defaultSize * 2 ^ j)
        have htext : s.buf.take s.length = text := h.string
        refine .inl ⟨{ s with buf := realloc s.buf (defaultSize * 2 ^ j) }, by rw [hj]; rfl,
          ⟨⟨?_, h.length, ?_⟩, j, hlen⟩, ?_⟩
        · rw [hlen]
          omega
        · rw [string, take_realloc (by rw [h.length]; omega) (by rw [h.length]; omega), htext]
        · rw [hlen]
          omega
      · exact .inr ⟨by rw [hnone]; rfl, by omega⟩
    · refine .inr ⟨?_, by omega⟩
      by_cases hlen : text.length + n < 2 ^ 31
      · rw [addInt_of_fits (by omega) (by omega), hadd, Option.bind_eq_bind, Option.bind_some,
          resize, calculateNewSize, if_neg (by omega), addInt, if_neg (by omega)]
        rfl
      · rw [addInt, if_neg (by omega)]
        rfl
  · next hle => exact .inl ⟨s, rfl, h, by omega⟩

theorem appendMem_spec (c : List Byte) :
    (∃ s', s.appendMem c = some s' ∧ Kept s' (text ++ c)) ∨
    s.appendMem c = none ∧ maxSize ≤ text.length + c.length := by
  obtain ⟨s₁, h₁, hk₁, hroom⟩ | ⟨hnone, hle⟩ := ensureEmptyLength_spec h c.length
  · obtain ⟨s₂, h₂, hh₂, hlen⟩ := put_spec hk₁.toHolds hroom
    exact .inl ⟨s₂, bind_eq_of_some h₁ h₂, kept_of_length hk₁ hh₂ hlen⟩
  · exact .inr ⟨by rw [appendMem, hnone]; rfl, hle⟩

end Kept
end Strbuf
end EventServer.Json
