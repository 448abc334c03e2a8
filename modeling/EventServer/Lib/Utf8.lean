import Mathlib.Data.List.TakeWhile

/-!
# Words that tell their length

A text is a row of words, and the first letter of a word tells how long it is. A
string that is cut off somewhere can be walked from its start by what these letters
say: the walk comes to the boundaries of words, and where it cannot go on is the end
of the last whole word. The words of UTF-8 are the encoded characters.
-/
namespace EventServer.Lib.Utf8

variable {α β : Type}

/-- The first letter of a word tells its length. -/
def Delimited (enc : α → List β) (size : β → Nat) : Prop :=
  ∀ a, ∃ b rest, enc a = b :: rest ∧ size b = rest.length + 1

/-- The string consists of whole words. -/
def Whole (enc : α → List β) (s : List β) : Prop := ∃ as : List α, s = as.flatMap enc

/-- The longest part of the string from its start that consists of whole words. -/
structure LongestWhole (enc : α → List β) (part s : List β) : Prop where
  prefixed : part <+: s
  whole : Whole enc part
  longest : ∀ other, other <+: s → Whole enc other → other.length ≤ part.length

/-- The positions the walk comes to, by steps that stay inside the string. -/
inductive Boundary (size : β → Nat) : List β → Nat → Prop where
  | start (s : List β) : Boundary size s 0
  | step {b : β} {s : List β} {p : Nat} (hfit : size b ≤ s.length + 1)
      (hrest : Boundary size ((b :: s).drop (size b)) p) : Boundary size (b :: s) (size b + p)

/-- The next step leaves the string, or there is none. -/
def Stuck (size : β → Nat) (s : List β) (p : Nat) : Prop :=
  ∀ b, s[p]? = some b → s.length < p + size b

section Walk

variable {size : β → Nat}

theorem Boundary.le_length {s : List β} {p : Nat} (h : Boundary size s p) : p ≤ s.length := by
  induction h with
  | start s => omega
  | step hfit hrest ih =>
    rw [List.length_drop, List.length_cons] at ih
    rw [List.length_cons]
    omega

/-- The walk from a later position. -/
theorem stuck_drop_iff {s : List β} {n p : Nat} :
    Stuck size (s.drop n) p ↔ Stuck size s (n + p) := by
  have hget : (s.drop n)[p]? = s[n + p]? := List.getElem?_drop
  constructor
  · intro h b hb
    have hlt := h b (hget.trans hb)
    rw [List.length_drop] at hlt
    omega
  · intro h b hb
    have hin := (List.getElem?_eq_some_iff.mp hb).1
    have hlt := h b (hget.symm.trans hb)
    rw [List.length_drop] at hin ⊢
    omega

theorem Boundary.step_drop {s : List β} {b : β} {n p : Nat} (hb : s[n]? = some b)
    (hfit : n + size b ≤ s.length) (hp : Boundary size (s.drop (n + size b)) p) :
    Boundary size (s.drop n) (size b + p) := by
  obtain ⟨hn, rfl⟩ := List.getElem?_eq_some_iff.mp hb
  rw [← List.drop_drop, List.drop_eq_getElem_cons hn] at hp
  rw [List.drop_eq_getElem_cons hn]
  refine .step ?_ hp
  rw [List.length_drop]
  omega

/-- A boundary where the walk is stuck is the last one. -/
theorem Boundary.le_stuck {s : List β} {p q : Nat} (hp : Boundary size s p)
    (hq : Boundary size s q) (hstuck : Stuck size s q) : p ≤ q := by
  induction hp generalizing q with
  | start s => omega
  | @step b s p hfit hrest ih =>
    cases hq with
    | start =>
      have hlt := hstuck b rfl
      rw [List.length_cons] at hlt
      omega
    | step hfit' hrest' =>
      have hle := ih hrest' (stuck_drop_iff.mpr hstuck)
      omega

/-- The step from a boundary that is not the last one stays inside. -/
theorem Boundary.fits_of_lt {s : List β} {p q : Nat} {b : β} (hp : Boundary size s p)
    (hq : Boundary size s q) (hlt : p < q) (hb : s[p]? = some b) : p + size b ≤ s.length := by
  by_contra hover
  have hstuck : Stuck size s p := by
    intro c hc
    obtain rfl := Option.some.inj (hb.symm.trans hc)
    omega
  have hle := hq.le_stuck hp hstuck
  omega

/-- The walk ends, as every step goes on. -/
theorem exists_stuck (hpos : ∀ b, 0 < size b) (s : List β) :
    ∃ p, Boundary size s p ∧ Stuck size s p := by
  induction hn : s.length using Nat.strong_induction_on generalizing s with
  | _ n ih =>
    cases s with
    | nil => exact ⟨0, .start [], fun b hb => by cases hb⟩
    | cons b s =>
      by_cases hfit : size b ≤ s.length + 1
      · have hb := hpos b
        obtain ⟨p, hp, hstuck⟩ := ih ((b :: s).drop (size b)).length
          (by rw [List.length_drop, ← hn, List.length_cons]; omega) _ rfl
        exact ⟨size b + p, .step hfit hp, stuck_drop_iff.mp hstuck⟩
      · refine ⟨0, .start _, fun c hc => ?_⟩
        obtain rfl : b = c := Option.some.inj hc
        rw [List.length_cons]
        omega

end Walk

section Words

variable {enc : α → List β} {size : β → Nat}

theorem drop_word {b : β} {rest : List β} (hsize : size b = rest.length + 1) (s : List β) :
    (b :: (rest ++ s)).drop (size b) = s := by
  rw [hsize, List.drop_succ_cons, List.drop_left]

/-- A step over a word. -/
theorem Delimited.boundary_append (h : Delimited enc size) (a : α) {s : List β} {p : Nat}
    (hp : Boundary size s p) : Boundary size (enc a ++ s) ((enc a).length + p) := by
  obtain ⟨b, rest, he, hsize⟩ := h a
  have hfit : size b ≤ (rest ++ s).length + 1 := by
    rw [hsize, List.length_append]
    omega
  rw [he, List.cons_append, List.length_cons, ← hsize]
  exact .step hfit (by rw [drop_word hsize]; exact hp)

/-- Behind a word the walk goes on as from its end. -/
theorem Delimited.boundary_cases (h : Delimited enc size) {a : α} {s : List β} {p : Nat}
    (hp : Boundary size (enc a ++ s) p) :
    p = 0 ∨ ∃ q, Boundary size s q ∧ p = (enc a).length + q := by
  obtain ⟨b, rest, he, hsize⟩ := h a
  rw [he, List.cons_append] at hp
  cases hp with
  | start => exact .inl rfl
  | @step _ _ q hfit hrest =>
    rw [drop_word hsize] at hrest
    exact .inr ⟨q, hrest, by rw [he, List.length_cons, hsize]⟩

/-- In a word that is cut off there is no boundary but its start. -/
theorem Delimited.boundary_inside (h : Delimited enc size) {a : α} {n p : Nat}
    (hn : n < (enc a).length) (hp : Boundary size ((enc a).take n) p) : p = 0 := by
  obtain ⟨b, rest, he, hsize⟩ := h a
  rw [he, List.length_cons] at hn
  rw [he] at hp
  cases n with
  | zero =>
    have hle := hp.le_length
    rw [List.take_zero, List.length_nil] at hle
    omega
  | succ n =>
    rw [List.take_succ_cons] at hp
    cases hp with
    | start => rfl
    | step hfit hrest =>
      rw [List.length_take] at hfit
      omega

/-- Whole words end at a boundary. -/
theorem Delimited.boundary_of_whole (h : Delimited enc size) {s : List β} (as : List α)
    (hp : as.flatMap enc <+: s) : Boundary size s (as.flatMap enc).length := by
  obtain ⟨tail, rfl⟩ := hp
  induction as with
  | nil => exact .start _
  | cons a as ih =>
    rw [List.flatMap_cons, List.append_assoc, List.length_append]
    exact h.boundary_append a ih

/-- The boundaries of a text that is cut off are those of its words. -/
theorem Delimited.boundary_cut (h : Delimited enc size) {as : List α} {n p : Nat}
    (hp : Boundary size ((as.flatMap enc).take n) p) :
    ∃ k ≤ as.length, p = ((as.take k).flatMap enc).length := by
  induction as generalizing n p with
  | nil =>
    have hle := hp.le_length
    rw [List.flatMap_nil, List.take_nil, List.length_nil] at hle
    exact ⟨0, Nat.zero_le _, by rw [List.take_zero]; exact Nat.le_zero.mp hle⟩
  | cons a as ih =>
    rw [List.flatMap_cons, List.take_append] at hp
    rcases Nat.lt_or_ge n (enc a).length with hn | hn
    · rw [Nat.sub_eq_zero_of_le hn.le, List.take_zero, List.append_nil] at hp
      exact ⟨0, Nat.zero_le _, h.boundary_inside hn hp⟩
    · rw [List.take_of_length_le hn] at hp
      rcases h.boundary_cases hp with rfl | ⟨q, hq, rfl⟩
      · exact ⟨0, Nat.zero_le _, rfl⟩
      · obtain ⟨k, hk, rfl⟩ := ih hq
        exact ⟨k + 1, Nat.succ_le_succ hk, by
          rw [List.take_succ_cons, List.flatMap_cons, List.length_append]⟩

theorem flatMap_take_begins (as : List α) (k : Nat) :
    (as.take k).flatMap enc <+: as.flatMap enc :=
  ⟨(as.drop k).flatMap enc, by rw [← List.flatMap_append, List.take_append_drop]⟩

theorem length_flatMap_take_mono (as : List α) {j k : Nat} (h : j ≤ k) :
    ((as.take j).flatMap enc).length ≤ ((as.take k).flatMap enc).length := by
  have hp : ((as.take k).take j).flatMap enc <+: (as.take k).flatMap enc :=
    flatMap_take_begins (as.take k) j
  rw [List.take_take, Nat.min_eq_left h] at hp
  exact hp.length_le

/-- The walk over a text that is cut off ends behind the last whole word. -/
theorem Delimited.longestWhole (h : Delimited enc size) {as : List α} {n p : Nat}
    (hp : Boundary size ((as.flatMap enc).take n) p)
    (hstuck : Stuck size ((as.flatMap enc).take n) p) :
    LongestWhole enc (((as.flatMap enc).take n).take p) ((as.flatMap enc).take n) := by
  have hle := hp.le_length
  have hlen : (((as.flatMap enc).take n).take p).length = p := List.length_take_of_le hle
  obtain ⟨k, -, hk⟩ := h.boundary_cut hp
  refine ⟨List.take_prefix _ _, ⟨as.take k, ?_⟩, ?_⟩
  · rw [List.length_take] at hle
    rw [List.take_take, Nat.min_eq_left (by omega), hk]
    exact (List.prefix_iff_eq_take.mp (flatMap_take_begins as k)).symm
  · rintro other hother ⟨ds, rfl⟩
    rw [hlen]
    exact (h.boundary_of_whole ds hother).le_stuck hp hstuck

/-- The letter at a boundary begins the next word. -/
theorem Delimited.size_at_boundary (h : Delimited enc size) {as : List α} {k : Nat} {b : β}
    (hk : k ≤ as.length) (hb : (as.flatMap enc)[((as.take k).flatMap enc).length]? = some b) :
    k < as.length ∧
      ((as.take (k + 1)).flatMap enc).length = ((as.take k).flatMap enc).length + size b := by
  induction as generalizing k with
  | nil => cases hb
  | cons a as ih =>
    obtain ⟨c, rest, he, hsize⟩ := h a
    cases k with
    | zero =>
      rw [List.flatMap_cons, he] at hb
      obtain rfl : c = b := Option.some.inj hb
      refine ⟨Nat.succ_pos _, ?_⟩
      rw [List.take_succ_cons, List.take_zero, List.flatMap_cons, List.flatMap_nil, List.append_nil,
        he, List.length_cons, hsize, List.take_zero, List.flatMap_nil, List.length_nil, Nat.zero_add]
    | succ k =>
      rw [List.take_succ_cons, List.flatMap_cons, List.flatMap_cons, List.length_append,
        List.getElem?_append_right (Nat.le_add_right _ _), Nat.add_sub_cancel_left] at hb
      obtain ⟨hlt, hnext⟩ := ih (Nat.le_of_succ_le_succ hk) hb
      refine ⟨Nat.succ_lt_succ hlt, ?_⟩
      rw [List.take_succ_cons, List.flatMap_cons, List.length_append, hnext, List.take_succ_cons,
        List.flatMap_cons, List.length_append, Nat.add_assoc]

/-- A string of whole words is all of its longest such part. -/
theorem LongestWhole.eq_of_whole {part s : List β} (h : LongestWhole enc part s)
    (hs : Whole enc s) : part = s :=
  h.prefixed.eq_of_length (Nat.le_antisymm h.prefixed.length_le (h.longest s (List.prefix_refl s) hs))

end Words

/-! ## UTF-8 -/

/-- The bytes of a character. -/
def encode (c : Char) : List (BitVec 8) := (String.utf8EncodeChar c).map UInt8.toBitVec

/-- The first byte of a character tells how many there are. -/
theorem encode_cases (c : Char) :
    ∃ b rest, encode c = b :: rest ∧
      (b.toNat < 128 ∧ rest.length = 0 ∨ 192 ≤ b.toNat ∧ b.toNat < 224 ∧ rest.length = 1 ∨
        224 ≤ b.toNat ∧ b.toNat < 240 ∧ rest.length = 2 ∨
        240 ≤ b.toNat ∧ b.toNat < 248 ∧ rest.length = 3) := by
  have hbyte : ∀ n, (UInt8.ofNat n).toBitVec.toNat = n % 256 := fun n => UInt8.toNat_ofNat' (n := n)
  unfold encode String.utf8EncodeChar
  dsimp only
  split
  · exact ⟨_, _, rfl, .inl ⟨by rw [hbyte]; omega, rfl⟩⟩
  · split
    · exact ⟨_, _, rfl, .inr (.inl ⟨by rw [hbyte]; omega, by rw [hbyte]; omega, rfl⟩)⟩
    · split
      · exact ⟨_, _, rfl, .inr (.inr (.inl ⟨by rw [hbyte]; omega, by rw [hbyte]; omega, rfl⟩))⟩
      · exact ⟨_, _, rfl, .inr (.inr (.inr ⟨by rw [hbyte]; omega, by rw [hbyte]; omega, rfl⟩))⟩

end EventServer.Lib.Utf8
