import Mathlib.Data.List.Basic

/-!
# Cells of a memory block

A block is the list of its cells. `blit` and `slice` are the two directions of
`memcpy`: both are undefined (`none`) as soon as the range leaves the block.
`splice` is the value a defined copy leaves, also past the end of a list whose
capacity is tracked elsewhere.
-/
namespace EventServer.Lib.Blocks

variable {α β : Type}

/-- One step of a partial computation, without unfolding what follows it. -/
theorem bind_eq_of_some {x : Option α} {a : α} {f : α → Option β} {r : Option β}
    (hx : x = some a) (hf : f a = r) : x >>= f = r := by
  subst hx
  exact hf

/-- Overwrite the cells from `pos` on by `src`, extending the list if needed. -/
def splice (cells : List α) (pos : Nat) (src : List α) : List α :=
  cells.take pos ++ src ++ cells.drop (pos + src.length)

/-- Copy `src` into the block at `pos`. -/
def blit (blk : List α) (pos : Nat) (src : List α) : Option (List α) :=
  if pos + src.length ≤ blk.length then some (splice blk pos src) else none

/-- Copy `n` cells out of the block at `pos`. -/
def slice (blk : List α) (pos n : Nat) : Option (List α) :=
  if pos + n ≤ blk.length then some ((blk.drop pos).take n) else none

theorem blit_of_fits {blk : List α} {pos : Nat} {src : List α}
    (h : pos + src.length ≤ blk.length) : blit blk pos src = some (splice blk pos src) := if_pos h

theorem slice_of_fits {blk : List α} {pos n : Nat} (h : pos + n ≤ blk.length) :
    slice blk pos n = some ((blk.drop pos).take n) := if_pos h

theorem slice_self (src : List α) : slice src 0 src.length = some src := by
  simp [slice]

theorem splice_length {cells : List α} {pos : Nat} (hp : pos ≤ cells.length) (src : List α) :
    (splice cells pos src).length = max cells.length (pos + src.length) := by
  simp only [splice, List.length_append, List.length_take, List.length_drop]
  omega

@[simp] theorem splice_nil (cells : List α) (pos : Nat) : splice cells pos [] = cells := by
  simp [splice]

theorem splice_at_end (cells src : List α) : splice cells cells.length src = cells ++ src := by
  have h : cells.length ≤ cells.length + src.length := Nat.le_add_right _ _
  simp [splice, List.drop_eq_nil_of_le h]

theorem splice_append (front tail src : List α) :
    splice (front ++ tail) front.length src = front ++ src ++ tail.drop src.length := by
  rw [splice, List.take_left, ← List.drop_drop, List.drop_left]

/-- The written range reads the source, every other cell reads what it did. -/
theorem getElem?_splice {cells : List α} {pos : Nat} (hp : pos ≤ cells.length) (src : List α)
    (i : Nat) : (splice cells pos src)[i]? =
      if i < pos then cells[i]? else if i < pos + src.length then src[i - pos]? else cells[i]? := by
  have ht : (cells.take pos).length = pos := List.length_take_of_le hp
  rw [splice, List.append_assoc, List.getElem?_append, ht]
  by_cases h1 : i < pos
  · rw [if_pos h1, if_pos h1, List.getElem?_take_of_lt h1]
  · rw [if_neg h1, if_neg h1, List.getElem?_append]
    by_cases h2 : i < pos + src.length
    · rw [if_pos h2, if_pos (by omega)]
    · rw [if_neg h2, if_neg (by omega), List.getElem?_drop]
      congr 1
      omega

/-- Of a block only a prefix is content: splicing inside or at the edge of the
prefix commutes with cutting it out. -/
theorem take_splice (blk : List α) {pos n : Nat} (src : List α) (hp : pos ≤ n)
    (hn : n ≤ blk.length) :
    (splice blk pos src).take (max n (pos + src.length)) = splice (blk.take n) pos src := by
  apply List.ext_getElem?
  intro i
  rw [getElem?_splice (by rw [List.length_take]; omega), List.getElem?_take,
    getElem?_splice (by omega), List.getElem?_take]
  split_ifs with h1 h2 h3 h4 <;> first | rfl | omega

theorem take_splice_of_le {blk : List α} {pos n : Nat} (src : List α) (hn : n ≤ pos)
    (hp : pos ≤ blk.length) : (splice blk pos src).take n = blk.take n := by
  apply List.ext_getElem?
  intro i
  rw [List.getElem?_take, List.getElem?_take, getElem?_splice hp]
  split_ifs <;> first | rfl | omega

theorem drop_splice {blk : List α} {pos n : Nat} (src : List α) (hp : pos ≤ blk.length)
    (hn : pos + src.length ≤ n) : (splice blk pos src).drop n = blk.drop n := by
  apply List.ext_getElem?
  intro i
  rw [List.getElem?_drop, List.getElem?_drop, getElem?_splice hp, if_neg (by omega),
    if_neg (by omega)]

theorem splice_splice {cells : List α} {pos : Nat} (hp : pos ≤ cells.length) (a b : List α) :
    splice (splice cells pos a) (pos + a.length) b = splice cells pos (a ++ b) := by
  have hl := splice_length hp a
  apply List.ext_getElem?
  intro i
  rw [getElem?_splice (by omega), getElem?_splice hp, getElem?_splice hp, List.getElem?_append]
  simp only [List.length_append]
  split_ifs <;> first | rfl | omega | (congr 1; omega)

/-- What was written is what stands there. -/
theorem take_drop_splice {cells : List α} {pos : Nat} (hp : pos ≤ cells.length) (src : List α) :
    ((splice cells pos src).drop pos).take src.length = src := by
  have ht : (cells.take pos).length = pos := List.length_take_of_le hp
  rw [splice, List.append_assoc, List.drop_left' ht, List.take_left]

theorem splice_again {cells : List α} {pos : Nat} (hp : pos ≤ cells.length) {a b : List α}
    (hab : a.length = b.length) : splice (splice cells pos a) pos b = splice cells pos b := by
  have hl := splice_length hp a
  apply List.ext_getElem?
  intro i
  rw [getElem?_splice (by omega), getElem?_splice hp, getElem?_splice hp]
  split_ifs <;> first | rfl | omega

theorem splice_self {cells : List α} {pos n : Nat} (h : pos + n ≤ cells.length) :
    splice cells pos ((cells.drop pos).take n) = cells := by
  have hlen : ((cells.drop pos).take n).length = n := by
    rw [List.length_take, List.length_drop]
    omega
  rw [splice, hlen, List.append_assoc, ← List.drop_drop, List.take_append_drop,
    List.take_append_drop]

theorem drop_min (cells : List α) (n : Nat) : cells.drop n = cells.drop (min n cells.length) := by
  rcases Nat.le_total n cells.length with h | h
  · rw [Nat.min_eq_left h]
  · rw [Nat.min_eq_right h, List.drop_length, List.drop_eq_nil_of_le h]

end EventServer.Lib.Blocks
