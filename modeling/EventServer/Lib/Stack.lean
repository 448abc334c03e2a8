import Mathlib.Data.List.Basic

/-!
# Stacks with indices from the top

A stack is a list with its top first; index `i` is the `i`-th value from the top,
counted from 1. `none` is an index outside the stack.
-/
namespace EventServer.Lib.Stack

variable {α : Type}

def peek : List α → Nat → Option α
  | x :: _, 1 => some x
  | _ :: s, i + 2 => peek s (i + 1)
  | _, _ => none

def pop : List α → Nat → Option (List α)
  | s, 0 => some s
  | _ :: s, n + 1 => pop s n
  | [], _ + 1 => none

/-- `x` comes to stand at index `i`. -/
def place (x : α) : List α → Nat → Option (List α)
  | s, 1 => some (x :: s)
  | y :: s, i + 2 => (place x s (i + 1)).map (y :: ·)
  | _, _ => none

/-- The top moves down to index `i`. -/
def insert : List α → Nat → Option (List α)
  | x :: s, i => place x s i
  | [], _ => none

def remove : List α → Nat → Option (List α)
  | _ :: s, 1 => some s
  | y :: s, i + 2 => (remove s (i + 1)).map (y :: ·)
  | _, _ => none

/-- Cut down or filled up with `fill` to a height. -/
def settop (fill : α) (s : List α) (top : Nat) : List α :=
  List.replicate (top - s.length) fill ++ s.drop (s.length - top)

theorem peek_append (front s : List α) (x : α) :
    peek (front ++ x :: s) (front.length + 1) = some x := by
  induction front with
  | nil => rfl
  | cons y front ih => exact ih

theorem pop_append (front s : List α) : pop (front ++ s) front.length = some s := by
  induction front with
  | nil => cases s <;> rfl
  | cons y front ih => exact ih

/-- Whatever was pushed since the height was taken is gone. -/
theorem settop_append (fill : α) (front s : List α) : settop fill (front ++ s) s.length = s := by
  have hfill : s.length - (front ++ s).length = 0 := by
    rw [List.length_append]
    omega
  have hcut : (front ++ s).length - s.length = front.length := by
    rw [List.length_append]
    omega
  rw [settop, hfill, hcut, List.drop_left]
  rfl

end EventServer.Lib.Stack
