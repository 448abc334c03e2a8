import EventServer.Lib.Blocks
import EventServer.Lib.CInt

/-!
# The vector of `vvector.h`

`vvector<T>` keeps its elements in one block from `_head` to `_tail`, filled up
to `_end`. `push_back` on a full block copies the cells to a larger one with
`memcpy`. The new capacity is computed in `int`, whose overflow is undefined;
`none` is that, an access outside the block, or the read of a cell that was
never written.
-/
namespace EventServer.Containers

open EventServer.Lib.Blocks EventServer.Lib.CInt

structure VVector (T : Type) where
  /-- The block; `none` is a cell that was not written since it was allocated. -/
  cells : List (Option T)
  /-- `_end - _head`. -/
  size : Nat
  grown : Int
  deriving DecidableEq

namespace VVector

variable {T : Type}

def fresh : VVector T where
  cells := [none]
  size := 0
  grown := 0

def capcity (v : VVector T) : Nat := v.cells.length - v.size

/-- The capacity `push_back` asks for when a block of `l` cells is full. -/
def newCapacity (grown l : Int) : Option Int :=
  if grown ≤ 0 then do
    let l' ← addInt l 1
    addInt l' l'
  else addInt grown l

/-- The larger block, with the old cells copied to its start. -/
def reallocate (v : VVector T) : Option (VVector T) := do
  let l := toInt32 v.cells.length
  let nl ← newCapacity v.grown l
  let old ← slice v.cells 0 (toSizeT l)
  let blk ← blit (List.replicate (toSizeT nl) none) 0 old
  return { v with cells := blk, size := toSizeT l }

/-- `memcpy(_end, &t, sizeof(T))` and the increment of `_end`. -/
def place (v : VVector T) (t : T) : Option (VVector T) := do
  let blk ← blit v.cells v.size [some t]
  return { v with cells := blk, size := v.size + 1 }

def pushBack (v : VVector T) (t : T) : Option (VVector T) :=
  if v.capcity = 0 then do
    let v ← v.reallocate
    v.place t
  else v.place t

def get (v : VVector T) (pos : Nat) : Option T := v.cells[pos]?.join

/-- `swap`: the storages change owners. -/
def swap (v w : VVector T) : VVector T × VVector T := (w, v)

def toList (v : VVector T) : List T := (v.cells.take v.size).filterMap id

/-- The elements fill the block up to `_end`, and the capacity is an `int`. -/
structure Wf (v : VVector T) : Prop where
  written : v.cells.take v.size = v.toList.map some
  le : v.size ≤ v.cells.length
  fits : v.cells.length < 2 ^ 31

theorem wf_fresh : (fresh : VVector T).Wf := by
  constructor <;> simp [fresh, toList]

@[simp] theorem toList_fresh : (fresh : VVector T).toList = [] := by
  simp [fresh, toList]

@[simp] theorem grown_fresh : (fresh : VVector T).grown = 0 := rfl

@[simp] theorem swap_fst (v w : VVector T) : (v.swap w).1 = w := rfl

@[simp] theorem swap_snd (v w : VVector T) : (v.swap w).2 = v := rfl

theorem Wf.length_toList {v : VVector T} (hv : v.Wf) : v.toList.length = v.size := by
  have h := congrArg List.length hv.written
  rw [List.length_take_of_le hv.le, List.length_map] at h
  exact h.symm

theorem Wf.get_eq {v : VVector T} (hv : v.Wf) {i : Nat} (hi : i < v.size) :
    v.get i = v.toList[i]? := by
  have h : v.cells[i]? = (v.toList[i]?).map some := by
    rw [← List.getElem?_map, ← hv.written, List.getElem?_take_of_lt hi]
  rw [get, h]
  cases v.toList[i]? <;> rfl

theorem wf_of_take {cells : List (Option T)} {n : Nat} (grown : Int) {xs : List T}
    (hw : cells.take n = xs.map some) (hle : n ≤ cells.length) (hfits : cells.length < 2 ^ 31) :
    (⟨cells, n, grown⟩ : VVector T).Wf ∧ (⟨cells, n, grown⟩ : VVector T).toList = xs := by
  have hl : (⟨cells, n, grown⟩ : VVector T).toList = xs := by
    rw [toList, hw, List.filterMap_map]
    simp
  exact ⟨⟨by rw [hl, hw], hle, hfits⟩, hl⟩

/-- Every capacity that is computed is larger than the one before. -/
theorem newCapacity_spec {grown l nl : Int} (hl : 0 ≤ l) (h : newCapacity grown l = some nl) :
    l < nl ∧ nl < 2 ^ 31 := by
  unfold newCapacity addInt at h
  split at h
  · simp only [Option.bind_eq_bind, Option.bind_eq_some_iff, Option.ite_none_right_eq_some,
      Option.some.injEq] at h
    omega
  · simp only [Option.ite_none_right_eq_some, Option.some.injEq] at h
    omega

theorem newCapacity_isSome {grown l : Int} (hg : grown ≤ 0) (hl : 0 ≤ l) (hl' : l < 2 ^ 30 - 1) :
    newCapacity grown l = some (2 * (l + 1)) := by
  rw [newCapacity, if_pos hg]
  apply bind_eq_of_some (addInt_of_fits (by omega) (by omega))
  rw [addInt_of_fits (by omega) (by omega), Int.two_mul]

theorem reallocate_eq {v : VVector T} (hv : v.Wf) {n : Nat}
    (hn : newCapacity v.grown v.cells.length = some (n : Int)) (hle : v.cells.length ≤ n) :
    v.reallocate = some { v with
      cells := splice (List.replicate n none) 0 v.cells
      size := v.cells.length } := by
  have hold : slice v.cells 0 v.cells.length = some v.cells := slice_self v.cells
  have hfit : 0 + v.cells.length ≤ (List.replicate n (none : Option T)).length := by
    rw [List.length_replicate]; omega
  simp only [reallocate, toInt32_of_lt hv.fits, toSizeT_natCast]
  refine bind_eq_of_some hn (bind_eq_of_some hold ?_)
  rw [toSizeT_natCast]
  exact bind_eq_of_some (blit_of_fits hfit) rfl

theorem reallocate_spec {v v' : VVector T} (hv : v.Wf) (hfull : v.capcity = 0)
    (h : v.reallocate = some v') :
    v'.Wf ∧ v'.toList = v.toList ∧ v'.size < v'.cells.length ∧ v'.grown = v.grown := by
  have hle := hv.le
  have hsize : v.size = v.cells.length := by unfold capcity at hfull; omega
  cases hnl : newCapacity v.grown v.cells.length with
  | none => simp [reallocate, toInt32_of_lt hv.fits, hnl] at h
  | some nl =>
    obtain ⟨hgt, hlt⟩ := newCapacity_spec (by omega) hnl
    obtain ⟨n, rfl⟩ := Int.eq_ofNat_of_zero_le (show 0 ≤ nl by omega)
    rw [reallocate_eq hv hnl (by omega), Option.some.injEq] at h
    subst h
    have hlen : (splice (List.replicate n (none : Option T)) 0 v.cells).length = n := by
      rw [splice_length (Nat.zero_le _), List.length_replicate]; omega
    have htake : (splice (List.replicate n (none : Option T)) 0 v.cells).take v.cells.length =
        v.toList.map some := by
      rw [splice, List.take_zero, List.nil_append, List.take_left, ← hv.written, hsize,
        List.take_length]
    obtain ⟨hw, hl⟩ := wf_of_take v.grown htake (by omega) (by omega)
    have hroom : v.cells.length < (splice (List.replicate n (none : Option T)) 0 v.cells).length := by
      omega
    exact ⟨hw, hl, hroom, rfl⟩

theorem place_spec {v : VVector T} (hv : v.Wf) (hroom : v.size < v.cells.length) (t : T) :
    ∃ v', v.place t = some v' ∧ v'.Wf ∧ v'.toList = v.toList ++ [t] ∧ v'.grown = v.grown := by
  have hfit : v.size + [some t].length ≤ v.cells.length := hroom
  have hlen : (splice v.cells v.size [some t]).length = v.cells.length := by
    rw [splice_length hv.le]
    exact Nat.max_eq_left hfit
  have htake : (splice v.cells v.size [some t]).take (v.size + 1) =
      (v.toList ++ [t]).map some := by
    have hl : (v.cells.take v.size ++ [some t]).length = v.size + 1 := by
      rw [List.length_append, List.length_take_of_le hv.le]; rfl
    rw [splice, ← hl, List.take_left, hv.written, List.map_append]
    rfl
  have hfits := hv.fits
  obtain ⟨hw, hl⟩ := wf_of_take v.grown htake (by omega) (by omega)
  exact ⟨_, bind_eq_of_some (blit_of_fits hfit) rfl, hw, hl, rfl⟩

/-- A defined `push_back` appends, reallocation included. -/
theorem pushBack_spec {v v' : VVector T} (hv : v.Wf) {t : T} (h : v.pushBack t = some v') :
    v'.Wf ∧ v'.toList = v.toList ++ [t] ∧ v'.grown = v.grown := by
  unfold pushBack at h
  split at h
  · rename_i hfull
    simp only [Option.bind_eq_bind, Option.bind_eq_some_iff] at h
    obtain ⟨w, hw, hp⟩ := h
    obtain ⟨hwf, hl, hroom, hg⟩ := reallocate_spec hv hfull hw
    obtain ⟨w', hp', hwf', hl', hg'⟩ := place_spec hwf hroom t
    obtain rfl : w' = v' := by simpa [hp'] using hp
    exact ⟨hwf', by rw [hl', hl], by rw [hg', hg]⟩
  · rename_i hroom
    obtain ⟨w', hp', hwf', hl', hg'⟩ := place_spec hv (by unfold capcity at hroom; omega) t
    obtain rfl : w' = v' := by simpa [hp'] using h
    exact ⟨hwf', hl', hg'⟩

theorem pushBack_isSome {v : VVector T} (hv : v.Wf) (hg : v.grown ≤ 0)
    (hl : v.cells.length < 2 ^ 30 - 1) (t : T) : ∃ v', v.pushBack t = some v' := by
  have hle := hv.le
  unfold pushBack
  split
  · rename_i hfull
    have hnew := newCapacity_isSome (l := v.cells.length) hg (by omega) (by omega)
    have hre := reallocate_eq (n := 2 * (v.cells.length + 1)) hv (by rw [hnew]; rfl) (by omega)
    obtain ⟨hwf, -, hroom, -⟩ := reallocate_spec hv hfull hre
    obtain ⟨w', hp, -⟩ := place_spec hwf hroom t
    exact ⟨w', bind_eq_of_some hre hp⟩
  · rename_i hroom
    obtain ⟨w', hp, -⟩ := place_spec hv (by unfold capcity at hroom; omega) t
    exact ⟨w', hp⟩

end VVector

end EventServer.Containers
