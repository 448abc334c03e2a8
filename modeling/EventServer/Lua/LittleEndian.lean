import EventServer.Archive.Bounds

/-!
# `c_le_uint_to_num`

The bytes are to go through a message: written to it, and read back as one or two
numbers. But a new message is in `SM_READ` mode, in which `Write` does nothing, and
it stays so until after the write. The reads find no bytes and leave the variables as
they were set, to 0.
-/
namespace EventServer.Lua

open EventServer.Lib.Blocks EventServer.Lib.CInt EventServer.Lib.ByteOrder EventServer.Stream
open EventServer.Archive EventServer.Archive.CIArchive

/-- `to_little_endian()`: the number it pushes, or that it pushes nothing. -/
def toLittleEndian (v : List Byte) : Option (Option Int) :=
  if v.length = 0 then some (some 0)
  else do
    let msg ← CIArchive.fresh.write v (toInt32 v.length)
    let msg := msg.setMode SerialMode.smRead.toInt
    if v.length = 4 then do
      let (d, _) ← msg.serialUint32 0
      return some d.toNat
    else if v.length = 8 then do
      let (d, msg) ← msg.serialUint32 0
      let (dd, _) ← msg.serialUint32 0
      return some (dd.setWidth 64 <<< 32 ||| d.setWidth 64).toInt
    else
      return none

/-- The number that the bytes are, least significant first. -/
def Decodes (v : List Byte) : Prop := toLittleEndian v = some (some (ofLe v : Int))

theorem write_fresh (v : List Byte) (n : Int) : CIArchive.fresh.write v n = some .fresh := rfl

/-- A number is not read from an empty message. -/
theorem serialUint32_empty {ar : CIArchive} (h : ar.Ready) (hm : ar.mode = .smRead)
    (hc : ar.content = []) (l : BitVec 32) :
    ∃ ar', ar.serialUint32 l = some (l, ar') ∧ Moved ar ar' := by
  rcases serialWord_cases h hm (by decide) (by decide) ar.longSwapFn with
    ⟨hfit, -⟩ | ⟨-, ar', he, hmv, -⟩
  · rw [hc, List.length_nil] at hfit
    omega
  · exact ⟨ar', he l, hmv⟩

theorem toLittleEndian_zero {v : List Byte} (hv : v.length = 4 ∨ v.length = 8) :
    toLittleEndian v = some (some 0) := by
  have hready := ready_fresh SerialMode.smRead.toInt
  have hempty := content_fresh SerialMode.smRead.toInt
  obtain ⟨ar₁, he₁, hmv⟩ := serialUint32_empty hready rfl hempty 0
  obtain ⟨ar₂, he₂, -⟩ := serialUint32_empty hmv.ready hmv.mode (hmv.content.trans hempty) 0
  rcases hv with hv | hv
  · rw [toLittleEndian, if_neg (by omega), write_fresh, Option.bind_eq_bind, Option.bind_some,
      if_pos hv]
    exact bind_eq_of_some he₁ rfl
  · rw [toLittleEndian, if_neg (by omega), write_fresh, Option.bind_eq_bind, Option.bind_some,
      if_neg (by omega), if_pos hv]
    exact bind_eq_of_some he₁ (bind_eq_of_some he₂ rfl)

theorem ofLe_eq_zero_iff (v : List Byte) : ofLe v = 0 ↔ ∀ b ∈ v, b = 0 := by
  induction v with
  | nil => simp [ofLe]
  | cons b v ih =>
    rw [List.forall_mem_cons, ← ih, ofLe, ← BitVec.toNat_inj]
    simp

/-- Four or eight bytes are decoded to their number exactly if all of them are 0. -/
theorem to_little_endian_iff {v : List Byte} (hv : v.length = 4 ∨ v.length = 8) :
    Decodes v ↔ ∀ b ∈ v, b = 0 := by
  rw [Decodes, toLittleEndian_zero hv, ← ofLe_eq_zero_iff, Option.some.injEq, Option.some.injEq,
    eq_comm, Int.natCast_eq_zero]

theorem to_little_endian_zeros : Decodes [0, 0, 0, 0] :=
  (to_little_endian_iff (.inl rfl)).mpr (by decide)

/-- One as four bytes gives 0. -/
theorem one_decodes_to_zero : toLittleEndian [1, 0, 0, 0] = some (some 0) ∧ ¬ Decodes [1, 0, 0, 0] := by
  have hzero : toLittleEndian [1, 0, 0, 0] = some (some 0) := toLittleEndian_zero (.inl rfl)
  refine ⟨hzero, ?_⟩
  rw [Decodes, hzero]
  decide

end EventServer.Lua
