import EventServer.Archive.IArchive

/-!
# Reading leaves the message alone

In `SM_READ` mode no overload of `Serial` changes the bytes of the message, its
mode or its byte order, whatever arguments it is given and whatever the bytes
are: only the cursor and the error code move.
-/
namespace EventServer.Archive

open EventServer.Lib.Blocks EventServer.Stream

/-- A call of a typed function, with the variable it reads into and the sizes passed. -/
inductive TypedRead where
  | uiboolean (l : BitVec 32)
  | bool (l : Bool)
  | int (l : BitVec 32)
  | long (l : BitVec 64)
  | sint8 (l : Byte)
  | uint8 (l : Byte)
  | sint16 (l : BitVec 16)
  | uint16 (l : BitVec 16)
  | uint32 (l : BitVec 32)
  | uint64 (l : BitVec 64)
  | float (fl : BitVec 64) (l : BitVec 32)
  | buf (str : List Byte) (len : Int)
  | block (str : List Byte) (len nMaxBuf : Int)
  | cstr (str : List Byte) (len : Int)
  | ptr (v p : BitVec 64)
  | ptrNamed (v p : BitVec 64) (name : List Byte)

def TypedRead.run (ar : CIArchive) : TypedRead → Option CIArchive
  | .uiboolean l => (ar.serialUiboolean l).map Prod.snd
  | .bool l => (ar.serialBool l).map Prod.snd
  | .int l => (ar.serialInt l).map Prod.snd
  | .long l => (ar.serialLong l).map Prod.snd
  | .sint8 l => (ar.serialSint8 l).map Prod.snd
  | .uint8 l => (ar.serialUint8 l).map Prod.snd
  | .sint16 l => (ar.serialSint16 l).map Prod.snd
  | .uint16 l => (ar.serialUint16 l).map Prod.snd
  | .uint32 l => (ar.serialUint32 l).map Prod.snd
  | .uint64 l => (ar.serialUint64 l).map Prod.snd
  | .float fl l => (ar.serialFloat fl l).map Prod.snd
  | .buf str len => (ar.serialBuf str len).map Prod.snd
  | .block str len nMaxBuf => (ar.serialBlock str len nMaxBuf).map Prod.snd
  | .cstr str len => (ar.serialStr str len).map Prod.snd
  | .ptr v p => (ar.serialPtr v p).map Prod.snd
  | .ptrNamed v p name => (ar.serialPtrNamed v p name).map Prod.snd

namespace CIArchive

variable {α : Type} {ar ar' : CIArchive}

theorem moved_of_streamRead (h : ar.Ready) {n : Int} {g : Int × List Byte × CIArchive → α}
    {v : α} (he : (ar.streamRead n >>= fun r => pure (g r, r.2.2)) = some (v, ar')) :
    Moved ar ar' := by
  simp only [Option.bind_eq_bind, Option.bind_eq_some_iff, Option.pure_def, Option.some.injEq,
    Prod.mk.injEq] at he
  obtain ⟨⟨ret, bytes, ar₁⟩, hr, -, rfl⟩ := he
  exact streamRead_moved h hr

theorem serialWord_moved (h : ar.Ready) (hm : ar.mode = .smRead) {w : Nat}
    {swap : BitVec w → BitVec w} {l v : BitVec w} (he : ar.serialWord swap l = some (v, ar')) :
    Moved ar ar' := by
  simp only [serialWord, hm] at he
  exact moved_of_streamRead h he

theorem serialBuf_moved (h : ar.Ready) (hm : ar.mode = .smRead) {str str' : List Byte} {len : Int}
    (he : ar.serialBuf str len = some (str', ar')) : Moved ar ar' := by
  simp only [serialBuf, hm, Option.bind_eq_bind, Option.bind_eq_some_iff, Option.pure_def,
    Option.some.injEq, Prod.mk.injEq] at he
  obtain ⟨⟨ret, bytes, ar₁⟩, hr, -, -, -, rfl⟩ := he
  exact streamRead_moved h hr

theorem serialBlock_moved (h : ar.Ready) (hm : ar.mode = .smRead) {str str' : List Byte}
    {len nMaxBuf : Int} (he : ar.serialBlock str len nMaxBuf = some (str', ar')) :
    Moved ar ar' := by
  simp only [serialBlock, hm, Option.bind_eq_bind, Option.bind_eq_some_iff, Option.pure_def] at he
  obtain ⟨zeros, -, ⟨l, ar₁⟩, hl, he⟩ := he
  have h₁ := serialWord_moved h hm hl
  split at he
  · exact h₁.trans (serialBuf_moved h₁.ready (h₁.mode.trans hm) he)
  · obtain ⟨-, rfl⟩ : zeros = str' ∧ ar₁ = ar' := by simpa using he
    exact h₁

theorem serialStr_moved (h : ar.Ready) (hm : ar.mode = .smRead) {str str' : List Byte} {len : Int}
    (he : ar.serialStr str len = some (str', ar')) : Moved ar ar' := by
  simp only [serialStr, hm, Option.bind_eq_bind, Option.bind_eq_some_iff, Option.pure_def] at he
  obtain ⟨⟨l, ar₁⟩, hl, he⟩ := he
  have h₁ := serialWord_moved h hm hl
  split at he
  · simp only [Option.bind_eq_some_iff, Option.some.injEq, Prod.mk.injEq] at he
    obtain ⟨⟨s, ar₂⟩, hs, -, -, -, -, -, rfl⟩ := he
    exact h₁.trans (serialBuf_moved h₁.ready (h₁.mode.trans hm) hs)
  · simp only [Option.bind_eq_some_iff, Option.some.injEq, Prod.mk.injEq] at he
    obtain ⟨-, rfl, -, -, -, -, -, rfl⟩ := he
    exact h₁

theorem serialPtrNamed_moved (h : ar.Ready) (hm : ar.mode = .smRead) {v ptr ptr' : BitVec 64}
    {name : List Byte} (he : ar.serialPtrNamed v ptr name = some (ptr', ar')) : Moved ar ar' := by
  simp only [serialPtrNamed, hm, Option.bind_eq_bind, Option.bind_eq_some_iff, Option.pure_def] at he
  obtain ⟨⟨buf, ar₁⟩, hb, ⟨v', ar₂⟩, hv, he⟩ := he
  have h₁ := serialBlock_moved h hm hb
  have h₂ := h₁.trans (serialWord_moved h₁.ready (h₁.mode.trans hm) hv)
  split at he <;> (cases he; exact h₂)

theorem typedRead_moved (h : ar.Ready) (hm : ar.mode = .smRead) {r : TypedRead}
    (he : r.run ar = some ar') : Moved ar ar' := by
  cases r with
  | uiboolean l | bool l | float fl l =>
    obtain ⟨⟨v, ar₁⟩, hs, rfl⟩ := Option.map_eq_some_iff.mp he
    simp only [serialUiboolean, serialBool, serialFloat, hm] at hs
    exact moved_of_streamRead h hs
  | sint8 l | uint8 l =>
    obtain ⟨⟨v, ar₁⟩, hs, rfl⟩ := Option.map_eq_some_iff.mp he
    simp only [serialSint8, serialUint8, serialByte, hm] at hs
    exact moved_of_streamRead h hs
  | int l | long l | sint16 l | uint16 l | uint32 l | uint64 l =>
    obtain ⟨⟨v, ar₁⟩, hs, rfl⟩ := Option.map_eq_some_iff.mp he
    exact serialWord_moved h hm hs
  | buf str len =>
    obtain ⟨⟨v, ar₁⟩, hs, rfl⟩ := Option.map_eq_some_iff.mp he
    exact serialBuf_moved h hm hs
  | block str len nMaxBuf =>
    obtain ⟨⟨v, ar₁⟩, hs, rfl⟩ := Option.map_eq_some_iff.mp he
    exact serialBlock_moved h hm hs
  | cstr str len =>
    obtain ⟨⟨v, ar₁⟩, hs, rfl⟩ := Option.map_eq_some_iff.mp he
    exact serialStr_moved h hm hs
  | ptr v p =>
    obtain ⟨⟨v, ar₁⟩, hs, rfl⟩ := Option.map_eq_some_iff.mp he
    simp only [serialPtr, hm] at hs
    exact serialWord_moved h hm hs
  | ptrNamed v p name =>
    obtain ⟨⟨v, ar₁⟩, hs, rfl⟩ := Option.map_eq_some_iff.mp he
    exact serialPtrNamed_moved h hm hs

end CIArchive
end EventServer.Archive
