import EventServer.Lib.ByteOrder

/-!
# The swap routines of the archive

`ShortSwap`, `LongSwap` and `LongLongSwap` cut a number into bytes and add them
up in the opposite order. Each is the pattern with the reversed bytes.
-/
namespace EventServer.Archive

open EventServer.Lib.ByteOrder

def shortSwap (l : BitVec 16) : BitVec 16 :=
  let b1 := sbyteAt l 0
  let b2 := sbyteAt l 8
  (b1.setWidth 16 <<< 8) + b2.setWidth 16

def shortNoSwap (l : BitVec 16) : BitVec 16 := l

def longLongSwap (l : BitVec 64) : BitVec 64 :=
  let b1 := ubyteAt l 0
  let b2 := ubyteAt l 8
  let b3 := ubyteAt l 16
  let b4 := ubyteAt l 24
  let b5 := ubyteAt l 32
  let b6 := ubyteAt l 40
  let b7 := ubyteAt l 48
  let b8 := ubyteAt l 56
  (b1.setWidth 64 <<< 56) + (b2.setWidth 64 <<< 48) + (b3.setWidth 64 <<< 40) +
    (b4.setWidth 64 <<< 32) + (b5.setWidth 64 <<< 24) + (b6.setWidth 64 <<< 16) +
    (b7.setWidth 64 <<< 8) + b8.setWidth 64

def longLongNotSwap (l : BitVec 64) : BitVec 64 := l

def longSwap (l : BitVec 32) : BitVec 32 :=
  let b1 := sbyteAt l 0
  let b2 := sbyteAt l 8
  let b3 := sbyteAt l 16
  let b4 := sbyteAt l 24
  (b1.setWidth 32 <<< 24) + (b2.setWidth 32 <<< 16) + (b3.setWidth 32 <<< 8) + b4.setWidth 32

def longNoSwap (l : BitVec 32) : BitVec 32 := l

theorem toNat_shortSwap (l : BitVec 16) : (shortSwap l).toNat = ofLe (beBytes 2 l.toNat) := by
  have hb : beBytes 2 l.toNat = [ubyteAt l 8, ubyteAt l 0] := by
    rw [beBytes, leBytes_toNat l (by omega)]; rfl
  have h1 := (ubyteAt l 0).isLt
  have h2 := (ubyteAt l 8).isLt
  rw [hb]
  simp (disch := omega) only [shortSwap, sbyteAt_eq_ubyteAt, BitVec.toNat_add, toNat_placed,
    BitVec.toNat_setWidth, ofLe, Nat.mod_eq_of_lt]
  omega

theorem toNat_longSwap (l : BitVec 32) : (longSwap l).toNat = ofLe (beBytes 4 l.toNat) := by
  have hb : beBytes 4 l.toNat = [ubyteAt l 24, ubyteAt l 16, ubyteAt l 8, ubyteAt l 0] := by
    rw [beBytes, leBytes_toNat l (by omega)]; rfl
  have h1 := (ubyteAt l 0).isLt
  have h2 := (ubyteAt l 8).isLt
  have h3 := (ubyteAt l 16).isLt
  have h4 := (ubyteAt l 24).isLt
  rw [hb]
  simp (disch := omega) only [longSwap, sbyteAt_eq_ubyteAt, BitVec.toNat_add, toNat_placed,
    BitVec.toNat_setWidth, ofLe, Nat.mod_eq_of_lt]
  omega

theorem toNat_longLongSwap (l : BitVec 64) :
    (longLongSwap l).toNat = ofLe (beBytes 8 l.toNat) := by
  have hb : beBytes 8 l.toNat = [ubyteAt l 56, ubyteAt l 48, ubyteAt l 40, ubyteAt l 32,
      ubyteAt l 24, ubyteAt l 16, ubyteAt l 8, ubyteAt l 0] := by
    rw [beBytes, leBytes_toNat l (by omega)]; rfl
  have h1 := (ubyteAt l 0).isLt
  have h2 := (ubyteAt l 8).isLt
  have h3 := (ubyteAt l 16).isLt
  have h4 := (ubyteAt l 24).isLt
  have h5 := (ubyteAt l 32).isLt
  have h6 := (ubyteAt l 40).isLt
  have h7 := (ubyteAt l 48).isLt
  have h8 := (ubyteAt l 56).isLt
  rw [hb]
  simp (disch := omega) only [longLongSwap, BitVec.toNat_add, toNat_placed, BitVec.toNat_setWidth,
    ofLe, Nat.mod_eq_of_lt]
  omega

/-- A swap leaves its argument alone exactly when both byte orders of it agree. -/
theorem swap_eq_iff {w k : Nat} (hw : w = 8 * k) {swap : BitVec w → BitVec w}
    (hswap : ∀ l, (swap l).toNat = ofLe (beBytes k l.toNat)) (l : BitVec w) :
    swap l = l ↔ leBytes k l.toNat = beBytes k l.toNat := by
  have hlen : (beBytes k l.toNat).length = k := beBytes_length k _
  constructor
  · intro h
    have hb := leBytes_ofLe (beBytes k l.toNat)
    rwa [hlen, ← hswap, h] at hb
  · intro h
    apply BitVec.eq_of_toNat_eq
    rw [hswap, ← h, ofLe_leBytes, Nat.mod_eq_of_lt (toNat_lt_pow hw l)]

end EventServer.Archive
