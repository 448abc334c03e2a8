import EventServer.Lib.Decimal
import EventServer.Lua.Strings

/-!
# Numbers from Lua

A script's number is converted to the type of the method, written, read and
converted back. A number in the range of the type is the same in a `double`, so
integers stand for it here. The 64-bit methods take and give decimal text instead.
-/
namespace EventServer.Lua

open EventServer.Lib.Blocks EventServer.Lib.CInt EventServer.Lib.ByteOrder EventServer.Lib.Decimal
open EventServer.Stream EventServer.Archive EventServer.Archive.CIArchive

/-- A call writes at the cursor and pushes `out`; a call that reads from there pushes `back`. -/
def WritesAndReads (m : Message) (write : Option (Message × List LuaValue))
    (read : Message → Option (Message × List LuaValue)) (out back : List LuaValue) : Prop :=
  ∃ m₁ r r', write = some (m₁, out) ∧ m₁.readFrom m.ar.stream.curPos = some r ∧
    read r = some (r', back)

theorem writesAndReads_iff {m m₁ r : Message} {write : Option (Message × List LuaValue)}
    {read : Message → Option (Message × List LuaValue)} {out₁ out back : List LuaValue}
    (hw : write = some (m₁, out₁)) (hr : m₁.readFrom m.ar.stream.curPos = some r) :
    WritesAndReads m write read out back ↔ out₁ = out ∧ ∃ r', read r = some (r', back) := by
  constructor
  · intro h
    obtain ⟨m₂, r₂, r', hw₂, hr₂, hread⟩ := h
    obtain ⟨rfl, rfl⟩ : m₁ = m₂ ∧ out₁ = out := Prod.mk.inj (Option.some.inj (hw.symm.trans hw₂))
    obtain rfl : r = r₂ := Option.some.inj (hr.symm.trans hr₂)
    exact ⟨rfl, r', hread⟩
  · intro h
    obtain ⟨rfl, r', hread⟩ := h
    exact ⟨m₁, r, r', hw, hr, hread⟩

/-- The methods for integers of at most 32 bits. -/
inductive IntMethod where
  | sint8
  | uint8
  | sint16
  | uint16
  | int
  | uint32
  deriving DecidableEq

namespace IntMethod

def bytes : IntMethod → Nat
  | .sint8 | .uint8 => 1
  | .sint16 | .uint16 => 2
  | .int | .uint32 => 4

/-- The values of the method's type. -/
def InRange : IntMethod → Int → Prop
  | .sint8, n => -2 ^ 7 ≤ n ∧ n < 2 ^ 7
  | .uint8, n => 0 ≤ n ∧ n < 2 ^ 8
  | .sint16, n => -2 ^ 15 ≤ n ∧ n < 2 ^ 15
  | .uint16, n => 0 ≤ n ∧ n < 2 ^ 16
  | .int, n => -2 ^ 31 ≤ n ∧ n < 2 ^ 31
  | .uint32, n => 0 ≤ n ∧ n < 2 ^ 32

/-- The conversion of a number that the type has. -/
def fromLua (k : IntMethod) (n : Int) : BitVec (8 * k.bytes) := BitVec.ofInt _ n

def call : (k : IntMethod) → Message → BitVec (8 * k.bytes) → BitVec (8 * k.bytes) →
    Option (Message × List LuaValue)
  | .sint8 => Message.sint8
  | .uint8 => Message.uint8
  | .sint16 => Message.sint16
  | .uint16 => Message.uint16
  | .int => Message.int
  | .uint32 => Message.uint32

/-- The overload of `Serial` that the method calls. -/
def serial : (k : IntMethod) → CLXZMessage → BitVec (8 * k.bytes) →
    Option (BitVec (8 * k.bytes) × CLXZMessage)
  | .sint8 => serialSint8
  | .uint8 => serialUint8
  | .sint16 => serialSint16
  | .uint16 => serialUint16
  | .int => serialInt
  | .uint32 => serialUint32

/-- What the method pushes. -/
def toLua : (k : IntMethod) → BitVec (8 * k.bytes) → Int
  | .sint8, x => x.toInt
  | .uint8, x => x.toNat
  | .sint16, x => x.toInt
  | .uint16, x => x.toNat
  | .int, x => x.toInt
  | .uint32, x => x.toInt

/-- What reading applies to the bytes. -/
def swapFn : (k : IntMethod) → CIArchive → BitVec (8 * k.bytes) → BitVec (8 * k.bytes)
  | .sint8, _ | .uint8, _ => id
  | .sint16, ar | .uint16, ar => ar.shortSwapFn
  | .int, ar | .uint32, ar => ar.longSwapFn

theorem swapFn_congr (k : IntMethod) {ar ar' : CIArchive} (h : ar.swapped = ar'.swapped) :
    k.swapFn ar = k.swapFn ar' := by
  cases k <;> simp only [swapFn, longSwapFn, shortSwapFn, h] <;> rfl

theorem call_eq (k : IntMethod) (m : Message) (v u : BitVec (8 * k.bytes)) :
    k.call m v u = m.typed k.serial (fun x => .number (k.toLua x)) v u := by
  cases k <;> rfl

theorem toLua_injective (k : IntMethod) : Function.Injective k.toLua := by
  cases k with
  | uint8 | uint16 =>
    intro x y h
    exact BitVec.eq_of_toNat_eq (Int.natCast_inj.mp h)
  | sint8 | sint16 | int | uint32 =>
    intro x y h
    exact BitVec.eq_of_toInt_eq h

/-- Only the cast in `uint32` changes a number that the type has. -/
theorem toLua_fromLua_iff {k : IntMethod} {n : Int} (hn : k.InRange n) :
    k.toLua (k.fromLua n) = n ↔ (k = .uint32 → n < 2 ^ 31) := by
  cases k with
  | uint8 | uint16 =>
    obtain ⟨h0, h1⟩ := hn
    refine iff_of_true ?_ (by simp)
    simp only [toLua, fromLua, bytes, BitVec.toNat_ofInt]
    omega
  | sint8 | sint16 | int =>
    obtain ⟨h0, h1⟩ := hn
    refine iff_of_true ?_ (by simp)
    simp only [toLua, fromLua, bytes, BitVec.toInt_ofInt]
    exact Int.bmod_eq_of_le (by omega) (by omega)
  | uint32 =>
    obtain ⟨h0, h1⟩ := hn
    simp only [toLua, fromLua, bytes, BitVec.toInt_ofInt, true_implies]
    rcases Int.lt_or_le n (2 ^ 31) with hn | hn
    · exact iff_of_true (Int.bmod_eq_of_le (by omega) (by omega)) hn
    · have hlow : Int.bmod n (2 ^ (8 * 4)) < 2 ^ 31 := Int.bmod_lt (by decide)
      refine iff_of_false ?_ (by omega)
      omega

/-- In the default byte order nothing is swapped; in the other one, a number keeps its value when
its bytes read the same both ways. -/
theorem swapFn_eq_iff (k : IntMethod) (ar : CIArchive) (x : BitVec (8 * k.bytes)) :
    k.swapFn ar x = x ↔
      (ar.swapped = true → leBytes k.bytes x.toNat = beBytes k.bytes x.toNat) := by
  cases hs : ar.swapped with
  | false =>
    refine iff_of_true ?_ (by simp)
    cases k <;> simp [swapFn, shortSwapFn, longSwapFn, hs, shortNoSwap, longNoSwap]
  | true =>
    simp only [true_implies]
    cases k with
    | sint8 | uint8 => exact iff_of_true rfl rfl
    | sint16 | uint16 =>
      simp only [swapFn, shortSwapFn, hs]
      exact swap_eq_iff (k := 2) rfl toNat_shortSwap x
    | int | uint32 =>
      simp only [swapFn, longSwapFn, hs]
      exact swap_eq_iff (k := 4) rfl toNat_longSwap x

theorem serial_write (k : IntMethod) {ar : CIArchive} (h : ar.Ready) (hm : ar.mode = .smWrite)
    (x : BitVec (8 * k.bytes)) :
    ∃ ar', k.serial ar x = some (x, ar') ∧ Wrote ar (leBytes k.bytes x.toNat) ar' := by
  cases k with
  | sint8 | uint8 => exact serialByte_write h hm x
  | sint16 | uint16 => exact serialWord_write h hm ar.shortSwapFn x
  | int | uint32 => exact serialWord_write h hm ar.longSwapFn x

theorem serial_read (k : IntMethod) {ar : CIArchive} (h : ar.Ready) (hm : ar.mode = .smRead)
    (x u : BitVec (8 * k.bytes)) {rest : List Byte}
    (hr : ar.remaining = leBytes k.bytes x.toNat ++ rest) :
    ∃ ar', k.serial ar u = some (k.swapFn ar x, ar') := by
  cases k with
  | sint8 | uint8 =>
    obtain ⟨ar', he, -⟩ := serialByte_read h hm x u hr
    exact ⟨ar', he⟩
  | sint16 | uint16 =>
    obtain ⟨ar', he, -⟩ := serialWord_read_le (k := 2) h hm rfl (by decide) (by decide)
      ar.shortSwapFn x u hr
    exact ⟨ar', he⟩
  | int | uint32 =>
    obtain ⟨ar', he, -⟩ := serialWord_read_le (k := 4) h hm rfl (by decide) (by decide)
      ar.longSwapFn x u hr
    exact ⟨ar', he⟩

/-- The number is written, and read from where it was written; both calls push it. `u` is the local
that is read into. -/
def Survives (k : IntMethod) (m : Message) (n : Int) (u : BitVec (8 * k.bytes)) : Prop :=
  WritesAndReads m (k.call m (k.fromLua n) u) (fun r => k.call r 0 u) [.number n] [.number n]

/-- What the two calls push. -/
theorem survives_iff_pushed (k : IntMethod) {m : Message} (h : m.ar.Ready)
    (hm : m.ar.mode = .smWrite) (n : Int) (u : BitVec (8 * k.bytes)) :
    k.Survives m n u ↔
      k.toLua (k.fromLua n) = n ∧ k.toLua (k.swapFn m.ar (k.fromLua n)) = n := by
  obtain ⟨ar₁, he₁, hw⟩ := k.serial_write h hm (k.fromLua n)
  obtain ⟨ar₂, he₂, hready, hmode, hswap, -, hrem⟩ := hw.readFrom h
  obtain ⟨ar₃, he₃⟩ := k.serial_read hready hmode (k.fromLua n) u hrem
  rw [k.swapFn_congr hswap] at he₃
  have hwrite : k.call m (k.fromLua n) u =
      some ({ m with ar := ar₁ }, [.number (k.toLua (k.fromLua n))]) := by
    rw [call_eq, Message.typed, hm, if_neg (by decide)]
    exact bind_eq_of_some he₁ rfl
  have hopen : (⟨ar₁, m.members⟩ : Message).readFrom m.ar.stream.curPos =
      some ⟨ar₂, m.members⟩ := by
    rw [Message.readFrom, he₂, Option.map_some]
  have hread : k.call ⟨ar₂, m.members⟩ 0 u =
      some (⟨ar₃, m.members⟩, [.number (k.toLua (k.swapFn m.ar (k.fromLua n)))]) := by
    rw [call_eq, Message.typed, hmode, if_pos rfl]
    exact bind_eq_of_some he₃ rfl
  rw [Survives, writesAndReads_iff hwrite hopen, hread]
  simp

/-- A number in the range of its type survives unless it is a `uint32` from the upper half, which
comes back negative, or the byte order is swapped and its bytes differ from their reverse. -/
theorem survives_iff {k : IntMethod} {m : Message} (h : m.ar.Ready) (hm : m.ar.mode = .smWrite)
    {n : Int} (hn : k.InRange n) (u : BitVec (8 * k.bytes)) :
    k.Survives m n u ↔ (k = .uint32 → n < 2 ^ 31) ∧
      (m.ar.swapped = true →
        leBytes k.bytes (k.fromLua n).toNat = beBytes k.bytes (k.fromLua n).toNat) := by
  rw [survives_iff_pushed k h hm, ← toLua_fromLua_iff hn, ← swapFn_eq_iff]
  apply and_congr_right
  intro hpush
  constructor
  · intro hback
    exact k.toLua_injective (hback.trans hpush.symm)
  · intro hid
    rw [hid, hpush]

theorem survives_negative_sint16 : IntMethod.sint16.Survives writing (-2) 0 :=
  (survives_iff (k := .sint16) (ready_fresh 0) rfl ⟨by decide, by decide⟩ 0).mpr
    ⟨by decide, by decide⟩

/-- The largest `uint32` is pushed as -1. -/
theorem uint32_comes_back_negative : ¬ IntMethod.uint32.Survives writing 4294967295 0 := by
  rw [survives_iff_pushed .uint32 (ready_fresh 0) rfl]
  decide

end IntMethod

/-! ## Decimal text -/

/-- The decimal text of a number is written, and read from where it was written. -/
def TextSurvives (fmt : BitVec 64 → List Byte) (m : Message) (text : List Byte) (u : BitVec 64) :
    Prop :=
  WritesAndReads m (m.serial64 fmt (atoll text) u) (fun r => r.serial64 fmt 0 u) [] [.str text]

/-- The formats `%I64u` and `%I64d` of glibc. -/
def glibc : Formats where
  i64u x := ((Conversion.parse [73, 54, 52, 117]).map (·.print x)).getD []
  i64d x := ((Conversion.parse [73, 54, 52, 100]).map (·.print x)).getD []

theorem glibc_width (x : BitVec 64) :
    64 ≤ (glibc.i64u x).length ∧ 64 ≤ (glibc.i64d x).length :=
  ⟨Conversion.width_le ⟨64, false, false⟩ x, Conversion.width_le ⟨64, false, true⟩ x⟩

/-- Reading gives text only when it fits the buffer with its terminator. -/
theorem printed_of_serial64 {fmt : BitVec 64 → List Byte} {r r' : Message} {v u : BitVec 64}
    {text : List Byte} (he : r.serial64 fmt v u = some (r', [.str text])) :
    ∃ x, fmt x = text ∧ (fmt x).length < 64 := by
  unfold Message.serial64 at he
  split at he
  · simp only [Option.bind_eq_bind, Option.bind_eq_some_iff] at he
    obtain ⟨r₁, -, he⟩ := he
    exact absurd he (by simp)
  · simp only [Option.bind_eq_bind, Option.bind_eq_some_iff] at he
    obtain ⟨⟨x, ar⟩, -, he⟩ := he
    split at he
    · rename_i hfit
      have htext : fmt x = text := by simpa using congrArg (Option.map Prod.snd) he
      exact ⟨x, htext, hfit⟩
    · exact absurd he (by simp)

theorem text_lost_of_width {fmt : BitVec 64 → List Byte} (hfmt : ∀ x, 64 ≤ (fmt x).length)
    (m : Message) (text : List Byte) (u : BitVec 64) : ¬ TextSurvives fmt m text u := by
  intro hs
  obtain ⟨m₁, r, r', -, -, hread⟩ := hs
  obtain ⟨x, -, hfit⟩ := printed_of_serial64 hread
  have hwide := hfmt x
  omega

/-- With the formats of glibc no number comes back as text: 64 is the width, and the buffer has no
room for the terminator. -/
theorem glibc_text_lost (m : Message) (u : BitVec 64) :
    (∀ v : Nat, ¬ TextSurvives glibc.i64u m (printNat v) u) ∧
      ∀ v : Int, ¬ TextSurvives glibc.i64d m (printInt v) u :=
  ⟨fun v => text_lost_of_width (fun x => (glibc_width x).1) m (printNat v) u,
    fun v => text_lost_of_width (fun x => (glibc_width x).2) m (printInt v) u⟩

theorem seven_text_lost : ¬ TextSurvives glibc.i64u writing (printNat 7) 0 :=
  text_lost_of_width (fun x => (glibc_width x).1) writing (printNat 7) 0

theorem textSurvives_iff (fmt : BitVec 64 → List Byte) {m : Message} (h : m.ar.Ready)
    (hm : m.ar.mode = .smWrite) (text : List Byte) (u : BitVec 64) :
    TextSurvives fmt m text u ↔
      (fmt (m.ar.longLongSwapFn (atoll text))).length < 64 ∧
        fmt (m.ar.longLongSwapFn (atoll text)) = text := by
  obtain ⟨ar₁, he₁, hw⟩ := serialWord_write h hm m.ar.longLongSwapFn (atoll text)
  obtain ⟨ar₂, he₂, hready, hmode, hswap, -, hrem⟩ := hw.readFrom h
  obtain ⟨ar₃, he₃, -⟩ := serialWord_read_le (k := 8) hready hmode rfl (by decide) (by decide)
    ar₂.longLongSwapFn (atoll text) u hrem
  have hwrite : m.serial64 fmt (atoll text) u = some ({ m with ar := ar₁ }, []) := by
    simp only [Message.serial64, hm]
    exact bind_eq_of_some he₁ rfl
  have hopen : (⟨ar₁, m.members⟩ : Message).readFrom m.ar.stream.curPos =
      some ⟨ar₂, m.members⟩ := by
    rw [Message.readFrom, he₂, Option.map_some]
  have hsame : ar₂.longLongSwapFn = m.ar.longLongSwapFn := by
    rw [longLongSwapFn, hswap, longLongSwapFn]
  rw [hsame] at he₃
  rw [TextSurvives, writesAndReads_iff hwrite hopen]
  simp only [Message.serial64, hmode, serialUint64, hsame, he₃, Option.bind_eq_bind,
    Option.bind_some]
  split <;> simp_all

/-- With formats that take the whole number, `atoll` is left: it saturates at the largest `long
long`, so that the upper half of the unsigned numbers is lost. -/
theorem long_text_survives_iff {m : Message} (h : m.ar.Ready) (hm : m.ar.mode = .smWrite)
    (hs : m.ar.swapped = false) (u : BitVec 64) :
    (∀ v : Nat, v < 2 ^ 64 →
        (TextSurvives (Conversion.print ⟨0, true, false⟩) m (printNat v) u ↔ v < 2 ^ 63)) ∧
      ∀ v : Int, -2 ^ 63 ≤ v → v < 2 ^ 63 →
        TextSurvives (Conversion.print ⟨0, true, true⟩) m (printInt v) u := by
  have hkeep : ∀ x, m.ar.longLongSwapFn x = x := by
    intro x
    rw [(swapFn_default hs).2.2, longLongNotSwap]
  constructor
  · intro v hv
    obtain ⟨hprint, hlen⟩ := Conversion.print_plain false (atoll (printNat v))
    have hnum : Conversion.number ⟨0, true, false⟩ (atoll (printNat v)) =
        (min v (2 ^ 63 - 1) : Nat) := congrArg Nat.cast (toNat_atoll_printNat v)
    rw [textSurvives_iff _ h hm, hkeep, and_iff_right (by omega), hprint, hnum, printInt_natCast,
      printNat_injective.eq_iff]
    omega
  · intro v hlow hhigh
    obtain ⟨hprint, hlen⟩ := Conversion.print_plain true (atoll (printInt v))
    rw [textSurvives_iff _ h hm, hkeep, and_iff_right (by omega), hprint, Conversion.number,
      toInt_atoll_printInt hlow hhigh]

end EventServer.Lua
