import EventServer.Archive.Bounds
import EventServer.Lua.Fields

/-!
# String fields from Lua

`cstring` and `lstring` write a length and the bytes behind it. How many bytes
are written and what length is announced are computed apart from one another, as
are the lengths that reading accepts.
-/
namespace EventServer.Lua

open EventServer.Lib.Blocks EventServer.Lib.CInt EventServer.Lib.ByteOrder
open EventServer.Lib.Transition EventServer.Lib.CString
open EventServer.Stream EventServer.Archive EventServer.Archive.CIArchive

def Message.readFrom (m : Message) (pos : Nat) : Option Message :=
  (m.ar.readFrom pos).map fun ar => { m with ar }

/-- A field is written, the fields that follow it as well, and the message is read from where the
field was written: what the field method returns there, and whether it ends where the following
fields start. -/
def ReadsBack (fmt : Formats) (m : Message) (write : Message → Option (Message × List LuaValue))
    (fields : List LuaOp) (read : Message → Option (Message × List LuaValue)) (s : List Byte) :
    Prop :=
  ∃ m₁ m₂ outs r r', write m = some (m₁, []) ∧ run (Message.call fmt) m₁ fields = some (m₂, outs) ∧
    m₂.readFrom m.ar.stream.curPos = some r ∧ read r = some (r', [.str s]) ∧
    r'.ar.stream.curPos = m₁.ar.stream.curPos

/-- What the reader of a field finds: its bytes, with anything behind them. -/
structure Reopened (m : Message) (bytes : List Byte) (r : Message) : Prop where
  ready : r.ar.Ready
  mode : r.ar.mode = .smRead
  swapped : r.ar.swapped = m.ar.swapped
  pos : r.ar.stream.curPos = m.ar.stream.curPos
  remaining : ∃ rest, r.ar.remaining = bytes ++ rest

section Fields

variable (fmt : Formats) {m m₁ : Message} {bytes : List Byte} {fields : List LuaOp}

theorem reopened_of_wrote (h : m.ar.Ready) (hm : m.ar.mode = .smWrite)
    (hw : Wrote m.ar bytes m₁.ar) (hf : ∀ op ∈ fields, op.Writable) :
    ∃ m₂ outs r, run (Message.call fmt) m₁ fields = some (m₂, outs) ∧
      m₂.readFrom m.ar.stream.curPos = some r ∧ Reopened m bytes r := by
  obtain ⟨m₂, outs, bytes', he, hw'⟩ := fields_append fmt hw.ready (hw.mode.trans hm) hf
  obtain ⟨r, hr, hready, hmode, hswap, hpos, hrem⟩ := (hw.trans h hw').readFrom h
  refine ⟨m₂, outs, { m₂ with ar := r }, he, by rw [Message.readFrom, hr, Option.map_some], hready,
    hmode, hswap, hpos, ?_⟩
  exact ⟨_, hrem.trans (List.append_assoc _ _ _)⟩

/-- With the bytes of the field known, only its own two calls are left to look at. -/
theorem readsBack_iff (h : m.ar.Ready) (hm : m.ar.mode = .smWrite)
    (write read : Message → Option (Message × List LuaValue)) (hwrite : write m = some (m₁, []))
    (hw : Wrote m.ar bytes m₁.ar) (hf : ∀ op ∈ fields, op.Writable) (s : List Byte) :
    ∃ r, Reopened m bytes r ∧ (ReadsBack fmt m write fields read s ↔
      ∃ r', read r = some (r', [.str s]) ∧
        r'.ar.stream.curPos = m.ar.stream.curPos + bytes.length) := by
  obtain ⟨m₂, outs, r, hrun, hr, hopen⟩ := reopened_of_wrote fmt h hm hw hf
  refine ⟨r, hopen, ?_⟩
  constructor
  · intro hback
    obtain ⟨m₁', m₂', outs', r₀, r', hwrite', hrun', hr', hread, hpos⟩ := hback
    obtain rfl : m₁ = m₁' := (Prod.mk.inj (Option.some.inj (hwrite.symm.trans hwrite'))).1
    obtain rfl : m₂ = m₂' := (Prod.mk.inj (Option.some.inj (hrun.symm.trans hrun'))).1
    obtain rfl : r = r₀ := Option.some.inj (hr.symm.trans hr')
    exact ⟨r', hread, hpos.trans hw.pos⟩
  · intro hback
    obtain ⟨r', hread, hpos⟩ := hback
    exact ⟨m₁, m₂, outs, r, r', hwrite, hrun, hr, hread, hpos.trans hw.pos.symm⟩

end Fields

/-! ## `cstring` -/

def CstringReadsBack (fmt : Formats) (m : Message) (s : List Byte) (u : Fin 256 → Byte)
    (fields : List LuaOp) : Prop :=
  ReadsBack fmt m (fun m => m.cstring s u) fields (fun r => r.cstring [] u) (s.take 255)

theorem toInt_ofNat_length (n : Nat) : (BitVec.ofNat 32 n).toInt = toInt32 n := by
  unfold toInt32
  rw [BitVec.toInt_eq_toNat_bmod, BitVec.toNat_ofNat, Int.natCast_emod, Int.emod_bmod]

/-- A length that an `int` takes for a negative number is not written at all. -/
theorem cstring_negative {m : Message} (h : m.ar.Ready) (hm : m.ar.mode = .smWrite) (v : List Byte)
    (u : Fin 256 → Byte) (hv : toInt32 (cstr v).length < 0) : m.cstring v u = none := by
  have hnone : ∀ ar : CIArchive, ar.streamWrite (v ++ [0]) (toInt32 (cstr v).length) = none := by
    intro ar
    rw [streamWrite, CIMemFile.write_of_neg _ _ hv]
    split <;> rfl
  obtain ⟨ar, he, -⟩ := serialWord_write h hm m.ar.longSwapFn (BitVec.ofNat 32 (cstr v).length)
  have hser : ∀ len, m.ar.serialStr (v ++ [0]) len = none := by
    intro len
    simp only [serialStr, hm]
    exact bind_eq_of_some (strlen_terminated v []) (bind_eq_of_some he (by rw [hnone]; rfl))
  simp only [Message.cstring, hm]
  exact bind_eq_of_some (cstrOf_terminated v []) (by rw [hser]; rfl)

theorem length_cstrOf_le {buf t : List Byte} {i : Nat} (hzero : buf[i]? = some 0)
    (ht : Message.cstrOf buf = some t) : t.length ≤ i := by
  obtain ⟨hi, hz⟩ := List.getElem?_eq_some_iff.mp hzero
  have hsplit : buf = buf.take i ++ 0 :: buf.drop (i + 1) := by
    rw [← hz, List.getElem_cons_drop, List.take_append_drop]
  rw [hsplit, cstrOf_terminated, Option.some.injEq] at ht
  have hle := length_cstr_le (buf.take i)
  rw [ht, List.length_take] at hle
  omega

/-- What reading a `cstring` takes at least: the announced length is an index of `buf`, the string
ends there or before, and the cursor moved over that many bytes or over none. -/
theorem cstring_read {r r' : Message} {l : BitVec 32} {rest t : List Byte} (h : r.ar.Ready)
    (hm : r.ar.mode = .smRead) (hr : r.ar.remaining = leBytes 4 l.toNat ++ rest)
    {v : List Byte} {u : Fin 256 → Byte} (he : r.cstring v u = some (r', [.str t])) :
    ∃ i : Nat, (r.ar.longSwapFn l).toInt = i ∧ t.length ≤ i ∧
      (r'.ar.stream.curPos = r.ar.stream.curPos + 4 ∨
        i < 255 ∧ r'.ar.stream.curPos = r.ar.stream.curPos + 4 + i) := by
  obtain ⟨hann, hfour⟩ := announced_of_remaining h hr
  simp only [Message.cstring, hm, Option.bind_eq_bind, Option.bind_eq_some_iff, Option.pure_def,
    Option.some.injEq, Prod.mk.injEq, List.cons.injEq, LuaValue.str.injEq, and_true] at he
  obtain ⟨⟨buf, ar'⟩, hser, t', ht, rfl, rfl⟩ := he
  have hroom : 255 ≤ (List.ofFn u).length := by
    rw [List.length_ofFn]
    omega
  obtain ⟨i, hi, -, hzero, hpos⟩ := serialStr_defined h hm hroom hser
  exact ⟨i, hann.symm.trans hi, length_cstrOf_le hzero ht, hpos hfour⟩

theorem serialStr_readBack {ar : CIArchive} (h : ar.Ready) (hm : ar.mode = .smRead)
    {s : List Byte} (str : List Byte) {len : Nat} (hlen : s.length < len)
    (hroom : s.length < str.length) (hlt : s.length < 2 ^ 31)
    (hk : ar.KeepsLength s.length)
    {rest : List Byte} (hr : ar.remaining = leBytes 4 s.length ++ (s ++ rest)) :
    ∃ tail ar', ar.serialStr str len = some (s ++ 0 :: tail, ar') ∧
      Consumed ar (4 + s.length) rest ar' := by
  rw [← Field.toNat_len hlt] at hr
  obtain ⟨ar₁, he₁, hc₁⟩ := serialInt_readBack h hm hk 0 hr
  have hm₁ : ar₁.mode = .smRead := hc₁.moved.mode.trans hm
  obtain ⟨ar₂, he₂, hc₂⟩ := streamRead_image hc₁.moved.ready (n := s.length) rfl (by omega)
    hc₁.remaining
  have hbuf : ar₁.serialBuf str s.length = some (splice str 0 s, ar₂) := by
    have hfit : 0 + s.length ≤ str.length := by omega
    simp only [serialBuf, hm₁]
    exact bind_eq_of_some he₂ (bind_eq_of_some (blit_of_fits hfit) rfl)
  have hterm : splice (splice str 0 s) s.length [0] = s ++ 0 :: str.drop (s.length + 1) := by
    rw [show s.length = 0 + s.length by omega, splice_splice (Nat.zero_le _)]
    simp [splice]
  have hlt' : (BitVec.ofNat 32 s.length).toInt < len := by
    rw [Field.toInt_len hlt]
    omega
  refine ⟨str.drop (s.length + 1), ar₂, ?_, hc₁.trans hc₂⟩
  simp only [serialStr, hm]
  apply bind_eq_of_some he₁
  rw [if_pos hlt', Field.toInt_len hlt]
  have hcell : s.length + [(0 : Byte)].length ≤ (splice str 0 s).length := by
    rw [splice_length (Nat.zero_le _), List.length_singleton]
    omega
  exact bind_eq_of_some hbuf (bind_eq_of_some (CIMemFile.copyLen_natCast _)
    (bind_eq_of_some (blit_of_fits hcell) (by rw [hterm]; rfl)))

theorem toNat_longSwap_of_small {l : BitVec 32} (hl : l.toNat < 256) :
    (longSwap l).toNat = l.toNat * 2 ^ 24 := by
  rw [toNat_longSwap]
  simp only [beBytes, leBytes, ofLe, List.reverse_cons, List.reverse_nil, List.nil_append,
    List.cons_append, BitVec.toNat_ofNat]
  omega

/-- The length that comes back is the one written; swapped bytes of a length below 256 agree with
it only for 0. -/
theorem announced_of_small {ar : CIArchive} {l : BitVec 32} {i n : Nat} (hl : l.toInt = n)
    (hi : (ar.longSwapFn l).toInt = i) (h : n = 0 ∨ n < 255 ∧ n = i) :
    i = n ∧ (ar.swapped = true → n = 0) := by
  have hnat : l.toNat = n := by
    rw [BitVec.toInt_eq_toNat_cond] at hl
    have hlt := l.isLt
    split at hl <;> omega
  cases hs : ar.swapped with
  | false =>
    rw [longSwapFn_default hs, hl] at hi
    exact ⟨by omega, by simp⟩
  | true =>
    have hswap : ar.longSwapFn l = longSwap l := by simp [longSwapFn, hs]
    have hmul := toNat_longSwap_of_small (l := l) (by omega)
    rw [hswap, BitVec.toInt_eq_toNat_cond, hmul, hnat] at hi
    split at hi <;> omega

section Cstring

variable (fmt : Formats) {m : Message} (h : m.ar.Ready) (hm : m.ar.mode = .smWrite) {s : List Byte}
  (hs : 0 ∉ s) (u : Fin 256 → Byte) {fields : List LuaOp} (hf : ∀ op ∈ fields, op.Writable)

include h hm hs hf

/-- A string whose length is no negative `int` is written, and only its reading is left. -/
theorem cstring_field {n : Nat} (hn : toInt32 s.length = n) :
    ∃ r, Reopened m (leBytes 4 (BitVec.ofNat 32 s.length).toNat ++ s.take n) r ∧
      (CstringReadsBack fmt m s u fields ↔
        ∃ r', r.cstring [] u = some (r', [.str (s.take 255)]) ∧
          r'.ar.stream.curPos = m.ar.stream.curPos + (4 + n)) := by
  have hcstr : cstr s = s := cstr_of_not_mem hs
  have hle := toInt32_le s.length
  have hbytes : (leBytes 4 (BitVec.ofNat 32 s.length).toNat ++ s.take n).length = 4 + n := by
    rw [List.length_append, leBytes_length, List.length_take]
    omega
  obtain ⟨m₁, hwrite, hw⟩ := cstring_write h hm s u (by rw [hcstr, hn]; omega)
  rw [hcstr, hn, Int.toNat_natCast] at hw
  obtain ⟨r, hopen, hiff⟩ := readsBack_iff fmt h hm (fun m => m.cstring s u)
    (fun r => r.cstring [] u) hwrite hw hf (s.take 255)
  rw [hbytes] at hiff
  exact ⟨r, hopen, hiff⟩

theorem short_of_cstring_readsBack (hback : CstringReadsBack fmt m s u fields) :
    s.length ≤ 254 ∧ (m.ar.swapped = true → s = []) := by
  rcases Int.lt_or_le (toInt32 s.length) 0 with hneg | hpos
  · obtain ⟨m₁, m₂, outs, r, r', hwrite, -⟩ := hback
    have hnone := cstring_negative h hm s u (by rw [cstr_of_not_mem hs]; exact hneg)
    exact absurd (hnone.symm.trans hwrite) (by simp)
  obtain ⟨n, hn⟩ := Int.eq_ofNat_of_zero_le hpos
  have hle := toInt32_le s.length
  obtain ⟨r, hopen, hiff⟩ := cstring_field fmt h hm hs u hf hn
  obtain ⟨rest, hrem⟩ := hopen.remaining
  rw [List.append_assoc] at hrem
  obtain ⟨r', hread, hend⟩ := hiff.mp hback
  obtain ⟨i, hi, hlen, hcur⟩ := cstring_read hopen.ready hopen.mode hrem hread
  rw [hopen.pos] at hcur
  rw [List.length_take] at hlen
  obtain ⟨rfl, hzero⟩ :=
    announced_of_small (n := n) ((toInt_ofNat_length _).trans hn) hi (by omega)
  refine ⟨by omega, fun hswap => List.eq_nil_of_length_eq_zero ?_⟩
  have hi0 := hzero (hopen.swapped.trans hswap)
  omega

theorem cstring_readsBack_of_short (hshort : s.length ≤ 254)
    (hempty : m.ar.swapped = true → s = []) : CstringReadsBack fmt m s u fields := by
  have hlt : s.length < 2 ^ 31 := by omega
  have hlen : s.length < 255 := by omega
  obtain ⟨r, hopen, hiff⟩ := cstring_field fmt h hm hs u hf (toInt32_of_lt hlt)
  obtain ⟨rest, hrem⟩ := hopen.remaining
  rw [List.append_assoc, Field.toNat_len hlt, List.take_length] at hrem
  have hk : r.ar.KeepsLength s.length := by
    cases hswap : r.ar.swapped with
    | false => exact keepsLength_default hswap _
    | true =>
      rw [hempty (hopen.swapped.symm.trans hswap), KeepsLength, longSwapFn, hswap]
      decide
  obtain ⟨tail, ar', he, hc⟩ := serialStr_readBack hopen.ready hopen.mode (List.ofFn u) hlen
    (by rw [List.length_ofFn]; omega) hlt hk hrem
  refine hiff.mpr ⟨{ r with ar := ar' }, ?_, ?_⟩
  · simp only [Message.cstring, hopen.mode]
    refine bind_eq_of_some he (bind_eq_of_some (cstrOf_terminated s tail) ?_)
    rw [cstr_of_not_mem hs, List.take_of_length_le (by omega)]
    rfl
  · rw [← hopen.pos]
    exact hc.pos

/-- A `cstring` comes back exactly when it is shorter than what reading accepts, and in the swapped
byte order only when it is empty. -/
theorem cstring_readsBack_iff :
    CstringReadsBack fmt m s u fields ↔ s.length ≤ 254 ∧ (m.ar.swapped = true → s = []) :=
  ⟨short_of_cstring_readsBack fmt h hm hs u hf,
    fun hc => cstring_readsBack_of_short fmt h hm hs u hf hc.1 hc.2⟩

end Cstring

/-- A new message in write mode. -/
def writing : Message := ⟨CIArchive.fresh.setMode 0, .fresh⟩

/-- Numbers as text are not looked at here. -/
def noFormats : Formats := ⟨fun _ => [], fun _ => []⟩

theorem cstring_readsBack_two :
    CstringReadsBack noFormats writing [97, 98] (fun _ => 0) [.int 7 0] :=
  (cstring_readsBack_iff noFormats (ready_fresh 0) rfl (by decide) (fun _ => 0)
    (by simp [LuaOp.Writable])).mpr ⟨by decide, by decide⟩

/-- The longest string that writing lets through is not accepted by reading. -/
theorem cstring_drops_longest :
    ¬ CstringReadsBack noFormats writing (List.replicate 255 97) (fun _ => 0) [.int 7 0] := by
  intro hback
  have hshort := short_of_cstring_readsBack noFormats (ready_fresh 0) rfl
    (fun hmem => absurd (List.eq_of_mem_replicate hmem) (by decide)) (fun _ => 0)
    (by simp [LuaOp.Writable]) hback
  rw [List.length_replicate] at hshort
  omega

/-! ## `lstring` -/

def LstringReadsBack (fmt : Formats) (m : Message) (s : List Byte) (type : BitVec 32) (u8 : Byte)
    (u16 : BitVec 16) (fields : List LuaOp) : Prop :=
  ReadsBack fmt m (fun m => m.lstring s type u8 u16) fields (fun r => r.lstring [] type u8 u16) s

/-- The string comes back, or writing it left the message as it was. -/
def LstringKept (fmt : Formats) (m : Message) (s : List Byte) (type : BitVec 32) (u8 : Byte)
    (u16 : BitVec 16) (fields : List LuaOp) : Prop :=
  (∃ out, m.lstring s type u8 u16 = some (m, out)) ∨ LstringReadsBack fmt m s type u8 u16 fields

/-- The part of reading behind the length. -/
def lstringRest (m : Message) (ar : CIArchive) (len : Int) : Option (Message × List LuaValue) := do
  let n ← CIMemFile.copyLen len
  let size ← addInt n 1
  let (buf, ar) ← ar.serialBuf (List.replicate size.toNat 0) n
  return ({ m with ar }, [.str (buf.take n)])

theorem lstringRest_of_read (m : Message) {ar ar' : CIArchive} (hm : ar.mode = .smRead) {n : Nat}
    (hn : n < 2 ^ 31 - 1) {ret : Int} {bytes : List Byte}
    (he : ar.streamRead n = some (ret, bytes, ar')) (hle : bytes.length ≤ n) :
    lstringRest m ar n = some ({ m with ar := ar' },
      [.str ((splice (List.replicate (n + 1) 0) 0 bytes).take n)]) := by
  have hsize : addInt n 1 = some ((n + 1 : Nat) : Int) := addInt_of_fits (by omega) (by omega)
  have hfit : 0 + bytes.length ≤ (List.replicate (n + 1) (0 : Byte)).length := by
    rw [List.length_replicate]
    omega
  have hbuf : ar.serialBuf (List.replicate (n + 1) 0) n =
      some (splice (List.replicate (n + 1) 0) 0 bytes, ar') := by
    simp only [serialBuf, hm]
    exact bind_eq_of_some he (bind_eq_of_some (blit_of_fits hfit) rfl)
  refine bind_eq_of_some (CIMemFile.copyLen_natCast n) (bind_eq_of_some hsize ?_)
  rw [Int.toNat_natCast]
  exact bind_eq_of_some hbuf rfl

/-- What reading makes of an announced length: `n` bytes, those ahead when there are enough. -/
theorem lstringRest_spec (m : Message) {ar : CIArchive} (h : ar.Ready) (hm : ar.mode = .smRead)
    {n : Nat} (hn : n < 2 ^ 31 - 1) :
    ∃ t ar', lstringRest m ar n = some ({ m with ar := ar' }, [.str t]) ∧ t.length = n ∧
      ∀ bytes rest, ar.remaining = bytes ++ rest → bytes.length = n →
        t = bytes ∧ ar'.stream.curPos = ar.stream.curPos + n := by
  have hlen : ∀ bytes : List Byte, bytes.length ≤ n →
      ((splice (List.replicate (n + 1) 0) 0 bytes).take n).length = n := by
    intro bytes hle
    rw [List.length_take, splice_length (Nat.zero_le _), List.length_replicate]
    omega
  rcases streamRead_cases h n with ⟨hfit, ar', he, -, hpos⟩ | ⟨hshort, ar', he, -, -⟩
  · have hle : (ar.remaining.take n).length ≤ n := List.length_take_le n _
    refine ⟨_, ar', lstringRest_of_read m hm hn he hle, hlen _ hle, ?_⟩
    intro bytes rest hr hb
    refine ⟨?_, hpos⟩
    rw [hr, ← hb, List.take_left, splice, List.take_zero, List.nil_append, List.take_left]
  · refine ⟨_, ar', lstringRest_of_read m hm hn he (Nat.zero_le n), hlen _ (Nat.zero_le n), ?_⟩
    intro bytes rest hr hb
    have hahead := congrArg List.length hr
    have hpos := h.pos_le
    rw [remaining, List.length_drop, List.length_append] at hahead
    omega

section Announced

variable {r : Message} (h : r.ar.Ready) (hm : r.ar.mode = .smRead) (v : List Byte) (u8 : Byte)
  (u16 : BitVec 16) {rest : List Byte}

include h hm

theorem lstring_read_one {b : Byte} (hr : r.ar.remaining = [b] ++ rest) :
    ∃ ar₁, r.lstring v 1 u8 u16 = lstringRest r ar₁ b.toNat ∧ Consumed r.ar 1 rest ar₁ := by
  rw [← leBytes_byte] at hr
  obtain ⟨ar₁, he, hc⟩ := serialByte_read h hm b u8 hr
  have hser : (r.ar.serialUint8 u8).map (fun r => ((r.1.toNat : Int), r.2)) =
      some ((b.toNat : Int), ar₁) := by
    rw [serialUint8, he, Option.map_some]
  refine ⟨ar₁, ?_, hc⟩
  simp only [Message.lstring, hm, ↓reduceIte]
  exact bind_eq_of_some hser rfl

theorem lstring_read_two {l : BitVec 16} (hr : r.ar.remaining = leBytes 2 l.toNat ++ rest) :
    ∃ ar₁, r.lstring v 2 u8 u16 = lstringRest r ar₁ (r.ar.shortSwapFn l).toNat ∧
      Consumed r.ar 2 rest ar₁ := by
  obtain ⟨ar₁, he, hc⟩ := serialWord_read h hm (by omega) (by omega) r.ar.shortSwapFn u16
    (leBytes_length 2 l.toNat) hr
  rw [fromLe_leBytes (k := 2) rfl] at he
  have hser : (r.ar.serialUint16 u16).map (fun r => ((r.1.toNat : Int), r.2)) =
      some (((r.ar.shortSwapFn l).toNat : Int), ar₁) := by
    rw [serialUint16, he, Option.map_some]
  refine ⟨ar₁, ?_, hc⟩
  simp only [Message.lstring, hm, show ¬ (2 : BitVec 32) = 1 by decide, ↓reduceIte]
  exact bind_eq_of_some hser rfl

end Announced

theorem eq_toNat_shortSwap_iff (n : Nat) :
    n = (shortSwap (BitVec.ofNat 16 n)).toNat ↔ n < 65536 ∧ n % 256 = n / 256 := by
  by_cases hn : n < 65536
  · rw [toNat_shortSwap, BitVec.toNat_ofNat, Nat.mod_eq_of_lt hn]
    simp only [beBytes, leBytes, ofLe, List.reverse_cons, List.reverse_nil, List.nil_append,
      List.cons_append, BitVec.toNat_ofNat]
    omega
  · have hlt := (shortSwap (BitVec.ofNat 16 n)).isLt
    omega

section Lstring

variable (fmt : Formats) {m : Message} (h : m.ar.Ready) (hm : m.ar.mode = .smWrite) (s : List Byte)
  (u8 : Byte) (u16 : BitVec 16) {fields : List LuaOp} (hf : ∀ op ∈ fields, op.Writable)

include h hm

/-- A length that an `int` takes for a negative number is no size of a copy. -/
theorem lstring_negative {type : BitVec 32} (ht : type = 1 ∨ type = 2) (hs : toInt32 s.length < 0) :
    m.lstring s type u8 u16 = none := by
  have hnone : ∀ ar : CIArchive, ar.mode = .smWrite →
      ar.serialBuf (s ++ [0]) (toInt32 s.length) = none := by
    intro ar hm
    have hwrite : ar.streamWrite (s ++ [0]) (toInt32 s.length) = none := by
      rw [streamWrite, CIMemFile.write_of_neg _ _ hs]
      split <;> rfl
    simp only [serialBuf, hm, hwrite]
    rfl
  rcases ht with rfl | rfl
  · obtain ⟨ar₁, he₁, hw₁⟩ := serialByte_write h hm (BitVec.ofNat 8 s.length)
    have hser : (m.ar.serialUint8 (BitVec.ofNat 8 s.length)).map
        (fun r => (toInt32 s.length, r.2)) = some (toInt32 s.length, ar₁) := by
      rw [serialUint8, he₁, Option.map_some]
    simp only [Message.lstring, hm, ↓reduceIte]
    exact bind_eq_of_some hser (by rw [hnone ar₁ (hw₁.mode.trans hm)]; rfl)
  · obtain ⟨ar₁, he₁, hw₁⟩ := serialWord_write h hm m.ar.shortSwapFn (BitVec.ofNat 16 s.length)
    have hser : (m.ar.serialUint16 (BitVec.ofNat 16 s.length)).map
        (fun r => (toInt32 s.length, r.2)) = some (toInt32 s.length, ar₁) := by
      rw [serialUint16, he₁, Option.map_some]
    simp only [Message.lstring, hm, show ¬ (2 : BitVec 32) = 1 by decide, ↓reduceIte]
    exact bind_eq_of_some hser (by rw [hnone ar₁ (hw₁.mode.trans hm)]; rfl)

include hf

/-- The string is kept exactly when the length that is read is its own. -/
theorem lstringKept_iff_announced {type : BitVec 32} (ht : type = 1 ∨ type = 2) {pre : List Byte}
    {p : Nat} (hpre : pre ≠ []) (hp : p < 2 ^ 16)
    (hwrite : 0 ≤ toInt32 s.length → ∃ ar, m.lstring s type u8 u16 = some ({ m with ar }, []) ∧
      Wrote m.ar (pre ++ (s ++ [0]).take (toInt32 s.length).toNat) ar)
    (hread : ∀ (r : Message) (rest : List Byte), r.ar.Ready → r.ar.mode = .smRead →
      r.ar.swapped = m.ar.swapped → r.ar.remaining = pre ++ rest →
      ∃ ar₁, r.lstring [] type u8 u16 = lstringRest r ar₁ p ∧ Consumed r.ar pre.length rest ar₁) :
    LstringKept fmt m s type u8 u16 fields ↔ s.length = p := by
  rcases Int.lt_or_le (toInt32 s.length) 0 with hneg | hpos
  · have hnone := lstring_negative h hm s u8 u16 ht hneg
    refine ⟨?_, fun hc => ?_⟩
    · rintro (⟨out, he⟩ | ⟨m₁, m₂, outs, r, r', he, -⟩)
      · exact absurd (hnone.symm.trans he) (by simp)
      · exact absurd (hnone.symm.trans he) (by simp)
    · rw [toInt32_of_lt (by omega)] at hneg
      omega
  obtain ⟨n, hn⟩ := Int.eq_ofNat_of_zero_le hpos
  have hle := toInt32_le s.length
  obtain ⟨ar, he, hw⟩ := hwrite hpos
  rw [hn, Int.toNat_natCast] at hw
  -- The length alone moves the cursor.
  have hmoved : ∀ out, m.lstring s type u8 u16 ≠ some (m, out) := by
    intro out he'
    have hsame : ar = m.ar :=
      congrArg (fun r => r.1.ar) (Option.some.inj (he.symm.trans he'))
    have hcur := hw.pos
    have hlen := List.length_pos_iff.mpr hpre
    rw [hsame, List.length_append] at hcur
    omega
  obtain ⟨r, hopen, hiff⟩ := readsBack_iff fmt h hm (fun m => m.lstring s type u8 u16)
    (fun r => r.lstring [] type u8 u16) he hw hf s
  obtain ⟨rest, hrem⟩ := hopen.remaining
  rw [List.append_assoc] at hrem
  obtain ⟨ar₁, hr, hc⟩ := hread r _ hopen.ready hopen.mode hopen.swapped hrem
  obtain ⟨t, ar₂, hrest, hlen, hall⟩ :=
    lstringRest_spec r hc.moved.ready (hc.moved.mode.trans hopen.mode) (n := p) (by omega)
  rw [hrest] at hr
  constructor
  · rintro (⟨out, hsame⟩ | hback)
    · exact absurd hsame (hmoved out)
    · obtain ⟨r', hr', -⟩ := hiff.mp hback
      have hts : t = s := by simpa using congrArg (Option.map Prod.snd) (hr.symm.trans hr')
      rw [← hts, hlen]
  · intro hsp
    have hsn : s.length = n := by
      rw [toInt32_of_lt (by omega)] at hn
      omega
    have hcut : (s ++ [0]).take n = s := by rw [← hsn, List.take_left]
    rw [hcut] at hc hiff
    obtain ⟨rfl, hcur⟩ := hall s rest hc.remaining hsp
    refine .inr (hiff.mpr ⟨_, hr, ?_⟩)
    rw [List.length_append, ← hopen.pos, hsp, ← Nat.add_assoc, ← hc.pos]
    exact hcur

theorem lstringKept_one : LstringKept fmt m s 1 u8 u16 fields ↔ s.length < 256 := by
  have hread : ∀ (r : Message) (rest : List Byte), r.ar.Ready → r.ar.mode = .smRead →
      r.ar.swapped = m.ar.swapped → r.ar.remaining = [BitVec.ofNat 8 s.length] ++ rest →
      ∃ ar₁, r.lstring [] 1 u8 u16 = lstringRest r ar₁ (BitVec.ofNat 8 s.length).toNat ∧
        Consumed r.ar [BitVec.ofNat 8 s.length].length rest ar₁ := by
    intro r rest hready hmode _ hr
    exact lstring_read_one hready hmode [] u8 u16 hr
  have hlt := (BitVec.ofNat 8 s.length).isLt
  rw [lstringKept_iff_announced fmt h hm s u8 u16 hf (.inl rfl) (by simp) (by omega)
    (lstring_write_one h hm s u8 u16) hread, BitVec.toNat_ofNat]
  omega

theorem lstringKept_two : LstringKept fmt m s 2 u8 u16 fields ↔
    s.length < 65536 ∧ (m.ar.swapped = true → s.length % 256 = s.length / 256) := by
  have hread : ∀ (r : Message) (rest : List Byte), r.ar.Ready → r.ar.mode = .smRead →
      r.ar.swapped = m.ar.swapped →
      r.ar.remaining = leBytes 2 (BitVec.ofNat 16 s.length).toNat ++ rest →
      ∃ ar₁, r.lstring [] 2 u8 u16 =
          lstringRest r ar₁ (m.ar.shortSwapFn (BitVec.ofNat 16 s.length)).toNat ∧
        Consumed r.ar (leBytes 2 (BitVec.ofNat 16 s.length).toNat).length rest ar₁ := by
    intro r rest hready hmode hswap hr
    obtain ⟨ar₁, he, hc⟩ := lstring_read_two hready hmode [] u8 u16 hr
    rw [shortSwapFn, hswap] at he
    exact ⟨ar₁, he, by rwa [leBytes_length]⟩
  have hne : leBytes 2 (BitVec.ofNat 16 s.length).toNat ≠ [] := List.cons_ne_nil _ _
  have hlt := (m.ar.shortSwapFn (BitVec.ofNat 16 s.length)).isLt
  rw [lstringKept_iff_announced fmt h hm s u8 u16 hf (.inr rfl) hne hlt
    (lstring_write_two h hm s u8 u16) hread]
  cases hswap : m.ar.swapped with
  | false =>
    simp only [shortSwapFn, hswap, shortNoSwap, BitVec.toNat_ofNat, Bool.false_eq_true, ↓reduceIte,
      false_implies, and_true]
    omega
  | true =>
    simp only [shortSwapFn, hswap, ↓reduceIte, true_implies]
    exact eq_toNat_shortSwap_iff s.length

/-- An `lstring` comes back exactly when its length fits the width of the prefix, and in the
swapped byte order only when the two bytes of its length are equal. -/
theorem lstring_kept_iff :
    (LstringKept fmt m s 1 u8 u16 fields ↔ s.length < 256) ∧
      (LstringKept fmt m s 2 u8 u16 fields ↔
        s.length < 65536 ∧ (m.ar.swapped = true → s.length % 256 = s.length / 256)) :=
  ⟨lstringKept_one fmt h hm s u8 u16 hf, lstringKept_two fmt h hm s u8 u16 hf⟩

end Lstring

theorem lstring_kept_nul :
    LstringKept noFormats writing [0, 1] 1 0 0 [.int 7 0] ∧
      LstringKept noFormats writing [0, 1] 2 0 0 [.int 7 0] := by
  have hf : ∀ op ∈ [LuaOp.int 7 0], op.Writable := by simp [LuaOp.Writable]
  obtain ⟨hone, htwo⟩ := lstring_kept_iff noFormats (m := writing) (ready_fresh 0) rfl [0, 1] 0 0 hf
  exact ⟨hone.mpr (by decide), htwo.mpr (by decide)⟩

/-- 256 bytes are announced as none, and stand where the next field is read. -/
theorem lstring_length_wraps :
    ¬ LstringKept noFormats writing (List.replicate 256 0) 1 0 0 [.int 7 0] := by
  have hf : ∀ op ∈ [LuaOp.int 7 0], op.Writable := by simp [LuaOp.Writable]
  rw [lstringKept_one noFormats (ready_fresh 0) rfl _ 0 0 hf, List.length_replicate]
  omega

end EventServer.Lua
