import EventServer.Archive.Bounds
import EventServer.Lib.Crc
import EventServer.Lua.Message

/-!
# Checksums and byte maps

`CRC16` and `MapKind` go through the bytes behind `getMsgPtr()`, past the archive.
The first is a table-driven check of a range, the second an exchange of every byte
of a range for its image under a table.
-/
namespace EventServer.Lua

open EventServer.Lib EventServer.Lib.Blocks EventServer.Lib.CInt
open EventServer.Stream EventServer.Archive EventServer.Archive.CIArchive

/-- A range inside the content is read as it stands. -/
theorem bytesAt_eq {m : Message} (h : m.ar.stream.Wf) {pos n : Nat}
    (hn : pos + n ≤ m.ar.content.length) :
    m.bytesAt pos n = some ((m.ar.content.drop pos).take n) := by
  obtain ⟨blk, hblk, hl⟩ := h.fastBuf.buf_eq
  have hle := h.fastBuf.le
  have hcp : m.ar.content.length = m.ar.stream.fastBuf.cpLen := h.content_length
  have hc : m.ar.content = blk.take m.ar.stream.fastBuf.cpLen := FastBufAlloc.content_of_buf hblk
  have hslice : slice blk pos n = some ((blk.drop pos).take n) := slice_of_fits (by omega)
  rw [hc, List.drop_take, List.take_take, Nat.min_eq_left (by omega)]
  exact bind_eq_of_some hblk hslice

/-! ## `CRC16` -/

/-- CRC-16/MODBUS: reflected polynomial `0xA001`, initial value `0xFFFF`, no final xor. -/
def modbus (bytes : List Byte) : BitVec 16 := Crc.bitwise 0xA001 0xFFFF bytes

/-- The halves of the table, put together, are the eight-fold shifts of their index. -/
theorem entry_eq_shiftByte (i : Byte) :
    entry auchCRCLo i ++ entry auchCRCHi i = Crc.shiftByte 0xA001#16 (i.setWidth 16) := by
  revert i
  decide +kernel

/-- One turn of the loop, on the register that `uchCRCLo` and `uchCRCHi` are the bytes of. -/
theorem crcStep_eq_feed (crc : Byte × Byte) (b : Byte) :
    (crcStep crc b).2 ++ (crcStep crc b).1 = Crc.feed 0xA001#16 (crc.2 ++ crc.1) b := by
  have hidx : (crc.2 ++ crc.1).setWidth 8 = crc.1 := BitVec.setWidth_append_eq_right
  have hhigh : (crc.2 ++ crc.1) >>> 8 = 0#8 ++ crc.2 := by
    apply BitVec.eq_of_getLsbD_eq
    intro i hi
    rw [BitVec.getLsbD_ushiftRight, BitVec.getLsbD_append, BitVec.getLsbD_append,
      if_neg (by omega), Nat.add_sub_cancel_left]
    split
    · rfl
    · rw [BitVec.getLsbD_zero, BitVec.getLsbD_of_ge _ _ (by omega)]
  rw [Crc.feed_eq_lookup, hidx, ← entry_eq_shiftByte, hhigh, BitVec.xor_append, BitVec.zero_xor]
  rfl

theorem crcFold_eq_bitwise (crc : Byte × Byte) (bytes : List Byte) :
    (bytes.foldl crcStep crc).2 ++ (bytes.foldl crcStep crc).1 =
      Crc.bitwise 0xA001#16 (crc.2 ++ crc.1) bytes := by
  induction bytes generalizing crc with
  | nil => rfl
  | cons b bytes ih =>
    rw [List.foldl_cons, ih, crcStep_eq_feed]
    rfl

/-- The table-driven check is the bitwise one. -/
theorem crc16_eq_modbus (bytes : List Byte) : crc16 bytes = modbus bytes :=
  crcFold_eq_bitwise (0xFF, 0xFF) bytes

/-- Two contents of one length that differ in the byte at `i` and in no other. -/
structure DiffersAt (xs ys : List Byte) (i : Nat) : Prop where
  length : ys.length = xs.length
  differ : xs[i]? ≠ ys[i]?
  same : ∀ k, k ≠ i → xs[k]? = ys[k]?

theorem DiffersAt.lt {xs ys : List Byte} {i : Nat} (h : DiffersAt xs ys i) : i < xs.length := by
  by_contra hge
  apply h.differ
  rw [List.getElem?_eq_none (by omega), List.getElem?_eq_none (by rw [h.length]; omega)]

/-- What stands around the byte is the same. -/
theorem DiffersAt.split {xs ys : List Byte} {i : Nat} (h : DiffersAt xs ys i) :
    ∃ front tail b b', b ≠ b' ∧ xs = front ++ b :: tail ∧ ys = front ++ b' :: tail := by
  have hi := h.lt
  have hi' : i < ys.length := by rw [h.length]; exact hi
  have hfront : ys.take i = xs.take i := by
    apply List.ext_getElem?
    intro k
    rw [List.getElem?_take, List.getElem?_take]
    split
    · exact (h.same k (by omega)).symm
    · rfl
  have htail : ys.drop (i + 1) = xs.drop (i + 1) := by
    apply List.ext_getElem?
    intro k
    rw [List.getElem?_drop, List.getElem?_drop, h.same _ (by omega)]
  refine ⟨xs.take i, xs.drop (i + 1), xs.get ⟨i, hi⟩, ys.get ⟨i, hi'⟩, ?_, ?_, ?_⟩
  · intro hb
    apply h.differ
    rw [List.getElem?_eq_getElem hi, List.getElem?_eq_getElem hi']
    exact congrArg some hb
  · simp
  · rw [← hfront, ← htail]
    simp

theorem DiffersAt.take {xs ys : List Byte} {j n : Nat} (h : DiffersAt xs ys j) (hj : j < n) :
    DiffersAt (xs.take n) (ys.take n) j := by
  refine ⟨by rw [List.length_take, List.length_take, h.length], ?_, ?_⟩
  · rw [List.getElem?_take_of_lt hj, List.getElem?_take_of_lt hj]
    exact h.differ
  · intro k hk
    rw [List.getElem?_take, List.getElem?_take, h.same k hk]

theorem DiffersAt.take_eq {xs ys : List Byte} {j n : Nat} (h : DiffersAt xs ys j) (hj : n ≤ j) :
    xs.take n = ys.take n := by
  apply List.ext_getElem?
  intro k
  rw [List.getElem?_take, List.getElem?_take]
  split
  · exact h.same k (by omega)
  · rfl

theorem modbus_ne {xs ys : List Byte} {i : Nat} (h : DiffersAt xs ys i) : modbus xs ≠ modbus ys := by
  obtain ⟨front, tail, b, b', hb, rfl, rfl⟩ := h.split
  exact Crc.bitwise_ne (by decide) (by decide) _ front tail hb

/-- The bytes of a range. -/
def rangeOf (m : Message) ( from_ len : BitVec 32) : List Byte :=
  (m.ar.content.drop from_.toNat).take len.toNat

def Inside (m : Message) ( from_ len : BitVec 32) : Prop :=
  from_.toNat + len.toNat ≤ m.ar.content.length

/-- The method returns different numbers for the two messages. -/
def Detects (m m' : Message) ( from_ len : BitVec 32) : Prop :=
  ∃ x y, m.crc16 from_ len = some (m, [.number x]) ∧ m'.crc16 from_ len = some (m', [.number y]) ∧
    x ≠ y

theorem crc16_call {m : Message} (h : m.ar.stream.Wf) { from_ len : BitVec 32}
    (hr : Inside m from_ len) :
    m.crc16 from_ len = some (m, [.number
      (modbus ((rangeOf m from_ len).take (len.toNat % 65536))).toNat]) := by
  have hle : len.toNat % 65536 ≤ len.toNat := Nat.mod_le _ _
  unfold Inside at hr
  have hbytes := bytesAt_eq h
    (show from_.toNat + len.toNat % 65536 ≤ m.ar.content.length by omega)
  have hcrc : crc16 ((rangeOf m from_ len).take (len.toNat % 65536)) = modbus _ :=
    crcFold_eq_bitwise (0xFF, 0xFF) _
  rw [← hcrc, rangeOf, List.take_take, Nat.min_eq_left hle]
  exact bind_eq_of_some hbytes rfl

/-- One byte of the range that differs is detected exactly when it is among the bytes that the
16-bit counter of the loop is left with. -/
theorem crc16_detects_iff {m m' : Message} (h : m.ar.stream.Wf) (h' : m'.ar.stream.Wf)
    { from_ len : BitVec 32} (hr : Inside m from_ len) (hr' : Inside m' from_ len) {j : Nat}
    (hdiff : DiffersAt (rangeOf m from_ len) (rangeOf m' from_ len) j) :
    Detects m m' from_ len ↔ j < len.toNat % 65536 := by
  have hcall := crc16_call h hr
  have hcall' := crc16_call h' hr'
  constructor
  · intro hdet
    obtain ⟨x, y, hx, hy, hne⟩ := hdet
    by_contra hj
    rw [hcall] at hx
    rw [hcall', ← hdiff.take_eq (by omega)] at hy
    simp only [Option.some.injEq, Prod.mk.injEq, List.cons.injEq, LuaValue.number.injEq, true_and,
      and_true] at hx hy
    exact hne (hx.symm.trans hy)
  · intro hj
    refine ⟨_, _, hcall, hcall', ?_⟩
    intro heq
    apply modbus_ne (hdiff.take hj)
    exact BitVec.eq_of_toNat_eq (Int.natCast_inj.mp heq)

/-- A message over these bytes. -/
def ofBytes (bytes : List Byte) : Message := ⟨holding bytes, .fresh⟩

theorem rangeOf_ofBytes (bytes : List Byte) (len : BitVec 32) :
    rangeOf (ofBytes bytes) 0 len = bytes.take len.toNat := by
  rw [rangeOf, ofBytes, content_holding]
  rfl

theorem crc16_detects_middle : Detects (ofBytes [1, 2, 3]) (ofBytes [1, 9, 3]) 0 3 := by
  have hr : ∀ bytes : List Byte, bytes.length = 3 → Inside (ofBytes bytes) 0 3 := by
    intro bytes hb
    rw [Inside, ofBytes, content_holding, hb]
    decide
  have hdiff : DiffersAt (rangeOf (ofBytes [1, 2, 3]) 0 3) (rangeOf (ofBytes [1, 9, 3]) 0 3) 1 := by
    rw [rangeOf_ofBytes, rangeOf_ofBytes]
    refine ⟨rfl, by decide, ?_⟩
    intro k hk
    match k with
    | 0 => rfl
    | 2 => rfl
    | k + 3 => simp
  exact (crc16_detects_iff (ready_holding _).wf (ready_holding _).wf (hr _ rfl) (hr _ rfl)
    hdiff).mpr (by decide)

private theorem not_detects_of_wraps {tail : List Byte} (ht : tail.length = 65535) (b b' : Byte) :
    ¬ Detects (ofBytes (b :: tail)) (ofBytes (b' :: tail)) 0 65536 := by
  have hr : ∀ b : Byte, Inside (ofBytes (b :: tail)) 0 65536 := by
    intro b
    rw [Inside, ofBytes, content_holding, List.length_cons, ht]
    decide
  have hcall : ∀ b : Byte, (ofBytes (b :: tail)).crc16 0 65536 =
      some (ofBytes (b :: tail), [.number (modbus []).toNat]) := by
    intro b
    exact crc16_call (ready_holding _).wf (hr b)
  intro hdet
  obtain ⟨x, y, hx, hy, hne⟩ := hdet
  rw [hcall] at hx hy
  simp only [Option.some.injEq, Prod.mk.injEq, List.cons.injEq, LuaValue.number.injEq, true_and,
    and_true] at hx hy
  exact hne (hx.symm.trans hy)

/-- A range of 65536 bytes is taken for an empty one. -/
theorem crc16_length_wraps :
    ¬ Detects (ofBytes (0 :: List.replicate 65535 0)) (ofBytes (1 :: List.replicate 65535 0)) 0 65536 :=
  not_detects_of_wraps List.length_replicate 0 1

/-! ## `MapKind` -/

/-- The two tables are inverse to one another. -/
theorem byteMap_not_byteMap (mode : Bool) (b : Byte) : byteMap (!mode) (byteMap mode b) = b := by
  revert mode b
  decide +kernel

/-- The message after a copy into its content. -/
structure Poked (m : Message) (pos : Nat) (bytes : List Byte) (m' : Message) : Prop where
  wf : m'.ar.stream.Wf
  content : m'.ar.content = splice m.ar.content pos bytes
  attached : m'.ar.attached = m.ar.attached
  mode : m'.ar.mode = m.ar.mode
  swapped : m'.ar.swapped = m.ar.swapped
  pos : m'.ar.stream.curPos = m.ar.stream.curPos
  members : m'.members = m.members

/-- The bytes of the range are exchanged for their images. -/
theorem mapKind_spec {m : Message} (h : m.ar.stream.Wf) { from_ len : BitVec 32}
    (hr : Inside m from_ len) (mode : Bool) :
    ∃ m', m.mapKind from_ len mode = some (m', []) ∧
      Poked m from_.toNat ((rangeOf m from_ len).map (byteMap mode)) m' := by
  unfold Inside at hr
  obtain ⟨blk, hblk, hl⟩ := h.fastBuf.buf_eq
  have hle := h.fastBuf.le
  have hcp : m.ar.content.length = m.ar.stream.fastBuf.cpLen := h.content_length
  have hlen : ((rangeOf m from_ len).map (byteMap mode)).length = len.toNat := by
    rw [List.length_map, rangeOf, List.length_take, List.length_drop]
    omega
  obtain ⟨fb, hpoke, hw, hcpLen, -, hbuf⟩ := FastBufAlloc.poke_spec h.fastBuf hblk from_.toNat
    ((rangeOf m from_ len).map (byteMap mode)) (by omega)
  refine ⟨_, bind_eq_of_some (bytesAt_eq h hr) (bind_eq_of_some hpoke rfl), ⟨hw, ?_⟩, ?_, rfl, rfl,
    rfl, rfl, rfl⟩
  · rw [hcpLen]
    exact h.pos
  · have hcut := take_splice blk (n := m.ar.stream.fastBuf.cpLen)
      ((rangeOf m from_ len).map (byteMap mode)) (show from_.toNat ≤ _ by omega) (by omega)
    rw [hlen, Nat.max_eq_left (by omega)] at hcut
    have hold : m.ar.content = blk.take m.ar.stream.fastBuf.cpLen :=
      FastBufAlloc.content_of_buf hblk
    rw [hold, ← hcut, ← hcpLen]
    exact FastBufAlloc.content_of_buf hbuf

/-- Either direction undoes the other, and one of them alone touches nothing but its range. -/
theorem mapKind_restores {m : Message} (h : m.ar.stream.Wf) { from_ len : BitVec 32}
    (hr : Inside m from_ len) (mode : Bool) :
    ∃ m₁ m₂, m.mapKind from_ len mode = some (m₁, []) ∧
      m₁.mapKind from_ len (!mode) = some (m₂, []) ∧ m₂.ar.content = m.ar.content ∧
      (∀ i, i < from_.toNat ∨ from_.toNat + len.toNat ≤ i →
        m₁.ar.content[i]? = m.ar.content[i]?) ∧
      m₁.ar.content.length = m.ar.content.length ∧ m₁.ar.getMsgSize = m.ar.getMsgSize ∧
      m₁.ar.getMode = m.ar.getMode ∧ m₁.ar.getPos = m.ar.getPos := by
  obtain ⟨m₁, he₁, hp₁⟩ := mapKind_spec h hr mode
  have hlen : ((rangeOf m from_ len).map (byteMap mode)).length = len.toNat := by
    unfold Inside at hr
    rw [List.length_map, rangeOf, List.length_take, List.length_drop]
    omega
  have hfrom : from_.toNat ≤ m.ar.content.length := by
    unfold Inside at hr
    omega
  have hsize : m₁.ar.content.length = m.ar.content.length := by
    unfold Inside at hr
    rw [hp₁.content, splice_length hfrom, hlen]
    omega
  have hr₁ : Inside m₁ from_ len := by
    rw [Inside, hsize]
    exact hr
  obtain ⟨m₂, he₂, hp₂⟩ := mapKind_spec hp₁.wf hr₁ (!mode)
  have hrange : rangeOf m₁ from_ len = (rangeOf m from_ len).map (byteMap mode) := by
    rw [rangeOf, hp₁.content, ← hlen, take_drop_splice hfrom]
  have hback : (rangeOf m₁ from_ len).map (byteMap !mode) = rangeOf m from_ len := by
    rw [hrange, List.map_map]
    apply List.map_id''
    exact byteMap_not_byteMap mode
  refine ⟨m₁, m₂, he₁, he₂, ?_, ?_, hsize, ?_, ?_, ?_⟩
  · rw [hp₂.content, hback, hp₁.content, splice_again hfrom (by simp), rangeOf, splice_self hr]
  · intro i hi
    rw [hp₁.content, getElem?_splice hfrom, hlen]
    split_ifs <;> first | rfl | omega
  · rw [getMsgSize, getMsgSize, CIMemFile.getValidCount, CIMemFile.getValidCount,
      ← hp₁.wf.content_length, ← h.content_length]
    exact congrArg toInt32 hsize
  · rw [getMode, getMode, hp₁.mode]
  · rw [getPos, getPos, hp₁.attached, hp₁.pos]

theorem mapKind_restores_tail :
    ∃ m₁ m₂, (ofBytes [1, 2, 3]).mapKind 1 2 false = some (m₁, []) ∧
      m₁.mapKind 1 2 true = some (m₂, []) ∧ m₂.ar.content = [1, 2, 3] ∧
      m₁.ar.content[0]? = some 1 := by
  have hr : Inside (ofBytes [1, 2, 3]) 1 2 := by
    rw [Inside, ofBytes, content_holding]
    decide
  obtain ⟨m₁, m₂, he₁, he₂, hback, hrest, -⟩ := mapKind_restores (ready_holding [1, 2, 3]).wf hr
    false
  have hcont : (ofBytes [1, 2, 3]).ar.content = [1, 2, 3] := content_holding _
  refine ⟨m₁, m₂, he₁, he₂, hback.trans hcont, ?_⟩
  rw [hrest 0 (by decide), hcont]
  rfl

end EventServer.Lua
