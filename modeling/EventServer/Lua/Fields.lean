import EventServer.Archive.RoundTrip
import EventServer.Lib.CString
import EventServer.Lib.Transition
import EventServer.Lua.Message

/-!
# Writing fields from Lua

Whatever field method a script calls in write mode, its bytes are put at the
cursor, and the cursor stands behind them afterwards. So the fields that follow
one another in a message do not touch those in front of them.
-/
namespace EventServer.Lua

open EventServer.Lib.Blocks EventServer.Lib.CInt EventServer.Lib.ByteOrder
open EventServer.Lib.Transition EventServer.Lib.CString
open EventServer.Stream EventServer.Archive EventServer.Archive.CIArchive

/-- A field method with arguments that can be written: no length turns into a negative `int`, and
where the script gives the number of bytes the string has them. -/
def LuaOp.Writable : LuaOp → Prop
  | .uiboolean _ _ | .bool _ _ | .int _ _ | .sint8 _ _ | .uint8 _ _ | .sint16 _ _ | .uint16 _ _
  | .uint32 _ _ | .uint64 _ _ | .int64 _ _ | .float _ _ _ | .ptr _ _ _ => True
  | .string v _ | .cstring v _ => 0 ≤ toInt32 (cstr v).length
  | .lstring v type _ _ =>
    if type = 1 ∨ type = 2 then 0 ≤ toInt32 v.length
    else 0 ≤ type.toInt ∧ type.toInt ≤ v.length + 1
  | .cstring_len _ size => 0 ≤ toInt32 size
  | .write v none => 0 ≤ toInt32 v.length
  | .write v (some len) => 0 ≤ len.toInt ∧ len.toInt ≤ v.length + 1
  | _ => False

theorem strlen_terminated (v rest : List Byte) :
    strlen (v ++ 0 :: rest) = some (cstr v).length := by
  rw [strlen, if_pos (by simp)]
  exact congrArg (fun s => some s.length) (cstr_terminated v rest)

theorem take_cstr (v rest : List Byte) : (v ++ 0 :: rest).take (cstr v).length = cstr v := by
  have hc : (v ++ 0 :: rest).takeWhile (fun b => decide (b ≠ 0)) = cstr v := cstr_terminated v rest
  rw [← List.takeWhile_append_dropWhile (p := fun b => decide (b ≠ 0)) (l := v ++ 0 :: rest), hc,
    List.take_left]

theorem cstrOf_terminated (v rest : List Byte) :
    Message.cstrOf (v ++ 0 :: rest) = some (cstr v) :=
  bind_eq_of_some (strlen_terminated v rest) (congrArg some (take_cstr v rest))

/-- The message after a method: some bytes were put at the cursor, and nothing else happened. -/
def Appends (m : Message) (x : Option (Message × List LuaValue)) : Prop :=
  ∃ ar out bytes, x = some ({ m with ar }, out) ∧ Wrote m.ar bytes ar

theorem appends_typed {α : Type} {m : Message} (hm : m.ar.mode = .smWrite)
    {serial : CLXZMessage → α → Option (α × CLXZMessage)} {toLua : α → LuaValue} {v u v' : α}
    {ar : CLXZMessage} {bytes : List Byte} (he : serial m.ar v = some (v', ar))
    (hw : Wrote m.ar bytes ar) : Appends m (m.typed serial toLua v u) := by
  refine ⟨ar, [toLua v'], bytes, ?_, hw⟩
  simp [Message.typed, hm, he]

theorem appends_word {m : Message} (h : m.ar.Ready) (hm : m.ar.mode = .smWrite) {w : Nat}
    {serial : CLXZMessage → BitVec w → Option (BitVec w × CLXZMessage)}
    {swap : BitVec w → BitVec w} {toLua : BitVec w → LuaValue} {v u : BitVec w}
    (hs : serial m.ar v = m.ar.serialWord swap v) : Appends m (m.typed serial toLua v u) := by
  obtain ⟨ar, he, hw⟩ := serialWord_write h hm swap v
  exact appends_typed hm (hs.trans he) hw

theorem appends_image {α : Type} {m : Message} (h : m.ar.Ready) (hm : m.ar.mode = .smWrite)
    {serial : CLXZMessage → α → Option (α × CLXZMessage)} {toLua : α → LuaValue} {v u : α}
    (bytes : List Byte) (n : Int) (hn : bytes.length = n)
    (hs : serial m.ar v = (m.ar.streamWrite bytes n).bind fun ar => some (v, ar)) :
    Appends m (m.typed serial toLua v u) := by
  obtain ⟨ar, he, hw⟩ := streamWrite_all h bytes hn
  exact appends_typed hm (hs.trans (by rw [he]; rfl)) hw

theorem appends_serial64 {m : Message} (h : m.ar.Ready) (hm : m.ar.mode = .smWrite)
    (fmt : BitVec 64 → List Byte) (v u : BitVec 64) : Appends m (m.serial64 fmt v u) := by
  obtain ⟨ar, he, hw⟩ := serialWord_write h hm m.ar.longLongSwapFn v
  refine ⟨ar, [], _, ?_, hw⟩
  simp only [Message.serial64, hm]
  exact bind_eq_of_some he rfl

theorem appends_string {m : Message} (h : m.ar.Ready) (hm : m.ar.mode = .smWrite) (v : List Byte)
    (u : BitVec 32) (hv : 0 ≤ toInt32 (cstr v).length) : Appends m (m.string v u) := by
  obtain ⟨n, hn⟩ := Int.eq_ofNat_of_zero_le hv
  have hle := toInt32_le (cstr v).length
  have hlt := toInt32_lt (cstr v).length
  have hroom : n ≤ (cstr v ++ [0]).length := by
    rw [List.length_append]
    omega
  have hcopy : CIMemFile.copyLen (toInt32 (cstr v).length) = some n := by
    rw [hn, CIMemFile.copyLen_natCast]
  obtain ⟨ar₁, he₁, hw₁⟩ := serialWord_write h hm m.ar.longSwapFn (BitVec.ofNat 32 n)
  obtain ⟨ar₂, he₂, hw₂⟩ := Field.serialBlock_write hw₁.ready (hw₁.mode.trans hm) (cstr v ++ [0])
    hroom (by omega) n
  refine ⟨ar₂, [], _, ?_, hw₁.trans h hw₂⟩
  simp only [Message.string, hm]
  exact bind_eq_of_some (cstrOf_terminated v []) (bind_eq_of_some hcopy
    (bind_eq_of_some he₁ (bind_eq_of_some he₂ rfl)))

/-- The length and as many bytes as an `int` makes of it; `len` is not looked at. -/
theorem serialStr_write {ar : CIArchive} (h : ar.Ready) (hm : ar.mode = .smWrite) (v : List Byte)
    (len : Int) (hv : 0 ≤ toInt32 (cstr v).length) :
    ∃ ar', ar.serialStr (v ++ [0]) len = some (v ++ [0], ar') ∧
      Wrote ar (leBytes 4 (BitVec.ofNat 32 (cstr v).length).toNat ++
        (cstr v).take (toInt32 (cstr v).length).toNat) ar' := by
  obtain ⟨n, hn⟩ := Int.eq_ofNat_of_zero_le hv
  have hle := toInt32_le (cstr v).length
  have hcut : (v ++ [0]).take n = (cstr v).take n := by
    rw [← take_cstr v [], List.take_take, Nat.min_eq_left (by omega)]
  have hroom : n ≤ (v ++ [0]).length := by
    have hlen := length_cstr_le v
    rw [List.length_append]
    omega
  obtain ⟨ar₁, he₁, hw₁⟩ := serialWord_write h hm ar.longSwapFn (BitVec.ofNat 32 (cstr v).length)
  obtain ⟨ar₂, he₂, hw₂⟩ := streamWrite_spec hw₁.ready (v ++ [0]) hroom
  rw [hcut] at hw₂
  rw [← hn] at he₂
  refine ⟨ar₂, ?_, by rw [hn, Int.toNat_natCast]; exact hw₁.trans h hw₂⟩
  simp only [serialStr, hm]
  exact bind_eq_of_some (strlen_terminated v []) (bind_eq_of_some he₁ (bind_eq_of_some he₂ rfl))

theorem cstring_write {m : Message} (h : m.ar.Ready) (hm : m.ar.mode = .smWrite) (v : List Byte)
    (u : Fin 256 → Byte) (hv : 0 ≤ toInt32 (cstr v).length) :
    ∃ ar, m.cstring v u = some ({ m with ar }, []) ∧
      Wrote m.ar (leBytes 4 (BitVec.ofNat 32 (cstr v).length).toNat ++
        (cstr v).take (toInt32 (cstr v).length).toNat) ar := by
  obtain ⟨ar, he, hw⟩ := serialStr_write h hm v
    (if 255 < toInt32 (cstr v).length then 255 else toInt32 (cstr v).length) hv
  refine ⟨ar, ?_, hw⟩
  simp only [Message.cstring, hm]
  exact bind_eq_of_some (cstrOf_terminated v []) (bind_eq_of_some he rfl)

/-- `n` bytes of the string and its terminator, as `lstring` writes them behind the length. -/
theorem lstring_body {m : Message} {ar : CIArchive} (h : ar.Ready) (hm : ar.mode = .smWrite)
    (v : List Byte) {len : Int} (hpos : 0 ≤ len) (hle : len ≤ v.length + 1) :
    ∃ ar', (ar.serialBuf (v ++ [0]) len).bind (fun r => some ({ m with ar := r.2 }, [])) =
        some ({ m with ar := ar' }, ([] : List LuaValue)) ∧
      Wrote ar ((v ++ [0]).take len.toNat) ar' := by
  obtain ⟨n, rfl⟩ := Int.eq_ofNat_of_zero_le hpos
  have hn : n ≤ (v ++ [0]).length := by
    rw [List.length_append, List.length_singleton]
    omega
  obtain ⟨ar', he, hw⟩ := streamWrite_spec h (v ++ [0]) hn
  refine ⟨ar', ?_, hw⟩
  have hser : ar.serialBuf (v ++ [0]) n = some (v ++ [0], ar') := by
    simp only [serialBuf, hm]
    exact bind_eq_of_some he rfl
  rw [hser, Option.bind_some]

section Lstring

variable {m : Message} (h : m.ar.Ready) (hm : m.ar.mode = .smWrite) (v : List Byte) (u8 : Byte)
  (u16 : BitVec 16)

include h hm

/-- The one-byte length, then as many bytes as an `int` makes of the length. -/
theorem lstring_write_one (hlen : 0 ≤ toInt32 v.length) :
    ∃ ar, m.lstring v 1 u8 u16 = some ({ m with ar }, []) ∧
      Wrote m.ar ([BitVec.ofNat 8 v.length] ++ (v ++ [0]).take (toInt32 v.length).toNat) ar := by
  have hle := toInt32_le v.length
  obtain ⟨ar₁, he₁, hw₁⟩ := serialByte_write h hm (BitVec.ofNat 8 v.length)
  rw [leBytes_byte] at hw₁
  obtain ⟨ar₂, he₂, hw₂⟩ := lstring_body (m := m) hw₁.ready (hw₁.mode.trans hm) v hlen (by omega)
  have hser : (m.ar.serialUint8 (BitVec.ofNat 8 v.length)).map (fun r => (toInt32 v.length, r.2)) =
      some (toInt32 v.length, ar₁) := by
    rw [serialUint8, he₁, Option.map_some]
  refine ⟨ar₂, ?_, hw₁.trans h hw₂⟩
  simp only [Message.lstring, hm, ↓reduceIte]
  exact bind_eq_of_some hser he₂

theorem lstring_write_two (hlen : 0 ≤ toInt32 v.length) :
    ∃ ar, m.lstring v 2 u8 u16 = some ({ m with ar }, []) ∧
      Wrote m.ar (leBytes 2 (BitVec.ofNat 16 v.length).toNat ++
        (v ++ [0]).take (toInt32 v.length).toNat) ar := by
  have hle := toInt32_le v.length
  obtain ⟨ar₁, he₁, hw₁⟩ := serialWord_write h hm m.ar.shortSwapFn (BitVec.ofNat 16 v.length)
  obtain ⟨ar₂, he₂, hw₂⟩ := lstring_body (m := m) hw₁.ready (hw₁.mode.trans hm) v hlen (by omega)
  have hser : (m.ar.serialUint16 (BitVec.ofNat 16 v.length)).map
      (fun r => (toInt32 v.length, r.2)) = some (toInt32 v.length, ar₁) := by
    rw [serialUint16, he₁, Option.map_some]
  refine ⟨ar₂, ?_, hw₁.trans h hw₂⟩
  simp only [Message.lstring, hm, show ¬ (2 : BitVec 32) = 1 by decide, ↓reduceIte]
  exact bind_eq_of_some hser he₂

theorem appends_lstring (type : BitVec 32) (hv : (LuaOp.lstring v type u8 u16).Writable) :
    Appends m (m.lstring v type u8 u16) := by
  simp only [LuaOp.Writable] at hv
  by_cases h1 : type = 1
  · subst h1
    rw [if_pos (.inl rfl)] at hv
    obtain ⟨ar, he, hw⟩ := lstring_write_one h hm v u8 u16 hv
    exact ⟨ar, [], _, he, hw⟩
  by_cases h2 : type = 2
  · subst h2
    rw [if_pos (.inr rfl)] at hv
    obtain ⟨ar, he, hw⟩ := lstring_write_two h hm v u8 u16 hv
    exact ⟨ar, [], _, he, hw⟩
  · rw [if_neg (not_or.mpr ⟨h1, h2⟩)] at hv
    obtain ⟨ar, he, hw⟩ := lstring_body (m := m) h hm v hv.1 hv.2
    refine ⟨ar, [], _, ?_, hw⟩
    simp only [Message.lstring, hm, h1, h2, ↓reduceIte]
    exact he

end Lstring

theorem appends_buf {m : Message} {x : Option (Message × List LuaValue)} (h : m.ar.Ready)
    (buf : List Byte) {len : Int} (hpos : 0 ≤ len) (hle : len ≤ buf.length)
    (hx : ∀ ar, m.ar.streamWrite buf len = some ar → x = some ({ m with ar }, [])) :
    Appends m x := by
  obtain ⟨n, rfl⟩ := Int.eq_ofNat_of_zero_le hpos
  obtain ⟨ar, he, hw⟩ := streamWrite_spec h buf (n := n) (by omega)
  exact ⟨ar, [], _, hx ar he, hw⟩

theorem appends_cstring_len {m : Message} (h : m.ar.Ready) (hm : m.ar.mode = .smWrite)
    (v : List Byte) {size : Nat} (hs : 0 ≤ toInt32 size) : Appends m (m.cstring_len v size) := by
  have hle := toInt32_le size
  have hfit : 0 + (v.take size).length ≤ (List.replicate size (0 : Byte)).length := by
    rw [List.length_take, List.length_replicate]
    omega
  have hlen : (splice (List.replicate size 0) 0 (v.take size)).length = size := by
    rw [splice_length (Nat.zero_le _), List.length_take, List.length_replicate]
    omega
  apply appends_buf h (splice (List.replicate size 0) 0 (v.take size)) hs (by omega)
  intro ar he
  have hser : m.ar.serialBuf (splice (List.replicate size 0) 0 (v.take size)) (toInt32 size) =
      some (splice (List.replicate size 0) 0 (v.take size), ar) := by
    simp only [serialBuf, hm]
    exact bind_eq_of_some he rfl
  simp only [Message.cstring_len, hm]
  exact bind_eq_of_some (blit_of_fits hfit) (bind_eq_of_some hser rfl)

theorem appends_write {m : Message} (h : m.ar.Ready) (hm : m.ar.mode = .smWrite) (v : List Byte)
    (len : Option (BitVec 32)) (hv : (LuaOp.write v len).Writable) : Appends m (m.write v len) := by
  obtain ⟨hpos, hle⟩ : 0 ≤ (len.map BitVec.toInt).getD (toInt32 v.length) ∧
      (len.map BitVec.toInt).getD (toInt32 v.length) ≤ (v ++ [0]).length := by
    rw [List.length_append, List.length_singleton]
    cases len with
    | none =>
      have hle := toInt32_le v.length
      rw [Option.map_none, Option.getD_none]
      exact ⟨hv, by omega⟩
    | some l => exact hv
  apply appends_buf h (v ++ [0]) hpos hle
  intro ar he
  simp only [Message.write, Message.withArchive, CIArchive.write, hm]
  exact bind_eq_of_some he rfl

/-- The block with the name, filled up with zeros; a name that is too long has none. -/
def nameBytes (name : List Byte) : List Byte :=
  if name.length < 32 then leBytes 4 32 ++ splice (List.replicate 32 0) 0 name else []

theorem nameBlock_length {name : List Byte} (hl : name.length < 32) :
    (splice (List.replicate 32 0) 0 name).length = 32 := by
  rw [splice_length (Nat.zero_le _), List.length_replicate]
  omega

theorem serialPtrNamed_write {ar : CIArchive} (h : ar.Ready) (hm : ar.mode = .smWrite)
    (name : List Byte) (v ptr : BitVec 64) :
    ∃ ar', ar.serialPtrNamed v ptr name = some (ptr, ar') ∧
      Wrote ar (nameBytes name ++ leBytes 8 ptr.toNat) ar' := by
  by_cases hl : name.length < 32
  · have hlen := nameBlock_length hl
    obtain ⟨ar₁, he₁, hw₁⟩ := Field.serialBlock_write h hm
      (splice (List.replicate 32 0) 0 name) hlen.ge (by omega) 32
    rw [List.take_of_length_le hlen.le] at hw₁
    obtain ⟨ar₂, he₂, hw₂⟩ :=
      serialWord_write hw₁.ready (hw₁.mode.trans hm) ar₁.longLongSwapFn ptr
    refine ⟨ar₂, ?_, by rw [nameBytes, if_pos hl]; exact hw₁.trans h hw₂⟩
    simp only [serialPtrNamed, hm, hl, ↓reduceIte]
    exact bind_eq_of_some (congrArg (Option.map Prod.snd) he₁) he₂
  · obtain ⟨ar', he, hw⟩ := serialWord_write h hm ar.longLongSwapFn ptr
    refine ⟨ar', ?_, by rw [nameBytes, if_neg hl]; exact hw⟩
    simp only [serialPtrNamed, hm, hl, ↓reduceIte]
    exact he

theorem ptr_write {m : Message} (h : m.ar.Ready) (hm : m.ar.mode = .smWrite) (name : List Byte)
    (pObj u : BitVec 64) :
    ∃ ar, m.ptr name pObj u = some ({ m with ar }, [.usertype pObj]) ∧
      Wrote m.ar (nameBytes (cstr name) ++ leBytes 8 pObj.toNat) ar := by
  obtain ⟨ar, he, hw⟩ := serialPtrNamed_write h hm (cstr name) u pObj
  refine ⟨ar, ?_, hw⟩
  rw [Message.ptr, hm, if_neg (by decide)]
  exact bind_eq_of_some (cstrOf_terminated name []) (bind_eq_of_some he rfl)

/-- Every field method with arguments that can be written puts its bytes at the cursor. -/
theorem call_appends (fmt : Formats) {m : Message} (h : m.ar.Ready) (hm : m.ar.mode = .smWrite)
    {op : LuaOp} (hop : op.Writable) : Appends m (m.call fmt op) := by
  cases op with
  | int v u | sint16 v u | uint16 v u | uint32 v u =>
    simp only [Message.call, Message.int, Message.sint16, Message.uint16, Message.uint32]
    apply appends_word h hm
    rfl
  | uint64 v u | int64 v u => exact appends_serial64 h hm _ v u
  | uiboolean v u =>
    rw [Message.call, Message.uiboolean]
    apply appends_image h hm (leBytes 4 v.toNat) 4 (by simp)
    simp [serialUiboolean, hm]
  | bool v u =>
    rw [Message.call, Message.bool]
    apply appends_image h hm (leBytes 4 (if v then 1 else 0)) 4 (by simp)
    simp [serialBool, hm]
  | float fl v u =>
    rw [Message.call, Message.float]
    apply appends_image h hm (leBytes 4 v.toNat) 4 (by simp)
    simp [serialFloat, hm]
  | sint8 v u | uint8 v u =>
    simp only [Message.call, Message.sint8, Message.uint8]
    apply appends_image h hm [v] 1 rfl
    simp [serialSint8, serialUint8, serialByte, hm]
  | string v u => exact appends_string h hm v u hop
  | cstring v u =>
    obtain ⟨ar, he, hw⟩ := cstring_write h hm v u hop
    exact ⟨ar, [], _, he, hw⟩
  | lstring v type u8 u16 => exact appends_lstring h hm v u8 u16 type hop
  | cstring_len v size => exact appends_cstring_len h hm v hop
  | write v len => exact appends_write h hm v len hop
  | ptr name pObj u =>
    obtain ⟨ar, he, hw⟩ := ptr_write h hm name pObj u
    exact ⟨ar, [.usertype pObj], _, he, hw⟩
  | _ => exact hop.elim

/-- So does a list of them. -/
theorem fields_append (fmt : Formats) {m : Message} (h : m.ar.Ready) (hm : m.ar.mode = .smWrite)
    {fields : List LuaOp} (hf : ∀ op ∈ fields, op.Writable) :
    ∃ m' outs bytes, run (Message.call fmt) m fields = some (m', outs) ∧
      Wrote m.ar bytes m'.ar := by
  induction fields generalizing m with
  | nil => exact ⟨m, [], [], rfl, h, (splice_nil _ _).symm, rfl, rfl, rfl, rfl⟩
  | cons op fields ih =>
    obtain ⟨ar, out, bytes₁, he₁, hw₁⟩ := call_appends fmt h hm (hf op List.mem_cons_self)
    obtain ⟨m₂, outs, bytes₂, he₂, hw₂⟩ := ih (m := { m with ar }) hw₁.ready (hw₁.mode.trans hm)
      fun o ho => hf o (List.mem_cons_of_mem op ho)
    exact ⟨m₂, out :: outs, bytes₁ ++ bytes₂, run_of_step he₁ he₂, hw₁.trans h hw₂⟩

end EventServer.Lua
