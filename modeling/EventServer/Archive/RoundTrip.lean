import EventServer.Archive.IArchive

/-!
# Whole messages

A message is a list of typed fields. In the default byte order every overload of
`Serial` writes an image of its variable and reads exactly that image back, so
lists of fields come back whatever the variables held before.
-/
namespace EventServer.Archive

open EventServer.Lib.Blocks EventServer.Lib.CInt EventServer.Lib.ByteOrder EventServer.Stream

/-- A call of `Serial`: the variable, the sizes that go with it and, where the
overload has one, the local variable it does not initialise. -/
inductive Field where
  | bool (l : Bool)
  | uiboolean (l : BitVec 32)
  | int (l : BitVec 32)
  | sint8 (l : Byte)
  | uint8 (l : Byte)
  | sint16 (l : BitVec 16)
  | uint16 (l : BitVec 16)
  | uint32 (l : BitVec 32)
  | uint64 (l : BitVec 64)
  | float (fl : BitVec 64) (l : BitVec 32)
  | raw (str : List Byte) (len : Nat)
  | block (str : List Byte) (len nMaxBuf : Nat)
  | ptr (v p : BitVec 64)
  deriving DecidableEq

namespace Field

def serial (ar : CIArchive) : Field → Option (Field × CIArchive)
  | .bool l => (ar.serialBool l).map (Prod.map .bool id)
  | .uiboolean l => (ar.serialUiboolean l).map (Prod.map .uiboolean id)
  | .int l => (ar.serialInt l).map (Prod.map .int id)
  | .sint8 l => (ar.serialSint8 l).map (Prod.map .sint8 id)
  | .uint8 l => (ar.serialUint8 l).map (Prod.map .uint8 id)
  | .sint16 l => (ar.serialSint16 l).map (Prod.map .sint16 id)
  | .uint16 l => (ar.serialUint16 l).map (Prod.map .uint16 id)
  | .uint32 l => (ar.serialUint32 l).map (Prod.map .uint32 id)
  | .uint64 l => (ar.serialUint64 l).map (Prod.map .uint64 id)
  | .float fl l => (ar.serialFloat fl l).map (Prod.map (.float fl) id)
  | .raw str len => (ar.serialBuf str len).map (Prod.map (.raw · len) id)
  | .block str len nMaxBuf => (ar.serialBlock str len nMaxBuf).map (Prod.map (.block · len nMaxBuf) id)
  | .ptr v p => (ar.serialPtr v p).map (Prod.map (.ptr v) id)

def serialAll (ar : CIArchive) : List Field → Option (List Field × CIArchive)
  | [] => some ([], ar)
  | f :: fs => do
    let (f, ar) ← f.serial ar
    let (fs, ar) ← serialAll ar fs
    return (f :: fs, ar)

/-- The values the source gives a meaning to: a `uiboolean` is `uitrue` or `uifalse`, and an
`int` length stays within its buffer and, for a block, within `nMaxBuf`. -/
def Valid : Field → Prop
  | .uiboolean l => l = 0 ∨ l = 1
  | .raw str len => len ≤ str.length ∧ len < 2 ^ 31
  | .block str len nMaxBuf => len ≤ str.length ∧ len ≤ nMaxBuf ∧ nMaxBuf < 2 ^ 31
  | _ => True

/-- `g` is a variable of the type of `f`, with the room that `f` needs. -/
inductive SameType : Field → Field → Prop where
  | bool (l l' : Bool) : SameType (.bool l) (.bool l')
  | uiboolean (l l' : BitVec 32) : SameType (.uiboolean l) (.uiboolean l')
  | int (l l' : BitVec 32) : SameType (.int l) (.int l')
  | sint8 (l l' : Byte) : SameType (.sint8 l) (.sint8 l')
  | uint8 (l l' : Byte) : SameType (.uint8 l) (.uint8 l')
  | sint16 (l l' : BitVec 16) : SameType (.sint16 l) (.sint16 l')
  | uint16 (l l' : BitVec 16) : SameType (.uint16 l) (.uint16 l')
  | uint32 (l l' : BitVec 32) : SameType (.uint32 l) (.uint32 l')
  | uint64 (l l' : BitVec 64) : SameType (.uint64 l) (.uint64 l')
  | float (fl fl' : BitVec 64) (l l' : BitVec 32) : SameType (.float fl l) (.float fl' l')
  | raw (str str' : List Byte) (len : Nat) (h : len ≤ str'.length) :
      SameType (.raw str len) (.raw str' len)
  | block (str str' : List Byte) (len len' nMaxBuf : Nat) (h : nMaxBuf ≤ str'.length) :
      SameType (.block str len nMaxBuf) (.block str' len' nMaxBuf)
  | ptr (v v' p p' : BitVec 64) : SameType (.ptr v p) (.ptr v' p')

/-- `g` holds the value of `f`. A block that was read is filled up with zeros. -/
inductive Returns : Field → Field → Prop where
  | bool (l : Bool) : Returns (.bool l) (.bool l)
  | uiboolean (l : BitVec 32) : Returns (.uiboolean l) (.uiboolean l)
  | int (l : BitVec 32) : Returns (.int l) (.int l)
  | sint8 (l : Byte) : Returns (.sint8 l) (.sint8 l)
  | uint8 (l : Byte) : Returns (.uint8 l) (.uint8 l)
  | sint16 (l : BitVec 16) : Returns (.sint16 l) (.sint16 l)
  | uint16 (l : BitVec 16) : Returns (.uint16 l) (.uint16 l)
  | uint32 (l : BitVec 32) : Returns (.uint32 l) (.uint32 l)
  | uint64 (l : BitVec 64) : Returns (.uint64 l) (.uint64 l)
  | float (fl fl' : BitVec 64) (l : BitVec 32) : Returns (.float fl l) (.float fl' l)
  | raw (str str' : List Byte) (len : Nat) (h : str'.take len = str.take len) :
      Returns (.raw str len) (.raw str' len)
  | block (str str' : List Byte) (len len' nMaxBuf : Nat)
      (h : str'.take nMaxBuf = str.take len ++ List.replicate (nMaxBuf - len) 0) :
      Returns (.block str len nMaxBuf) (.block str' len' nMaxBuf)
  | ptr (v v' p : BitVec 64) : Returns (.ptr v p) (.ptr v' p)

/-- What the write branch puts on the wire. -/
def encode : Field → List Byte
  | .bool l => leBytes 4 (if l then 1 else 0)
  | .uiboolean l => leBytes 4 l.toNat
  | .int l => leBytes 4 l.toNat
  | .sint8 l => [l]
  | .uint8 l => [l]
  | .sint16 l => leBytes 2 l.toNat
  | .uint16 l => leBytes 2 l.toNat
  | .uint32 l => leBytes 4 l.toNat
  | .uint64 l => leBytes 8 l.toNat
  | .float _ l => leBytes 4 l.toNat
  | .raw str len => str.take len
  | .block str len _ => leBytes 4 len ++ str.take len
  | .ptr _ p => leBytes 8 p.toNat

private theorem leBytes_length_four (n : Nat) : ((leBytes 4 n).length : Int) = 4 := by
  rw [leBytes_length]; rfl

theorem toNat_len {len : Nat} (h : len < 2 ^ 31) : (BitVec.ofNat 32 len).toNat = len := by
  rw [BitVec.toNat_ofNat]
  omega

theorem toInt_len {len : Nat} (h : len < 2 ^ 31) :
    (BitVec.ofNat 32 len).toInt = (len : Int) := by
  rw [BitVec.toInt_eq_toNat_cond, toNat_len h]
  omega

/-- The low half of the union, through the sign extension to `long` and back. -/
private theorem union_low (hi lo : BitVec 32) :
    (((hi ++ lo).setWidth 32).signExtend 64).setWidth 32 = lo := by
  have h : (hi ++ lo).setWidth 32 = lo := by
    apply BitVec.eq_of_toNat_eq
    rw [BitVec.toNat_setWidth, BitVec.toNat_append, Nat.shiftLeft_eq, Nat.mul_comm,
      ← Nat.two_pow_add_eq_or_of_lt lo.isLt]
    have hlo := lo.isLt
    omega
  rw [h]
  apply BitVec.eq_of_getElem_eq
  intro i hi
  simp [BitVec.getElem_setWidth, BitVec.getElem_signExtend, hi, show i < 64 by omega]

theorem serialBlock_write {ar : CIArchive} (h : ar.Ready) (hm : ar.mode = .smWrite)
    (str : List Byte) {len : Nat} (hlen : len ≤ str.length) (hlt : len < 2 ^ 31) (nMaxBuf : Int) :
    ∃ ar', ar.serialBlock str len nMaxBuf = some (str, ar') ∧
      CIArchive.Wrote ar (leBytes 4 len ++ str.take len) ar' := by
  obtain ⟨ar₁, he₁, hw₁⟩ := CIArchive.serialWord_write h hm ar.longSwapFn (BitVec.ofNat 32 len)
  obtain ⟨ar₂, he₂, hw₂⟩ := CIArchive.streamWrite_spec hw₁.ready _ hlen
  rw [toNat_len hlt] at hw₁
  refine ⟨ar₂, ?_, hw₁.trans h hw₂⟩
  simp [CIArchive.serialBlock, CIArchive.serialInt, hm, he₁, he₂]

/-- Every write branch puts the field's image at the cursor. -/
theorem serial_write {ar : CIArchive} (h : ar.Ready) (hm : ar.mode = .smWrite) {f : Field}
    (hv : f.Valid) : ∃ ar', f.serial ar = some (f, ar') ∧ CIArchive.Wrote ar f.encode ar' := by
  cases f with
  | bool l =>
    obtain ⟨ar', he, hw⟩ := CIArchive.streamWrite_all (n := 4) h _ (leBytes_length_four _)
    exact ⟨ar', by simp [serial, CIArchive.serialBool, hm, he], hw⟩
  | uiboolean l =>
    obtain ⟨ar', he, hw⟩ := CIArchive.streamWrite_all (n := 4) h _ (leBytes_length_four _)
    exact ⟨ar', by simp [serial, CIArchive.serialUiboolean, hm, he], hw⟩
  | int l | sint16 l | uint16 l | uint32 l | uint64 l =>
    obtain ⟨ar', he, hw⟩ := CIArchive.serialWord_write h hm _ l
    exact ⟨ar', congrArg (Option.map _) he, hw⟩
  | sint8 l | uint8 l =>
    obtain ⟨ar', he, hw⟩ := CIArchive.streamWrite_all (n := 1) h [l] rfl
    exact ⟨ar', by
      simp [serial, CIArchive.serialSint8, CIArchive.serialUint8, CIArchive.serialByte, hm, he], hw⟩
  | float fl l =>
    obtain ⟨ar', he, hw⟩ := CIArchive.streamWrite_all (n := 4) h _ (leBytes_length_four _)
    exact ⟨ar', by simp [serial, CIArchive.serialFloat, hm, he], hw⟩
  | raw str len =>
    obtain ⟨ar', he, hw⟩ := CIArchive.streamWrite_spec h _ hv.1
    exact ⟨ar', by simp [serial, CIArchive.serialBuf, hm, he], hw⟩
  | block str len nMaxBuf =>
    obtain ⟨hstr, hmax, hlt⟩ := hv
    obtain ⟨ar', he, hw⟩ := serialBlock_write h hm _ hstr (by omega) nMaxBuf
    exact ⟨ar', by simp [serial, he], hw⟩
  | ptr v p =>
    obtain ⟨ar', he, hw⟩ := CIArchive.serialWord_write h hm ar.longLongSwapFn p
    exact ⟨ar', by simp [serial, CIArchive.serialPtr, CIArchive.serialUint64, hm, he], hw⟩

theorem serialBlock_readBack {ar : CIArchive} (h : ar.Ready) (hm : ar.mode = .smRead)
    {str str' : List Byte} {len nMaxBuf : Nat} (hk : ar.KeepsLength len) (len' : Nat)
    (hlen : len ≤ str.length) (hmax : len ≤ nMaxBuf) (hlt : nMaxBuf < 2 ^ 31)
    (hroom : nMaxBuf ≤ str'.length) {rest : List Byte}
    (hr : ar.remaining = leBytes 4 len ++ (str.take len ++ rest)) :
    ∃ ar', ar.serialBlock str' len' nMaxBuf =
        some (str.take len ++ (List.replicate (nMaxBuf - len) 0 ++ str'.drop nMaxBuf), ar') ∧
      CIArchive.Consumed ar (4 + len) rest ar' := by
  have hb : (str.take len).length = len := List.length_take_of_le hlen
  rw [← toNat_len (show len < 2 ^ 31 by omega)] at hr
  obtain ⟨ar₁, he₁, hc₁⟩ := CIArchive.serialInt_readBack h hm hk 0 hr
  rw [toNat_len (by omega)] at hc₁
  obtain ⟨ar₂, he₂, hc₂⟩ := CIArchive.streamRead_image hc₁.moved.ready (congrArg Nat.cast hb)
    (by omega) hc₁.remaining
  rw [hb] at hc₂
  have hzero : blit str' 0 (List.replicate nMaxBuf 0) =
      some (List.replicate nMaxBuf 0 ++ str'.drop nMaxBuf) := by
    rw [blit_of_fits (by simpa using hroom)]
    simp [splice]
  have hfill : blit (List.replicate nMaxBuf 0 ++ str'.drop nMaxBuf) 0 (str.take len) =
      some (str.take len ++ (List.replicate (nMaxBuf - len) 0 ++ str'.drop nMaxBuf)) := by
    rw [blit_of_fits (by simp [hb]; omega)]
    simp [splice, hb, List.drop_append, List.drop_replicate, hmax]
  have hm₁ : ar₁.mode = .smRead := hc₁.moved.mode.trans hm
  have hle : (len : Int) ≤ nMaxBuf := by omega
  refine ⟨ar₂, ?_, hc₁.trans hc₂⟩
  simp only [CIArchive.serialBlock, hm, Int.toNat_natCast, hzero, he₁, Option.bind_eq_bind,
    Option.bind_some, toInt_len (show len < 2 ^ 31 by omega), hle, ↓reduceIte,
    CIArchive.serialBuf, hm₁, he₂, hfill, Option.pure_def]

/-- Every read branch takes back exactly the image of the field. -/
theorem serial_read {ar : CIArchive} (h : ar.Ready) (hm : ar.mode = .smRead)
    (hs : ar.swapped = false) {f g : Field} (hv : f.Valid) (ht : SameType f g) {rest : List Byte}
    (hr : ar.remaining = f.encode ++ rest) :
    ∃ g' ar', g.serial ar = some (g', ar') ∧ Returns f g' ∧
      CIArchive.Consumed ar f.encode.length rest ar' := by
  obtain ⟨hshort, hlong, hlonglong⟩ := CIArchive.swapFn_default hs
  cases ht with
  | bool l l' =>
    obtain ⟨ar', he, hc⟩ := CIArchive.streamRead_image h (leBytes_length_four _) (by omega) hr
    have hl : fromLe 32 (leBytes 4 (if l then 1 else 0)) = (if l then 1 else 0 : BitVec 32) := by
      cases l <;> rfl
    refine ⟨_, ar', ?_, .bool l, hc⟩
    cases l <;> simp [serial, CIArchive.serialBool, hm, he, hlong, longNoSwap] at hl ⊢ <;> simp [hl]
  | uiboolean l l' =>
    obtain ⟨ar', he, hc⟩ := CIArchive.streamRead_image h (leBytes_length_four _) (by omega) hr
    refine ⟨_, ar', ?_, .uiboolean l, hc⟩
    have hl : fromLe 32 (leBytes 4 l.toNat) = l := fromLe_leBytes (k := 4) rfl l
    have hl' : (if l = 1 then 1 else 0) = l := by obtain rfl | rfl := hv <;> rfl
    simpa [serial, CIArchive.serialUiboolean, hm, he, hlong, longNoSwap, hl] using hl'
  | int l l' =>
    obtain ⟨ar', he, hc⟩ := CIArchive.serialInt_readBack h hm (CIArchive.longSwapFn_default hs l)
      l' hr
    exact ⟨_, ar', congrArg (Option.map _) he, .int l, hc⟩
  | sint8 l l' | uint8 l l' =>
    obtain ⟨ar', he, hc⟩ := CIArchive.streamRead_image (n := 1) h rfl (by omega) hr
    refine ⟨_, ar', ?_, by constructor, hc⟩
    simp [serial, CIArchive.serialSint8, CIArchive.serialUint8, CIArchive.serialByte, hm, he]
    rfl
  | sint16 l l' | uint16 l l' =>
    obtain ⟨ar', he, hc⟩ := CIArchive.serialWord_readBack h hm rfl (by omega) (by omega)
      shortNoSwap rfl l' hr
    rw [← hshort] at he
    exact ⟨_, ar', congrArg (Option.map _) he, by constructor, (leBytes_length 2 _).symm ▸ hc⟩
  | uint32 l l' =>
    obtain ⟨ar', he, hc⟩ := CIArchive.serialInt_readBack h hm (CIArchive.longSwapFn_default hs l)
      l' hr
    exact ⟨_, ar', congrArg (Option.map _) he, .uint32 l, hc⟩
  | uint64 l l' =>
    obtain ⟨ar', he, hc⟩ := CIArchive.serialWord_readBack h hm rfl (by omega) (by omega)
      longLongNotSwap rfl l' hr
    rw [← hlonglong] at he
    exact ⟨_, ar', congrArg (Option.map _) he, .uint64 l, hc⟩
  | float fl fl' l l' =>
    obtain ⟨ar', he, hc⟩ := CIArchive.streamRead_image h (leBytes_length_four _) (by omega) hr
    refine ⟨_, ar', ?_, .float fl fl' l, hc⟩
    have hl : fromLe 32 (leBytes 4 l.toNat) = l := fromLe_leBytes (k := 4) rfl l
    simpa [serial, CIArchive.serialFloat, hm, he, hlong, longNoSwap, hl] using union_low _ l
  | raw str str' len hroom =>
    obtain ⟨hlen, hlt⟩ := hv
    have hb : (str.take len).length = len := List.length_take_of_le hlen
    obtain ⟨ar', he, hc⟩ := CIArchive.streamRead_image h (congrArg Nat.cast hb) (by omega) hr
    refine ⟨.raw (splice str' 0 (str.take len)) len, ar', ?_, .raw _ _ _ ?_, hc⟩
    · simp [serial, CIArchive.serialBuf, hm, he, blit_of_fits, hb, hroom]
    · simp [splice, hb]
  | block str str' len len' nMaxBuf hroom =>
    obtain ⟨hlen, hmax, hlt⟩ := hv
    rw [encode, List.append_assoc] at hr
    obtain ⟨ar', he, hc⟩ := serialBlock_readBack h hm (CIArchive.keepsLength_default hs len) len' hlen
      hmax hlt hroom hr
    refine ⟨.block (str.take len ++ (List.replicate (nMaxBuf - len) 0 ++ str'.drop nMaxBuf)) len'
      nMaxBuf, ar', by simp [serial, he], .block _ _ _ _ _ ?_, ?_⟩
    · rw [← List.append_assoc, List.take_left']
      simp
      omega
    · rwa [encode, List.length_append, leBytes_length, List.length_take_of_le hlen]
  | ptr v v' p p' =>
    obtain ⟨ar', he, hc⟩ := CIArchive.serialWord_readBack h hm rfl (by omega) (by omega)
      longLongNotSwap rfl v' hr
    rw [← hlonglong] at he
    refine ⟨_, ar', ?_, .ptr v v' p, hc⟩
    simp [serial, CIArchive.serialPtr, CIArchive.serialUint64, hm, he]

def encodeAll (fs : List Field) : List Byte := fs.flatMap encode

theorem serialAll_write (fs : List Field) {ar : CIArchive} (h : ar.Ready)
    (hm : ar.mode = .smWrite) (hv : ∀ f ∈ fs, f.Valid) :
    ∃ ar', serialAll ar fs = some (fs, ar') ∧ CIArchive.Wrote ar (encodeAll fs) ar' := by
  induction fs generalizing ar with
  | nil => exact ⟨ar, rfl, h, (splice_nil _ _).symm, rfl, rfl, rfl, rfl⟩
  | cons f fs ih =>
    obtain ⟨ar₁, he₁, hw₁⟩ := serial_write h hm (hv f List.mem_cons_self)
    obtain ⟨ar₂, he₂, hw₂⟩ := ih hw₁.ready (hw₁.mode.trans hm)
      fun g hg => hv g (List.mem_cons_of_mem f hg)
    exact ⟨ar₂, by simp [serialAll, he₁, he₂], hw₁.trans h hw₂⟩

theorem serialAll_read {fs gs : List Field} (ht : List.Forall₂ SameType fs gs) {ar : CIArchive}
    (h : ar.Ready) (hm : ar.mode = .smRead) (hs : ar.swapped = false) (hv : ∀ f ∈ fs, f.Valid)
    {rest : List Byte} (hr : ar.remaining = encodeAll fs ++ rest) :
    ∃ gs' ar', serialAll ar gs = some (gs', ar') ∧ List.Forall₂ Returns fs gs' ∧
      CIArchive.Consumed ar (encodeAll fs).length rest ar' := by
  induction ht generalizing ar with
  | nil => exact ⟨[], ar, rfl, .nil, .refl h, hr, rfl, rfl⟩
  | @cons f g fs gs hfg _ ih =>
    rw [encodeAll, List.flatMap_cons, List.append_assoc] at hr
    obtain ⟨g', ar₁, he₁, hg₁, hc₁⟩ := serial_read h hm hs (hv f List.mem_cons_self) hfg hr
    obtain ⟨gs', ar₂, he₂, hg₂, hc₂⟩ := ih hc₁.moved.ready (hc₁.moved.mode.trans hm)
      (hc₁.moved.swapped.trans hs) (fun g hg => hv g (List.mem_cons_of_mem f hg)) hc₁.remaining
    refine ⟨g' :: gs', ar₂, by simp [serialAll, he₁, he₂], .cons hg₁ hg₂, ?_⟩
    rw [encodeAll, List.flatMap_cons, List.length_append]
    exact hc₁.trans hc₂

end Field

/-- An empty message that is writing in the default byte order. -/
structure Blank (ar : CLXZMessage) : Prop where
  ready : ar.Ready
  content : ar.content = []
  mode : ar.mode = .smWrite
  swapped : ar.swapped = false
  errorCode : ar.stream.errorCode = .errNo

theorem blank_fresh : Blank (CIArchive.fresh.setMode 0) :=
  ⟨CIArchive.ready_fresh 0, CIArchive.content_fresh 0, rfl, rfl, rfl⟩

/-- Write `fs`, call `setMode(SM_READ)` and read into `gs`. -/
def readBack (ar : CLXZMessage) (fs gs : List Field) : Option (List Field × CLXZMessage) := do
  let (_, ar) ← Field.serialAll ar fs
  Field.serialAll (ar.setMode 1) gs

theorem readBack_spec {ar : CLXZMessage} (h : Blank ar) {fs gs : List Field}
    (hv : ∀ f ∈ fs, f.Valid) (ht : List.Forall₂ Field.SameType fs gs) :
    ∃ gs' ar', readBack ar fs gs = some (gs', ar') ∧ List.Forall₂ Field.Returns fs gs' ∧
      ar'.getPos = some (Field.encodeAll fs).length ∧ ar'.content = Field.encodeAll fs ∧
      ar'.getMsgSize = toInt32 (Field.encodeAll fs).length ∧ ar'.stream.errorCode = .errNo := by
  obtain ⟨ar₁, he₁, hw⟩ := Field.serialAll_write fs h.ready h.mode hv
  have hcont : ar₁.content = Field.encodeAll fs := by
    rw [(hw.append (h.ready.atEnd_of_empty h.content)).1, h.content, List.nil_append]
  have hready : (ar₁.setMode 1).Ready := CIArchive.ready_setMode hw.ready.wf 1
  have hr : (ar₁.setMode 1).remaining = Field.encodeAll fs ++ [] := by
    rw [CIArchive.remaining, CIArchive.content_setMode, CIArchive.curPos_setMode, hcont,
      List.drop_zero, List.append_nil]
  obtain ⟨gs', ar₂, he₂, hg, hc⟩ :=
    Field.serialAll_read ht hready rfl (hw.swapped.trans h.swapped) hv hr
  have hcont₂ : ar₂.content = Field.encodeAll fs := by
    rw [hc.moved.content, CIArchive.content_setMode, hcont]
  refine ⟨gs', ar₂, by simp [readBack, he₁, he₂], hg, ?_, hcont₂, ?_, ?_⟩
  · rw [hc.moved.ready.getPos, hc.pos, CIArchive.curPos_setMode, Nat.zero_add]
  · rw [CIArchive.getMsgSize, CIMemFile.getValidCount, ← hc.moved.ready.content_length, hcont₂]
  · rw [hc.errorCode, CIArchive.setMode, CIMemFile.setPos_errorCode, hw.errorCode, h.errorCode]

/-- Every list of fields comes back, and the cursor stands behind the last byte. `getMsgSize()`
is an `int`, so it is that cursor as long as the message is shorter than `2^31` bytes. -/
theorem fields_readBack {ar : CLXZMessage} (h : Blank ar) {fs gs : List Field}
    (hv : ∀ f ∈ fs, f.Valid) (ht : List.Forall₂ Field.SameType fs gs) :
    ∃ gs' ar' pos, readBack ar fs gs = some (gs', ar') ∧ List.Forall₂ Field.Returns fs gs' ∧
      ar'.getPos = some pos ∧ pos = ar'.content.length ∧
      (ar'.content.length < 2 ^ 31 → (pos : Int) = ar'.getMsgSize) ∧
      ar'.stream.errorCode = .errNo := by
  obtain ⟨gs', ar', he, hg, hpos, hcont, hsize, herr⟩ := readBack_spec h hv ht
  refine ⟨gs', ar', _, he, hg, hpos, by rw [hcont], ?_, herr⟩
  intro hlt
  rw [hcont] at hlt
  rw [hsize, toInt32_of_lt hlt]

/-- Two fields are written and read into other variables. -/
theorem fields_readBack_pair :
    ∃ gs' ar' pos, readBack (CIArchive.fresh.setMode 0) [.int 5, .block [7, 8] 2 4]
        [.int 0, .block [1, 1, 1, 1] 0 4] = some (gs', ar') ∧
      List.Forall₂ Field.Returns [.int 5, .block [7, 8] 2 4] gs' ∧
      ar'.getPos = some pos ∧ pos = ar'.content.length ∧
      (ar'.content.length < 2 ^ 31 → (pos : Int) = ar'.getMsgSize) ∧
      ar'.stream.errorCode = .errNo :=
  fields_readBack blank_fresh (by simp [Field.Valid])
    (.cons (.int 5 0) (.cons (.block _ _ 2 0 4 (by decide)) .nil))

/-- A raw field of `n` zeros and a byte. -/
def rawThenByte (n : Nat) : List Field := [.raw (List.replicate n 0) n, .uint8 0]

private theorem rawThenByte_sizes (n : Nat) (hn : n < 2 ^ 31) :
    ∃ gs' ar', readBack (CIArchive.fresh.setMode 0) (rawThenByte n) (rawThenByte n) =
      some (gs', ar') ∧ ar'.getPos = some (n + 1) ∧ ar'.getMsgSize = toInt32 (n + 1) := by
  have hv : ∀ f ∈ rawThenByte n, f.Valid := by
    simpa [rawThenByte, Field.Valid] using hn
  have ht : List.Forall₂ Field.SameType (rawThenByte n) (rawThenByte n) :=
    .cons (.raw _ _ _ (List.length_replicate).ge) (.cons (.uint8 _ _) .nil)
  have hlen : (Field.encodeAll (rawThenByte n)).length = n + 1 := by
    simp [Field.encodeAll, rawThenByte, Field.encode]
  obtain ⟨gs', ar', he, -, hpos, -, hsize, -⟩ := readBack_spec blank_fresh hv ht
  rw [hlen] at hpos hsize
  exact ⟨gs', ar', he, hpos, hsize⟩

/-- Behind `2^31` bytes the cursor is `2^31`, but `getMsgSize()` is negative. -/
theorem readBack_size_narrowed :
    ¬ ∃ gs' ar' pos, readBack (CIArchive.fresh.setMode 0) (rawThenByte (2 ^ 31 - 1))
        (rawThenByte (2 ^ 31 - 1)) = some (gs', ar') ∧
      List.Forall₂ Field.Returns (rawThenByte (2 ^ 31 - 1)) gs' ∧ ar'.getPos = some pos ∧
      (pos : Int) = ar'.getMsgSize ∧ ar'.stream.errorCode = .errNo := by
  generalize hn : 2 ^ 31 - 1 = n
  intro hback
  obtain ⟨gs, ar, pos, he, -, hpos, hsize, -⟩ := hback
  obtain ⟨gs', ar', he', hpos', hsize'⟩ := rawThenByte_sizes n (by omega)
  rw [he, Option.some.injEq, Prod.mk.injEq] at he'
  obtain ⟨-, rfl⟩ := he'
  rw [hpos, Option.some.injEq] at hpos'
  rw [hsize', toInt32_of_ge (by omega) (by omega)] at hsize
  omega

end EventServer.Archive
