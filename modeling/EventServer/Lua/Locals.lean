import EventServer.Lua.Content
import EventServer.Lua.Numbers

/-!
# Local variables that are not initialised

Every reading method declares a variable, hands it to `Serial` and pushes it.
`Serial` sets it only when the read succeeded, so a message that ends too early
shows what the stack held before; a string takes it for its length.
-/
namespace EventServer.Lua

open EventServer.Lib.Blocks EventServer.Lib.CInt EventServer.Lib.ByteOrder EventServer.Lib.Decimal
open EventServer.Stream EventServer.Archive EventServer.Archive.CIArchive

/-- A call pushes the same values and leaves the same cursor whatever is on the stack. -/
def Settled (f : BitVec 64 → Option (Message × List LuaValue)) : Prop :=
  ∃ vs pos, ∀ stack, ∃ m', f stack = some (m', vs) ∧ m'.ar.stream.curPos = pos

theorem settled_const_iff (x : Option (Message × List LuaValue)) :
    Settled (fun _ => x) ↔ x.isSome = true := by
  rw [Option.isSome_iff_exists]
  constructor
  · intro h
    obtain ⟨vs, pos, hall⟩ := h
    obtain ⟨m', he, -⟩ := hall 0
    exact ⟨_, he⟩
  · intro h
    obtain ⟨⟨m', vs⟩, he⟩ := h
    exact ⟨vs, m'.ar.stream.curPos, fun _ => ⟨m', he, rfl⟩⟩

/-- Two stacks give the same, or the call is not settled. -/
theorem Settled.pushed {f : BitVec 64 → Option (Message × List LuaValue)} (h : Settled f)
    {s t : BitVec 64} {m m' : Message} {vs vs' : List LuaValue} (hs : f s = some (m, vs))
    (ht : f t = some (m', vs')) : vs = vs' := by
  obtain ⟨vs₀, pos, hall⟩ := h
  obtain ⟨m₁, he₁, -⟩ := hall s
  obtain ⟨m₂, he₂, -⟩ := hall t
  have hvs : vs = vs₀ := (Prod.mk.inj (Option.some.inj (hs.symm.trans he₁))).2
  have hvs' : vs' = vs₀ := (Prod.mk.inj (Option.some.inj (ht.symm.trans he₂))).2
  rw [hvs, hvs']

theorem Settled.defined {f : BitVec 64 → Option (Message × List LuaValue)} (h : Settled f)
    (stack : BitVec 64) : f stack ≠ none := by
  obtain ⟨vs, pos, hall⟩ := h
  obtain ⟨m', he, -⟩ := hall stack
  rw [he]
  exact Option.some_ne_none _

/-- The methods that read, with the argument that `lstring` takes. -/
inductive ReadMethod where
  | uiboolean
  | bool
  | int
  | sint8
  | uint8
  | sint16
  | uint16
  | uint32
  | uint64
  | int64
  | string
  | lstring (type : BitVec 32)

/-- A call in read mode; `stack` is what the locals start with. -/
def ReadMethod.read (fmt : Formats) (m : Message) (stack : BitVec 64) :
    ReadMethod → Option (Message × List LuaValue)
  | .uiboolean => m.uiboolean 0 (stack.setWidth 32)
  | .bool => m.bool false (stack.setWidth 8 ≠ 0#8)
  | .int => m.int 0 (stack.setWidth 32)
  | .sint8 => m.sint8 0 (stack.setWidth 8)
  | .uint8 => m.uint8 0 (stack.setWidth 8)
  | .sint16 => m.sint16 0 (stack.setWidth 16)
  | .uint16 => m.uint16 0 (stack.setWidth 16)
  | .uint32 => m.uint32 0 (stack.setWidth 32)
  | .uint64 => m.serial64 fmt.i64u 0 stack
  | .int64 => m.serial64 fmt.i64d 0 stack
  | .string => m.string [] (stack.setWidth 32)
  | .lstring type => m.lstring [] type (stack.setWidth 8) (stack.setWidth 16)

/-- `n` bytes are there. -/
def Message.Ahead (m : Message) (n : Nat) : Prop :=
  m.ar.stream.curPos + n ≤ m.ar.content.length

/-- The number that the next eight bytes are read as. -/
def Message.next64 (m : Message) : BitVec 64 :=
  m.ar.longLongSwapFn (fromLe 64 (m.ar.remaining.take 8))

/-- The number is there and, as text, fits its buffer; a length is there and is the size of some
array. The bytes of a string have a length of their own, which must not lead back. -/
def ReadMethod.Complete (fmt : Formats) (m : Message) : ReadMethod → Prop
  | .uiboolean | .bool | .int | .uint32 => m.Ahead 4
  | .sint8 | .uint8 => m.Ahead 1
  | .sint16 | .uint16 => m.Ahead 2
  | .uint64 => m.Ahead 8 ∧ (fmt.i64u m.next64).length < 64
  | .int64 => m.Ahead 8 ∧ (fmt.i64d m.next64).length < 64
  | .string => m.Ahead 4 ∧ (0 ≤ m.ar.announced ∧ m.ar.announced < 2 ^ 31 - 1) ∧
      ¬ m.ar.WrapsBackAt (m.ar.stream.curPos + 4)
  | .lstring type =>
    if type = 1 then m.Ahead 1 else if type = 2 then m.Ahead 2
    else 0 ≤ type.toInt ∧ type.toInt < 2 ^ 31 - 1

/-! ## Numbers -/

/-- `n` bytes give the variable its value; with fewer it stays as it was. -/
def Takes {α : Type} (m : Message) (n : Nat) (serial : CLXZMessage → α → Option (α × CLXZMessage)) :
    Prop :=
  (m.Ahead n ∧ ∃ x ar', Moved m.ar ar' ∧ ∀ l, serial m.ar l = some (x, ar')) ∨
    (¬ m.Ahead n ∧ ∃ ar', Moved m.ar ar' ∧ ∀ l, serial m.ar l = some (l, ar'))

section Typed

variable {m : Message} (h : m.ar.Ready) (hm : m.ar.mode = .smRead)

include h

theorem takes_of_streamRead {α : Type} {n : Nat} (hn : 0 < n) (hn' : n < 2 ^ 31)
    {serial : CLXZMessage → α → Option (α × CLXZMessage)} {g : List Byte → α}
    (hser : ∀ l, serial m.ar l = m.ar.streamRead n >>= fun r =>
      pure (if 0 < r.1 then g r.2.1 else l, r.2.2)) : Takes m n serial := by
  have hret : 0 < toInt32 n := by
    rw [toInt32_of_lt hn']
    omega
  rcases streamRead_cases h n with ⟨hfit, ar', he, hmv, -⟩ | ⟨hshort, ar', he, hmv, -⟩
  · refine .inl ⟨hfit, g (m.ar.remaining.take n), ar', hmv, fun l =>
      (hser l).trans (bind_eq_of_some he ?_)⟩
    rw [if_pos hret]
    rfl
  · exact .inr ⟨Nat.not_le.mpr hshort, ar', hmv, fun l =>
      (hser l).trans (bind_eq_of_some he rfl)⟩

include hm

theorem takes_word {w : Nat} (hw : 0 < w / 8) (hw' : w / 8 < 2 ^ 31)
    {serial : CLXZMessage → BitVec w → Option (BitVec w × CLXZMessage)} {swap : BitVec w → BitVec w}
    (hser : ∀ l, serial m.ar l = m.ar.serialWord swap l) : Takes m (w / 8) serial := by
  rcases serialWord_cases h hm hw hw' swap with ⟨hfit, ar', he, hmv, -⟩ | ⟨hshort, ar', he, hmv, -⟩
  · exact .inl ⟨hfit, _, ar', hmv, fun l => (hser l).trans (he l)⟩
  · exact .inr ⟨Nat.not_le.mpr hshort, ar', hmv, fun l => (hser l).trans (he l)⟩

theorem takes_byte : Takes m 1 serialByte := by
  rcases streamRead_cases h 1 with ⟨hfit, ar', he, hmv, -⟩ | ⟨hshort, ar', he, hmv, -⟩
  · have hone : (m.ar.remaining.take 1).length = 1 := by
      rw [List.length_take, remaining, List.length_drop]
      omega
    obtain ⟨b, hb⟩ := List.length_eq_one_iff.mp hone
    refine .inl ⟨hfit, b, ar', hmv, fun l => ?_⟩
    simp only [serialByte, hm]
    exact bind_eq_of_some he (by rw [hb]; rfl)
  · refine .inr ⟨Nat.not_le.mpr hshort, ar', hmv, fun l => ?_⟩
    simp only [serialByte, hm]
    exact bind_eq_of_some he rfl

omit h in
/-- The variable is pushed as it is, and so shows the stack if the read failed. -/
theorem settled_typed_iff {α : Type} {n : Nat}
    {serial : CLXZMessage → α → Option (α × CLXZMessage)} (ht : Takes m n serial)
    {toLua : α → LuaValue} (v : α) {start : BitVec 64 → α} {s t : BitVec 64}
    (hdiff : toLua (start s) ≠ toLua (start t)) :
    Settled (fun stack => m.typed serial toLua v (start stack)) ↔ m.Ahead n := by
  have hcall : ∀ {stack x ar'}, serial m.ar (start stack) = some (x, ar') →
      m.typed serial toLua v (start stack) = some ({ m with ar := ar' }, [toLua x]) := by
    intro stack x ar' he
    rw [Message.typed, if_pos hm]
    exact bind_eq_of_some he rfl
  rcases ht with ⟨hfit, x, ar', -, he⟩ | ⟨hshort, ar', -, he⟩
  · exact iff_of_true ⟨[toLua x], ar'.stream.curPos, fun stack => ⟨_, hcall (he _), rfl⟩⟩ hfit
  · refine iff_of_false ?_ hshort
    intro hset
    have hpushed := hset.pushed (hcall (he (start s))) (hcall (he (start t)))
    exact hdiff (List.singleton_injective hpushed)

theorem settled_word_iff {w : Nat} (hw : 0 < w / 8) (hw' : w / 8 < 2 ^ 31)
    {serial : CLXZMessage → BitVec w → Option (BitVec w × CLXZMessage)} {swap : BitVec w → BitVec w}
    (hser : ∀ l, serial m.ar l = m.ar.serialWord swap l) {toLua : BitVec w → LuaValue}
    (hdiff : toLua ((0 : BitVec 64).setWidth w) ≠ toLua ((1 : BitVec 64).setWidth w))
    (v : BitVec w) :
    Settled (fun stack => m.typed serial toLua v (stack.setWidth w)) ↔ m.Ahead (w / 8) :=
  settled_typed_iff hm (takes_word h hm hw hw' hser) v hdiff

/-- The eight bytes are there, and the text of their number fits the buffer. -/
theorem settled_serial64_iff {fmt : BitVec 64 → List Byte} {x y : BitVec 64} (hdiff : fmt x ≠ fmt y)
    (v : BitVec 64) :
    Settled (fun stack => m.serial64 fmt v stack) ↔
      m.Ahead 8 ∧ (fmt m.next64).length < 64 := by
  have hcall : ∀ {stack n ar'}, m.ar.serialUint64 stack = some (n, ar') →
      m.serial64 fmt v stack =
        if (fmt n).length < 64 then some ({ m with ar := ar' }, [.str (fmt n)]) else none := by
    intro stack n ar' he
    simp only [Message.serial64, hm]
    exact bind_eq_of_some he rfl
  rcases serialWord_cases h hm (by decide) (by decide) m.ar.longLongSwapFn with
    ⟨hfit, ar', he, -⟩ | ⟨hshort, ar', he, -⟩
  · have hsame : (fun stack => m.serial64 fmt v stack) = fun _ =>
        if (fmt m.next64).length < 64 then some ({ m with ar := ar' }, [.str (fmt m.next64)])
        else none := funext fun stack => hcall (he stack)
    rw [hsame, settled_const_iff, and_iff_right (show m.Ahead 8 from hfit)]
    split <;> simp_all
  · refine iff_of_false ?_ fun hc => absurd hc.1 (Nat.not_le.mpr hshort)
    intro hset
    have hroom : ∀ n, (fmt n).length < 64 := by
      intro n
      by_contra hlong
      exact hset.defined n ((hcall (he n)).trans (if_neg hlong))
    have hpushed := hset.pushed ((hcall (he x)).trans (if_pos (hroom x)))
      ((hcall (he y)).trans (if_pos (hroom y)))
    exact hdiff (LuaValue.str.inj (List.singleton_injective hpushed))

end Typed

/-! ## Strings -/

/-- The part of reading a `string` behind its length. -/
def stringRest (m : Message) (ar : CIArchive) (len : Int) : Option (Message × List LuaValue) := do
  let n ← CIMemFile.copyLen len
  let size ← addInt n 1
  let (buf, ar) ← ar.serialBlock (List.replicate size.toNat 0) n n
  let s ← Message.cstrOf buf
  return ({ m with ar }, [.str s])

/-- There is no array of that size and one byte more. -/
theorem no_size {α : Type} {len : Int} (h : ¬ (0 ≤ len ∧ len < 2 ^ 31 - 1))
    (rest : Nat → Int → Option α) :
    (CIMemFile.copyLen len >>= fun n => addInt n 1 >>= rest n) = none := by
  rcases Int.lt_or_le len 0 with hneg | hpos
  · have hcopy : CIMemFile.copyLen len = none := if_neg (by omega)
    rw [hcopy]
    rfl
  · have hsum : addInt len.toNat 1 = none := if_neg (by omega)
    have hcopy : CIMemFile.copyLen len = some len.toNat := if_pos hpos
    exact bind_eq_of_some hcopy (by rw [hsum]; rfl)

/-- The buffer is one byte longer than the block, so the string in it ends. -/
theorem stringRest_isSome_iff (m : Message) {ar : CIArchive} (h : ar.Ready)
    (hm : ar.mode = .smRead) (len : Int) :
    (stringRest m ar len).isSome = true ↔ (0 ≤ len ∧ len < 2 ^ 31 - 1) ∧ ¬ ar.WrapsBack := by
  by_cases hlen : 0 ≤ len ∧ len < 2 ^ 31 - 1
  · obtain ⟨n, rfl⟩ := Int.eq_ofNat_of_zero_le hlen.1
    have hsize : addInt n 1 = some ((n + 1 : Nat) : Int) := addInt_of_fits (by omega) (by omega)
    have hroom : n ≤ (List.replicate (n + 1) (0 : Byte)).length := by
      rw [List.length_replicate]
      omega
    have hrest : stringRest m ar n = (ar.serialBlock (List.replicate (n + 1) 0) n n).bind fun r =>
        (Message.cstrOf r.1).bind fun s => some ({ m with ar := r.2 }, [.str s]) := by
      refine bind_eq_of_some (CIMemFile.copyLen_natCast n) (bind_eq_of_some hsize ?_)
      rw [Int.toNat_natCast]
      rfl
    rw [and_iff_right hlen, hrest]
    by_cases hw : ar.WrapsBack
    · rw [serialBlock_wrapsBack h hm n hroom hw]
      exact iff_of_false (by simp) (not_not_intro hw)
    · obtain ⟨buf, ar', he, hl, hdrop⟩ := serialBlock_inside h hm n hroom hw
      have hzero : (0 : Byte) ∈ buf := by
        apply List.mem_of_mem_drop (i := n)
        rw [hdrop, List.drop_replicate, show n + 1 - n = 1 by omega]
        exact List.mem_singleton_self 0
      refine iff_of_true ?_ hw
      rw [he, Option.bind_some, Message.cstrOf, strlen, if_pos hzero]
      rfl
  · have hnone : stringRest m ar len = none := no_size hlen _
    rw [hnone]
    exact iff_of_false (by simp) fun hc => hlen hc.1

theorem lstringRest_isSome_iff (m : Message) {ar : CIArchive} (h : ar.Ready)
    (hm : ar.mode = .smRead) (len : Int) :
    (lstringRest m ar len).isSome = true ↔ 0 ≤ len ∧ len < 2 ^ 31 - 1 := by
  by_cases hlen : 0 ≤ len ∧ len < 2 ^ 31 - 1
  · obtain ⟨n, rfl⟩ := Int.eq_ofNat_of_zero_le hlen.1
    obtain ⟨t, ar', he, -⟩ := lstringRest_spec m h hm (n := n) (by omega)
    rw [he]
    exact iff_of_true rfl hlen
  · have hnone : lstringRest m ar len = none := no_size hlen _
    rw [hnone]
    exact iff_of_false (by simp) hlen

section Strings

variable {m : Message} (h : m.ar.Ready) (hm : m.ar.mode = .smRead) (v : List Byte)

include h hm

/-- A length that is not there is what the stack held, such as -1. -/
theorem settled_string_iff :
    Settled (fun stack => m.string v (stack.setWidth 32)) ↔
      m.Ahead 4 ∧ (0 ≤ m.ar.announced ∧ m.ar.announced < 2 ^ 31 - 1) ∧
        ¬ m.ar.WrapsBackAt (m.ar.stream.curPos + 4) := by
  have hcall : ∀ {u l ar'}, m.ar.serialInt u = some (l, ar') →
      m.string v u = stringRest m ar' l.toInt := by
    intro u l ar' he
    simp only [Message.string, hm]
    exact bind_eq_of_some he rfl
  rcases serialWord_cases h hm (by decide) (by decide) m.ar.longSwapFn with
    ⟨hfit, ar', he, hmv, hpos⟩ | ⟨hshort, ar', he, hmv, -⟩
  · have hann : (m.ar.longSwapFn (fromLe 32 (m.ar.remaining.take 4))).toInt = m.ar.announced :=
      (if_pos hfit).symm
    have hsame : (fun stack : BitVec 64 => m.string v (stack.setWidth 32)) =
        fun _ => stringRest m ar' m.ar.announced := by
      funext stack
      rw [← hann]
      exact hcall (he _)
    rw [hsame, settled_const_iff, stringRest_isSome_iff m hmv.ready (hmv.mode.trans hm),
      wrapsBack_of_moved hmv, hpos]
    exact (and_iff_right (show m.Ahead 4 from hfit)).symm
  · refine iff_of_false ?_ fun hc => absurd hc.1 (Nat.not_le.mpr hshort)
    intro hset
    apply hset.defined (BitVec.allOnes 64)
    rw [hcall (he _)]
    exact no_size (by decide) _

omit h in
/-- A length that is not there makes a string of as many bytes as the stack says. -/
theorem settled_prefixed_iff {w n : Nat} (hw : 0 < w) (hw' : w ≤ 16)
    {serial : CLXZMessage → BitVec w → Option (BitVec w × CLXZMessage)} (ht : Takes m n serial) :
    Settled (fun stack => (serial m.ar (stack.setWidth w)).bind fun r =>
      lstringRest m r.2 r.1.toNat) ↔ m.Ahead n := by
  have hrest : ∀ (x : BitVec w) {ar' : CIArchive}, Moved m.ar ar' →
      ∃ t ar₂, lstringRest m ar' x.toNat = some ({ m with ar := ar₂ }, [.str t]) ∧
        t.length = x.toNat := by
    intro x ar' hmv
    have hlt := x.isLt
    have hle := Nat.pow_le_pow_right (show 0 < 2 by decide) hw'
    obtain ⟨t, ar₂, he, hlen, -⟩ := lstringRest_spec m hmv.ready (hmv.mode.trans hm)
      (n := x.toNat) (by omega)
    exact ⟨t, ar₂, he, hlen⟩
  have hcall : ∀ {l x ar'}, serial m.ar l = some (x, ar') →
      ((serial m.ar l).bind fun r => lstringRest m r.2 r.1.toNat) = lstringRest m ar' x.toNat := by
    intro l x ar' he
    rw [he, Option.bind_some]
  rcases ht with ⟨hfit, x, ar', hmv, he⟩ | ⟨hshort, ar', hmv, he⟩
  · obtain ⟨t, ar₂, hstr, -⟩ := hrest x hmv
    refine iff_of_true ⟨[.str t], ar₂.stream.curPos, fun stack => ?_⟩ hfit
    exact ⟨_, (hcall (he _)).trans hstr, rfl⟩
  · refine iff_of_false ?_ hshort
    intro hset
    obtain ⟨t₀, ar₀, he₀, hlen₀⟩ := hrest ((0 : BitVec 64).setWidth w) hmv
    obtain ⟨t₁, ar₁, he₁, hlen₁⟩ := hrest ((1 : BitVec 64).setWidth w) hmv
    have hpushed := hset.pushed ((hcall (he _)).trans he₀) ((hcall (he _)).trans he₁)
    have hone : ((1 : BitVec 64).setWidth w).toNat = 1 := by
      have hlt := Nat.one_lt_two_pow (show w ≠ 0 by omega)
      rw [BitVec.toNat_setWidth, show (1 : BitVec 64).toNat = 1 by decide, Nat.mod_eq_of_lt hlt]
    have hzero : ((0 : BitVec 64).setWidth w).toNat = 0 := by
      rw [BitVec.toNat_setWidth, show (0 : BitVec 64).toNat = 0 by decide, Nat.zero_mod]
    rw [LuaValue.str.inj (List.singleton_injective hpushed), hlen₁, hone, hzero] at hlen₀
    omega

theorem settled_lstring_iff (type : BitVec 32) :
    Settled (fun stack => m.lstring v type (stack.setWidth 8) (stack.setWidth 16)) ↔
      if type = 1 then m.Ahead 1 else if type = 2 then m.Ahead 2
      else 0 ≤ type.toInt ∧ type.toInt < 2 ^ 31 - 1 := by
  by_cases h1 : type = 1
  · rw [if_pos h1, ← settled_prefixed_iff hm (by decide) (by decide) (takes_byte h hm)]
    subst h1
    simp only [Message.lstring, hm, ↓reduceIte, serialUint8, Option.bind_eq_bind,
      Option.bind_map]
    rfl
  rw [if_neg h1]
  by_cases h2 : type = 2
  · have htakes : Takes m 2 serialUint16 :=
      takes_word (w := 16) h hm (by decide) (by decide) fun _ => rfl
    rw [if_pos h2, ← settled_prefixed_iff hm (by decide) (by decide) htakes]
    subst h2
    simp only [Message.lstring, hm, show ¬ (2 : BitVec 32) = 1 by decide, ↓reduceIte,
      Option.bind_eq_bind, Option.bind_map]
    rfl
  · rw [if_neg h2, ← lstringRest_isSome_iff m h hm, ← settled_const_iff]
    simp only [Message.lstring, hm, h1, h2, ↓reduceIte]
    rfl

end Strings

/-! ## All of them -/

/-- The formats tell numbers apart. -/
structure Formats.Tells (fmt : Formats) : Prop where
  i64u : ∃ x y, fmt.i64u x ≠ fmt.i64u y
  i64d : ∃ x y, fmt.i64d x ≠ fmt.i64d y

/-- What a reading method gives does not depend on the stack exactly when the message holds the
number or the length that it reads. -/
theorem settled_iff_complete {fmt : Formats} (hfmt : fmt.Tells) {m : Message} (h : m.ar.Ready)
    (hm : m.ar.mode = .smRead) (k : ReadMethod) :
    Settled (fun stack => k.read fmt m stack) ↔ k.Complete fmt m := by
  cases k with
  | uiboolean =>
    have ht : Takes m 4 serialUiboolean := by
      apply takes_of_streamRead h (by decide) (by decide)
        (g := fun bytes => if m.ar.longSwapFn (fromLe 32 bytes) = 1 then 1 else 0)
      intro l
      simp only [serialUiboolean, hm]
      rfl
    simp only [ReadMethod.read, Message.uiboolean, ReadMethod.Complete]
    apply settled_typed_iff hm ht (s := 0) (t := 1)
    decide
  | bool =>
    have ht : Takes m 4 serialBool := by
      apply takes_of_streamRead h (by decide) (by decide)
        (g := fun bytes => decide (m.ar.longSwapFn (fromLe 32 bytes) = 1))
      intro l
      simp only [serialBool, hm]
      rfl
    simp only [ReadMethod.read, Message.bool, ReadMethod.Complete]
    refine settled_typed_iff hm ht false (s := 0) (t := 1) ?_
    decide
  | int | uint32 | sint16 | uint16 =>
    simp only [ReadMethod.read, Message.int, Message.uint32, Message.sint16, Message.uint16,
      ReadMethod.Complete]
    apply settled_word_iff h hm (by decide) (by decide) (fun _ => rfl)
    decide
  | sint8 | uint8 =>
    simp only [ReadMethod.read, Message.sint8, Message.uint8, ReadMethod.Complete]
    apply settled_typed_iff hm (takes_byte h hm) (s := 0) (t := 1)
    decide
  | uint64 =>
    obtain ⟨x, y, hdiff⟩ := hfmt.i64u
    exact settled_serial64_iff h hm hdiff 0
  | int64 =>
    obtain ⟨x, y, hdiff⟩ := hfmt.i64d
    exact settled_serial64_iff h hm hdiff 0
  | string => exact settled_string_iff h hm []
  | lstring type => exact settled_lstring_iff h hm [] type

theorem glibc_tells : glibc.Tells where
  i64u := ⟨0, 1, by decide⟩
  i64d := ⟨0, 1, by decide⟩

/-- Two bytes with both their lengths. -/
theorem settled_string_two : Settled (fun stack =>
    ReadMethod.string.read glibc (ofBytes [2, 0, 0, 0, 2, 0, 0, 0, 104, 105]) stack) := by
  apply (settled_iff_complete glibc_tells (ready_holding _) rfl .string).mpr
  simp only [ReadMethod.Complete, Message.Ahead, WrapsBackAt]
  decide +kernel

/-- The `int` of an empty message is the stack's. -/
theorem int_of_empty_unsettled :
    ¬ Settled (fun stack => ReadMethod.int.read glibc (ofBytes []) stack) := by
  simp only [ReadMethod.read, Message.int]
  rw [settled_word_iff (ready_holding []) rfl (by decide) (by decide) (fun _ => rfl) (by decide)]
  simp only [Message.Ahead]
  decide

end EventServer.Lua
