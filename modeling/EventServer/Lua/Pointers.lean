import EventServer.Archive.Reading
import EventServer.Lua.Strings

/-!
# Named pointers

A pointer goes with the name of its type. Writing puts the name in front of the
pointer only when it is shorter than its block; reading takes the block in every
case, and compares names only when the one it is given is short.
-/
namespace EventServer.Lua

open EventServer.Lib.Blocks EventServer.Lib.CInt EventServer.Lib.ByteOrder
open EventServer.Lib.Transition EventServer.Lib.CString
open EventServer.Stream EventServer.Archive EventServer.Archive.CIArchive

/-- The pointer `p` is written under the name `w`, the fields that follow as well, and it is read
under the name `r`. Reading ends where the following fields start; it gives `p` for the same name,
and null for another one where both are short. -/
def PtrReadsBack (fmt : Formats) (m : Message) (p : BitVec 64) (w r : List Byte) (u : BitVec 64)
    (fields : List LuaOp) : Prop :=
  ∃ m₁ out m₂ outs x x' q, m.ptr w p u = some (m₁, out) ∧
    run (Message.call fmt) m₁ fields = some (m₂, outs) ∧
    m₂.readFrom m.ar.stream.curPos = some x ∧ x.ptr r 0 u = some (x', [.usertype q]) ∧
    x'.ar.stream.curPos = m₁.ar.stream.curPos ∧ (r = w → q = p) ∧
    (r ≠ w → r.length < 32 → w.length < 32 → q = 0)

/-- The comparison with the name in the block. -/
theorem nameBlock_eq_iff {w r : List Byte} (hw : 0 ∉ w) (hr : 0 ∉ r) (hl : w.length < 32) :
    (splice (List.replicate 32 0) 0 w).take (r.length + 1) = r ++ [0] ↔ r = w := by
  have hblock : splice (List.replicate 32 0) 0 w = w ++ 0 :: List.replicate (31 - w.length) 0 := by
    rw [splice, List.take_zero, List.nil_append, Nat.zero_add, List.drop_replicate,
      show 32 - w.length = 31 - w.length + 1 by omega, List.replicate_succ]
  rw [hblock]
  constructor
  · intro h
    have hsplit := List.take_append_drop (r.length + 1)
      (w ++ 0 :: List.replicate (31 - w.length) (0 : Byte))
    rw [h, List.append_assoc, List.singleton_append] at hsplit
    have hcstr := congrArg cstr hsplit
    rwa [cstr_terminated, cstr_terminated, cstr_of_not_mem hr, cstr_of_not_mem hw] at hcstr
  · intro h
    subst h
    rw [← List.singleton_append, ← List.append_assoc]
    exact List.take_left' (by simp)

theorem nameRoom : 32 ≤ (List.replicate 32 (0 : Byte)).length := List.length_replicate.ge

section Reading

variable {x : Message} (h : x.ar.Ready) (hm : x.ar.mode = .smRead) {name : List Byte}

include hm

/-- The block and the number behind it are read for every name. -/
theorem ptr_read {ar₁ ar₂ : CIArchive} {buf : List Byte} {u v : BitVec 64} (hname : 0 ∉ name)
    (hblock : x.ar.serialBlock (List.replicate 32 0) 32 32 = some (buf, ar₁))
    (hword : ar₁.serialUint64 u = some (v, ar₂)) (pObj : BitVec 64) :
    x.ptr name pObj u = some ({ x with ar := ar₂ },
      [.usertype (if name.length < 32 ∧ buf.take (name.length + 1) ≠ name ++ [0] then 0 else v)]) := by
  have hser : ∀ p, x.ar.serialPtrNamed u p name =
      some (if name.length < 32 ∧ buf.take (name.length + 1) ≠ name ++ [0] then 0 else v, ar₂) := by
    intro p
    simp only [serialPtrNamed, hm, hblock, hword, Option.bind_eq_bind, Option.bind_some]
    by_cases hl : name.length < 32
    · by_cases he : buf.take (name.length + 1) = name ++ [0] <;> simp [hl, he]
    · simp [hl]
  rw [Message.ptr, cstrOf_terminated, cstr_of_not_mem hname]
  exact bind_eq_of_some rfl (bind_eq_of_some (hser _) rfl)

include h

/-- Without the bytes of a block only its length is taken, and the pointer behind it if there are
enough bytes. -/
theorem ptr_read_skips (hname : 0 ∉ name) (hfour : x.ar.stream.curPos + 4 ≤ x.ar.content.length)
    (hskip : x.ar.announced = 0 ∨ 32 < x.ar.announced) {pObj u : BitVec 64} {x' : Message}
    {out : List LuaValue} (he : x.ptr name pObj u = some (x', out)) :
    x'.ar.stream.curPos = x.ar.stream.curPos + 4 ∨
      x'.ar.stream.curPos = x.ar.stream.curPos + 12 := by
  obtain ⟨buf, ar₁, hblock, hmv, hpos⟩ : ∃ buf ar₁,
      x.ar.serialBlock (List.replicate 32 0) 32 32 = some (buf, ar₁) ∧ Moved x.ar ar₁ ∧
        ar₁.stream.curPos = x.ar.stream.curPos + 4 := by
    obtain ⟨str₀, ar₁, -, -, hmv, hpos, hread⟩ := serialBlock_read h hm 32 nameRoom
    rcases hskip with hzero | hbig
    · obtain ⟨str₁, ar₂, he, -, -, hend⟩ := serialBuf_inside hmv.ready (hmv.mode.trans hm) str₀
        (Nat.zero_le _)
      rw [hzero, if_pos (by decide)] at hread
      have hmv₂ := serialBuf_moved hmv.ready (hmv.mode.trans hm) he
      refine ⟨str₁, ar₂, hread.trans he, hmv.trans hmv₂, ?_⟩
      have hfour := hpos hfour
      omega
    · rw [if_neg (by omega)] at hread
      exact ⟨str₀, ar₁, hread, hmv, hpos hfour⟩
  rcases serialWord_cases hmv.ready (hmv.mode.trans hm) (by decide) (by decide)
    ar₁.longLongSwapFn with ⟨-, ar₂, hword, -, hend⟩ | ⟨-, ar₂, hword, -, hend⟩
  · rw [ptr_read hm hname hblock (hword u), Option.some.injEq, Prod.mk.injEq] at he
    rw [← he.1]
    exact .inr (hend.trans (by omega))
  · rw [ptr_read hm hname hblock (hword u), Option.some.injEq, Prod.mk.injEq] at he
    rw [← he.1]
    exact .inl (hend.trans hpos)

/-- A block that is there is read whole, and the pointer behind it. -/
theorem ptr_readBack (hs : x.ar.swapped = false) (hname : 0 ∉ name) {w rest : List Byte}
    (hw : 0 ∉ w) (hl : w.length < 32) {p : BitVec 64}
    (hr : x.ar.remaining = nameBytes w ++ leBytes 8 p.toNat ++ rest) (pObj u : BitVec 64) :
    ∃ x', x.ptr name pObj u =
        some (x', [.usertype (if name.length < 32 ∧ name ≠ w then 0 else p)]) ∧
      x'.ar.stream.curPos = x.ar.stream.curPos + 44 := by
  have hlen := nameBlock_length hl
  have htake : (splice (List.replicate 32 0) 0 w).take 32 = splice (List.replicate 32 0) 0 w :=
    List.take_of_length_le hlen.le
  rw [nameBytes, if_pos hl, List.append_assoc, List.append_assoc, ← htake] at hr
  obtain ⟨ar₁, hblock, hc₁⟩ := Field.serialBlock_readBack h hm (keepsLength_default hs 32) 32
    hlen.ge (Nat.le_refl 32) (by decide) nameRoom hr
  have hid : ar₁.longLongSwapFn p = p := by
    rw [(swapFn_default (hc₁.moved.swapped.trans hs)).2.2, longLongNotSwap]
  obtain ⟨ar₂, hword, hc₂⟩ := serialWord_readBack (k := 8) hc₁.moved.ready
    (hc₁.moved.mode.trans hm) rfl (by decide) (by decide) ar₁.longLongSwapFn hid u hc₁.remaining
  refine ⟨{ x with ar := ar₂ }, ?_, (hc₁.trans hc₂).pos⟩
  rw [htake, List.drop_replicate, Nat.sub_self, List.replicate_zero, List.append_nil,
    List.append_nil] at hblock
  rw [ptr_read hm hname hblock hword]
  simp only [ne_eq, nameBlock_eq_iff hw hname hl]

end Reading

section Pointers

variable (fmt : Formats) {m : Message} (h : m.ar.Ready) (hm : m.ar.mode = .smWrite)
  {w r : List Byte} (hw : 0 ∉ w) (hr : 0 ∉ r) (u : BitVec 64) {fields : List LuaOp}
  (hf : ∀ op ∈ fields, op.Writable)

include h hm hw hf

/-- With the bytes of the pointer known, only its reading is left to look at. -/
theorem ptrReadsBack_iff_read (p : BitVec 64) :
    ∃ x, Reopened m (nameBytes w ++ leBytes 8 p.toNat) x ∧
      (PtrReadsBack fmt m p w r u fields ↔ ∃ x' q, x.ptr r 0 u = some (x', [.usertype q]) ∧
        x'.ar.stream.curPos = m.ar.stream.curPos + ((nameBytes w).length + 8) ∧
        (r = w → q = p) ∧ (r ≠ w → r.length < 32 → w.length < 32 → q = 0)) := by
  obtain ⟨m₁, hwrite, hwrote⟩ : ∃ m₁, m.ptr w p u = some (m₁, [.usertype p]) ∧
      Wrote m.ar (nameBytes w ++ leBytes 8 p.toNat) m₁.ar := by
    obtain ⟨ar, he, hwrote⟩ := ptr_write h hm w p u
    rw [cstr_of_not_mem hw] at hwrote
    exact ⟨{ m with ar }, he, hwrote⟩
  obtain ⟨m₂, outs, x, hrun, hx, hopen⟩ := reopened_of_wrote fmt h hm hwrote hf
  have hend : m₁.ar.stream.curPos = m.ar.stream.curPos + ((nameBytes w).length + 8) := by
    rw [hwrote.pos, List.length_append, leBytes_length]
  refine ⟨x, hopen, ?_⟩
  constructor
  · intro hback
    obtain ⟨m₁', out, m₂', outs', x₀, x', q, hwrite', hrun', hx', hread, hpos, hsame, hother⟩ :=
      hback
    obtain rfl : m₁ = m₁' := (Prod.mk.inj (Option.some.inj (hwrite.symm.trans hwrite'))).1
    obtain rfl : m₂ = m₂' := (Prod.mk.inj (Option.some.inj (hrun.symm.trans hrun'))).1
    obtain rfl : x = x₀ := Option.some.inj (hx.symm.trans hx')
    exact ⟨x', q, hread, hpos.trans hend, hsame, hother⟩
  · intro hback
    obtain ⟨x', q, hread, hpos, hsame, hother⟩ := hback
    exact ⟨m₁, _, m₂, outs, x, x', q, hwrite, hrun, hx, hread, hpos.trans hend.symm, hsame, hother⟩

include hr

theorem ptrReadsBack_of_short (hl : w.length < 32) (hs : m.ar.swapped = false) (p : BitVec 64) :
    PtrReadsBack fmt m p w r u fields := by
  obtain ⟨x, hopen, hiff⟩ := ptrReadsBack_iff_read fmt h hm hw u hf p
  obtain ⟨rest, hrem⟩ := hopen.remaining
  obtain ⟨x', hread, hpos⟩ := ptr_readBack hopen.ready hopen.mode (hopen.swapped.trans hs) hr hw hl
    hrem 0 u
  refine hiff.mpr ⟨x', _, hread, ?_, ?_, ?_⟩
  · rw [hpos, hopen.pos, nameBytes, if_pos hl, List.length_append, leBytes_length,
      nameBlock_length hl]
  · intro hsame
    rw [if_neg (by simp [hsame])]
  · intro hne hshort _
    rw [if_pos ⟨hshort, hne⟩]

/-- The null pointer under a name that has no block: its first half is taken for the length of one,
and the other half for the start of the pointer. -/
theorem short_of_ptrReadsBack (hback : PtrReadsBack fmt m 0 w r u fields) :
    w.length < 32 ∧ m.ar.swapped = false := by
  obtain ⟨x, hopen, hiff⟩ := ptrReadsBack_iff_read fmt h hm hw u hf 0
  obtain ⟨x', q, hread, hpos, -⟩ := hiff.mp hback
  obtain ⟨rest, hrem⟩ := hopen.remaining
  have hcur := hopen.pos
  by_cases hl : w.length < 32
  · refine ⟨hl, Bool.eq_false_iff.mpr ?_⟩
    intro hswap
    have hlen : (nameBytes w).length = 36 := by
      rw [nameBytes, if_pos hl, List.length_append, leBytes_length, nameBlock_length hl]
    rw [nameBytes, if_pos hl, List.append_assoc, List.append_assoc] at hrem
    obtain ⟨hann, hfour⟩ := announced_of_remaining (l := 32) hopen.ready hrem
    have hbig : (longSwap 32).toInt = 536870912 := by decide
    rw [longSwapFn, hopen.swapped, hswap, if_pos rfl, hbig] at hann
    have hend := ptr_read_skips hopen.ready hopen.mode hr hfour (.inr (by omega)) hread
    omega
  · have hlen : nameBytes w = [] := if_neg hl
    rw [hlen, List.nil_append] at hrem
    have hhalves : x.ar.remaining = leBytes 4 (0 : BitVec 32).toNat ++ (leBytes 4 0 ++ rest) := hrem
    obtain ⟨hann, hfour⟩ := announced_of_remaining hopen.ready hhalves
    have hzero : (x.ar.longSwapFn 0).toInt = 0 := by
      rw [longSwapFn]
      split <;> rfl
    have hend := ptr_read_skips hopen.ready hopen.mode hr hfour (.inl (hann.trans hzero)) hread
    rw [hlen, List.length_nil] at hpos
    omega

/-- A pointer comes back, whatever it is, exactly when its name is shorter than its block and the
length of the block is not swapped. -/
theorem ptr_readsBack_iff :
    (∀ p, PtrReadsBack fmt m p w r u fields) ↔ w.length < 32 ∧ m.ar.swapped = false :=
  ⟨fun hall => short_of_ptrReadsBack fmt h hm hw hr u hf (hall 0),
    fun hc => ptrReadsBack_of_short fmt h hm hw hr u hf hc.1 hc.2⟩

end Pointers

theorem ptr_readsBack_other : PtrReadsBack noFormats writing 5 [87, 105] [87] 0 [.int 7 0] :=
  (ptr_readsBack_iff noFormats (ready_fresh 0) rfl (by decide) (by decide) 0
    (by simp [LuaOp.Writable])).mpr ⟨by decide, rfl⟩ 5

/-- The shortest name without a block. -/
theorem ptr_long_name_misplaced : ¬ PtrReadsBack noFormats writing 0 (List.replicate 32 97)
    (List.replicate 32 97) 0 [.int 7 0] := by
  have hname : (0 : Byte) ∉ List.replicate 32 97 :=
    fun hmem => absurd (List.eq_of_mem_replicate hmem) (by decide)
  intro hback
  have hshort := short_of_ptrReadsBack noFormats (ready_fresh 0) rfl hname hname 0
    (by simp [LuaOp.Writable]) hback
  rw [List.length_replicate] at hshort
  omega

end EventServer.Lua
