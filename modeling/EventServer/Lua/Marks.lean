import EventServer.Lua.Strings

/-!
# Marked positions

`PushAddress` records the cursor in a table of ten entries, and `setIndexPos`
goes back to an entry, so that a script can fill in a length it did not know
when it wrote the fields behind it. The entries are of `int`, the positions of
`size_t`.
-/
namespace EventServer.Lua

open EventServer.Lib.Blocks EventServer.Lib.CInt EventServer.Lib.Transition
open EventServer.Stream EventServer.Archive EventServer.Archive.CIArchive EventServer.WebSocket

/-- The calls that write, with arguments that can be written. -/
def LuaOp.Writes : LuaOp → Prop
  | .setWebSocketFrame _ s => 0 ≤ toInt32 s.length
  | op => op.Writable

/-- The calls that a message is built with. -/
def LuaOp.Builds : LuaOp → Prop
  | .pushAddress | .resetAddress | .setMsgPos _ | .setIndexPos _ => True
  | op => op.Writes

/-- Where `PushAddress` was called since the last `ResetAddress`. -/
def pushes (m : Message) (op : LuaOp) (ps : List Nat) : List Nat :=
  match op with
  | .pushAddress => ps ++ [m.ar.stream.curPos]
  | .resetAddress => []
  | _ => ps

/-- `bytes` are what the message holds from `p` on; the other bytes and the members are as they
were. -/
structure Patched (m : Message) (p : Nat) (bytes : List Byte) (m' : Message) : Prop where
  content : ∀ j, m'.ar.content[j]? =
    if p ≤ j ∧ j < p + bytes.length then bytes[j - p]? else m.ar.content[j]?
  members : m'.members = m.members

/-- `setIndexPos(i)` goes to `p` and changes nothing, and what is written there patches the
message. -/
def MarkedAt (fmt : Formats) (m : Message) (i p : Nat) : Prop :=
  ∃ m₁, m.call fmt (.setIndexPos (BitVec.ofNat 32 i)) = some (m₁, []) ∧
    m₁.ar.stream.curPos = p ∧ m₁.ar.content = m.ar.content ∧ m₁.members = m.members ∧
    (∀ v : List Byte, v.length < 2 ^ 31 →
      ∃ m₂, m₁.call fmt (.write v none) = some (m₂, []) ∧ Patched m p v m₂) ∧
    ∀ op : LuaOp, op.Writes →
      ∃ m₂ out bytes, m₁.call fmt op = some (m₂, out) ∧ Patched m p bytes m₂

/-- The entries of the table are the first ten positions, which an `int` can hold. -/
structure Marked (m : Message) (ps : List Nat) : Prop where
  ready : m.ar.Ready
  mode : m.ar.mode = .smWrite
  index : m.members.index = min 10 ps.length
  entry : ∀ i : Fin 10, ∀ p, ps[i.val]? = some p →
    m.members.arrAddress i = BitVec.ofNat 32 p ∧ p < 2 ^ 31 ∧ p ≤ m.ar.content.length

/-- A position is recorded only where an `int` can hold it. -/
def RecordsInt (m : Message) (op : LuaOp) : Prop :=
  op = .pushAddress → m.members.index < 10 → m.ar.stream.curPos < 2 ^ 31

/-! ## Single calls -/

theorem appends_frame {m : Message} (h : m.ar.Ready) (hm : m.ar.mode = .smWrite) (frameType : Byte)
    {s : List Byte} (hs : 0 ≤ toInt32 s.length) : Appends m (m.setWebSocketFrame frameType s) := by
  obtain ⟨n, hn⟩ := Int.eq_ofNat_of_zero_le hs
  have hle := toInt32_le s.length
  have hroom : n ≤ (s ++ [0]).length := by
    rw [List.length_append]
    omega
  obtain ⟨ar₁, he₁, hw₁⟩ := serialBytes_write (frameType :: lengthBytes n) h hm
  obtain ⟨ar₂, he₂, hw₂⟩ := streamWrite_spec hw₁.ready (s ++ [0]) hroom
  have hwrite : ar₁.write (s ++ [0]) n = some ar₂ := by
    simp only [CIArchive.write, hw₁.mode.trans hm]
    exact he₂
  have hframe : WebSocket.setWebSocketFrame m.ar frameType (s ++ [0]) n =
      some (ar₂.getMsgSize, ar₂) := bind_eq_of_some he₁ (bind_eq_of_some hwrite rfl)
  refine ⟨ar₂, [], _, ?_, hw₁.trans h hw₂⟩
  rw [Message.setWebSocketFrame, hn, hframe]
  rfl

theorem call_writes (fmt : Formats) {m : Message} (h : m.ar.Ready) (hm : m.ar.mode = .smWrite)
    {op : LuaOp} (hop : op.Writes) : Appends m (m.call fmt op) := by
  cases op with
  | setWebSocketFrame frameType s => exact appends_frame h hm frameType hop
  | _ => exact call_appends fmt h hm hop

theorem write_raw {m : Message} (h : m.ar.Ready) (hm : m.ar.mode = .smWrite) {v : List Byte}
    (hv : v.length < 2 ^ 31) :
    ∃ ar, m.write v none = some ({ m with ar }, []) ∧ Wrote m.ar v ar := by
  obtain ⟨ar, he, hw⟩ := streamWrite_spec h (v ++ [0]) (n := v.length) (by simp)
  rw [List.take_left] at hw
  refine ⟨ar, ?_, hw⟩
  simp only [Message.write, Message.withArchive, CIArchive.write, hm, Option.map_none,
    Option.getD_none, toInt32_of_lt hv]
  exact bind_eq_of_some he rfl

theorem patched_of_wrote {m r : Message} (hready : r.ar.Ready)
    (hc : r.ar.content = m.ar.content) (hmem : r.members = m.members) {bytes : List Byte}
    {ar : CIArchive} (hw : Wrote r.ar bytes ar) :
    Patched m r.ar.stream.curPos bytes { r with ar } := by
  refine ⟨fun j => ?_, hmem⟩
  have hpos := hready.pos_le
  rw [hw.content, getElem?_splice hpos, hc]
  by_cases hlow : j < r.ar.stream.curPos
  · rw [if_pos hlow, if_neg (by omega)]
  · rw [if_neg hlow]
    exact if_congr (by omega) rfl rfl

/-! ## The table -/

/-- A message that is at least as long still has the positions. -/
theorem Marked.withArchive {m : Message} {ps : List Nat} (h : Marked m ps) {ar : CIArchive}
    (hr : ar.Ready) (hmode : ar.mode = m.ar.mode)
    (hlen : m.ar.content.length ≤ ar.content.length) : Marked { m with ar } ps := by
  refine ⟨hr, hmode.trans h.mode, h.index, fun i p hp => ?_⟩
  obtain ⟨hentry, hint, hle⟩ := h.entry i p hp
  exact ⟨hentry, hint, hle.trans hlen⟩

theorem Marked.setPos {m : Message} {ps : List Nat} (h : Marked m ps) (pos : Nat) :
    ∃ m' out, m.withArchive (m.ar.setPos pos) = some (m', out) ∧ Marked m' ps := by
  obtain ⟨ar, he, hmv, -⟩ := setPos_spec h.ready pos
  refine ⟨{ m with ar }, [], by rw [he]; rfl, h.withArchive hmv.ready hmv.mode ?_⟩
  rw [hmv.content]

theorem pushAddress_spec {m : Message} (h : m.ar.Ready) (hm : m.ar.mode = .smWrite)
    (hroom : m.members.index < 10) :
    ∃ members, m.pushAddress = some ({ m with members }, []) ∧
      members.index = m.members.index + 1 ∧
      ∀ i, members.arrAddress i =
        if i.val = m.members.index then BitVec.ofNat 32 m.ar.stream.curPos
        else m.members.arrAddress i := by
  refine ⟨{ m.members with
    arrAddress := Function.update m.members.arrAddress ⟨m.members.index, hroom⟩
      (BitVec.ofNat 32 m.ar.stream.curPos)
    index := m.members.index + 1 }, ?_, rfl, fun i => ?_⟩
  · simp [Message.pushAddress, hroom, hm, h.getPos]
  · simp only [Function.update_apply, Fin.ext_iff]

theorem Marked.pushAddress {m : Message} {ps : List Nat} (h : Marked m ps)
    (hint : m.members.index < 10 → m.ar.stream.curPos < 2 ^ 31) :
    ∃ m' out, m.pushAddress = some (m', out) ∧ Marked m' (ps ++ [m.ar.stream.curPos]) := by
  have hindex := h.index
  have hlen : (ps ++ [m.ar.stream.curPos]).length = ps.length + 1 := List.length_append
  by_cases hroom : m.members.index < 10
  · obtain ⟨members, he, hnext, hentry⟩ := pushAddress_spec h.ready h.mode hroom
    refine ⟨{ m with members }, [], he, h.ready, h.mode, hnext.trans (by omega), fun i p hp => ?_⟩
    rw [hentry]
    rcases Nat.lt_or_ge i.val ps.length with hi | hi
    · rw [List.getElem?_append_left hi] at hp
      rw [if_neg (by omega)]
      exact h.entry i p hp
    · have hi' := (List.getElem?_eq_some_iff.mp hp).1
      have hlast : i.val = ps.length := by omega
      rw [hlast, List.getElem?_concat_length, Option.some.injEq] at hp
      rw [if_pos (by omega), ← hp]
      exact ⟨rfl, hint hroom, h.ready.pos_le⟩
  · refine ⟨m, [], by simp [Message.pushAddress, hroom], h.ready, h.mode, by omega, fun i p hp => ?_⟩
    rw [List.getElem?_append_left (by omega)] at hp
    exact h.entry i p hp

theorem Marked.setIndexPos {m : Message} {ps : List Nat} (h : Marked m ps) (index : BitVec 32) :
    ∃ m' out, m.setIndexPos index = some (m', out) ∧ Marked m' ps := by
  unfold Message.setIndexPos
  split
  · exact h.setPos _
  · exact ⟨m, [], rfl, h⟩

/-- What one call of a run keeps. -/
theorem marked_step (fmt : Formats) {m : Message} {ps : List Nat} {op : LuaOp} (hop : op.Builds)
    (hint : RecordsInt m op) (h : Marked m ps) :
    ∃ m' out, m.call fmt op = some (m', out) ∧ Marked m' (pushes m op ps) := by
  have hwrites : op.Writes → ∃ m' out, m.call fmt op = some (m', out) ∧ Marked m' ps := by
    intro hw
    obtain ⟨ar, out, bytes, he, hwrote⟩ := call_writes fmt h.ready h.mode hw
    refine ⟨{ m with ar }, out, he, h.withArchive hwrote.ready hwrote.mode ?_⟩
    rw [hwrote.content, splice_length h.ready.pos_le]
    exact Nat.le_max_left _ _
  cases op with
  | pushAddress => exact h.pushAddress (hint rfl)
  | resetAddress => exact ⟨_, _, rfl, h.ready, h.mode, rfl, fun i p hp => by simp [pushes] at hp⟩
  | setMsgPos pos => exact h.setPos pos.toNat
  | setIndexPos index => exact h.setIndexPos index
  | _ => exact hwrites hop

/-- `setIndexPos` goes back to what the table holds, and a write there stays there. -/
theorem Marked.markedAt (fmt : Formats) {m : Message} {ps : List Nat} (h : Marked m ps) {i p : Nat}
    (hi : i < m.members.index) (hp : ps[i]? = some p) : MarkedAt fmt m i p := by
  have hten : i < 10 := by
    have hindex := h.index
    omega
  obtain ⟨hentry, hlt, hle⟩ := h.entry ⟨i, hten⟩ p hp
  obtain ⟨ar, he, hmv, -, hpos⟩ := setPos_spec h.ready p
  rw [if_pos hle] at hpos
  have hcall : m.call fmt (.setIndexPos (BitVec.ofNat 32 i)) = some ({ m with ar }, []) := by
    have hval : (BitVec.ofNat 32 i).toNat = i := Field.toNat_len (by omega)
    simp only [Message.call, Message.setIndexPos, hval, hten, ↓reduceDIte, hentry,
      Field.toInt_len hlt, toSizeT_natCast, he]
    rfl
  refine ⟨{ m with ar }, hcall, hpos, hmv.content, rfl, ?_, ?_⟩
  · intro v hv
    obtain ⟨ar₂, hwrite, hw⟩ := write_raw (m := { m with ar }) hmv.ready (hmv.mode.trans h.mode) hv
    refine ⟨_, hwrite, ?_⟩
    rw [← hpos]
    exact patched_of_wrote (r := { m with ar }) hmv.ready hmv.content rfl hw
  · intro op hop
    obtain ⟨ar₂, out, bytes, hwrite, hw⟩ :=
      call_writes fmt (m := { m with ar }) hmv.ready (hmv.mode.trans h.mode) hop
    refine ⟨_, out, bytes, hwrite, ?_⟩
    rw [← hpos]
    exact patched_of_wrote (r := { m with ar }) hmv.ready hmv.content rfl hw

/-- In a run that records no position beyond the range of `int`, every mark leads back to where it
was set, the first ten being kept, and what is written there changes nothing else. -/
theorem marks_patch (fmt : Formats) {m : Message} (h : m.ar.Ready) (hm : m.ar.mode = .smWrite)
    (hindex : m.members.index = 0) {ops : List LuaOp} (hops : ∀ op ∈ ops, op.Builds)
    (hint : Along (Message.call fmt) RecordsInt m ops) :
    ∃ m' ps outs, run (withGhost (Message.call fmt) pushes) (m, []) ops = some ((m', ps), outs) ∧
      run (Message.call fmt) m ops = some (m', outs) ∧
      m'.members.index = min 10 ps.length ∧
      ∀ i p, i < m'.members.index → ps[i]? = some p → MarkedAt fmt m' i p := by
  have hstart : Marked m [] := ⟨h, hm, hindex, fun i p hp => by simp at hp⟩
  obtain ⟨m', ps, outs, hghost, hrun, hmarked⟩ :=
    run_withGhost (fun m ps op => marked_step fmt) hops hint hstart
  exact ⟨m', ps, outs, hghost, hrun, hmarked.index, fun i p hi hp => hmarked.markedAt fmt hi hp⟩

/-- A length is filled in behind a mark. -/
theorem marks_patch_length :
    ∃ m' ps outs, run (withGhost (Message.call noFormats) pushes) (writing, [])
        [.pushAddress, .uint16 0 0, .write [7, 8, 9] none] = some ((m', ps), outs) ∧
      run (Message.call noFormats) writing [.pushAddress, .uint16 0 0, .write [7, 8, 9] none] =
        some (m', outs) ∧
      m'.members.index = min 10 ps.length ∧
      ∀ i p, i < m'.members.index → ps[i]? = some p → MarkedAt noFormats m' i p :=
  marks_patch noFormats (ready_fresh 0) rfl rfl
    (by simp [LuaOp.Builds, LuaOp.Writes, LuaOp.Writable, toInt32_of_lt])
    ⟨fun _ _ => by decide, fun _ _ _ => ⟨nofun, fun _ _ _ => ⟨nofun, fun _ _ _ => trivial⟩⟩⟩

/-- The first position that an `int` cannot hold. -/
theorem mark_beyond_int {v : List Byte} (hv : v.length + 1 = 2 ^ 31) :
    ∃ m' outs, run (withGhost (Message.call noFormats) pushes) (writing, [])
        [.write v none, .write [0] none, .pushAddress, .setMsgPos 0] = some ((m', [2 ^ 31]), outs) ∧
      m'.members.index = 1 ∧ ¬ MarkedAt noFormats m' 0 (2 ^ 31) := by
  obtain ⟨ar₁, he₁, hw₁⟩ := write_raw (m := writing) (v := v) (ready_fresh 0) rfl (by omega)
  obtain ⟨ar₂, he₂, hw₂⟩ := write_raw (m := ⟨ar₁, .fresh⟩) (v := [0]) hw₁.ready
    (hw₁.mode.trans rfl) (by simp)
  have hwrote := hw₁.trans (ready_fresh 0) hw₂
  have hend : ar₂.stream.curPos = 2 ^ 31 := by
    rw [hwrote.pos, List.length_append, List.length_singleton, hv]
    rfl
  have hlen : ar₂.content.length = 2 ^ 31 := by
    rw [← (hwrote.append (atEnd_fresh 0)).2, hend]
  obtain ⟨members, he₃, hindex, hentry⟩ := pushAddress_spec (m := ⟨ar₂, .fresh⟩)
    hwrote.ready (hwrote.mode.trans rfl) (show 0 < 10 by decide)
  obtain ⟨ar₃, he₄, hmv, -, hcur⟩ := setPos_spec hwrote.ready 0
  rw [if_pos (Nat.zero_le _)] at hcur
  refine ⟨⟨ar₃, members⟩, [[], [], [], []], ?_, hindex, ?_⟩
  · have hmove : (⟨ar₂, members⟩ : Message).call noFormats (.setMsgPos 0) =
        some (⟨ar₃, members⟩, []) := bind_eq_of_some he₄ rfl
    rw [← hend]
    exact run_of_step (withGhost_of_step he₁ []) (run_of_step (withGhost_of_step he₂ [])
      (run_of_step (withGhost_of_step he₃ []) (run_of_step (withGhost_of_step hmove _) rfl)))
  · intro hmarked
    obtain ⟨m₁, hcall, hpos, -⟩ := hmarked
    obtain ⟨ar₄, he₅, -, -, hstay⟩ := setPos_spec hmv.ready (2 ^ 64 - 2 ^ 31)
    rw [hmv.content, hlen, if_neg (by decide), hcur] at hstay
    have hback : (⟨ar₃, members⟩ : Message).call noFormats (.setIndexPos (BitVec.ofNat 32 0)) =
        some (⟨ar₄, members⟩, []) := by
      have hword : toSizeT (BitVec.ofNat 32 (2 ^ 31)).toInt = 2 ^ 64 - 2 ^ 31 := by decide
      have hfirst : members.arrAddress 0 = BitVec.ofNat 32 (2 ^ 31) := by
        rw [hentry, ← hend]
        rfl
      rw [← hword, ← hfirst] at he₅
      exact bind_eq_of_some he₅ rfl
    rw [hback, Option.some.injEq, Prod.mk.injEq] at hcall
    rw [← hcall.1] at hpos
    exact absurd (hstay.symm.trans hpos) (by decide)

/-- With two gigabytes in front of it, a mark is recorded and `setIndexPos` stays where it is. -/
theorem mark_lost_beyond_int :
    ∃ m' outs, run (withGhost (Message.call noFormats) pushes) (writing, [])
        [.write (List.replicate 2147483647 0) none, .write [0] none, .pushAddress, .setMsgPos 0] =
          some ((m', [2 ^ 31]), outs) ∧
      m'.members.index = 1 ∧ ¬ MarkedAt noFormats m' 0 (2 ^ 31) :=
  mark_beyond_int (by rw [List.length_replicate]; omega)

end EventServer.Lua
