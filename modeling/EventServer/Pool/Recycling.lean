import EventServer.Lua.Message
import EventServer.Lib.Transition

/-!
# What a recycled message still knows

`new` and `new_local` hand a message out after `ReleaseMemory()` and
`setMode(SM_WRITE)`. These reset the memory file and the mode; the byte order
and the members behind the archive stay as the last holder left them. A script
can tell a recycled message from a new one exactly when one of them is not as
the constructor set it.
-/
namespace EventServer.Pool

open EventServer.Lib.Blocks EventServer.Lib.CInt EventServer.Lib.ByteOrder
open EventServer.Lib.Transition EventServer.Stream EventServer.Archive EventServer.Lua

/-- `LuaMessage_Serial_new` and `LuaMessage_Serial_new_local`, from the message they take. -/
def handOut (m : Message) : Message :=
  let m := m.releaseMemory
  { m with ar := m.ar.setMode SerialMode.smWrite.toInt }

/-- What the calls push, one list for each; `none` as soon as one of them is undefined. -/
def outputs (fmt : Formats) (m : Message) (ops : List LuaOp) : Option (List (List LuaValue)) :=
  (run (Message.call fmt) m ops).map Prod.snd

/-- No sequence of calls tells the message, once handed out, from a new one. -/
def Indistinguishable (fmt : Formats) (m : Message) : Prop :=
  ∀ ops, outputs fmt (handOut m) ops = outputs fmt (handOut .fresh) ops

/-- Byte order and members as the constructor sets them. -/
structure Clean (m : Message) : Prop where
  swapped : m.ar.swapped = false
  members : m.members = .fresh

/-- A message of empty content in `SM_WRITE` mode. -/
def blank (swapped : Bool) (members : Members) : Message :=
  ⟨⟨.fresh, true, .smWrite, swapped⟩, members⟩

/-- The stream and the mode do not survive. -/
theorem handOut_eq (m : Message) : handOut m = blank m.ar.swapped m.members := rfl

theorem ready_blank (swapped : Bool) (members : Members) : (blank swapped members).ar.Ready :=
  ⟨rfl, CIMemFile.wf_fresh⟩

theorem outputs_cons (fmt : Formats) {m m' : Message} {op : LuaOp} {vs : List LuaValue}
    (h : m.call fmt op = some (m', vs)) (ops : List LuaOp) :
    outputs fmt m (op :: ops) = (outputs fmt m' ops).map (vs :: ·) := by
  rw [outputs, run, h, outputs]
  simp only [Option.bind_eq_bind, Option.bind_some]
  cases run (Message.call fmt) m' ops <;> rfl

theorem atEnd_blank (swapped : Bool) (members : Members) : (blank swapped members).ar.AtEnd :=
  (ready_blank swapped members).atEnd_of_empty CIMemFile.content_fresh

theorem call_write_blank (fmt : Formats) (swapped : Bool) (members : Members) (v : List Byte)
    (hv : v.length < 2 ^ 31) :
    ∃ ar, (blank swapped members).call fmt (.write v none) = some (⟨ar, members⟩, []) ∧
      ar.content = v ∧ ar.Ready ∧ ar.stream.curPos = v.length ∧ ar.swapped = swapped := by
  obtain ⟨ar, he, hw⟩ := CIArchive.streamWrite_spec (ready_blank swapped members) (v ++ [0])
    (n := v.length) (by simp)
  rw [List.take_left] at hw
  obtain ⟨hc, hend⟩ := hw.append (atEnd_blank swapped members)
  have hv' : ar.content = v := hc.trans (congrArg (· ++ v) CIMemFile.content_fresh)
  refine ⟨ar, ?_, hv', hw.ready, by rw [hend, hv'], hw.swapped⟩
  simp only [Message.call, Message.write, blank, Option.map_none, Option.getD_none,
    toInt32_of_lt hv]
  exact bind_eq_of_some he rfl

theorem outputs_byteOrder (fmt : Formats) (swapped : Bool) (members : Members) :
    outputs fmt (blank swapped members) [.write [1, 0, 0, 0] none, .setMode 1, .int 0 0] =
      some [[], [], [.number (if swapped then 16777216 else 1)]] := by
  obtain ⟨ar, he, hc, hr, -, hs⟩ := call_write_blank fmt swapped members [1, 0, 0, 0] (by decide)
  have hrem : (ar.setMode 1).remaining = [1, 0, 0, 0] ++ [] := by
    rw [CIArchive.remaining, CIArchive.curPos_setMode, CIArchive.content_setMode, hc]
    rfl
  obtain ⟨ar', hread, -⟩ := CIArchive.serialWord_read (w := 32) (CIArchive.ready_setMode hr.wf 1) rfl
    (by decide) (by decide) (ar.setMode 1).longSwapFn 0 rfl hrem
  have hint : (⟨ar.setMode 1, members⟩ : Message).call fmt (.int 0 0) = some (⟨ar', members⟩,
      [.number ((ar.setMode 1).longSwapFn (fromLe 32 [1, 0, 0, 0])).toInt]) :=
    bind_eq_of_some hread rfl
  have hvalue : ((ar.setMode 1).longSwapFn (fromLe 32 [1, 0, 0, 0])).toInt =
      if swapped then 16777216 else 1 := by
    rw [CIArchive.longSwapFn, CIArchive.swapped_setMode, hs]
    cases swapped <;> decide
  have hmode : (⟨ar, members⟩ : Message).call fmt (.setMode 1) =
      some (⟨ar.setMode 1, members⟩, []) := rfl
  rw [outputs_cons fmt he, outputs_cons fmt hmode, outputs_cons fmt hint, hvalue]
  rfl

/-- Behind one byte, a marked position other than the start leaves the cursor where it is. -/
theorem outputs_address (fmt : Formats) (swapped : Bool) (members : Members) (i : Fin 10) :
    outputs fmt (blank swapped members)
        [.write [0] none, .setIndexPos (BitVec.ofNat 32 i), .getMsgPos] =
      some [[], [], [.number (if members.arrAddress i = 0 then 0 else 1)]] := by
  obtain ⟨ar, he, hc, hr, hp, -⟩ := call_write_blank fmt swapped members [0] (by decide)
  obtain ⟨ar', hset, hm, -, hpos⟩ :=
    CIArchive.setPos_spec hr (toSizeT (members.arrAddress i).toInt)
  have hi : (BitVec.ofNat 32 i.val).toNat = i.val := by
    rw [BitVec.toNat_ofNat]
    omega
  have hindex : (⟨ar, members⟩ : Message).call fmt (.setIndexPos (BitVec.ofNat 32 i)) =
      some (⟨ar', members⟩, []) := by
    have hlt : (BitVec.ofNat 32 i.val).toNat < 10 := by omega
    have hfin : (⟨(BitVec.ofNat 32 i.val).toNat, hlt⟩ : Fin 10) = i := Fin.ext hi
    rw [Message.call, Message.setIndexPos, dif_pos hlt, hfin, Message.withArchive, hset]
    rfl
  have hcur : ar'.stream.curPos = if members.arrAddress i = 0 then 0 else 1 := by
    rw [hpos, hc, hp]
    by_cases h0 : members.arrAddress i = 0
    · rw [h0]
      rfl
    · have hne : (members.arrAddress i).toInt ≠ 0 := by
        intro h
        exact h0 (BitVec.eq_of_toInt_eq (by rw [h]; rfl))
      rw [if_neg h0]
      have hle := BitVec.le_toInt (members.arrAddress i)
      simp only [toSizeT, List.length_singleton]
      split_ifs <;> omega
  have hget : (⟨ar', members⟩ : Message).call fmt .getMsgPos = some (⟨ar', members⟩,
      [.number (if members.arrAddress i = 0 then 0 else 1)]) := by
    apply bind_eq_of_some (hm.ready.getPos)
    rw [hcur]
    split <;> rfl
  rw [outputs_cons fmt he, outputs_cons fmt hindex, outputs_cons fmt hget]
  rfl

theorem outputs_push (fmt : Formats) {m : Message} {op : LuaOp} {v : LuaValue}
    (h : m.call fmt op = m.push [v]) : outputs fmt m [op] = some [[v]] := by
  rw [outputs_cons fmt h]
  rfl

/-- Each of the surviving fields can be read. -/
theorem Indistinguishable.clean {fmt : Formats} {m : Message} (h : Indistinguishable fmt m) :
    Clean m := by
  have hpush : ∀ (op : LuaOp) {v w : LuaValue}, (handOut m).call fmt op = (handOut m).push [v] →
      (handOut .fresh).call fmt op = (handOut .fresh).push [w] → v = w := by
    intro op v w hv hw
    have ho := h [op]
    rw [outputs_push fmt hv, outputs_push fmt hw] at ho
    simpa using ho
  have hswapped : m.ar.swapped = false := by
    have ho := h [.write [1, 0, 0, 0] none, .setMode 1, .int 0 0]
    rw [handOut_eq, handOut_eq, outputs_byteOrder, outputs_byteOrder] at ho
    cases hs : m.ar.swapped with
    | false => rfl
    | true =>
      rw [hs] at ho
      exact absurd ho (by decide)
  have haddress : m.members.arrAddress = fun _ => 0 := by
    funext i
    have ho := h [.write [0] none, .setIndexPos (BitVec.ofNat 32 i), .getMsgPos]
    rw [handOut_eq, handOut_eq, outputs_address, outputs_address,
      if_pos (show Message.fresh.members.arrAddress i = 0 from rfl)] at ho
    by_contra hne
    rw [if_neg hne] at ho
    exact absurd ho (by decide)
  have hindex : LuaValue.number m.members.index = .number 0 := hpush .getIndex rfl rfl
  have hexe : LuaValue.number m.members.exeCnt.toNat = .number 0 :=
    hpush .getExecuteCount rfl rfl
  have hresult : LuaValue.usertype m.members.result = .usertype 0 := hpush .getResult rfl rfl
  have hdata : LuaValue.number m.members.data.toNat = .number 0 := hpush .getData rfl rfl
  have hsys : LuaValue.number m.members.sysData.toNat = .number 0 :=
    hpush .getSystemData rfl rfl
  have hzero : ∀ {w : Nat} {x : BitVec w}, LuaValue.number x.toNat = .number 0 → x = 0 := by
    intro w x hx
    exact BitVec.eq_of_toNat_eq (by simpa using hx)
  refine ⟨hswapped, Members.ext haddress ?_ (hzero hexe) (LuaValue.usertype.inj hresult)
    (hzero hdata) (hzero hsys)⟩
  exact Int.ofNat_eq_zero.mp (LuaValue.number.inj hindex)

/-- Whatever was done to a message before it was given back, no later sequence of calls tells it
from a new one exactly when the byte order, the marked positions and their count, the execution
count, the result and both data words are as the constructor sets them. -/
theorem recycled_indistinguishable_iff (fmt : Formats) (m : Message) :
    Indistinguishable fmt m ↔ Clean m := by
  constructor
  · exact Indistinguishable.clean
  · intro hm ops
    rw [handOut_eq, handOut_eq, hm.swapped, hm.members]
    rfl

/-- `setData(5)` before the message is given back is seen by its next holder. -/
theorem data_survives_recycling :
    let fmt : Formats := ⟨fun _ => [], fun _ => []⟩
    let m : Message := ⟨(handOut .fresh).ar, { Members.fresh with data := 5 }⟩
    run (Message.call fmt) (handOut .fresh) [.setData 5] = some (m, [[]]) ∧
      outputs fmt (handOut m) [.getData] = some [[.number 5]] ∧
      outputs fmt (handOut .fresh) [.getData] = some [[.number 0]] ∧
      ¬ Indistinguishable fmt m := by
  intro fmt m
  refine ⟨rfl, rfl, rfl, ?_⟩
  intro h
  exact absurd (congrArg Members.data h.clean.members) (by decide)

end EventServer.Pool
