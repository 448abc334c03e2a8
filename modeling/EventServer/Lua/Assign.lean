import EventServer.Archive.Bounds
import EventServer.Lua.Message

/-!
# Taking over the content of another message

`operator=` and a framed receive both rewind the target and write the new bytes
through the stream, which never gets shorter by writing.
-/
namespace EventServer.Lua

open EventServer.Lib.Blocks EventServer.Lib.CInt
open EventServer.Stream EventServer.Archive EventServer.Archive.CIArchive

/-- `CLXZMessage::operator=`. -/
def Message.assign (m other : Message) : Option Message := do
  let blk ← other.ar.stream.fastBuf.buf
  let (_, ar) ← (m.ar.setMode SerialMode.smWrite.toInt).serialBuf blk other.ar.getMsgSize
  return ⟨ar.setMode other.ar.getMode, { m.members with data := other.members.data }⟩

/-- Size and bytes are those of the other message. -/
def Replaced (msg other : CLXZMessage) : Prop :=
  msg.getMsgSize = other.getMsgSize ∧ msg.content = other.content

def Message.AssignReplaces (m other : Message) : Prop :=
  ∃ m', m.assign other = some m' ∧ Replaced m'.ar other.ar

/-- The source writes its frame into the archive, the target reads it from there. -/
def ReceiveReplaces (u v : Nat → Byte) (ar : CIArchive) (target source : CLXZMessage) : Prop :=
  ∃ ar₁ r target' ar₂, serialMsg u source ar = some (source, ar₁) ∧
    ar₁.readFrom ar.stream.curPos = some r ∧ serialMsg v target r = some (target', ar₂) ∧
    Replaced target' source

/-- Written over the front, the new bytes are all there is exactly when they reach the old end. -/
theorem replaced_iff {msg target source : CLXZMessage} (hmsg : msg.stream.Wf)
    (hsource : source.stream.Wf) (hc : msg.content = splice target.content 0 source.content) :
    Replaced msg source ↔ target.content.length ≤ source.content.length := by
  constructor
  · intro hrep
    obtain ⟨-, hsame⟩ := hrep
    have hlen := congrArg List.length (hc.symm.trans hsame)
    rw [splice_length (Nat.zero_le _)] at hlen
    omega
  · intro hle
    have hsame : msg.content = source.content := by
      rw [hc]
      simp [splice, List.drop_eq_nil_of_le hle]
    refine ⟨?_, hsame⟩
    rw [getMsgSize, getMsgSize, CIMemFile.getValidCount, CIMemFile.getValidCount,
      ← hmsg.content_length, ← hsource.content_length]
    exact congrArg (fun bytes => toInt32 bytes.length) hsame

theorem assign_spec {m other : Message} (hm : m.ar.Ready) (ho : other.ar.stream.Wf)
    (hlt : other.ar.content.length < maxMsgLen) :
    ∃ m', m.assign other = some m' ∧ m'.ar.stream.Wf ∧
      m'.ar.content = splice m.ar.content 0 other.ar.content := by
  obtain ⟨blk, hblk, hle, htake⟩ := buf_of_wf ho
  obtain ⟨ar, he, hw⟩ := streamWrite_spec (ready_setMode hm.wf 0) blk hle
  have hser : (m.ar.setMode 0).serialBuf blk other.ar.getMsgSize = some (blk, ar) := by
    rw [getMsgSize_of_short ho hlt, serialBuf]
    exact bind_eq_of_some he rfl
  refine ⟨_, bind_eq_of_some hblk (bind_eq_of_some hser rfl), (ready_setMode hw.ready.wf _).wf, ?_⟩
  rw [content_setMode, hw.content, content_setMode, curPos_setMode, htake]

theorem receive_spec (u v : Nat → Byte) {ar : CIArchive} (h : ar.Ready) (hm : ar.mode = .smWrite)
    {target source : CLXZMessage} (hk : ar.KeepsLength source.content.length) (ht : target.Ready)
    (hsource : source.stream.Wf) (hlt : source.content.length < maxMsgLen) :
    ∃ ar₁ r target' ar₂, serialMsg u source ar = some (source, ar₁) ∧
      ar₁.readFrom ar.stream.curPos = some r ∧ serialMsg v target r = some (target', ar₂) ∧
      Received target source.content target' := by
  obtain ⟨ar₁, he₁, hw₁⟩ := serialMsg_write u hsource hlt h hm
  obtain ⟨r, hr, hready, hmode, hswap, -, hrem⟩ := hw₁.readFrom h
  obtain ⟨target', ar₂, he₂, -, hrec⟩ :=
    serialMsg_read v ht hready hmode (hk.congr hswap) hlt hrem
  exact ⟨ar₁, r, target', ar₂, he₁, hr, he₂, hrec⟩

theorem assignReplaces_iff {m other : Message} (hm : m.ar.Ready) (ho : other.ar.stream.Wf)
    (hlt : other.ar.content.length < maxMsgLen) :
    m.AssignReplaces other ↔ m.ar.content.length ≤ other.ar.content.length := by
  obtain ⟨m', he, hwf, hc⟩ := assign_spec hm ho hlt
  rw [← replaced_iff hwf ho hc]
  refine ⟨?_, fun hrep => ⟨m', he, hrep⟩⟩
  intro hrep
  obtain ⟨m'', he', hrep⟩ := hrep
  obtain rfl : m' = m'' := Option.some.inj (he.symm.trans he')
  exact hrep

theorem receiveReplaces_iff (u v : Nat → Byte) {ar : CIArchive} (h : ar.Ready)
    (hm : ar.mode = .smWrite) {target source : CLXZMessage}
    (hk : ar.KeepsLength source.content.length) (ht : target.Ready) (hsource : source.stream.Wf)
    (hlt : source.content.length < maxMsgLen) :
    ReceiveReplaces u v ar target source ↔ target.content.length ≤ source.content.length := by
  obtain ⟨ar₁, r, target', ar₂, he₁, hr, he₂, hrec⟩ := receive_spec u v h hm hk ht hsource hlt
  rw [← replaced_iff hrec.ready.wf hsource hrec.content]
  refine ⟨?_, fun hrep => ⟨ar₁, r, target', ar₂, he₁, hr, he₂, hrep⟩⟩
  intro hrep
  obtain ⟨ar₁', r', target'', ar₂', he₁', hr', he₂', hrep⟩ := hrep
  obtain rfl : ar₁ = ar₁' := (Prod.mk.inj (Option.some.inj (he₁.symm.trans he₁'))).2
  obtain rfl : r = r' := Option.some.inj (hr.symm.trans hr')
  obtain rfl : target' = target'' := (Prod.mk.inj (Option.some.inj (he₂.symm.trans he₂'))).1
  exact hrep

/-- The old content is gone exactly when the new one is at least as long. -/
theorem replaces_iff {m other : Message} (hm : m.ar.Ready) (ho : other.ar.stream.Wf)
    (hlt : other.ar.content.length < maxMsgLen) :
    (m.AssignReplaces other ↔ m.ar.content.length ≤ other.ar.content.length) ∧
      ∀ (u v : Nat → Byte) (ar : CIArchive), ar.Ready → ar.mode = .smWrite →
        ar.KeepsLength other.ar.content.length →
        (ReceiveReplaces u v ar m.ar other.ar ↔
          m.ar.content.length ≤ other.ar.content.length) := by
  refine ⟨assignReplaces_iff hm ho hlt, ?_⟩
  intro u v ar h hmode hk
  exact receiveReplaces_iff u v h hmode hk hm ho hlt

/-- The byte 7 is replaced by the bytes 1 and 2. -/
theorem replaces_one_by_two :
    (⟨holdsSeven, .fresh⟩ : Message).AssignReplaces ⟨holding [1, 2], .fresh⟩ ∧
      ReceiveReplaces (fun _ => 0) (fun _ => 0) (CIArchive.fresh.setMode 0) holdsSeven
        (holding [1, 2]) := by
  have hready : holdsSeven.Ready := ⟨rfl, wf_holdsSeven⟩
  have hlength : (holding [1, 2]).content.length = 2 := by rw [content_holding]; rfl
  have hlt : (holding [1, 2]).content.length < maxMsgLen := by rw [hlength]; decide
  have hle : holdsSeven.content.length ≤ (holding [1, 2]).content.length := by
    rw [hlength]
    decide
  obtain ⟨hassign, hreceive⟩ := @replaces_iff ⟨holdsSeven, .fresh⟩ ⟨holding [1, 2], .fresh⟩ hready
    (ready_holding [1, 2]).wf hlt
  exact ⟨hassign.mpr hle,
    (hreceive (fun _ => 0) (fun _ => 0) _ (ready_fresh 0) rfl (keepsLength_default rfl _)).mpr hle⟩

/-- Taking over an empty message leaves the byte that was there. -/
theorem empty_leaves_old :
    ¬ (⟨holdsSeven, .fresh⟩ : Message).AssignReplaces .fresh ∧
      ¬ ReceiveReplaces (fun _ => 0) (fun _ => 0) (CIArchive.fresh.setMode 0) holdsSeven
        .fresh := by
  have hready : holdsSeven.Ready := ⟨rfl, wf_holdsSeven⟩
  constructor
  · rw [assignReplaces_iff hready CIMemFile.wf_fresh (by decide)]
    decide
  · rw [receiveReplaces_iff _ _ (ready_fresh 0) rfl (keepsLength_default rfl _) hready
      CIMemFile.wf_fresh (by decide)]
    decide

end EventServer.Lua
