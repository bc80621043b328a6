import PlainBitnames.Properties.Segments

/-!
Disconnecting a mainchain block after it was connected. The block that it commits
to leaves the order of the tips, but stays a tip, and has to be one already for
the disconnect to succeed.
-/

namespace PlainBitnames

open Fallible Lineage

section

variable [Primitives]

/-- The two tables of the tips are mutually inverse. -/
def SideTips.MutuallyInverse (tips : SideTips) : Prop :=
  ∀ (b : BlockHash) (info : SidechainTipInfo),
    tips.sidechainTips[b]? = some info ↔ tips.orderedSidechainTips[info]? = some b

namespace SideTips

variable {tips : SideTips} {info : BlockHeaderInfo}

/-- The recorded mainchain tip is below a block that was connected on top of it. -/
theorem prevTip_connected (hprev : info.prevBlockHash = tips.mainchainTip.blockHash)
    (hheight : checkTipHeight tips.mainchainTip info.height = .ok ())
    (hne : ∀ tipInfo, tips.mainchainTip.tipInfo = some tipInfo → tipInfo.blockHash ≠ .allZeros) :
    prevTip info tips.mainchainTip.tipInfo = .ok tips.mainchainTip.tipInfo := by
  rw [MainchainTip.blockHash] at hprev
  rw [checkTipHeight] at hheight
  cases htip : tips.mainchainTip.tipInfo with
  | none =>
    rw [htip] at hprev
    exact ensure_bind_eq_ok.mpr ⟨hprev, rfl⟩
  | some tipInfo =>
    rw [htip] at hprev hheight
    obtain ⟨hbound, hheight⟩ := ensure_bind_eq_ok.mp hheight
    have hheight := ensure_eq_ok.mp hheight
    have hzeros : info.prevBlockHash ≠ .allZeros := hprev ▸ hne tipInfo htip
    refine ensure_bind_eq_ok.mpr ⟨hprev.symm, ensure_bind_eq_ok.mpr ⟨hbound,
      ensure_bind_eq_ok.mpr ⟨hheight.symm, ?_⟩⟩⟩
    rw [if_pos hzeros]

end SideTips

namespace Archive

variable {m : Mainchain} {a a' : Archive} {info : BlockHeaderInfo} {blockInfo : MainBlockInfo}

/-- A mainchain block is connected with the tips as they were, or with the block that
it commits to as a new one. -/
theorem connectMainchainTip_tips (hconnect : a.connectMainchainTip info blockInfo.bmmCommitment = .ok a') :
    info.prevBlockHash = a.sideTips.mainchainTip.blockHash ∧
      SideTips.checkTipHeight a.sideTips.mainchainTip info.height = .ok () ∧ ∃ connected,
      a' = { a with sideTips := { connected with
        mainchainTip := ⟨a.sideTips.mainchainTip.cumulativeWork + info.work, some info⟩ } } ∧
      (connected = a.sideTips ∨ ∃ b tipInfo, blockInfo.bmmCommitment = some b ∧
        b ∉ a.sideTips.sidechainTips ∧ connected = (a.withTip b tipInfo).sideTips) := by
  obtain ⟨commitment, hcommitment, hconnect⟩ := bind_eq_ok.mp hconnect
  obtain ⟨sideTips, hsideTips, hconnect⟩ := bind_eq_ok.mp hconnect
  cases hconnect
  obtain ⟨hprev, hheight, connected, hconnected, rfl⟩ := SideTips.connectMainchainTip_ok hsideTips
  refine ⟨hprev, hheight, connected, rfl, ?_⟩
  rcases tipCommitment_cases hcommitment with ⟨rfl, -⟩ | ⟨b, header, hb, rfl, -⟩
  · exact .inl (Except.ok.inj hconnected).symm
  · rcases SideTips.connectSidechainTip_ok hconnected with ⟨-, rfl⟩ | ⟨hnot, height, -, rfl⟩
    · exact .inl rfl
    · exact .inr ⟨b, _, hb, hnot, rfl⟩

/-- No tip is recorded with a child of the recorded mainchain tip. -/
theorem TipsStored.mainBlockHash_ne (hstored : Stored m a) (h : TipsStored m a) (hranked : a.Ranked)
    (hheader : a.mainHeaderInfos[info.blockHash]? = some info)
    (hprev : info.prevBlockHash = a.sideTips.mainchainTip.blockHash) {b : BlockHash}
    {tipInfo : SidechainTipInfo} (hb : a.sideTips.sidechainTips[b]? = some tipInfo) :
    tipInfo.mainBlockHash ≠ info.blockHash := by
  intro heq
  have hactive := h.active (hranked hb)
  rw [heq, ← h.mainTip_eq hstored hheader hprev] at hactive
  exact hstored.main.describes.rooted.not_upTo_parent
    (hstored.main.height_of_mem (Db.mem_of_get hheader)) hactive

theorem TipsStored.mainParentHeaderInfo_eq (hstored : Stored m a) (h : TipsStored m a)
    (hprev : info.prevBlockHash = a.sideTips.mainchainTip.blockHash) :
    a.mainParentHeaderInfo info = .ok a.sideTips.mainchainTip.tipInfo := by
  rw [MainchainTip.blockHash] at hprev
  cases htip : a.sideTips.mainchainTip.tipInfo with
  | none =>
    rw [htip] at hprev
    rw [mainParentHeaderInfo, if_pos hprev]
  | some tipInfo =>
    rw [htip] at hprev
    have hget := h.tip htip
    have hne : info.prevBlockHash ≠ .allZeros :=
      hprev ▸ hstored.main.ne_zeros (Db.mem_of_get hget)
    rw [mainParentHeaderInfo, if_neg hne, getMainHeaderInfo, hprev, hget, okOr_some, ok_bind]

/-- Disconnecting a block that was connected to the recorded mainchain tip gives the
mainchain tip back. -/
theorem TipsStored.disconnect_connected (hstored : Stored m a) (h : TipsStored m a)
    (hheader : a.mainHeaderInfos[info.blockHash]? = some info)
    (hinfo : a.mainBlockInfos[info.blockHash]? = some blockInfo)
    (hprev : info.prevBlockHash = a.sideTips.mainchainTip.blockHash)
    (hheight : SideTips.checkTipHeight a.sideTips.mainchainTip info.height = .ok ())
    {tips : SideTips} (htip : tips.mainchainTip =
      ⟨a.sideTips.mainchainTip.cumulativeWork + info.work, some info⟩) {a'' : Archive} :
    { a with sideTips := tips }.handleBlockEvent (.disconnectBlock info.blockHash) = .ok a'' ↔
      ∃ disconnected,
        tips.disconnectCommitment info.blockHash blockInfo.bmmCommitment = .ok disconnected ∧
        a'' = { a with sideTips := { disconnected with
          mainchainTip := a.sideTips.mainchainTip } } := by
  have hparent : { a with sideTips := tips }.mainParentHeaderInfo info =
      .ok a.sideTips.mainchainTip.tipInfo := h.mainParentHeaderInfo_eq hstored hprev
  have hbelow := SideTips.prevTip_connected hprev hheight fun tipInfo hinfo =>
    hstored.main.ne_zeros (Db.mem_of_get (h.tip hinfo))
  have hunchanged : ∀ {disconnected},
      tips.disconnectCommitment info.blockHash blockInfo.bmmCommitment = .ok disconnected →
      disconnected.mainchainTip = tips.mainchainTip := by
    intro disconnected hdisconnected
    rcases SideTips.disconnectCommitment_ok hdisconnected with ⟨rfl, -⟩ | ⟨_, _, -, -, -, rfl⟩ <;> rfl
  rw [handleBlockEvent, getMainHeaderInfo, hheader, okOr_some, ok_bind, getMainBlockInfo, hinfo,
    okOr_some, ok_bind, hparent, ok_bind, SideTips.disconnectMainchainTip, htip, okOr_some, ok_bind,
    hbelow, ok_bind]
  cases hcommitment : tips.disconnectCommitment info.blockHash blockInfo.bmmCommitment with
  | error err => exact ⟨nofun, nofun⟩
  | ok disconnected =>
    rw [ok_bind, hunchanged hcommitment, htip, ensure_of (Nat.le_add_left _ _), ok_bind, ok_bind,
      Nat.add_sub_cancel]
    constructor
    · rintro ⟨⟩
      exact ⟨disconnected, rfl, rfl⟩
    · rintro ⟨_, hd, rfl⟩
      cases hd
      rfl

/-- Connecting a mainchain block and disconnecting it again restores the tips exactly
when the block that it commits to is a tip already. -/
theorem TipsStored.undo_iff (hstored : Stored m a) (h : TipsStored m a) (hranked : a.Ranked)
    (hheader : a.mainHeaderInfos[info.blockHash]? = some info)
    (hinfo : a.mainBlockInfos[info.blockHash]? = some blockInfo)
    (hconnect : a.connectMainchainTip info blockInfo.bmmCommitment = .ok a') :
    (∃ a'', a'.handleBlockEvent (.disconnectBlock info.blockHash) = .ok a'' ∧
        a''.sideTips = a.sideTips) ↔
      ∀ b, blockInfo.bmmCommitment = some b → b ∈ a.sideTips.sidechainTips := by
  obtain ⟨hprev, hheight, connected, rfl, hconnected⟩ := connectMainchainTip_tips hconnect
  constructor
  · rintro ⟨a'', hdisconnect, hrestored⟩ b hb
    obtain ⟨disconnected, hdisconnected, rfl⟩ :=
      (h.disconnect_connected hstored hheader hinfo hprev hheight rfl).mp hdisconnect
    have htips : disconnected.sidechainTips = a.sideTips.sidechainTips := by
      have htables := congrArg SideTips.sidechainTips hrestored
      exact htables
    -- the commitment is looked up in the tips, which the disconnect leaves alone
    rw [← htips]
    rcases SideTips.disconnectCommitment_ok hdisconnected with
      ⟨rfl, hother⟩ | ⟨c, tipInfo, hc, htip, -, rfl⟩
    · obtain ⟨tipInfo, htip, -⟩ := hother b hb
      exact Db.mem_of_get htip
    · cases hc.symm.trans hb
      exact Db.mem_of_get htip
  · intro htips
    have hsame : connected = a.sideTips := by
      rcases hconnected with rfl | ⟨b, tipInfo, hb, hnot, rfl⟩
      · rfl
      · exact absurd (htips b hb) hnot
    subst hsame
    refine ⟨a, (h.disconnect_connected hstored hheader hinfo hprev hheight rfl).mpr
      ⟨{ a.sideTips with
        mainchainTip := ⟨a.sideTips.mainchainTip.cumulativeWork + info.work, some info⟩ },
        ?_, rfl⟩, rfl⟩
    cases hcommitment : blockInfo.bmmCommitment with
    | none => rfl
    | some b =>
      obtain ⟨tipInfo, htip⟩ := (Db.mem_iff _ _).mp (htips b hcommitment)
      have hne := h.mainBlockHash_ne hstored hranked hheader hprev htip
      rw [SideTips.disconnectCommitment]
      dsimp only
      rw [htip, okOr_some, ok_bind, if_neg hne]

end Archive

/-- In every run in which mainchain blocks are disconnected only when no tip is
recorded with them, the tables of the tips are mutually inverse, and connecting and
disconnecting a mainchain block restores the tips exactly when the block that it
commits to is a tip already. -/
theorem sideTips_undo (hcf : CollisionFree) {m : Mainchain} {node : Node}
    (hreach : node.Reaches m (Node.Guarded .noTips)) :
    node.archive.sideTips.MutuallyInverse ∧
      ∀ headerInfo blockInfo a', MainchainEvent.Reported m (.connectBlock headerInfo blockInfo) →
        node.archive.handleBlockEvent (.connectBlock headerInfo blockInfo) = .ok a' →
        ((∃ a'', a'.handleBlockEvent (.disconnectBlock headerInfo.blockHash) = .ok a'' ∧
            a''.sideTips = node.archive.sideTips) ↔
          ∀ b, blockInfo.bmmCommitment = some b → b ∈ node.archive.sideTips.sidechainTips) := by
  have hguard : ∀ a hash, Guard.noTips.disconnects a hash → a.NoTipAtMainTip := fun _ _ h => h
  obtain ⟨htips, hranked⟩ := Archive.Ranked.calls hcf hguard (.new m) (.new m) .new
    (hreach.calls hcf)
  refine ⟨fun b info => ⟨fun h => hranked h, htips.ordered⟩, ?_⟩
  intro headerInfo blockInfo a' hreported hconnect
  obtain ⟨stored, hput, hconnect⟩ := Archive.connectBlock_ok hconnect
  obtain ⟨hheader, hinfo, hsame⟩ := Archive.putAncestorInfo_get hput
  have hcalls : node.archive.Calls m .noTips stored := .single (.ancestorInfo hreported hput)
  have hnode := hreach.stored hcf
  obtain ⟨htips', hranked'⟩ := Archive.Ranked.calls hcf hguard hnode htips hranked hcalls
  rw [← hsame]
  exact htips'.undo_iff (hnode.calls hcf hcalls).1 hranked' hheader hinfo hconnect

end

namespace Instance

/-- The last block of the mainchain, whose commitment is a tip, is disconnected. -/
def undoneOps : List NodeOp := lineOps ++ [.mainchainEvent (.disconnectBlock 3)]

def undoneNode : Node := Node.new.run undoneOps

/-- A mainchain block commits to a block that is not stored yet. -/
def earlyOps : List NodeOp := [connectMain lineMain 1]

def earlyNode : Node := Node.new.run earlyOps

def earlyArchive : Archive :=
  (earlyNode.archive.handleBlockEvent (.connectBlock (lineMain.header 2) (lineMain.info 2))).toOption.getD
    earlyNode.archive

/-- A tip stays after the mainchain block that it is recorded with is disconnected,
and a block that commits to no tip cannot be disconnected. -/
theorem disconnect_leaves_tip :
    undoneNode.Reaches lineMain (fun _ _ => True) ∧
      ¬ undoneNode.archive.sideTips.MutuallyInverse ∧
      earlyNode.Reaches lineMain (fun _ _ => True) ∧
      earlyNode.archive.handleBlockEvent (.connectBlock (lineMain.header 2) (lineMain.info 2)) =
        .ok earlyArchive ∧
      earlyArchive.handleBlockEvent (.disconnectBlock 2) =
        .error (.error (.missingSidechainTip headerG.hash)) := by
  have hundone : ∀ op ∈ undoneOps, op.Reported lineMain := by decide +kernel
  have hearly : ∀ op ∈ earlyOps, op.Reported lineMain := by decide +kernel
  have htip : undoneNode.archive.sideTips.sidechainTips[headerB1.hash]? = some ⟨1, 3, 3⟩ := by
    decide +kernel
  have hnone : undoneNode.archive.sideTips.orderedSidechainTips[(⟨1, 3, 3⟩ : SidechainTipInfo)]? =
      none := by
    decide +kernel
  refine ⟨.run .new hundone (Node.permits_true .new undoneOps), fun hinverse => ?_,
    .run .new hearly (Node.permits_true .new earlyOps), ?_, ?_⟩
  · cases hnone.symm.trans ((hinverse _ _).mp htip)
  · rw [earlyArchive]
    exact eq_ok_getD _ (by decide +kernel)
  · decide +kernel

theorem lineNode_reaches : lineNode.Reaches lineMain (Node.Guarded .noTips) := by
  have hreported : ∀ op ∈ lineOps, op.Reported lineMain := by decide +kernel
  refine .run .new hreported (Node.permits_of ?_ _)
  simp [lineOps, storeEmpty, connectMain, Node.Guarded, Guard.Allows, Guard.noTips, Guard.any]

def lineNext : Archive :=
  (lineNode.archive.handleBlockEvent (.connectBlock (lineMain.header 4) (lineMain.info 4))).toOption.getD
    lineNode.archive

theorem sideTips_undo_line :
    lineNode.archive.sideTips.MutuallyInverse ∧
      ∃ a'', lineNext.handleBlockEvent (.disconnectBlock 4) = .ok a'' ∧
        a''.sideTips = lineNode.archive.sideTips := by
  obtain ⟨hinverse, hundo⟩ := sideTips_undo collisionFree lineNode_reaches
  have hconnect : lineNode.archive.handleBlockEvent
      (.connectBlock (lineMain.header 4) (lineMain.info 4)) = .ok lineNext := by
    rw [lineNext]
    exact eq_ok_getD _ (by decide +kernel)
  have hnone : (lineMain.info 4).bmmCommitment = none := by decide +kernel
  refine ⟨hinverse, (hundo _ _ _ (by decide +kernel) hconnect).mpr fun b hb => ?_⟩
  cases hnone.symm.trans hb

end Instance

end PlainBitnames
