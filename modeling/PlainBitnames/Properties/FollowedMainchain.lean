import PlainBitnames.Node.Orderly
import PlainBitnames.Properties.Templates

/-!
The state and the active mainchain. When the mainchain task has handled an event, the net task
rolls the state back to a tip of the archive and reorgs to the best tip. A tip that is recorded
with a mainchain block stays a tip when that block is disconnected, and the state is not rolled
back from it. As long as no such block is disconnected, every tip is verified on the active
mainchain, and the state follows it.
-/

namespace PlainBitnames

open Fallible Lineage

section

variable [Primitives] {m : Mainchain}

namespace Archive

variable {a a' : Archive} {b : BlockHash}

/-- A block is verified at the recorded mainchain tip or at an ancestor of it. -/
def VerifiedActive (m : Mainchain) (a : Archive) (b : BlockHash) : Prop :=
  ∃ mainHash, UpTo m.parent a.mainTip mainHash ∧ a.Verified b mainHash

theorem VerifiedActive.mono (htip : a'.mainTip = a.mainTip)
    (hverified : ∀ {mainHash}, a.Verified b mainHash → a'.Verified b mainHash)
    (h : a.VerifiedActive m b) : a'.VerifiedActive m b := by
  obtain ⟨mainHash, hup, hb⟩ := h
  exact ⟨mainHash, htip ▸ hup, hverified hb⟩

theorem VerifiedActive.ancestor (hstored : Stored m a) (h : a.VerifiedActive m b) {c : BlockHash}
    (hdescends : Descends a.sideParent c b) : a.VerifiedActive m c := by
  obtain ⟨mainHash, hup, hb⟩ := h
  obtain ⟨earlier, hearlier, hc⟩ := hstored.verified_ancestor hb hdescends
  exact ⟨earlier, .trans hearlier hup, hc⟩

theorem TipsStored.verifiedActive (h : TipsStored m a) {info : SidechainTipInfo}
    (hb : a.sideTips.orderedSidechainTips[info]? = some b) : a.VerifiedActive m b :=
  ⟨info.mainBlockHash, h.active hb, h.verified (h.ordered hb)⟩

end Archive

namespace Node

variable {node node' : Node}

/-- The tip of the state is verified on the active mainchain. -/
def Follows (m : Mainchain) (node : Node) : Prop :=
  ∀ b, node.state.tip = some b → node.archive.VerifiedActive m b

theorem Follows.below (hstored : Archive.Stored m node.archive) (h : Follows m node)
    (hbelow : Below node node') : Follows m node' := by
  intro b hb
  rw [hbelow.archive]
  obtain ⟨tip, htip, hdescends⟩ := hbelow.active b ⟨b, hb, .refl b⟩
  exact (h tip htip).ancestor hstored hdescends

theorem Follows.abortReorg {b : BlockHash} {body : Body} {err : Failure NodeError}
    (h : Follows m node) : Follows m (node.abortReorg b body err).1 := by
  unfold Node.abortReorg
  split
  case isTrue => exact h
  case isFalse =>
    cases hdelete : node.archive.deleteBody b body with
    | error => exact h
    | ok archive =>
      obtain ⟨sideTips, rfl, htip⟩ := Archive.deleteBody_tips hdelete
      intro c hc
      obtain ⟨mainHash, hup, hverified⟩ := h c hc
      refine ⟨mainHash, ?_, hverified⟩
      change UpTo m.parent (sideTips.mainchainTip.tipInfo.map BlockHeaderInfo.blockHash) mainHash
      rw [htip]
      exact hup

/-- A node to which blocks are connected that are verified on the active mainchain. -/
structure Following (m : Mainchain)
    (blocks : List (Header × Body × List (MainBlockHash × MainBlockInfo))) (node : Node) : Prop where
  stored : Archive.Stored m node.archive
  ready : Ready node.archive blocks
  verified : ∀ block ∈ blocks, node.archive.VerifiedActive m block.1.hash
  follows : Follows m node

theorem Following.connectTip (hcf : CollisionFree) {ctxt : BatchVerificationContext}
    {blocks : List (Header × Body × List (MainBlockHash × MainBlockInfo))}
    {block : Header × Body × List (MainBlockHash × MainBlockInfo)} (h : Following m blocks node)
    (hblock : block ∈ blocks)
    (hconnect : node.connectTip ctxt block.1 block.2.1 (.ofInfos block.2.2) = .ok node') :
    Following m blocks node' := by
  obtain ⟨hheader, hinfos⟩ := h.ready block hblock
  have hstep : Step m .any node node' := .connect hheader hinfos hconnect
  obtain ⟨hstored, hsteps⟩ := h.stored.calls hcf hstep.archive_calls
  have hkeeps {b : BlockHash} (hb : node.archive.VerifiedActive m b) :
      node'.archive.VerifiedActive m b :=
    hb.mono (by rw [Archive.mainTip, connectTip_mainchainTip hconnect]; rfl)
      (h.stored.verified_steps hcf hsteps)
  refine ⟨hstored, h.ready.connectTip hheader hconnect,
    fun block hblock => hkeeps (h.verified block hblock), fun b hb => ?_⟩
  obtain ⟨_, _, happly, hstate, -, -⟩ := connectTip_ok hconnect
  cases (State.connect_tip happly hstate).1.symm.trans hb
  exact hkeeps (h.verified block hblock)

/-- A reorg to a block that is verified on the active mainchain connects such blocks only, also
if it is aborted. -/
theorem Follows.reorgToTip (hcf : CollisionFree) (hstored : Archive.Stored m node.archive)
    (h : Follows m node) {newTip : Tip} (hnew : node.archive.VerifiedActive m newTip.blockHash)
    (ctxt : BatchVerificationContext) : Follows m (node.reorgToTip ctxt newTip).1 := by
  refine reorgToTip_invariant (Q := fun reorg pending => Following m reorg.blocks pending) ?_
    (fun h => h.follows) (fun _ _ _ _ h => h.abortReorg) h
  intro reorg common header blocks batch hp
  obtain ⟨n, hn⟩ := hp.disconnected
  have hbelow := below_disconnectTips hcf hstored.side hn
  refine ⟨⟨hbelow.archive ▸ hstored, hp.ready hstored.side, fun block hblock => ?_,
    h.below hstored hbelow⟩, fun block hblock pending next h => h.connectTip hcf hblock⟩
  rw [hbelow.archive]
  exact hnew.ancestor hstored (hp.blocks_spec hstored.side block hblock).2.1

end Node

/-- In every run in which mainchain blocks are disconnected only when no tip is recorded with
them, the tip of the state is verified on the active mainchain whenever the net task has handled
a mainchain event with success. -/
theorem handleMainchainBlockEvent_follows (hcf : CollisionFree) {node : Node}
    (hreach : node.Reaches m (Node.Guarded .noTips)) (ctxt : BatchVerificationContext)
    (hok : (node.handleMainchainBlockEvent ctxt).2 = .ok ()) :
    (node.handleMainchainBlockEvent ctxt).1.Follows m := by
  have hstored := hreach.stored hcf
  obtain ⟨htips, hranked⟩ := Archive.Ranked.calls hcf (fun _ _ h => h) (.new m) (.new m) .new
    (hreach.calls hcf)
  have hmeasured := (hreach.anchored hcf).measured
  unfold Node.handleMainchainBlockEvent at hok ⊢
  cases hroll : node.rollBack (Node.blockCount node.state + 1) with
  | error err =>
    rw [hroll] at hok
    cases hok
  | ok below =>
    have hbelow := Node.below_rollBack hcf hstored.side hroll
    have htipped := Node.tipped_rollBack hcf hmeasured
      (by rw [Node.blockCount_eq]; exact Nat.le_succ _) hroll
    have hfollows : below.Follows m := by
      intro b hb
      have hmem := htipped b hb
      rw [hbelow.archive] at hmem ⊢
      obtain ⟨info, hinfo⟩ := (Db.mem_iff _ _).mp hmem
      exact htips.verifiedActive (hranked hinfo)
    dsimp only
    cases hbest : below.archive.sideTips.bestSideTip with
    | none => exact hfollows
    | some best =>
      dsimp only
      rw [Node.ignoreInvalid_fst]
      have harchive := hbelow.archive
      refine hfollows.reorgToTip hcf (harchive ▸ hstored) ?_ ctxt
      obtain ⟨⟨info, b⟩, hlast, rfl⟩ := Option.map_eq_some_iff.mp hbest
      rw [harchive] at hlast ⊢
      exact htips.verifiedActive (Db.get_of_last hlast)

end

namespace Instance

/-- The mainchain block that commits to the tip of the state is disconnected. -/
def retreatOps : List NodeOp := branchOps ++ [.mainchainEvent (.disconnectBlock 3)]

def retreatNode : Node := Node.new.run retreatOps

def retreatedNode : Node := (retreatNode.exec (.mainchainBlockEvent 0)).1

/-- The state keeps a tip that only a disconnected mainchain block verifies. -/
theorem state_left_behind :
    retreatNode.Reaches branchMain (fun _ _ => True) ∧
      (retreatNode.exec (.mainchainBlockEvent 0)).2 = .ok () ∧
      retreatedNode.state.tip = some headerM.hash ∧ retreatedNode.archive.mainTip = some 2 ∧
      ¬ retreatedNode.Follows branchMain := by
  have hreported : ∀ op ∈ retreatOps, op.Reported branchMain := by decide +kernel
  have hreach : retreatNode.Reaches branchMain fun _ _ => True :=
    .run .new hreported (Node.permits_true .new retreatOps)
  have hreach' : retreatedNode.Reaches branchMain fun _ _ => True :=
    .exec hreach trivial trivial
  have htip : retreatedNode.state.tip = some headerM.hash := by decide +kernel
  have hmain : retreatedNode.archive.mainTip = some 2 := by decide +kernel
  refine ⟨hreach, by decide +kernel, htip, hmain, fun hfollows => ?_⟩
  have hstored := hreach'.stored collisionFree
  obtain ⟨mainHash, hup, hverified⟩ := hfollows _ htip
  have hthird : mainHash = 3 := by
    have hcommit := hstored.bmm.commit hverified
    by_contra hne
    cases (if_neg hne : (branchMain.info mainHash).bmmCommitment = none).symm.trans hcommit
  rw [hthird, hmain, upTo_some] at hup
  have hdescendant := (hstored.main.isMainDescendant_eq_true (by decide +kernel)
    (by decide +kernel)).mpr hup
  exact absurd hdescendant (by decide +kernel)

theorem handleMainchainBlockEvent_follows_branch :
    branchNode.Reaches branchMain (Node.Guarded .noTips) ∧
      (branchNode.handleMainchainBlockEvent 0).2 = .ok () ∧
      (branchNode.handleMainchainBlockEvent 0).1.Follows branchMain := by
  have hreported : ∀ op ∈ branchOps, op.Reported branchMain := by decide +kernel
  have hreach : branchNode.Reaches branchMain (Node.Guarded .noTips) := by
    refine .run .new hreported (Node.permits_of ?_ _)
    simp [branchOps, storeEmpty, connectMain, Node.Guarded, Guard.Allows, Guard.noTips, Guard.any]
  have hok : (branchNode.handleMainchainBlockEvent 0).2 = .ok () := by decide +kernel
  exact ⟨hreach, hok, handleMainchainBlockEvent_follows collisionFree hreach 0 hok⟩

end Instance

end PlainBitnames
