import PlainBitnames.Node.Orderly
import PlainBitnames.Properties.ConnectedBodies

/-!
Blocks that were invalidated. As long as a block is not invalidated below a tip and no
invalidated header is stored again, invalidated blocks stay out of the archive, and the
reorg after a mainchain event finds all records of the best tip. An invalidation leaves
the tips as they are, and `submit_block` stores an invalidated header again.
-/

namespace PlainBitnames

open Fallible Lineage

section

variable [Primitives]

open Node

/-- Along operations that keep invalidated blocks out, no invalidated block is stored or
a tip, every tip is stored with its body and height, and the reorg to the best tip after
a mainchain event stops with no error of the archive. -/
theorem invalidated_stay_out (hcf : CollisionFree) {m : Mainchain} (hgenesis : m.OneGenesis)
    {node : Node} (h : Reaches m (Guarded .keepsOut) node) :
    (∀ b ∈ node.archive.invalidBlocks, b ∉ node.archive.headers ∧ b ∉ node.archive.bodies ∧
      b ∉ node.archive.sideTips.sidechainTips) ∧
      (∀ b ∈ node.archive.sideTips.sidechainTips, (∃ header, node.archive.getHeader b = .ok header) ∧
        (∃ body, node.archive.getBody b = .ok body) ∧
        ∃ height, node.archive.getHeight b = .ok height) ∧
      ∀ ctxt below best, node.rollBack (blockCount node.state + 1) = .ok below →
        below.archive.sideTips.bestSideTip = some best →
        Avoids IsArchiveError (below.reorgToTip ctxt best).2 := by
  have horderly := h.orderly hcf
  have hgrounded := horderly.settled.grounded
  refine ⟨fun b hb => ?_, fun b hb => ?_, fun ctxt below best hbelow hbest => ?_⟩
  · have hout := horderly.settled.out b hb
    exact ⟨hout, fun hbody => hout (horderly.settled.bodies b hbody),
      fun htip => hout (hgrounded b htip).header_mem⟩
  · have hmem := (hgrounded b hb).header_mem
    obtain ⟨body, hbody⟩ := (Db.mem_iff _ _).mp (hgrounded b hb).1
    exact ⟨Archive.exists_getHeader hmem, ⟨body, okOr_eq_ok.mpr hbody⟩,
      Archive.exists_getHeight horderly.stored.side hmem⟩
  · have hmeasured := (h.anchored hcf).measured
    have hfuel : State.heightAfter node.state.height ≤ blockCount node.state + 1 :=
      blockCount_eq node.state ▸ Nat.le_succ _
    exact (horderly.steps hcf (rollBack_steps hbelow)).reorgToTip_avoids hcf hgenesis
      (tipped_rollBack hcf hmeasured hfuel hbelow) hbest ctxt

end

namespace Instance

theorem lineMainchain_oneGenesis {commitments : List (Option Header)}
    (h : commitments.getD 1 none = none) : (lineMainchain commitments).OneGenesis := by
  have hfirst : ∀ {x}, (lineMainchain commitments).parent x = none → x = 1 := by
    intro x hx
    unfold Mainchain.parent at hx
    split at hx
    case isTrue hzeros =>
      have hzeros : x - 1 = 0 := hzeros
      bv_omega
    case isFalse => cases hx
  refine ⟨fun hx hy => (hfirst hx).trans (hfirst hy).symm, fun hx => ?_⟩
  cases hfirst hx
  exact congrArg (Option.map Header.hash) h

/-- A child of the genesis block that no mainchain block commits to. -/
def headerS : Header := minedHeader (some headerP0) 3

def strandMain : Mainchain := lineMainchain [none, none, some headerP0, some headerP1]

def strandOps : List NodeOp :=
  [connectMain strandMain 1, connectMain strandMain 2, connectMain strandMain 3] ++
    storeEmpty headerP0 ++ storeEmpty headerP1 ++ [.header headerS]

def strandNode : Node := Node.new.run strandOps

theorem strandNode_reaches : strandNode.Reaches strandMain (Node.Guarded .keepsOut) := by
  have hreported : ∀ op ∈ strandOps, op.Reported strandMain := by decide +kernel
  refine .run .new hreported ⟨trivial, trivial, trivial, .inr ?_, trivial, .inr ?_, trivial, .inr ?_,
    trivial⟩
  · change headerP0.hash ∉ Archive.invalidBlocks _
    decide +kernel
  · change headerP1.hash ∉ Archive.invalidBlocks _
    decide +kernel
  · change headerS.hash ∉ Archive.invalidBlocks _
    decide +kernel

theorem strand_noTipFrom : strandNode.archive.NoTipFrom headerS.hash := by
  have hside := (strandNode_reaches.stored collisionFree).side
  have hanswers : ∀ c ∈ strandNode.archive.sideTips.sidechainTips.keys,
      strandNode.archive.isDescendant headerS.hash c = .ok false ∧ c ∈ strandNode.archive.headers := by
    decide +kernel
  have hstrand : headerS.hash ∈ strandNode.archive.headers := by decide +kernel
  intro c hc hdescends
  obtain ⟨hanswer, hmem⟩ := hanswers c (Std.ExtTreeMap.mem_keys.mpr hc)
  obtain ⟨answer, hanswer', hiff⟩ := Index.isDescendant_eq_ok hside.describes
    (hside.height_of_mem hstrand) (hside.height_of_mem hmem)
  cases hanswer.symm.trans hanswer'
  cases hiff.mpr hdescends

def prunedNode : Node := (strandNode.exec (.invalidate headerS.hash)).1

theorem invalidated_stay_out_pruned :
    prunedNode.Reaches strandMain (Node.Guarded .keepsOut) ∧
      headerS.hash ∈ prunedNode.archive.invalidBlocks ∧
      headerS.hash ∉ prunedNode.archive.headers ∧
      prunedNode.rollBack (Node.blockCount prunedNode.state + 1) = .ok prunedNode ∧
      prunedNode.archive.sideTips.bestSideTip = some ⟨headerP1.hash, 3⟩ ∧
      Avoids Node.IsArchiveError (prunedNode.reorgToTip 0 ⟨headerP1.hash, 3⟩).2 := by
  have hreach : prunedNode.Reaches strandMain (Node.Guarded .keepsOut) :=
    .exec strandNode_reaches trivial strand_noTipFrom
  have hinvalid : headerS.hash ∈ prunedNode.archive.invalidBlocks := by decide +kernel
  have hroll : prunedNode.rollBack (Node.blockCount prunedNode.state + 1) = .ok prunedNode := by
    decide +kernel
  have hbest : prunedNode.archive.sideTips.bestSideTip = some ⟨headerP1.hash, 3⟩ := by
    decide +kernel
  obtain ⟨hout, -, hreorg⟩ := invalidated_stay_out collisionFree
    (lineMainchain_oneGenesis rfl) hreach
  exact ⟨hreach, hinvalid, (hout _ hinvalid).1, hroll, hbest, hreorg 0 _ _ hroll hbest⟩

def staleNode : Node := (strandNode.exec (.invalidate headerP1.hash)).1

/-- A tip that is invalidated stays a tip without a header, and the reorg to it after a
mainchain event fails. -/
theorem invalidated_tip_stays :
    staleNode.Reaches strandMain (fun _ _ => True) ∧
      headerP1.hash ∈ staleNode.archive.invalidBlocks ∧
      headerP1.hash ∈ staleNode.archive.sideTips.sidechainTips ∧
      staleNode.rollBack (Node.blockCount staleNode.state + 1) = .ok staleNode ∧
      staleNode.archive.sideTips.bestSideTip = some ⟨headerP1.hash, 3⟩ ∧
      (staleNode.reorgToTip 0 ⟨headerP1.hash, 3⟩).2 =
        .error (.error (.archive (.noHeader headerP1.hash))) := by
  have hreach : strandNode.Reaches strandMain fun _ _ => True :=
    strandNode_reaches.mono fun _ _ _ => trivial
  exact ⟨.exec hreach trivial trivial, by decide +kernel, by decide +kernel, by decide +kernel,
    by decide +kernel, by decide +kernel⟩

end Instance

end PlainBitnames
