import PlainBitnames.Archive.TipSet
import PlainBitnames.Properties.SideTipUndo

/-!
The tips do not depend on the order in which headers, bodies and mainchain blocks
arrive: they are the blocks with a body that are verified up to the recorded
mainchain tip and whose parents are tips.
-/

namespace PlainBitnames

open Fallible Lineage

section

variable [Primitives]

/-- A header or a body is stored, or a mainchain block is stored or connected. -/
def NodeOp.arrives : NodeOp → Bool
  | .header _ | .body _ _ | .ancestorInfo _ _ | .syncMainchainTip _ => true
  | .mainchainEvent (.connectBlock _ _) => true
  | .mainchainEvent (.disconnectBlock _) => false
  | .mainchainBlockEvent _ | .reorg _ _ | .invalidate _ => false

namespace Archive

variable {m : Mainchain} {a a' : Archive}

theorem Tracked.putAncestorInfo (hcf : CollisionFree) (h : Tracked m a)
    {headerInfo : BlockHeaderInfo} {blockInfo : MainBlockInfo}
    (hreported : MainchainEvent.Reported m (.connectBlock headerInfo blockInfo))
    (hput : a.putAncestorInfo headerInfo blockInfo = .ok a') : Tracked m a' := by
  obtain ⟨hheader, hne, hinfo⟩ := hreported
  obtain ⟨stored, hputHeader, hputInfo⟩ := bind_eq_ok.mp hput
  have hheaderOp : (ArchiveOp.mainHeaderInfo headerInfo).Reported m := ⟨hheader, hne⟩
  have hinfoOp : (ArchiveOp.mainBlockInfo headerInfo.blockHash blockInfo).Reported m := hinfo
  exact (h.op hcf hheaderOp hputHeader).op hcf hinfoOp hputInfo

/-- Only one mainchain block up to the recorded tip verifies a block. -/
theorem Stored.verified_main_unique (h : Stored m a) {header : Header} {tip : Option MainBlockHash}
    {mainHash mainHash' : MainBlockHash} (hup : UpTo m.parent tip mainHash)
    (hup' : UpTo m.parent tip mainHash') (hverified : a.Verified header.hash mainHash)
    (hverified' : a.Verified header.hash mainHash') : mainHash = mainHash' := by
  have hsibling : m.parent mainHash = m.parent mainHash' := by
    rw [Mainchain.parent, Mainchain.parent, (h.bmm.sound hverified).2.1,
      (h.bmm.sound hverified').2.1]
  have hbefore : ∀ {x y}, a.Verified header.hash y → m.parent x = m.parent y →
      Descends m.parent y x → x = y := by
    intro x y hy hparent hdescends
    rcases descends_iff_upTo_parent.mp hdescends with heq | hdescends
    · exact heq.symm
    · rw [hparent] at hdescends
      exact absurd hdescends (h.main.describes.rooted.not_upTo_parent
        (h.main.height_of_mem (h.bmm.main_mem h.main _ _ hy)))
  obtain ⟨t, rfl, hdescends⟩ := hup
  rcases hdescends.total (upTo_some.mp hup') with hle | hle
  · exact (hbefore hverified hsibling.symm hle).symm
  · exact hbefore hverified' hsibling hle

end Archive

theorem Node.tracked_withArchive {m : Mainchain} {node : Node} (h : node.archive.Tracked m)
    {result : ArchiveResult Archive}
    (hresult : ∀ archive, result = .ok archive → archive.Tracked m) :
    (node.withArchive result).1.archive.Tracked m := by
  cases result with
  | error => exact h
  | ok archive => exact hresult archive rfl

theorem Node.Reaches.tracked (hcf : CollisionFree) {m : Mainchain} {node : Node}
    (h : node.Reaches m fun _ op => op.arrives = true) : node.archive.Tracked m := by
  induction h with
  | new => exact .new m
  | @exec node op _ hop hallowed ih =>
    cases op with
    | header header =>
      refine Node.tracked_withArchive ih fun archive hput => ?_
      have hop : (ArchiveOp.header header).Reported m := trivial
      exact ih.op hcf hop hput
    | body blockHash body =>
      exact Node.tracked_withArchive ih fun archive hput => ih.putBody hcf hput
    | ancestorInfo headerInfo blockInfo =>
      exact Node.tracked_withArchive ih fun archive hput => ih.putAncestorInfo hcf hop hput
    | syncMainchainTip mainHash =>
      refine Node.tracked_withArchive ih fun archive hsync => ?_
      obtain ⟨headerInfo, hheader, hsync⟩ := bind_eq_ok.mp hsync
      obtain ⟨blockInfo, hinfo, hsync⟩ := bind_eq_ok.mp hsync
      have hget := okOr_eq_ok.mp hheader
      have hhash : headerInfo.blockHash = mainHash := by
        rw [ih.stored.main.header_eq hget, ih.stored.main.blockHash_eq (Db.mem_of_get hget)]
      exact ih.connectMainchainTip hcf (hhash ▸ hget) (okOr_eq_ok.mp hinfo) hsync
    | mainchainEvent event =>
      cases event with
      | disconnectBlock hash => cases hallowed
      | connectBlock headerInfo blockInfo =>
        refine Node.tracked_withArchive ih fun archive hhandle => ?_
        obtain ⟨stored, hput, hconnect⟩ := Archive.connectBlock_ok hhandle
        obtain ⟨hheader, hinfo, -⟩ := Archive.putAncestorInfo_get hput
        exact (ih.putAncestorInfo hcf hop hput).connectMainchainTip hcf hheader hinfo hconnect
    | mainchainBlockEvent ctxt => cases hallowed
    | reorg ctxt newTip => cases hallowed
    | invalidate blockHash => cases hallowed

/-- In whatever order headers, bodies and mainchain blocks arrive, the tips are the
blocks with a body that are verified up to the recorded mainchain tip and whose
parents are tips. Each is recorded with the mainchain block that verifies it, its
total work, and the height of the block. -/
theorem sidechainTips_arrival (hcf : CollisionFree) {m : Mainchain} {node : Node}
    (hreach : node.Reaches m fun _ op => op.arrives = true) :
    (∀ b, b ∈ node.archive.sideTips.sidechainTips ↔
      b ∈ node.archive.bodies ∧
      (∃ mainHash, UpTo m.parent node.archive.mainTip mainHash ∧
        node.archive.Verified b mainHash) ∧
      ∃ header : Header, node.archive.headers[b]? = some header ∧
        ∀ p, header.prevSideHash = some p → p ∈ node.archive.sideTips.sidechainTips) ∧
    ∀ (b : BlockHash) info, node.archive.sideTips.sidechainTips[b]? = some info →
      (∀ mainHash, UpTo m.parent node.archive.mainTip mainHash ∧ node.archive.Verified b mainHash ↔
        mainHash = info.mainBlockHash) ∧
      node.archive.totalWork[info.mainBlockHash]? = some info.work ∧
      node.archive.blockHashToHeight[b]? = some info.sidechainHeight := by
  have h := hreach.tracked hcf
  refine ⟨fun b => ⟨fun hb => ?_, ?_⟩, fun b info hb => ⟨fun mainHash => ⟨?_, ?_⟩, h.tips.work hb, ?_⟩⟩
  · obtain ⟨⟨hbody, hgrounded⟩, hverified⟩ := h.set.sound b hb
    exact ⟨hbody, hverified, hgrounded⟩
  · rintro ⟨hbody, hverified, hgrounded⟩
    exact (h.set.complete b ⟨hbody, hgrounded⟩ hverified).resolve_right List.not_mem_nil
  · rintro ⟨hup, hverified⟩
    obtain ⟨⟨-, header, hheader, -⟩, -⟩ := h.set.sound b (Db.mem_of_get hb)
    have hinfo := h.tips.verified hb
    rw [← h.stored.side.hash_eq hheader] at hverified hinfo
    exact h.stored.verified_main_unique hup (h.tips.active (h.ranked hb)) hverified hinfo
  · rintro rfl
    exact ⟨h.tips.active (h.ranked hb), h.tips.verified hb⟩
  · obtain ⟨⟨-, header, hheader, -⟩, -⟩ := h.set.sound b (Db.mem_of_get hb)
    obtain ⟨k, hk⟩ := h.stored.side.height_of_mem (Db.mem_of_get hheader)
    rw [← (h.stored.side.heightOf hk).unique hcf (h.tips.height hb)]
    exact hk

end

namespace Instance

theorem sidechainTips_arrival_line :
    (∀ b, b ∈ lineNode.archive.sideTips.sidechainTips ↔
      b ∈ lineNode.archive.bodies ∧
      (∃ mainHash, UpTo lineMain.parent lineNode.archive.mainTip mainHash ∧
        lineNode.archive.Verified b mainHash) ∧
      ∃ header : Header, lineNode.archive.headers[b]? = some header ∧
        ∀ p, header.prevSideHash = some p → p ∈ lineNode.archive.sideTips.sidechainTips) ∧
      headerB1.hash ∈ lineNode.archive.sideTips.sidechainTips := by
  have hreported : ∀ op ∈ lineOps, op.Reported lineMain := by decide +kernel
  have harrives : ∀ op ∈ lineOps, op.arrives = true := by decide +kernel
  have hreach : lineNode.Reaches lineMain fun _ op => op.arrives = true :=
    .run .new hreported (Node.permits_of (fun op hop _ => harrives op hop) _)
  exact ⟨(sidechainTips_arrival collisionFree hreach).1, by decide +kernel⟩

end Instance

end PlainBitnames
