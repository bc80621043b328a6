import PlainBitnames.Node.Run

/-!
What a reorg that is ready to connect blocks has found: the common ancestor of
the two chains, and the batch of mainchain blocks after the one that it builds
on.
-/

namespace PlainBitnames

open Fallible Lineage

variable [Primitives]

namespace Node

open MainBlockHash Archive

variable {m : Mainchain} {node : Node} {newTip : Tip} {reorg : Reorg} {common : Option BlockHash}
  {header : Header} {blocks : List (Header × Body)} {batch : List (MainBlockHash × MainBlockInfo)}

/-- The common ancestor is the last block that is in both chains. -/
theorem Prepared.upTo_common (h : SideStored node.archive)
    (hp : Prepared node newTip reorg common header blocks batch) (b : BlockHash) :
    UpTo node.archive.sideParent common b ↔ UpTo node.archive.sideParent node.state.tip b ∧
      Descends node.archive.sideParent b newTip.blockHash := by
  have hcurrent := hp.currentTip
  have hcommon := hp.common_eq
  unfold Node.currentTip at hcurrent
  split at hcurrent
  case h_1 htip =>
    rw [← Except.ok.inj hcurrent] at hcommon
    cases hcommon
    rw [htip]
    exact ⟨fun hup => absurd hup (not_upTo_none b), fun hup => absurd hup.1 (not_upTo_none b)⟩
  case h_2 tipHash htip =>
    obtain ⟨mainHash, -, hcurrent⟩ := bind_eq_ok.mp hcurrent
    rw [← Except.ok.inj hcurrent] at hcommon
    have hcommon : node.archive.lastCommonAncestor tipHash newTip.blockHash = .ok common := hcommon
    rw [htip, upTo_some]
    have hheight : ∃ k, node.archive.blockHashToHeight[tipHash]? = some k := by
      obtain ⟨_, hlevel, -⟩ := bind_eq_ok.mp hcommon
      obtain ⟨k, hk, -⟩ := bind_eq_ok.mp hlevel
      exact ⟨k, okOr_eq_ok.mp hk⟩
    obtain ⟨common', hcommon', hsome, hnone⟩ := Index.lastCommon?_eq_ok h.describes hheight
      (h.height_of_mem (Db.mem_of_get hp.header_eq))
    obtain rfl := Except.ok.inj (hcommon.symm.trans hcommon')
    cases common with
    | none => exact ⟨fun hup => absurd hup (not_upTo_none b), fun hb => absurd hb (hnone rfl b)⟩
    | some c => rw [upTo_some, hsome c rfl b]

theorem Prepared.prevMain_mem (hp : Prepared node newTip reorg common header blocks batch)
    (hne : header.prevMainHash ≠ .allZeros) :
    header.prevMainHash ∈ node.archive.mainHeaderInfos := by
  obtain ⟨stop, infos, -, hinfos, -⟩ := twoWayPegDataBatch_ok hp.batch_eq
  unfold mainLineageLength mainInfosUntil at hinfos
  rw [if_neg hne] at hinfos
  obtain ⟨headerInfo, hheaderInfo, -⟩ := bind_eq_ok.mp hinfos
  exact Db.mem_of_get (okOr_eq_ok.mp hheaderInfo)

end Node

end PlainBitnames
