import PlainBitnames.Node.Connected
import PlainBitnames.Properties.Templates

/-!
What a reorg leaves, whether it succeeds or fails at some block. It commits as soon
as it reaches a block that is better than the old tip, so it leaves either the old
state or the one of a better block on the chain to the new tip.
-/

namespace PlainBitnames

open Fallible Lineage

section

variable [Primitives]

/-- A block is better than the tip of a node, with the mainchain block given for the
new tip, or with its best verification in the archive that is committed. -/
def Node.Beats (node : Node) (newTip : Tip) (committed : Archive) (b : BlockHash) : Prop :=
  ∃ tip, node.currentTip = .ok tip ∧ ∀ old, tip = some old →
    b = newTip.blockHash ∧ node.archive.betterTip old newTip = .ok (some newTip) ∨
      ∃ mainHash, committed.getBestMainVerification b = .ok mainHash ∧
        committed.betterTip old ⟨b, mainHash⟩ = .ok (some ⟨b, mainHash⟩)

/-- A committed node whose tip is better than the old one: it is on the chain to the
new tip, and the state is the one after the chain up to it. -/
structure Node.Improves (node : Node) (newTip : Tip) (committed : Node) (b : BlockHash) : Prop where
  tip : committed.state.tip = some b
  chain : Descends node.archive.sideParent b newTip.blockHash
  beats : node.Beats newTip committed.archive b
  connected : ∃ blocks, committed.state.Connected (fun _ _ => True) blocks ∧
    ∀ c, c ∈ blocks.map (fun block => block.1.hash) ↔ Descends node.archive.sideParent c b

namespace Archive

theorem findAncestor_congr {β : Type} {a a' : Archive} (hheader : ∀ b, a'.getHeader b = a.getHeader b)
    (f : BlockHash → ArchiveResult (Option β)) (fuel : Nat) (b : Option BlockHash) :
    a'.findAncestor f fuel b = a.findAncestor f fuel b := by
  induction fuel generalizing b with
  | zero => cases b <;> rfl
  | succ fuel ih =>
    cases b with
    | none => rfl
    | some b =>
      unfold findAncestor
      rw [hheader]
      simp only [ih]

theorem betterTip_withTips (a : Archive) (bodies : Db BlockHash Body) (sideTips : SideTips)
    (txidToInclusions : Inclusions) (tip0 tip1 : Tip) :
    ({ a with bodies, sideTips, txidToInclusions } : Archive).betterTip tip0 tip1 = a.betterTip tip0 tip1 := by
  have hfind {β : Type} (f : BlockHash → ArchiveResult (Option β)) :
      ({ a with bodies, sideTips, txidToInclusions } : Archive).findAncestor f = a.findAncestor f := by
    funext fuel b
    refine findAncestor_congr ?_ f fuel b
    exact fun _ => rfl
  unfold betterTip betterByWork betterAncestor ancestorHeight
  simp only [hfind]
  rfl

end Archive

namespace Node

variable {m : Mainchain} {node committed : Node} {newTip : Tip}

theorem isBetter_eq_true {a : Archive} {tip : Option Tip} (h : isBetter a tip newTip = .ok true)
    {old : Tip} (htip : tip = some old) : a.betterTip old newTip = .ok (some newTip) := by
  rw [htip] at h
  obtain ⟨better, hbetter, h⟩ := bind_eq_ok.mp h
  rw [hbetter, of_decide_eq_true (Except.ok.inj h)]

variable {err : Failure NodeError}

theorem Beats.abortReorg {b c : BlockHash} {body : Body}
    (h : node.Beats newTip committed.archive b) :
    node.Beats newTip (committed.abortReorg c body err).1.archive b := by
  unfold Node.abortReorg
  split
  case isTrue => exact h
  case isFalse =>
    cases hdelete : committed.archive.deleteBody c body with
    | error => exact h
    | ok archive =>
      obtain ⟨sideTips, rfl, -⟩ := Archive.deleteBody_tips hdelete
      obtain ⟨tip, htip, h⟩ := h
      refine ⟨tip, htip, fun old hold => (h old hold).imp_right ?_⟩
      rintro ⟨mainHash, hmain, hbetter⟩
      refine ⟨mainHash, hmain, ?_⟩
      exact (Archive.betterTip_withTips committed.archive _ _ _ _ _).trans hbetter

theorem abortReorg_state {b : BlockHash} {body : Body} :
    (committed.abortReorg b body err).1.state = committed.state := by
  unfold abortReorg
  split
  case isTrue => rfl
  case isFalse => split <;> rfl

theorem improves_abortReorg {b : BlockHash} {body : Body}
    (h : committed.state = node.state ∨ ∃ c, node.Improves newTip committed c) :
    (committed.abortReorg b body err).1.state = node.state ∨
      ∃ c, node.Improves newTip (committed.abortReorg b body err).1 c := by
  rcases h with hsame | ⟨c, himproves⟩
  · exact .inl (abortReorg_state.trans hsame)
  · refine .inr ⟨c, ?_, himproves.chain, himproves.beats.abortReorg, ?_⟩
    · exact (congrArg State.tip abortReorg_state).trans himproves.tip
    · rw [abortReorg_state]
      exact himproves.connected

/-- Blocks of the chain to the new tip were connected. -/
def OnChain (node : Node) (newTip : Tip) (state : State) : Prop :=
  (∃ blocks, state.Connected (fun _ _ => True) blocks) ∧
    ∀ b, state.tip = some b → Descends node.archive.sideParent b newTip.blockHash

theorem OnChain.improves (hcf : CollisionFree) (hside : node.archive.SideStored)
    (hnew : newTip.blockHash ∈ node.archive.headers) {b : BlockHash}
    (h : OnChain node newTip committed.state) (htip : committed.state.tip = some b)
    (hbeats : node.Beats newTip committed.archive b) : node.Improves newTip committed b := by
  obtain ⟨⟨blocks, hblocks⟩, hchain⟩ := h
  refine ⟨htip, hchain b htip, hbeats, blocks, hblocks, fun c => ?_⟩
  have hmem : ∀ tip, committed.state.tip = some tip → tip ∈ node.archive.headers := by
    intro tip htip
    obtain ⟨k, hk⟩ := hside.height_of_mem hnew
    obtain ⟨j, -, hj⟩ := hside.describes.rooted.exists_height hk (hchain tip htip)
    exact hside.height.mp ⟨j, hj⟩
  rw [hblocks.mem_iff hcf hside hmem, htip, upTo_some]

theorem reachedBetter_beats {tip : Option Tip} (hcurrent : node.currentTip = .ok tip)
    (h : committed.reachedBetter tip = .ok true) :
    ∃ b, committed.state.tip = some b ∧ node.Beats newTip committed.archive b := by
  obtain ⟨b, hb, h⟩ := bind_eq_ok.mp h
  obtain ⟨mainHash, hmain, h⟩ := bind_eq_ok.mp h
  rw [mapFailure_eq_ok] at hmain h
  exact ⟨b, okOr_eq_ok.mp hb, tip, hcurrent, fun old hold =>
    .inr ⟨mainHash, hmain, isBetter_eq_true h hold⟩⟩

end Node

open Node

/-- A reorg leaves the old state, or the one of a block on the chain to the new tip
that is better than the old tip, wherever it stops. -/
theorem reorgToTip_improves (hcf : CollisionFree) {m : Mainchain} {node : Node}
    (hstored : Archive.Stored m node.archive)
    {blocks : List (Header × Body × List (MainBlockHash × MainBlockInfo))}
    (hconnected : node.state.Connected node.archive.DisconnectsTo blocks)
    (ctxt : BatchVerificationContext) (newTip : Tip) :
    (node.reorgToTip ctxt newTip).1.state = node.state ∨
      ∃ b, node.Improves newTip (node.reorgToTip ctxt newTip).1 b := by
  unfold reorgToTip
  split
  case h_1 => exact .inl rfl
  case h_2 => exact .inl rfl
  case h_3 reorg hprepare =>
  obtain ⟨common, header, toApply, batch, hp⟩ := prepareReorg_ok hprepare
  have hnew := Db.mem_of_get hp.header_eq
  -- the chain up to the common ancestor is what the reorg starts from
  obtain ⟨n, hdisconnect⟩ := hp.disconnected
  obtain ⟨kept, _, -, hkept⟩ := connected_disconnectTips hconnected hdisconnect
  have hstart : OnChain node newTip reorg.node.state := by
    refine ⟨⟨kept, hkept.mono fun _ _ _ => trivial⟩, fun b hb => ?_⟩
    exact ((hp.upTo_common hstored.side b).mp (by rw [← hp.tip, hb]; exact upTo_some.mpr (.refl b))).2
  have hconnect : ∀ block ∈ reorg.blocks, ∀ pending next : Node,
      OnChain node newTip pending.state →
      pending.connectTip ctxt block.1 block.2.1 (.ofInfos block.2.2) = .ok next →
      OnChain node newTip next.state := by
    rintro ⟨header, body, infos⟩ hblock pending next ⟨⟨blocks, hblocks⟩, -⟩ hnext
    refine ⟨⟨_, connected_connectTip hblocks hnext trivial⟩, fun b hb => ?_⟩
    obtain ⟨applied, _, happly, hstate, -, -⟩ := connectTip_ok hnext
    cases hb.symm.trans (State.connect_tip happly hstate).1
    obtain ⟨start, hends⟩ := exists_endsAt node.archive common
      (node.archive.sideParent newTip.blockHash)
    obtain ⟨_, _, _, -, -, -, hall⟩ := blocksToApply_ok hstored.side hends hp.toApply
    rw [hp.blocks_eq] at hblock
    exact (hall _ (mem_splitBatch hblock).1).2
  have hbetter : ∀ pending : Node, OnChain node newTip pending.state →
      pending.reachedBetter reorg.tip = .ok true →
      pending.state = node.state ∨ ∃ b, node.Improves newTip pending b := by
    intro pending hpending hreached
    obtain ⟨b, hb, hbeats⟩ := reachedBetter_beats hp.currentTip hreached
    exact .inr ⟨b, hpending.improves hcf hstored.side hnew hb hbeats⟩
  obtain ⟨hcommitted, hpending⟩ := applyBlocks_invariant hconnect hbetter
    (fun _ _ _ _ h => improves_abortReorg h) (.inl rfl) hstart
  split
  case h_1 committed err heq => exact (congrArg Prod.fst heq) ▸ hcommitted
  case h_2 committed next heq =>
    split
    case isTrue htip =>
      refine .inr ⟨newTip.blockHash, (hpending next (congrArg Prod.snd heq)).improves hcf
        hstored.side hnew htip ⟨reorg.tip, hp.currentTip, fun old hold => ?_⟩⟩
      exact .inl ⟨rfl, isBetter_eq_true hp.better hold⟩
    case isFalse => exact (congrArg Prod.fst heq) ▸ hcommitted

end

namespace Instance

def headerN1 : Header := minedHeader none 1

def headerN2 : Header := minedHeader (some headerN1) 3

/-- A header with a wrong merkle root. -/
def headerN3 : Header := sideHeader 0 (some headerN2) 4

/-- The second to the fifth block of this mainchain commit to a block each. -/
def rivalMain : Mainchain :=
  lineMainchain [none, none, some headerN1, some headerM, some headerN2, some headerN3]

def rivalOps : List NodeOp :=
  [connectMain rivalMain 1, connectMain rivalMain 2, connectMain rivalMain 3,
    connectMain rivalMain 4, connectMain rivalMain 5] ++
    storeEmpty headerM ++ storeEmpty headerN1 ++ storeEmpty headerN2 ++ storeEmpty headerN3 ++
    [.reorg 0 ⟨headerM.hash, 3⟩]

def rivalNode : Node := Node.new.run rivalOps

theorem rivalNode_reaches : rivalNode.Reaches rivalMain fun _ _ => True := by
  have hreported : ∀ op ∈ rivalOps, op.Reported rivalMain := by decide +kernel
  exact .run .new hreported (Node.permits_true .new rivalOps)

/-- The mainchain blocks that the first block was connected with. -/
def rivalInfos : List (MainBlockHash × MainBlockInfo) := [(1, rivalMain.info 1), (2, rivalMain.info 2)]

def rivalApplied : State := (State.applyBlock 0 .empty headerM emptyBody).toOption.getD .empty

theorem rivalNode_connected :
    rivalNode.state.Connected rivalNode.archive.DisconnectsTo [(headerM, emptyBody, rivalInfos)] := by
  have happly : State.applyBlock 0 .empty headerM emptyBody = .ok rivalApplied := by
    rw [rivalApplied]
    exact eq_ok_getD _ (by decide +kernel)
  have hconnect : rivalApplied.connectTwoWayPegData (.ofInfos rivalInfos) = .ok rivalNode.state := by
    decide +kernel
  have hundoes : rivalNode.archive.DisconnectsTo rivalNode.state .empty := by
    intro node hnode
    have hdisconnect : (Node.mk rivalNode.archive rivalNode.state).disconnectTip =
        .ok ⟨rivalNode.archive, .empty⟩ := by decide +kernel
    exact congrArg Node.state (Except.ok.inj (hdisconnect.symm.trans hnode)).symm
  exact State.Connected.empty.connect happly hconnect hundoes

/-- A reorg that fails at its third block leaves the second one. -/
theorem reorgToTip_improves_rival :
    rivalNode.state.tip = some headerM.hash ∧
      (rivalNode.reorgToTip 0 ⟨headerN3.hash, 5⟩).2.toOption = none ∧
      rivalNode.Improves ⟨headerN3.hash, 5⟩ (rivalNode.reorgToTip 0 ⟨headerN3.hash, 5⟩).1
        headerN2.hash := by
  have htip : rivalNode.state.tip = some headerM.hash := by decide +kernel
  have hleft : (rivalNode.reorgToTip 0 ⟨headerN3.hash, 5⟩).1.state.tip = some headerN2.hash := by
    decide +kernel
  refine ⟨htip, by decide +kernel, ?_⟩
  rcases reorgToTip_improves collisionFree (rivalNode_reaches.stored collisionFree)
    rivalNode_connected 0 ⟨headerN3.hash, 5⟩ with hsame | ⟨b, himproves⟩
  · rw [hsame, htip] at hleft
    exact absurd hleft (by decide +kernel)
  · cases hleft.symm.trans himproves.tip
    exact himproves

end Instance

end PlainBitnames
