import PlainBitnames.Archive.Calls
import PlainBitnames.Node.Record
import PlainBitnames.Node.Segments

/-!
Runs of a node. Every function of the node is a run of steps: a call on the
archive, a block that is connected or disconnected with its two-way peg data, or a
block alone that is rolled back. What a failed reorg has committed is such a run
too.
-/

namespace PlainBitnames

open Fallible Lineage Relation

variable [Primitives]

namespace Node

def new : Node := ⟨.new, .empty⟩

inductive Step (m : Mainchain) (guard : Guard) (node : Node) : Node → Prop
  | archive {archive : Archive} (hcall : node.archive.Call m guard archive) :
      Step m guard node { node with archive }
  | connect {ctxt : BatchVerificationContext} {header : Header} {body : Body}
      {infos : List (MainBlockHash × MainBlockInfo)} {node' : Node}
      (hheader : node.archive.headers[header.hash]? = some header)
      (hinfos : ∀ entry ∈ infos, node.archive.mainBlockInfos[entry.1]? = some entry.2)
      (hconnect : node.connectTip ctxt header body (.ofInfos infos) = .ok node') :
      Step m guard node node'
  | disconnect {node' : Node} (hdisconnect : node.disconnectTip = .ok node') :
      Step m guard node node'
  | rollBack {tip : BlockHash} {header : Header} {body : Body} {state : State}
      (htip : node.state.tip = some tip) (hnot : tip ∉ node.archive.sideTips.sidechainTips)
      (hheader : node.archive.headers[tip]? = some header)
      (hbody : node.archive.bodies[tip]? = some body)
      (hdisconnect : node.state.disconnectTip header body = .ok state) :
      Step m guard node { node with state }

abbrev Steps (m : Mainchain) (guard : Guard) : Node → Node → Prop :=
  ReflTransGen (Step m guard)

variable {m : Mainchain} {guard : Guard} {node node' : Node}

theorem disconnectTip_archive (h : node.disconnectTip = .ok node') :
    node'.archive = node.archive := by
  obtain ⟨_, -, h⟩ := bind_eq_ok.mp h
  obtain ⟨_, -, h⟩ := bind_eq_ok.mp h
  obtain ⟨_, -, h⟩ := bind_eq_ok.mp h
  obtain ⟨_, -, h⟩ := bind_eq_ok.mp h
  obtain ⟨_, -, h⟩ := bind_eq_ok.mp h
  obtain ⟨_, -, h⟩ := bind_eq_ok.mp h
  obtain ⟨_, -, h⟩ := bind_eq_ok.mp h
  cases h
  rfl

variable {ctxt : BatchVerificationContext} {header : Header}

/-- What connecting a block does. -/
theorem connectTip_ok {body : Body} {data : TwoWayPegData}
    (h : node.connectTip ctxt header body data = .ok node') :
    ∃ applied withHeader, node.state.applyBlock ctxt header body = .ok applied ∧
      applied.connectTwoWayPegData data = .ok node'.state ∧
      node.archive.putHeader header = .ok withHeader ∧
      withHeader.putBody header.hash body = .ok node'.archive := by
  obtain ⟨applied, happly, h⟩ := bind_eq_ok.mp h
  obtain ⟨state, hstate, h⟩ := bind_eq_ok.mp h
  obtain ⟨withHeader, hput, h⟩ := bind_eq_ok.mp h
  obtain ⟨withBody, hbody, h⟩ := bind_eq_ok.mp h
  cases h
  rw [mapFailure_eq_ok] at happly hstate hput hbody
  exact ⟨applied, withHeader, happly, hstate, hput, hbody⟩

/-- A block whose header is stored is connected without a change to the headers and
to the infos of mainchain blocks. -/
theorem connectTip_same {body : Body} {data : TwoWayPegData}
    (hheader : node.archive.headers[header.hash]? = some header)
    (h : node.connectTip ctxt header body data = .ok node') :
    (∀ b : BlockHash, node'.archive.headers[b]? = node.archive.headers[b]?) ∧
      node'.archive.mainBlockInfos = node.archive.mainBlockInfos := by
  obtain ⟨_, withHeader, -, -, hput, hbody⟩ := connectTip_ok h
  obtain ⟨sideTips, heq, -⟩ := Archive.putBody_tips hbody
  obtain ⟨_, _, _, _, -, -, -, -, rfl⟩ := Archive.putHeader_ok hput
  rw [heq]
  refine ⟨fun b => (Db.get_insert _ _ _ _).trans ?_, rfl⟩
  split
  case isTrue heq => rw [← heq, hheader]
  case isFalse => rfl

theorem Step.archive_calls (h : Step m guard node node') :
    Archive.Calls m guard node.archive node'.archive := by
  cases h with
  | archive hcall => exact .single hcall
  | connect hheader _ hconnect =>
    obtain ⟨_, withHeader, -, -, hput, hbody⟩ := connectTip_ok hconnect
    exact .head (.header (.inl (Db.mem_of_get hheader)) hput) (.single (.body hbody))
  | rollBack => exact .refl
  | disconnect hdisconnect => rw [disconnectTip_archive hdisconnect]

theorem Steps.archive_calls (h : Steps m guard node node') :
    Archive.Calls m guard node.archive node'.archive := by
  induction h with
  | refl => exact .refl
  | tail _ hstep ih => exact ih.trans hstep.archive_calls

theorem steps_archive {archive : Archive}
    (h : Archive.Calls m guard node.archive archive) :
    Steps m guard node { node with archive } := by
  induction h with
  | refl => exact .refl
  | tail _ hcall ih => exact ih.tail (.archive hcall)

theorem stored_steps (hcf : CollisionFree) (h : Archive.Stored m node.archive)
    (hsteps : Steps m guard node node') : Archive.Stored m node'.archive :=
  (h.calls hcf hsteps.archive_calls).1

theorem disconnectTips_archive {n : Nat} (h : node.disconnectTips n = .ok node') :
    node'.archive = node.archive := by
  induction n generalizing node with
  | zero => exact Except.ok.inj h ▸ rfl
  | succ n ih =>
    obtain ⟨next, hnext, h⟩ := bind_eq_ok.mp h
    exact (ih h).trans (disconnectTip_archive hnext)

theorem disconnectTips_steps {n : Nat} (h : node.disconnectTips n = .ok node') :
    Steps m guard node node' := by
  induction n generalizing node with
  | zero => exact Except.ok.inj h ▸ .refl
  | succ n ih =>
    obtain ⟨next, hnext, h⟩ := bind_eq_ok.mp h
    exact .head (.disconnect hnext) (ih h)

/-- What a reorg that is ready to connect blocks consists of. -/
structure Prepared (node : Node) (newTip : Tip) (reorg : Reorg) (common : Option BlockHash)
    (header : Header) (blocks : List (Header × Body))
    (batch : List (MainBlockHash × MainBlockInfo)) : Prop where
  currentTip : node.currentTip = .ok reorg.tip
  better : isBetter node.archive reorg.tip newTip = .ok true
  common_eq : commonAncestor node.archive reorg.tip newTip = .ok common
  toApply : blocksToApply node.archive common newTip.blockHash = .ok blocks
  disconnected : ∃ n, node.disconnectTips n = .ok reorg.node
  tip : reorg.node.state.tip = common
  header_eq : node.archive.headers[newTip.blockHash]? = some header
  batch_eq : twoWayPegDataBatch node.archive common header.prevMainHash = .ok batch
  blocks_eq : reorg.blocks = splitBatch blocks batch

theorem prepareReorg_ok {newTip : Tip} {reorg : Reorg}
    (h : node.prepareReorg newTip = .ok (some reorg)) :
    ∃ common header blocks batch, Prepared node newTip reorg common header blocks batch := by
  obtain ⟨tip, htip, h⟩ := bind_eq_ok.mp h
  obtain ⟨better, hbetter, h⟩ := bind_eq_ok.mp h
  split at h
  case isTrue => cases h
  case isFalse hnot =>
    obtain ⟨common, hcommon, h⟩ := bind_eq_ok.mp h
    obtain ⟨blocks, hblocks, h⟩ := bind_eq_ok.mp h
    obtain ⟨n, -, h⟩ := bind_eq_ok.mp h
    obtain ⟨below, hbelow, h⟩ := bind_eq_ok.mp h
    obtain ⟨hstate, h⟩ := ensure_bind_eq_ok.mp h
    obtain ⟨header, hheader, h⟩ := bind_eq_ok.mp h
    obtain ⟨batch, hbatch, h⟩ := bind_eq_ok.mp h
    cases h
    rw [mapFailure_eq_ok] at hbetter hcommon hblocks hheader hbatch
    rw [disconnectTips_archive hbelow] at hheader hbatch
    obtain rfl : better = true := by simpa using hnot
    exact ⟨common, header, blocks, batch, htip, hbetter, hcommon, hblocks, ⟨n, hbelow⟩, hstate,
      okOr_eq_ok.mp hheader, hbatch, rfl⟩

/-- Blocks that are ready to be connected: their headers and the infos of their
mainchain blocks are stored. -/
def Ready (a : Archive) (blocks : List (Header × Body × List (MainBlockHash × MainBlockInfo))) :
    Prop :=
  ∀ block ∈ blocks, a.headers[block.1.hash]? = some block.1 ∧
    ∀ entry ∈ block.2.2, a.mainBlockInfos[entry.1]? = some entry.2

section Prepared

variable {newTip : Tip} {reorg : Reorg} {common : Option BlockHash} {blocks : List (Header × Body)}
  {batch : List (MainBlockHash × MainBlockInfo)}

/-- The blocks of a reorg are stored blocks up to the new tip, and come with stored infos. -/
theorem Prepared.blocks_spec (h : node.archive.SideStored)
    (hprepared : Prepared node newTip reorg common header blocks batch) :
    ∀ block ∈ reorg.blocks, node.archive.headers[block.1.hash]? = some block.1 ∧
      Descends node.archive.sideParent block.1.hash newTip.blockHash ∧
      ∀ entry ∈ block.2.2, node.archive.mainBlockInfos[entry.1]? = some entry.2 := by
  rintro ⟨header', body, infos⟩ hblock
  rw [hprepared.blocks_eq] at hblock
  obtain ⟨start, hends⟩ := exists_endsAt node.archive common
    (node.archive.sideParent newTip.blockHash)
  obtain ⟨_, _, _, -, -, -, hstored⟩ := blocksToApply_ok h hends hprepared.toApply
  obtain ⟨hmem, hinfos⟩ := mem_splitBatch hblock
  obtain ⟨hheader, hdescends⟩ := hstored _ hmem
  exact ⟨hheader, hdescends, fun entry hentry =>
    twoWayPegDataBatch_get hprepared.batch_eq entry (hinfos entry hentry)⟩

theorem Prepared.ready (h : node.archive.SideStored)
    (hprepared : Prepared node newTip reorg common header blocks batch) :
    Ready reorg.node.archive reorg.blocks := by
  intro block hblock
  obtain ⟨n, hn⟩ := hprepared.disconnected
  rw [disconnectTips_archive hn]
  obtain ⟨hheader, -, hinfos⟩ := hprepared.blocks_spec h block hblock
  exact ⟨hheader, hinfos⟩

end Prepared

variable {blocks : List (Header × Body × List (MainBlockHash × MainBlockInfo))}

/-- Connecting a block leaves the others ready. -/
theorem Ready.connectTip {body : Body} {data : TwoWayPegData}
    (hheader : node.archive.headers[header.hash]? = some header)
    (hconnect : node.connectTip ctxt header body data = .ok node') (h : Ready node.archive blocks) :
    Ready node'.archive blocks := by
  obtain ⟨hheaders, hinfos⟩ := connectTip_same hheader hconnect
  intro block hblock
  rw [hheaders, hinfos]
  exact h block hblock

theorem abortReorg_steps {b : BlockHash} {body : Body} {err : Failure NodeError} :
    Steps m guard node (node.abortReorg b body err).1 := by
  unfold abortReorg
  split
  case isTrue => exact .refl
  case isFalse =>
    cases hdelete : node.archive.deleteBody b body with
    | error => exact .refl
    | ok archive => exact .single (.archive (.deleteBody hdelete))

/-- What holds of the node last committed and of the one that blocks are connected to
holds in the end, if connecting a block keeps the latter, a node that is better can
be committed, and discarding a body keeps the former. -/
theorem applyBlocks_invariant {Committed Pending : Node → Prop} {tip : Option Tip}
    (hconnect : ∀ block ∈ blocks, ∀ node next : Node, Pending node →
      node.connectTip ctxt block.1 block.2.1 (.ofInfos block.2.2) = .ok next → Pending next)
    (hbetter : ∀ node, Pending node → node.reachedBetter tip = .ok true → Committed node)
    (habort : ∀ node b body err, Committed node → Committed (node.abortReorg b body err).1)
    {committed : Node} (hcommitted : Committed committed) (hnode : Pending node) :
    Committed (applyBlocks ctxt tip blocks committed node).1 ∧
      ∀ node', (applyBlocks ctxt tip blocks committed node).2 = .ok node' → Pending node' := by
  obtain ⟨hresult, hdone⟩ := applyBlocks_rule ctxt tip
    (P := fun left committed node => left ⊆ blocks ∧ Committed committed ∧ Pending node)
    (fun _ _ _ h => h.2.1) (fun _ _ _ _ _ h => habort _ _ _ _ h.2.1)
    (fun block left committed node next ⟨hleft, hcommitted, hnode⟩ hnext => by
      have hpending := hconnect block (hleft List.mem_cons_self) node next hnode hnext
      have hleft := List.subset_of_cons_subset hleft
      exact ⟨⟨hleft, hcommitted, hpending⟩,
        fun hreached => ⟨hleft, hbetter next hpending hreached, hpending⟩⟩)
    ⟨List.Subset.refl blocks, hcommitted, hnode⟩
  exact ⟨hresult, fun node' h => (hdone node' h).2.2⟩

/-- What holds of a node holds after a reorg, if it holds of the nodes that the blocks of the
reorg are connected to, and discarding a body keeps it. -/
theorem reorgToTip_invariant {P : Node → Prop} {Q : Reorg → Node → Prop} {newTip : Tip}
    (hprepared : ∀ {reorg common header blocks batch},
      Prepared node newTip reorg common header blocks batch → Q reorg reorg.node ∧
        ∀ block ∈ reorg.blocks, ∀ pending next : Node, Q reorg pending →
          pending.connectTip ctxt block.1 block.2.1 (.ofInfos block.2.2) = .ok next →
          Q reorg next)
    (hcommit : ∀ {reorg pending}, Q reorg pending → P pending)
    (habort : ∀ node b body err, P node → P (node.abortReorg b body err).1)
    (hnode : P node) : P (node.reorgToTip ctxt newTip).1 := by
  unfold reorgToTip
  split
  case h_1 => exact hnode
  case h_2 => exact hnode
  case h_3 reorg hreorg =>
    obtain ⟨common, header, blocks, batch, hreorg⟩ := prepareReorg_ok hreorg
    obtain ⟨hstart, hconnect⟩ := hprepared hreorg
    obtain ⟨hcommitted, hpending⟩ := applyBlocks_invariant hconnect (fun _ h _ => hcommit h) habort
      hnode hstart
    split
    case h_1 committed err heq => exact (congrArg Prod.fst heq) ▸ hcommitted
    case h_2 committed next heq =>
      split
      case isTrue => exact hcommit (hpending next (congrArg Prod.snd heq))
      case isFalse => exact (congrArg Prod.fst heq) ▸ hcommitted

theorem reorgToTip_steps (h : Archive.Stored m node.archive)
    (ctxt : BatchVerificationContext) (newTip : Tip) :
    Steps m guard node (node.reorgToTip ctxt newTip).1 := by
  refine reorgToTip_invariant (Q := fun reorg pending =>
    Ready pending.archive reorg.blocks ∧ Steps m guard node pending) ?_ (fun h => h.2)
    (fun _ _ _ _ h => h.trans abortReorg_steps) .refl
  intro reorg common header blocks batch hprepared
  obtain ⟨n, hn⟩ := hprepared.disconnected
  refine ⟨⟨hprepared.ready h.side, disconnectTips_steps hn⟩, ?_⟩
  rintro block hblock pending next ⟨hready, hsteps⟩ hnext
  obtain ⟨hheader, hinfos⟩ := hready block hblock
  exact ⟨Ready.connectTip hheader hnext hready, hsteps.tail (.connect hheader hinfos hnext)⟩

theorem disconnectUntil_steps {target : Option BlockHash} {fuel : Nat}
    (h : node.disconnectUntil target fuel = .ok node') : Steps m guard node node' := by
  induction fuel generalizing node with
  | zero => exact Except.ok.inj h ▸ .refl
  | succ fuel ih =>
    unfold disconnectUntil at h
    split at h
    case isTrue => exact Except.ok.inj h ▸ .refl
    case isFalse =>
      obtain ⟨next, hnext, h⟩ := bind_eq_ok.mp h
      exact .head (.disconnect hnext) (ih h)

theorem disconnectUntil_archive {target : Option BlockHash} {fuel : Nat}
    (h : node.disconnectUntil target fuel = .ok node') : node'.archive = node.archive := by
  induction fuel generalizing node with
  | zero => exact Except.ok.inj h ▸ rfl
  | succ fuel ih =>
    unfold disconnectUntil at h
    split at h
    case isTrue => exact Except.ok.inj h ▸ rfl
    case isFalse =>
      obtain ⟨next, hnext, h⟩ := bind_eq_ok.mp h
      exact (ih h).trans (disconnectTip_archive hnext)

theorem invalidateBlock_steps {b : BlockHash} (hinvalidates : guard.invalidates node.archive b)
    (h : node.invalidateBlock b = .ok node') :
    Steps m guard node node' := by
  unfold invalidateBlock at h
  split at h
  case h_1 => exact Except.ok.inj h ▸ .refl
  case h_2 header hheader =>
    obtain ⟨active, -, h⟩ := bind_eq_ok.mp h
    have hmem : b ∈ node.archive.headers := Db.mem_of_get hheader
    dsimp only at h
    split at h
    case isTrue =>
      obtain ⟨below, hbelow, h⟩ := bind_eq_ok.mp h
      rw [← disconnectUntil_archive hbelow] at hmem hinvalidates
      exact Except.ok.inj h ▸
        (disconnectUntil_steps hbelow).tail (.archive (.invalidateBlock hmem hinvalidates))
    case isFalse =>
      exact Except.ok.inj h ▸ .single (.archive (.invalidateBlock hmem hinvalidates))

theorem rollBack_steps {fuel : Nat} (h : node.rollBack fuel = .ok node') :
    Steps m guard node node' := by
  induction fuel generalizing node with
  | zero => exact Except.ok.inj h ▸ .refl
  | succ fuel ih =>
    unfold rollBack at h
    split at h
    case h_1 => exact Except.ok.inj h ▸ .refl
    case h_2 stateTip htip =>
      split at h
      case isTrue => exact Except.ok.inj h ▸ .refl
      case isFalse hnot =>
        obtain ⟨header, hheader, h⟩ := bind_eq_ok.mp h
        obtain ⟨body, hbody, h⟩ := bind_eq_ok.mp h
        obtain ⟨state, hstate, h⟩ := bind_eq_ok.mp h
        rw [mapFailure_eq_ok] at hheader hbody hstate
        exact .head (.rollBack htip hnot (okOr_eq_ok.mp hheader) (okOr_eq_ok.mp hbody) hstate)
          (ih h)

theorem ignoreInvalid_fst (result : Node × NodeResult Bool) :
    (ignoreInvalid result).1 = result.1 := by
  unfold ignoreInvalid
  split
  · rfl
  · split <;> rfl

theorem handleMainchainBlockEvent_steps (hcf : CollisionFree) (h : Archive.Stored m node.archive)
    (ctxt : BatchVerificationContext) :
    Steps m guard node (node.handleMainchainBlockEvent ctxt).1 := by
  unfold handleMainchainBlockEvent
  split
  case h_1 => exact .refl
  case h_2 below hbelow =>
    have hsteps : Steps m guard node below := rollBack_steps hbelow
    split
    case h_1 => exact hsteps
    case h_2 best hbest =>
      rw [ignoreInvalid_fst]
      exact hsteps.trans (reorgToTip_steps (stored_steps hcf h hsteps) ctxt best)

end Node

end PlainBitnames
