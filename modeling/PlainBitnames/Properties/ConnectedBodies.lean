import PlainBitnames.Node.Active
import PlainBitnames.Node.Responses
import PlainBitnames.Properties.Templates

/-!
The body that a block of the active chain was connected with stays stored, except for
two defects. A peer can send any body with the header of a block, and it replaces the
one that is stored. And a reorg to a block of the active chain starts with the genesis
block again, fails there, and discards its body.
-/

namespace PlainBitnames

open Fallible Lineage

section

variable [Primitives]

namespace Node

open Archive

/-- The bodies that blocks are connected with after an operation. -/
def record (node : Node) (connected : Db BlockHash Body) : NodeOp → Db BlockHash Body
  | .reorg ctxt newTip => recordReorg ctxt node newTip connected
  | .mainchainBlockEvent ctxt =>
    match node.rollBack (blockCount node.state + 1) with
    | .error _ => connected
    | .ok below => match below.archive.sideTips.bestSideTip with
      | none => connected
      | some bestSideTip => recordReorg ctxt below bestSideTip connected
  | _ => connected

/-- The nodes that operations reach, each of which is allowed where it runs, with the
bodies that blocks were connected with. -/
inductive Records (m : Mainchain) (Allowed : Node → NodeOp → Prop) : Node → Db BlockHash Body → Prop
  | new : Records m Allowed .new ∅
  | exec {node : Node} {connected : Db BlockHash Body} {op : NodeOp}
      (h : Records m Allowed node connected) (hop : op.Reported m) (hallowed : Allowed node op) :
      Records m Allowed (node.exec op).1 (node.record connected op)

/-- A block of the chain is not better than its tip. -/
def GoesForward (node : Node) (newTip : Tip) : Prop :=
  node.Active newTip.blockHash →
    ∀ tip, node.currentTip = .ok tip → isBetter node.archive tip newTip ≠ .ok true

/-- A body that is stored for a block of the chain is the one that is stored already,
and reorgs are not to blocks of the chain. -/
def KeepsBodies (node : Node) : NodeOp → Prop
  | .body b body => node.Active b → node.archive.bodies[b]? = some body
  | .reorg _ newTip => node.GoesForward newTip
  | .mainchainBlockEvent _ => ∀ below, node.rollBack (blockCount node.state + 1) = .ok below →
      ∀ bestSideTip, below.archive.sideTips.bestSideTip = some bestSideTip →
        below.GoesForward bestSideTip
  | _ => True

/-- Every block of the chain has the body stored that it was connected with. -/
def Keeps (node : Node) (connected : Db BlockHash Body) : Prop :=
  ∀ b, node.Active b → ∃ body, connected[b]? = some body ∧ node.archive.bodies[b]? = some body

variable {m : Mainchain} {node node' : Node} {connected : Db BlockHash Body} {b : BlockHash}

theorem Records.reaches {Allowed : Node → NodeOp → Prop} (h : Records m Allowed node connected) :
    Reaches m Allowed node := by
  induction h with
  | new => exact .new
  | exec _ hop hallowed ih => exact ih.exec hop hallowed

theorem Keeps.below (h : node.Keeps connected) (hbelow : Below node node') :
    node'.Keeps connected := by
  intro b hb
  rw [hbelow.archive]
  exact h b (hbelow.active b hb)

theorem Keeps.withArchive {archive : Archive} (hside : SideStored node.archive)
    (hanchored : node.Anchored) (h : node.Keeps connected)
    (hkeeps : KeepsHeaders node.archive archive)
    (hbodies : ∀ b, node.Active b → archive.bodies[b]? = node.archive.bodies[b]?) :
    Keeps { node with archive } connected := by
  intro b hb
  have hactive : node.Active b := (hkeeps.upTo_iff hside hanchored.mem b).mp hb
  obtain ⟨body, hconnected, hbody⟩ := h b hactive
  exact ⟨body, hconnected, (hbodies b hactive).trans hbody⟩

theorem Keeps.connectTip {ctxt : BatchVerificationContext} {header : Header} {body : Body}
    {data : TwoWayPegData} (h : node.Keeps connected)
    (hheader : node.archive.headers[header.hash]? = some header)
    (hconnect : node.connectTip ctxt header body data = .ok node') :
    node'.Keeps (connected.insert header.hash body) := by
  intro b hb
  rw [connectTip_bodies hconnect, Db.get_insert, Db.get_insert]
  split
  case isTrue => exact ⟨body, rfl, rfl⟩
  case isFalse hne =>
    exact h b (((connectTip_active hheader hconnect b).mp hb).resolve_left (Ne.symm hne))

theorem Keeps.abortReorg {body : Body} {err : Failure NodeError} (h : node.Keeps connected)
    (hb : ¬ node.Active b) : (node.abortReorg b body err).1.Keeps connected := by
  obtain ⟨hstate, hheaders, hbodies⟩ := abortReorg_keeps node b body err
  intro c hc
  have hparent : (node.abortReorg b body err).1.archive.sideParent = node.archive.sideParent :=
    sideParent_congr fun _ => by rw [hheaders]
  have hactive : node.Active c := by
    rw [Active, hparent, hstate] at hc
    exact hc
  rw [hbodies c (fun heq => hb (heq ▸ hactive))]
  exact h c hactive

/-- Blocks that are linked are not up to the block that they start from. -/
theorem not_upTo_of_linked {a : Archive} (hside : SideStored a) {start : Option BlockHash}
    {blocks : List (Header × Body)} (hlinked : Linked start blocks)
    (hstored : ∀ block ∈ blocks, a.headers[block.1.hash]? = some block.1) :
    ∀ block ∈ blocks, ¬ UpTo a.sideParent start block.1.hash := by
  induction blocks generalizing start with
  | nil => exact fun _ h => (List.not_mem_nil h).elim
  | cons first blocks ih =>
    obtain ⟨header, body⟩ := first
    obtain ⟨hprev, hlinked⟩ := hlinked
    obtain ⟨hheader, hstored⟩ := List.forall_mem_cons.mp hstored
    have hparent : a.sideParent header.hash = start :=
      (SideStored.sideParent_eq hheader).trans hprev
    refine List.forall_mem_cons.mpr ⟨?_, fun block hblock hup => ih hlinked hstored block hblock ?_⟩
    · rw [← hparent]
      exact hside.describes.rooted.not_upTo_parent (hside.height_of_mem (Db.mem_of_get hheader))
    · rw [upTo_some, descends_iff_upTo_parent, hparent]
      exact .inr hup

/-- The invariant of the loop that connects blocks: none of the blocks that are left is
in the chain of the node last committed. -/
structure Applying (a : Archive) (left : List (Header × Body × List (MainBlockHash × MainBlockInfo)))
    (committed pending : Node × Db BlockHash Body) : Prop where
  kept : committed.1.Keeps committed.2
  fresh : ∀ block ∈ left, ¬ committed.1.Active block.1.hash
  connecting : pending.1.Keeps pending.2
  headers : ∀ b : BlockHash, pending.1.archive.headers[b]? = a.headers[b]?
  linked : Linked pending.1.state.tip (bare left)
  stored : ∀ block ∈ left, a.headers[block.1.hash]? = some block.1

theorem Applying.connectTip {a : Archive} (hside : SideStored a) {ctxt : BatchVerificationContext}
    {block : Header × Body × List (MainBlockHash × MainBlockInfo)}
    {left : List (Header × Body × List (MainBlockHash × MainBlockInfo))}
    {committed pending : Node × Db BlockHash Body} {next : Node}
    (h : Applying a (block :: left) committed pending)
    (hnext : pending.1.connectTip ctxt block.1 block.2.1 (.ofInfos block.2.2) = .ok next) :
    Applying a left committed (next, pending.2.insert block.1.hash block.2.1) ∧
      Applying a left (next, pending.2.insert block.1.hash block.2.1)
        (next, pending.2.insert block.1.hash block.2.1) := by
  obtain ⟨hstored, hrest⟩ := List.forall_mem_cons.mp h.stored
  have hheader := (h.headers block.1.hash).trans hstored
  have hkeeps := h.connecting.connectTip hheader hnext
  have hheaders : ∀ b : BlockHash, next.archive.headers[b]? = a.headers[b]? := fun b =>
    ((connectTip_same hheader hnext).1 b).trans (h.headers b)
  have htip := connectTip_tip hnext
  have hlinked : Linked next.state.tip (bare left) := htip ▸ h.linked.2
  have hfresh : ∀ rest ∈ left, ¬ next.Active rest.1.hash := by
    intro rest hleft
    rw [Active, sideParent_congr hheaders]
    exact not_upTo_of_linked hside hlinked (List.forall_mem_map.mpr hrest) _
      (List.mem_map_of_mem hleft)
  exact ⟨⟨h.kept, (List.forall_mem_cons.mp h.fresh).2, hkeeps, hheaders, hlinked, hrest⟩,
    ⟨hkeeps, hfresh, hkeeps, hheaders, hlinked, hrest⟩⟩

/-- What a reorg that does not go back starts with. -/
theorem Prepared.applying (hcf : CollisionFree) (hside : SideStored node.archive)
    (h : node.Keeps connected) {newTip : Tip} (hforward : node.GoesForward newTip) {reorg : Reorg}
    {common : Option BlockHash} {header : Header} {blocks : List (Header × Body)}
    {batch : List (MainBlockHash × MainBlockInfo)}
    (hp : Prepared node newTip reorg common header blocks batch) :
    Applying node.archive reorg.blocks (node, connected) (reorg.node, connected) := by
  have htip : ¬ node.Active newTip.blockHash := fun hactive =>
    hforward hactive reorg.tip hp.currentTip hp.better
  obtain ⟨n, hn⟩ := hp.disconnected
  have hbelow := below_disconnectTips hcf hside hn
  have hbare : bare reorg.blocks = blocks := by rw [hp.blocks_eq, bare, splitBatch_blocks]
  obtain ⟨_, _, _, -, -, hlinked, hstored⟩ :=
    blocksToApply_ok hside (hp.endsAt hside htip) hp.toApply
  have hmem : ∀ block ∈ reorg.blocks, (block.1, block.2.1) ∈ blocks := fun block hblock =>
    hbare ▸ List.mem_map_of_mem hblock
  refine ⟨h, fun block hblock hactive => ?_, h.below hbelow, fun b => by rw [hbelow.archive], ?_,
    fun block hblock => (hstored _ (hmem block hblock)).1⟩
  · -- a block of both chains is up to the common ancestor
    have hup := (hp.upTo_common hside _).mpr ⟨hactive, (hstored _ (hmem block hblock)).2⟩
    exact not_upTo_of_linked hside hlinked (fun block hblock => (hstored block hblock).1) _
      (hmem block hblock) hup
  · rw [hp.tip, hbare]
    exact hlinked

theorem Keeps.reorgToTip (hcf : CollisionFree) (hside : SideStored node.archive)
    (h : node.Keeps connected) (ctxt : BatchVerificationContext) {newTip : Tip}
    (hforward : node.GoesForward newTip) :
    (node.reorgToTip ctxt newTip).1.Keeps (recordReorg ctxt node newTip connected) := by
  rw [Node.reorgToTip, recordReorg]
  cases hprepare : node.prepareReorg newTip with
  | error => exact h
  | ok prepared =>
    cases prepared with
    | none => exact h
    | some reorg =>
      obtain ⟨common, header, blocks, batch, hp⟩ := prepareReorg_ok hprepare
      obtain ⟨hcommitted, hdone⟩ := recordBlocks_rule ctxt reorg.tip
        (P := Applying node.archive) (Q := fun committed => committed.1.Keeps committed.2)
        (fun _ _ _ happlying => happlying.kept)
        (fun block _ _ _ _ happlying =>
          happlying.kept.abortReorg (happlying.fresh block List.mem_cons_self))
        (fun _ _ _ _ _ happlying hnext =>
          ⟨(happlying.connectTip hside hnext).1, fun _ => (happlying.connectTip hside hnext).2⟩)
        connected connected (hp.applying hcf hside h hforward)
      dsimp only at hcommitted hdone ⊢
      generalize applyBlocks ctxt reorg.tip reorg.blocks node reorg.node = applied at *
      obtain ⟨committed, result⟩ := applied
      cases result with
      | error err => exact hcommitted
      | ok next =>
        by_cases htip : next.state.tip = some newTip.blockHash
        · simp only [if_pos htip]
          exact (hdone next rfl).connecting
        · simp only [if_neg htip]
          exact hcommitted

theorem Keeps.invalidateBlock (hcf : CollisionFree) (hside : SideStored node.archive)
    (hanchored : node.Anchored) (h : node.Keeps connected)
    (hinvalidate : node.invalidateBlock b = .ok node') : node'.Keeps connected := by
  have hmem := (hanchored.invalidateBlock hcf hside hinvalidate).mem
  rcases invalidateBlock_ok hcf hside hanchored hinvalidate with
    ⟨rfl, -⟩ | ⟨hb, below, hbelow, hnot, rfl⟩
  · exact h
  · have h := h.below hbelow
    rw [← hbelow.archive] at hb hside
    obtain ⟨gone, hgone⟩ := exists_invalidating hside hb
    have hheaders : KeepsHeaders (below.archive.invalidateBlock b) below.archive := by
      intro c header hget
      rw [hgone.pruned.headers] at hget
      split at hget
      case isTrue => cases hget
      case isFalse => exact hget
    intro c hc
    have hactive : below.Active c := (hheaders.upTo_iff (hgone.side hside) hmem c).mpr hc
    -- the chain does not contain the block, so nothing of it is removed
    have hkept : c ∉ gone := fun hmem => hnot (UpTo.trans (hgone.descends c hmem) hactive)
    obtain ⟨body, hconnected, hbody⟩ := h c hactive
    exact ⟨body, hconnected, ((hgone.pruned.bodies c).trans (if_neg hkept)).trans hbody⟩

theorem Keeps.exec (hcf : CollisionFree) (hstored : Stored m node.archive) (hanchored : node.Anchored)
    (h : node.Keeps connected) {op : NodeOp} (hallowed : node.KeepsBodies op) :
    (node.exec op).1.Keeps (node.record connected op) := by
  have harchive : ∀ result : ArchiveResult Archive,
      (∀ archive, result = .ok archive → KeepsHeaders node.archive archive ∧
        ∀ b, node.Active b → archive.bodies[b]? = node.archive.bodies[b]?) →
      (node.withArchive result).1.Keeps connected := by
    intro result hresult
    cases result with
    | error => exact h
    | ok archive =>
      obtain ⟨hkeeps, hbodies⟩ := hresult archive rfl
      exact h.withArchive hstored.side hanchored hkeeps hbodies
  have hrest : ∀ {archive : Archive},
      archive.headers = node.archive.headers ∧ archive.bodies = node.archive.bodies →
      KeepsHeaders node.archive archive ∧
        ∀ b, node.Active b → archive.bodies[b]? = node.archive.bodies[b]? :=
    fun ⟨hheaders, hbodies⟩ => ⟨.of_eq hheaders, fun b _ => by rw [hbodies]⟩
  cases op with
  | header header =>
    refine harchive _ fun _ hput => ?_
    obtain ⟨hkeeps, hbodies⟩ := putHeader_keeps hcf hstored.side hput
    exact ⟨hkeeps, fun b _ => by rw [hbodies]⟩
  | body b body =>
    refine harchive _ fun _ hput => ?_
    obtain ⟨_, rfl, -⟩ := putBody_tips hput
    refine ⟨.refl _, fun c hc => (Db.get_insert _ _ _ _).trans ?_⟩
    split
    case isTrue heq => exact (hallowed (heq ▸ hc)).symm.trans (by rw [heq])
    case isFalse => rfl
  | ancestorInfo headerInfo blockInfo =>
    exact harchive _ fun _ hput => hrest (putAncestorInfo_rest hput)
  | syncMainchainTip mainHash => exact harchive _ fun _ hsync => hrest (syncMainchainTip_rest hsync)
  | mainchainEvent event => exact harchive _ fun _ hhandle => hrest (handleBlockEvent_rest hhandle)
  | mainchainBlockEvent ctxt =>
    rw [Node.exec, handleMainchainBlockEvent, record]
    cases hrollBack : node.rollBack (blockCount node.state + 1) with
    | error => exact h
    | ok below =>
      have hbelow := below_rollBack hcf hstored.side hrollBack
      dsimp only
      cases hbest : below.archive.sideTips.bestSideTip with
      | none => exact h.below hbelow
      | some best =>
        dsimp only
        rw [ignoreInvalid_fst]
        exact (h.below hbelow).reorgToTip hcf (hbelow.archive ▸ hstored.side) ctxt
          (hallowed below hrollBack best hbest)
  | reorg ctxt newTip =>
    rw [Node.exec, ignoreInvalid_fst]
    exact h.reorgToTip hcf hstored.side ctxt hallowed
  | invalidate b =>
    rw [Node.exec]
    cases hinvalidate : node.invalidateBlock b with
    | error => exact h
    | ok next => exact h.invalidateBlock hcf hstored.side hanchored hinvalidate

/-- The bodies that blocks are connected with after some operations. -/
def recordRun (connected : Db BlockHash Body) : Node → List NodeOp → Db BlockHash Body
  | _, [] => connected
  | node, op :: ops => recordRun (node.record connected op) (node.exec op).1 ops

theorem Records.run {Allowed : Node → NodeOp → Prop} (h : Records m Allowed node connected)
    {ops : List NodeOp} (hops : ∀ op ∈ ops, op.Reported m) (hallowed : Permits Allowed node ops) :
    Records m Allowed (node.run ops) (node.recordRun connected ops) := by
  induction ops generalizing node connected with
  | nil => exact h
  | cons op ops ih =>
    obtain ⟨hop, hops⟩ := List.forall_mem_cons.mp hops
    exact ih (h.exec hop hallowed.1) hops hallowed.2

theorem not_active (h : node.state.tip = none) : ¬ node.Active b := by
  rw [Active, h]
  exact not_upTo_none b

end Node

open Node

/-- Along operations that keep bodies, every block of the active chain has the body
stored that it was connected with. -/
theorem connected_body_stored (hcf : CollisionFree) {m : Mainchain} {node : Node}
    {connected : Db BlockHash Body} (h : Records m KeepsBodies node connected) {b : BlockHash}
    (hb : node.Active b) :
    ∃ body, connected[b]? = some body ∧ node.archive.getBody b = .ok body := by
  have hkeeps : node.Keeps connected := by
    clear hb
    induction h with
    | new => exact fun b hb => absurd hb (not_active rfl)
    | exec h hop hallowed ih =>
      exact ih.exec hcf (h.reaches.stored hcf) (h.reaches.anchored hcf) hallowed
  obtain ⟨body, hconnected, hbody⟩ := hkeeps b hb
  exact ⟨body, hconnected, okOr_eq_ok.mpr hbody⟩

end

namespace Instance

/-- The body of a block that a peer sends again. -/
def lateOps : List NodeOp := branchOps ++ [.body headerM.hash emptyBody]

def lateNode : Node := Node.new.run lateOps

theorem lateNode_records :
    Node.Records branchMain Node.KeepsBodies lateNode (Node.recordRun ∅ .new lateOps) := by
  have hreported : ∀ op ∈ lateOps, op.Reported branchMain := by decide +kernel
  refine .run .new hreported ⟨trivial, trivial, trivial, trivial, ?_, ?_, trivial, ?_, trivial⟩
  · exact fun hactive => absurd hactive (Node.not_active (by decide +kernel))
  · exact fun hactive => absurd hactive (Node.not_active (by decide +kernel))
  · exact fun _ => by decide +kernel

theorem connected_body_stored_late :
    lateNode.Active headerM.hash ∧
      (Node.recordRun ∅ .new lateOps)[headerM.hash]? = some emptyBody ∧
      lateNode.archive.getBody headerM.hash = .ok emptyBody := by
  have hactive : lateNode.Active headerM.hash :=
    ⟨headerM.hash, by decide +kernel, .refl _⟩
  have hconnected : (Node.recordRun ∅ .new lateOps)[headerM.hash]? = some emptyBody := by
    decide +kernel
  obtain ⟨body, hbody, hstored⟩ := connected_body_stored collisionFree lateNode_records hactive
  cases hconnected.symm.trans hbody
  exact ⟨hactive, hconnected, hstored⟩

/-- A body that a block was not connected with. -/
def strayBody : Body := ⟨⟨[1], []⟩, [], []⟩

def strayOps : List NodeOp := branchOps ++ [.body headerM.hash strayBody]

def strayNode : Node := Node.new.run strayOps

/-- A peer replaces the body of the tip, which can then not be disconnected. -/
theorem peer_replaces_body :
    Node.Records branchMain (fun _ _ => True) strayNode (Node.recordRun ∅ .new strayOps) ∧
      branchNode.archive.handleBlock headerM.hash headerM strayBody = .ok strayNode.archive ∧
      strayNode.Active headerM.hash ∧
      (Node.recordRun ∅ .new strayOps)[headerM.hash]? = some emptyBody ∧
      strayNode.archive.getBody headerM.hash = .ok strayBody ∧
      branchNode.disconnectTip.toOption.isSome ∧ strayNode.disconnectTip.toOption.isNone := by
  have hreported : ∀ op ∈ strayOps, op.Reported branchMain := by decide +kernel
  refine ⟨.run .new hreported (Node.permits_true .new strayOps), by decide +kernel,
    ⟨headerM.hash, by decide +kernel, .refl _⟩, by decide +kernel, by decide +kernel,
    by decide +kernel, by decide +kernel⟩

def headerP0 : Header := minedHeader none 1

def headerP1 : Header := minedHeader (some headerP0) 2

end Instance

end PlainBitnames
