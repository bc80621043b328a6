import PlainBitnames.Node.Basic

/-!
Reorgs, invalidation of blocks, and the handling of mainchain events. A reorg
commits as soon as a block is reached that is better than the old tip, so it
has a result for the database even if it fails later.
-/

namespace PlainBitnames

open Fallible

variable [Primitives]

namespace Node

def disconnectTips : Nat → Node → NodeResult Node
  | 0, node => .ok node
  | n + 1, node => do
      let node ← node.disconnectTip
      disconnectTips n node

/-- The current tip with its best verification. -/
def currentTip (node : Node) : NodeResult (Option Tip) :=
  match node.state.tip with
  | none => .ok none
  | some tipHash => do
      let mainBlockHash ← mapFailure .archive (node.archive.getBestMainVerification tipHash)
      .ok (some ⟨tipHash, mainBlockHash⟩)

/-- A new tip is better than the old one, if there is one. -/
def isBetter (a : Archive) (tip : Option Tip) (newTip : Tip) : ArchiveResult Bool :=
  match tip with
  | none => .ok true
  | some tip => do
      let better ← a.betterTip tip newTip
      .ok (decide (better = some newTip))

def commonAncestor (a : Archive) (tip : Option Tip) (newTip : Tip) :
    ArchiveResult (Option BlockHash) :=
  match tip with
  | none => .ok none
  | some tip => a.lastCommonAncestor tip.blockHash newTip.blockHash

/-- The number of blocks above the common ancestor. -/
def disconnects (a : Archive) (tipHeight : Option Nat) (commonAncestor : Option BlockHash) :
    ArchiveResult Nat :=
  match tipHeight, commonAncestor with
  | none, _ => .ok 0
  | some tipHeight, none => do
      ensure (tipHeight + 1 < 2 ^ 32) (.panic "attempt to add with overflow")
      .ok (tipHeight + 1)
  | some tipHeight, some commonAncestor => do
      let height ← a.getHeight commonAncestor
      ensure (height ≤ tipHeight) (.panic "attempt to subtract with overflow")
      .ok (tipHeight - height)

/-- A reorg that is ready to connect blocks. -/
structure Reorg where
  node : Node
  tip : Option Tip
  blocks : List (Header × Body × List (MainBlockHash × MainBlockInfo))

/-- Prepare a reorg to a tip, if it is better than the current one: disconnect
tips until the common ancestor is reached. -/
def prepareReorg (node : Node) (newTip : Tip) : NodeResult (Option Reorg) := do
  let tip ← node.currentTip
  let better ← mapFailure .archive (isBetter node.archive tip newTip)
  if !better then .ok none
  else do
    let commonAncestor ← mapFailure .archive (commonAncestor node.archive tip newTip)
    let blocks ← mapFailure .archive (blocksToApply node.archive commonAncestor newTip.blockHash)
    let disconnects ← mapFailure .archive
      (disconnects node.archive node.state.height commonAncestor)
    let node ← node.disconnectTips disconnects
    ensure (node.state.tip = commonAncestor) (.panic "assert_eq!(tip_hash, common_ancestor)")
    let header ← mapFailure .archive (node.archive.getHeader newTip.blockHash)
    let batch ← mapFailure .archive
      (twoWayPegDataBatch node.archive commonAncestor header.prevMainHash)
    .ok (some ⟨node, tip, splitBatch blocks batch⟩)

/-- The tip reached so far is better than the one before the reorg. -/
def reachedBetter (node : Node) (tip : Option Tip) : NodeResult Bool := do
  let newTipHash ← okOr node.state.tip (.panic "called `Option::unwrap()` on a `None` value")
  let mainBlockHash ← mapFailure .archive (node.archive.getBestMainVerification newTipHash)
  mapFailure .archive (isBetter node.archive tip ⟨newTipHash, mainBlockHash⟩)

/-- A state error means that a block is invalid; it must not be fatal. -/
def isFatalReorgError : Failure NodeError → Bool
  | .error (.state _) => false
  | _ => true

/-- Abort a reorg. The body of a block that is invalid is discarded. -/
def abortReorg (committed : Node) (blockHash : BlockHash) (body : Body)
    (err : Failure NodeError) : Node × Failure NodeError :=
  if isFatalReorgError err then (committed, err)
  else match committed.archive.deleteBody blockHash body with
    | .ok archive => ({ committed with archive }, err)
    | .error deleteErr => (committed, deleteErr.map .archive)

/-- Apply blocks until the new tip is reached. The first node is the one last
committed. -/
def applyBlocks (ctxt : BatchVerificationContext) (tip : Option Tip) :
    List (Header × Body × List (MainBlockHash × MainBlockInfo)) → Node → Node →
      Node × NodeResult Node
  | [], committed, node => (committed, .ok node)
  | (header, body, infos) :: blocks, committed, node =>
    match node.connectTip ctxt header body (.ofInfos infos) with
    | .error err =>
      let (committed, err) := committed.abortReorg header.hash body err
      (committed, .error err)
    | .ok node =>
      match node.reachedBetter tip with
      | .error err => (committed, .error err)
      | .ok false => applyBlocks ctxt tip blocks committed node
      | .ok true => applyBlocks ctxt tip blocks node node

/-- Reorg to a tip, if it is better than the current one. The result is `true`
if a reorg was attempted. -/
def reorgToTip (ctxt : BatchVerificationContext) (node : Node) (newTip : Tip) :
    Node × NodeResult Bool :=
  match node.prepareReorg newTip with
  | .error err => (node, .error err)
  | .ok none => (node, .ok false)
  | .ok (some reorg) =>
    match applyBlocks ctxt reorg.tip reorg.blocks node reorg.node with
    | (committed, .error err) => (committed, .error err)
    | (committed, .ok node) =>
      if node.state.tip = some newTip.blockHash then (node, .ok true)
      else (committed, .error (.panic "assert_eq!(tip, Some(new_tip.block_hash))"))

def blockCount (state : State) : Nat :=
  match state.height with
  | none => 0
  | some height => height + 1

/-- Disconnect tips until a block is the tip. -/
def disconnectUntil (target : Option BlockHash) : Nat → Node → NodeResult Node
  | 0, node => .ok node
  | fuel + 1, node =>
    if node.state.tip = target then .ok node
    else do
      let node ← node.disconnectTip
      disconnectUntil target fuel node

def inActiveChain (node : Node) (blockHash : BlockHash) : ArchiveResult Bool :=
  match node.state.tip with
  | none => .ok false
  | some tip => node.archive.isDescendant blockHash tip

/-- Invalidate a block, and reorg to its parent if it is in the active chain. -/
def invalidateBlock (node : Node) (blockHash : BlockHash) : NodeResult Node :=
  match node.archive.headers[blockHash]? with
  | none => .ok node
  | some header => do
      let inActiveChain ← mapFailure .archive (node.inActiveChain blockHash)
      let node ← if inActiveChain then
          node.disconnectUntil header.prevSideHash (blockCount node.state + 1)
        else .ok node
      .ok { node with archive := node.archive.invalidateBlock blockHash }

/-- Disconnect the tip of the state until it is one of the tips of the archive.
Only the block is disconnected, not its two-way peg data. -/
def rollBack : Nat → Node → NodeResult Node
  | 0, node => .ok node
  | fuel + 1, node =>
    match node.state.tip with
    | none => .ok node
    | some stateTip =>
      if stateTip ∈ node.archive.sideTips.sidechainTips then .ok node
      else do
        let header ← mapFailure .archive (node.archive.getHeader stateTip)
        let body ← mapFailure .archive (node.archive.getBody stateTip)
        let state ← mapFailure .state (node.state.disconnectTip header body)
        rollBack fuel { node with state }

/-- A reorg error that is not fatal is not passed on. -/
def ignoreInvalid (result : Node × NodeResult Bool) : Node × NodeResult Unit :=
  match result with
  | (node, .ok _) => (node, .ok ())
  | (node, .error err) =>
    if isFatalReorgError err then (node, .error err) else (node, .ok ())

/-- How the net task handles a mainchain event, after the mainchain task. -/
def handleMainchainBlockEvent (ctxt : BatchVerificationContext) (node : Node) :
    Node × NodeResult Unit :=
  match node.rollBack (blockCount node.state + 1) with
  | .error err => (node, .error err)
  | .ok node =>
    match node.archive.sideTips.bestSideTip with
    | none => (node, .ok ())
    | some bestSideTip => ignoreInvalid (node.reorgToTip ctxt bestSideTip)

end Node

end PlainBitnames
