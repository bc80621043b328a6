import PlainBitnames.Archive.BetterTip
import PlainBitnames.Archive.SideTips
import PlainBitnames.MemPool
import PlainBitnames.State.Run

/-!
The node: an archive and the state of the sidechain at its tip. A block is
connected with the two-way peg data of the mainchain blocks since its parent.
When it is disconnected, that data is rebuilt from the archive. A reorg
disconnects blocks down to the last common ancestor with a better tip and
connects the blocks up to it.
-/

namespace PlainBitnames

open Fallible

variable [Primitives]

structure Node where
  archive : Archive
  state : State
deriving DecidableEq

inductive NodeError where
  | archive (err : ArchiveError)
  | state (err : Error)
  | memPool (err : MemPoolError)
  | amountOverflow
  | amountUnderflow
deriving DecidableEq

abbrev NodeResult (α : Type) := Except (Failure NodeError) α

/-- The data of some mainchain blocks, oldest first. -/
def TwoWayPegData.ofInfos (infos : List (MainBlockHash × MainBlockInfo)) : TwoWayPegData :=
  ⟨infos.map fun (hash, info) => (hash, info.toBlockInfo)⟩

namespace Node

def connectTip (ctxt : BatchVerificationContext) (node : Node) (header : Header) (body : Body)
    (data : TwoWayPegData) : NodeResult Node := do
  let state ← mapFailure .state (node.state.applyBlock ctxt header body)
  let state ← mapFailure .state (state.connectTwoWayPegData data)
  let archive ← mapFailure .archive (node.archive.putHeader header)
  let archive ← mapFailure .archive (archive.putBody header.hash body)
  .ok ⟨archive, state⟩

/-- The last entry of a log of event blocks below a height. -/
def lastApplied (log : Db SeqIdx (MainBlockHash × Nat)) (height : Nat) :
    Option (MainBlockHash × Nat) :=
  (log.toList.reverse.find? fun entry => decide (entry.2.2 < height)).map Prod.snd

/-- The mainchain block at which the data of the tip starts, which is not part of
it. -/
def startBlock (a : Archive) (deposit withdrawal : Option (MainBlockHash × Nat)) :
    ArchiveResult (Option MainBlockHash) :=
  match deposit, withdrawal with
  | none, none => .ok none
  | some (blockHash, _), none | none, some (blockHash, _) => .ok (some blockHash)
  | some (depositBlock, depositHeight), some (withdrawalBlock, withdrawalHeight) =>
    match compare depositHeight withdrawalHeight with
    | .lt => .ok (some withdrawalBlock)
    | .gt => .ok (some depositBlock)
    | .eq => do
        let isAncestor ← a.isMainDescendant withdrawalBlock depositBlock
        if isAncestor then .ok (some withdrawalBlock)
        else do
          let isDescendant ← a.isMainDescendant depositBlock withdrawalBlock
          ensure (isDescendant = true)
            (.panic "assert!(is_main_descendant(deposit_block, withdrawal_event_block))")
          .ok (some depositBlock)

/-- The data with which a block at a height was connected, rebuilt from the
archive. Mainchain blocks without events are left out. -/
def undoData (node : Node) (prevMainHash : MainBlockHash) (height : Nat) :
    ArchiveResult TwoWayPegData := do
  let start ← startBlock node.archive (lastApplied node.state.depositBlocks height)
    (lastApplied node.state.withdrawalBundleEventBlocks height)
  let infos ← node.archive.mainInfosUntil start (node.archive.mainLineageLength prevMainHash)
    prevMainHash
  .ok (.ofInfos (infos.filter fun (_, info) => !info.events.isEmpty).reverse)

def disconnectTip (node : Node) : NodeResult Node := do
  let tipHash ← okOr node.state.tip (.error (.state .noTip))
  let header ← mapFailure .archive (node.archive.getHeader tipHash)
  let body ← mapFailure .archive (node.archive.getBody tipHash)
  let height ← okOr node.state.height (.error (.state .noTip))
  let data ← mapFailure .archive (node.undoData header.prevMainHash height)
  let state ← mapFailure .state (node.state.disconnectTwoWayPegData data)
  let state ← mapFailure .state (state.disconnectTip header body)
  .ok { node with state }

/-- The blocks up to a new tip that are not common with the current one, oldest
first. -/
def blocksToApply (a : Archive) (commonAncestor : Option BlockHash) (newTip : BlockHash) :
    ArchiveResult (List (Header × Body)) := do
  let header ← a.getHeader newTip
  let body ← a.getBody newTip
  let ancestors ← a.blocksUntil commonAncestor (a.lineageLength newTip) header.prevSideHash
  .ok ((header, body) :: ancestors).reverse

/-- The mainchain blocks since those of the common ancestor, newest last. -/
def twoWayPegDataBatch (a : Archive) (commonAncestor : Option BlockHash)
    (prevMainHash : MainBlockHash) : ArchiveResult (List (MainBlockHash × MainBlockInfo)) := do
  let commonPrevMainHash ← match commonAncestor with
    | none => .ok none
    | some commonAncestor => do
        let header ← a.getHeader commonAncestor
        .ok (some header.prevMainHash)
  let infos ← a.mainInfosUntil commonPrevMainHash (a.mainLineageLength prevMainHash) prevMainHash
  .ok infos.reverse

/-- Take mainchain blocks from the batch, oldest first, until the one that a block
builds on. -/
def fillTwoWayPegData (prevMainHash : MainBlockHash) :
    List (MainBlockHash × MainBlockInfo) →
      List (MainBlockHash × MainBlockInfo) × List (MainBlockHash × MainBlockInfo)
  | [] => ([], [])
  | (blockHash, info) :: batch =>
    if blockHash = prevMainHash then ([(blockHash, info)], batch)
    else
      let (taken, rest) := fillTwoWayPegData prevMainHash batch
      ((blockHash, info) :: taken, rest)

/-- The mainchain blocks with which each block is connected. -/
def splitBatch : List (Header × Body) → List (MainBlockHash × MainBlockInfo) →
    List (Header × Body × List (MainBlockHash × MainBlockInfo))
  | [], _ => []
  | (header, body) :: blocks, batch =>
    let (taken, rest) := fillTwoWayPegData header.prevMainHash batch
    (header, body, taken) :: splitBatch blocks rest

end Node

end PlainBitnames
