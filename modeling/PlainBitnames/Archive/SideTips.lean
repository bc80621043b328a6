import PlainBitnames.Archive.Headers
import PlainBitnames.Archive.Inclusions

/-!
Tips of the sidechain as of the recorded mainchain tip. A tip is connected when
its block has a body, its parent is a tip, and a mainchain block in the active
chain verifies it. Storing and deleting bodies, and connecting and
disconnecting mainchain blocks, bring the tips up to date.
-/

namespace PlainBitnames

open Fallible

variable [Primitives]

namespace SideTips

/-- The tip that is last in the order of the tips. -/
def bestSideTip (tips : SideTips) : Option Tip :=
  (Db.last tips.orderedSidechainTips).map fun (info, blockHash) => ⟨blockHash, info.mainBlockHash⟩

/-- The height of a tip, one above its parent. -/
def tipHeight (tips : SideTips) (prevSideHash : Option BlockHash) : ArchiveResult Nat :=
  match prevSideHash with
  | none => .ok 0
  | some parentHash => do
      let parentInfo ← okOr tips.sidechainTips[parentHash]?
        (.error (.missingSidechainParent parentHash))
      .ok (min (parentInfo.sidechainHeight + 1) (2 ^ 32 - 1))

def connectSidechainTip (tips : SideTips) (mainBlockHash : MainBlockHash) (cumulativeWork : Nat)
    (sidechainBlockHash : BlockHash) (prevSideHash : Option BlockHash) :
    ArchiveResult SideTips := do
  let sidechainHeight ← tips.tipHeight prevSideHash
  if sidechainBlockHash ∈ tips.sidechainTips then .ok tips
  else
    let info : SidechainTipInfo := ⟨sidechainHeight, cumulativeWork, mainBlockHash⟩
    .ok { tips with
      sidechainTips := tips.sidechainTips.insert sidechainBlockHash info
      orderedSidechainTips := tips.orderedSidechainTips.insert info sidechainBlockHash }

/-- Disconnect a sidechain tip, if it is present. -/
def disconnectSidechainTip (tips : SideTips) (sideBlockHash : BlockHash) : SideTips :=
  match tips.sidechainTips[sideBlockHash]? with
  | none => tips
  | some info => { tips with
      sidechainTips := tips.sidechainTips.erase sideBlockHash
      orderedSidechainTips := tips.orderedSidechainTips.erase info }

/-- The tips with the block that a mainchain block commits to. -/
def connectCommitment (tips : SideTips) (mainBlockHash : MainBlockHash) (cumulativeWork : Nat)
    (bmmCommitment : Option (BlockHash × Option BlockHash)) : ArchiveResult SideTips :=
  match bmmCommitment with
  | none => .ok tips
  | some (blockHash, prevSideHash) =>
    tips.connectSidechainTip mainBlockHash cumulativeWork blockHash prevSideHash

/-- The height of a mainchain block on top of the recorded tip. -/
def checkTipHeight (tip : MainchainTip) (height : Nat) : ArchiveResult Unit :=
  match tip.tipInfo with
  | none => .ok ()
  | some info => do
      ensure (info.height + 1 < 2 ^ 32) (.panic "attempt to add with overflow")
      ensure (height = info.height + 1) (.error (.invalidTipHeight (info.height + 1)))

/-- Connect a mainchain tip. The commitment is to a block with its parent. -/
def connectMainchainTip (tips : SideTips) (headerInfo : BlockHeaderInfo)
    (bmmCommitment : Option (BlockHash × Option BlockHash)) : ArchiveResult SideTips := do
  ensure (headerInfo.prevBlockHash = tips.mainchainTip.blockHash)
    (.error (.invalidMainchainParent tips.mainchainTip.blockHash))
  checkTipHeight tips.mainchainTip headerInfo.height
  ensure (tips.mainchainTip.cumulativeWork + headerInfo.work < 2 ^ 256)
    (.panic "Addition of 256-bit integers overflowed")
  let cumulativeWork := tips.mainchainTip.cumulativeWork + headerInfo.work
  let tips ← tips.connectCommitment headerInfo.blockHash cumulativeWork bmmCommitment
  .ok { tips with mainchainTip := ⟨cumulativeWork, some headerInfo⟩ }

/-- The tip below the recorded one. -/
def prevTip (tipInfo : BlockHeaderInfo) (prevTipInfo : Option BlockHeaderInfo) :
    ArchiveResult (Option BlockHeaderInfo) :=
  match prevTipInfo with
  | some prevTipInfo => do
      ensure (prevTipInfo.blockHash = tipInfo.prevBlockHash)
        (.error (.invalidMainchainParent tipInfo.prevBlockHash))
      ensure (prevTipInfo.height + 1 < 2 ^ 32) (.panic "attempt to add with overflow")
      ensure (prevTipInfo.height + 1 = tipInfo.height)
        (.error (.invalidMainchainParentHeight tipInfo.height))
      .ok (if tipInfo.prevBlockHash ≠ .allZeros then some prevTipInfo else none)
  | none => do
      ensure (tipInfo.prevBlockHash = .allZeros)
        (.error (.invalidMainchainParent tipInfo.prevBlockHash))
      .ok none

/-- The tips without the one that a mainchain block committed to. It leaves the
order of the tips, if it was connected with this mainchain block. -/
def disconnectCommitment (tips : SideTips) (mainBlockHash : MainBlockHash)
    (bmmCommitment : Option BlockHash) : ArchiveResult SideTips :=
  match bmmCommitment with
  | none => .ok tips
  | some sideBlockHash => do
      let info ← okOr tips.sidechainTips[sideBlockHash]?
        (.error (.missingSidechainTip sideBlockHash))
      if info.mainBlockHash = mainBlockHash then do
        ensure (info ∈ tips.orderedSidechainTips) (.error (.missingSidechainTip sideBlockHash))
        .ok { tips with orderedSidechainTips := tips.orderedSidechainTips.erase info }
      else .ok tips

def disconnectMainchainTip (tips : SideTips) (prevTipInfo : Option BlockHeaderInfo)
    (bmmCommitment : Option BlockHash) : ArchiveResult SideTips := do
  let tipInfo ← okOr tips.mainchainTip.tipInfo (.error .noMainchainTip)
  let newTipInfo ← prevTip tipInfo prevTipInfo
  let tips ← tips.disconnectCommitment tipInfo.blockHash bmmCommitment
  ensure (tipInfo.work ≤ tips.mainchainTip.cumulativeWork)
    (.panic "Subtraction of 256-bit integers overflowed")
  .ok { tips with mainchainTip := ⟨tips.mainchainTip.cumulativeWork - tipInfo.work, newTipInfo⟩ }

end SideTips

namespace Archive

/-- The parent of a block is a tip, or it has none. -/
def parentIsTip (a : Archive) (prevSideHash : Option BlockHash) : Bool :=
  match prevSideHash with
  | none => true
  | some sideParent => decide (sideParent ∈ a.sideTips.sidechainTips)

/-- Connect a block as a tip for one of its BMM results. The flag records whether
one of them counted. -/
def connectVerification (blockHash : BlockHash) (header : Header) (acc : Archive × Bool)
    (result : MainBlockHash × BmmResult) : ArchiveResult (Archive × Bool) :=
  let (a, connected) := acc
  if result.2 = .failed then .ok (a, connected)
  else if !a.parentIsTip header.prevSideHash then .ok (a, connected)
  else do
    let active ← a.isMainDescendant result.1 a.sideTips.mainchainTip.blockHash
    if !active then .ok (a, connected)
    else do
      let cumulativeWork ← a.getTotalWork result.1
      let sideTips ← a.sideTips.connectSidechainTip result.1 cumulativeWork blockHash
        header.prevSideHash
      .ok ({ a with sideTips }, true)

/-- Connect a block as a tip. If it is one, its successors are next. -/
def updateSideTips (a : Archive) (blockHash : BlockHash) (header : Header) :
    ArchiveResult (Archive × List BlockHash) := do
  let (a, connected) ← (a.getBmmResults blockHash).toList.foldlM
    (connectVerification blockHash header) (a, false)
  if connected then do
    let successors ← a.getSuccessors (some blockHash)
    .ok (a, successors.keys)
  else .ok (a, [])

/-- Connect the blocks in a queue as tips, as far as they have bodies. -/
def updateQueue : Nat → Archive → List BlockHash → ArchiveResult Archive
  | 0, a, _ | _ + 1, a, [] => .ok a
  | fuel + 1, a, blockHash :: queue =>
    if !a.containsBody blockHash then updateQueue fuel a queue
    else do
      let header ← a.getHeader blockHash
      let (a, successors) ← a.updateSideTips blockHash header
      updateQueue fuel a (queue ++ successors)

/-- Store a block body. The header must already exist. -/
def putBody (a : Archive) (blockHash : BlockHash) (body : Body) : ArchiveResult Archive := do
  let header ← a.getHeader blockHash
  let a := { a with
    bodies := a.bodies.insert blockHash body
    txidToInclusions := a.txidToInclusions.insertBody blockHash body }
  let (a, queue) ← a.updateSideTips blockHash header
  updateQueue a.headers.size a queue

/-- Disconnect the tips in a queue with their successors. -/
def disconnectQueue : Nat → Archive → List BlockHash → ArchiveResult Archive
  | 0, a, _ | _ + 1, a, [] => .ok a
  | fuel + 1, a, blockHash :: queue =>
    if blockHash ∉ a.sideTips.sidechainTips then disconnectQueue fuel a queue
    else do
      let a := { a with sideTips := a.sideTips.disconnectSidechainTip blockHash }
      let successors ← a.getSuccessors (some blockHash)
      disconnectQueue fuel a (queue ++ successors.keys)

def deleteBody (a : Archive) (blockHash : BlockHash) (body : Body) : ArchiveResult Archive :=
  let a := { a with
    bodies := a.bodies.erase blockHash
    txidToInclusions := a.txidToInclusions.removeBody blockHash body }
  disconnectQueue (a.headers.size + 1) a [blockHash]

/-- The successors of blocks, without a block as a successor of its parent. -/
def withoutSuccessor (a : Archive) (blockHash : BlockHash) :
    Db (Option BlockHash) (Db BlockHash Unit) :=
  match a.headers[blockHash]? with
  | none => a.successors
  | some header =>
    match a.successors[header.prevSideHash]? with
    | none => a.successors
    | some predSuccessors =>
      a.successors.insert header.prevSideHash (predSuccessors.erase blockHash)

/-- A block leaves the tables of the archive, and its successors are next. -/
def invalidate (a : Archive) (blockHash : BlockHash) : Archive × List BlockHash :=
  let successors := a.withoutSuccessor blockHash
  ({ a with
    blockHashToHeight := a.blockHashToHeight.erase blockHash
    bodies := a.bodies.erase blockHash
    exponentialAncestors := a.exponentialAncestors.erase blockHash
    headers := a.headers.erase blockHash
    invalidBlocks := a.invalidBlocks.insert blockHash ()
    successors := successors.erase (some blockHash)
    txidToInclusions := a.txidToInclusions.discardBody blockHash a.bodies[blockHash]? },
    (successors[some blockHash]?.map Std.ExtTreeMap.keys).getD [])

/-- Invalidate the blocks on a stack with their successors. -/
def invalidateStack : Nat → Archive → List BlockHash → Archive
  | 0, a, _ | _ + 1, a, [] => a
  | fuel + 1, a, blockHash :: stack =>
    let (a, successors) := a.invalidate blockHash
    invalidateStack fuel a (successors.reverse ++ stack)

def invalidateBlock (a : Archive) (blockHash : BlockHash) : Archive :=
  invalidateStack (a.headers.size + 1) a [blockHash]

/-- The verification with more total work, the later one if it is equal. -/
def betterVerification (a : Archive) (best : Option (Nat × MainBlockHash))
    (result : MainBlockHash × BmmResult) : ArchiveResult (Option (Nat × MainBlockHash)) :=
  if result.2 = .failed then .ok best
  else do
    let work ← a.getTotalWork result.1
    match best with
    | some (bestWork, bestHash) =>
      .ok (some (if work < bestWork then (bestWork, bestHash) else (work, result.1)))
    | none => .ok (some (work, result.1))

def getBestMainVerification (a : Archive) (blockHash : BlockHash) :
    ArchiveResult MainBlockHash := do
  let best ← (a.getBmmResults blockHash).toList.foldlM a.betterVerification none
  okOr (best.map Prod.snd) (.error (.noBmmResult blockHash))

def mainParentHeaderInfo (a : Archive) (info : BlockHeaderInfo) :
    ArchiveResult (Option BlockHeaderInfo) :=
  if info.prevBlockHash = .allZeros then .ok none
  else do
    let parentInfo ← a.getMainHeaderInfo info.prevBlockHash
    .ok (some parentInfo)

end Archive

inductive MainchainEvent where
  | connectBlock (headerInfo : BlockHeaderInfo) (blockInfo : MainBlockInfo)
  | disconnectBlock (blockHash : MainBlockHash)

namespace Archive

/-- The block that a mainchain block commits to and its parent, if it can become
a tip. -/
def tipCommitment (a : Archive) (mainHash : MainBlockHash) (commitment : Option BlockHash) :
    ArchiveResult (Option (BlockHash × Option BlockHash)) :=
  match commitment with
  | none => .ok none
  | some sideBlockHash =>
    if !a.containsBody sideBlockHash then .ok none
    else do
      let sideHeader ← a.getHeader sideBlockHash
      if !a.parentIsTip sideHeader.prevSideHash then .ok none
      else do
        let result ← a.getBmmResult sideBlockHash mainHash
        match result with
        | .verified => .ok (some (sideBlockHash, sideHeader.prevSideHash))
        | .failed => .ok none

/-- The recorded mainchain tip moves to a stored block. -/
def connectMainchainTip (a : Archive) (headerInfo : BlockHeaderInfo)
    (commitment : Option BlockHash) : ArchiveResult Archive := do
  let bmmCommitment ← a.tipCommitment headerInfo.blockHash commitment
  let sideTips ← a.sideTips.connectMainchainTip headerInfo bmmCommitment
  .ok { a with sideTips }

/-- How the mainchain task handles an event. -/
def handleBlockEvent (a : Archive) : MainchainEvent → ArchiveResult Archive
  | .connectBlock headerInfo blockInfo => do
      let a ← a.putMainHeaderInfo headerInfo
      let a ← a.putMainBlockInfo headerInfo.blockHash blockInfo
      a.connectMainchainTip headerInfo blockInfo.bmmCommitment
  | .disconnectBlock blockHash => do
      let headerInfo ← a.getMainHeaderInfo blockHash
      let info ← a.getMainBlockInfo blockHash
      let parentInfo ← a.mainParentHeaderInfo headerInfo
      let sideTips ← a.sideTips.disconnectMainchainTip parentInfo info.bmmCommitment
      .ok { a with sideTips }

end Archive

end PlainBitnames
