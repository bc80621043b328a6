import PlainBitnames.Archive.Basic

/-!
Storing headers of the sidechain and headers and block infos of the mainchain.
Each of them brings the results of blind merged mining up to date: a header
those of the mainchain blocks already stored, and a block info that of the
block it commits to.
-/

namespace PlainBitnames

open Fallible Lineage

variable [Primitives]

namespace Archive

/-- The next height. -/
def heightPlusOne (height : Nat) : ArchiveResult Nat := do
  ensure (height + 1 < 2 ^ 32) (.panic "attempt to add with overflow")
  .ok (height + 1)

/-- Some mainchain block with a verified result is an ancestor of the given
block. -/
def anyVerifiedBefore (a : Archive) (mainBlock : MainBlockHash) :
    List (MainBlockHash × BmmResult) → ArchiveResult Bool
  | [] => .ok false
  | (bmmBlock, bmmResult) :: rest =>
    if bmmResult = .verified then do
      let isAncestor ← a.isMainDescendant bmmBlock mainBlock
      if isAncestor then .ok true else anyVerifiedBefore a mainBlock rest
    else anyVerifiedBefore a mainBlock rest

/-- There is a valid BMM commitment to the parent in the main ancestry. -/
def parentVerified (a : Archive) (parent : Option BlockHash) (mainBlock : MainBlockHash) :
    ArchiveResult Bool :=
  match parent with
  | none => .ok true
  | some parent => a.anyVerifiedBefore mainBlock (a.getBmmResults parent).toList

def newHeight (a : Archive) (header : Header) : ArchiveResult Nat :=
  match header.prevSideHash with
  | none => .ok 0
  | some parent => do
      let height ← okOr a.blockHashToHeight[parent]? (.error .invalidPrevSideHash)
      heightPlusOne height

/-- The header with its height, and as a successor of its parent. -/
def storeHeader (a : Archive) (header : Header) (height : Nat) : ArchiveResult Archive := do
  let blockHash := header.hash
  let a := { a with
    blockHashToHeight := a.blockHashToHeight.insert blockHash height
    headers := a.headers.insert blockHash header }
  let predSuccessors ← a.getSuccessors header.prevSideHash
  let successors := a.successors.insert header.prevSideHash (predSuccessors.insert blockHash ())
  .ok { a with
    successors := successors.insert (some blockHash) (successors[some blockHash]?.getD ∅) }

/-- The result of a header at a mainchain block whose parent it names. -/
def headerBmmResult (a : Archive) (header : Header) (mainBlock : MainBlockHash) :
    ArchiveResult BmmResult := do
  let info ← a.getMainBlockInfo mainBlock
  if info.bmmCommitment ≠ some header.hash then .ok .failed
  else do
    let mainHeaderInfo ← a.getMainHeaderInfo mainBlock
    if header.prevMainHash ≠ mainHeaderInfo.prevBlockHash then .ok .failed
    else do
      let verified ← a.parentVerified header.prevSideHash mainBlock
      .ok (if verified then .verified else .failed)

/-- The results of a header at the mainchain blocks whose parent it names. -/
def headerBmmResults (a : Archive) (header : Header) :
    ArchiveResult (Db MainBlockHash BmmResult) := do
  let mainBlocks ← a.getMainSuccessors header.prevMainHash
  mainBlocks.toList.foldlM (fun bmmResults (mainBlock, _) => do
    let bmmResult ← a.headerBmmResult header mainBlock
    .ok (bmmResults.insert mainBlock bmmResult)) (a.getBmmResults header.hash)

/-- Store a header. -/
def putHeader (a : Archive) (header : Header) : ArchiveResult Archive := do
  let height ← a.newHeight header
  let a ← a.storeHeader header height
  let exponentialAncestors ← a.sideIndex.newSkips
    (okOr header.prevSideHash (.panic "called `Option::unwrap()` on a `None` value")) height
  let a := { a with
    exponentialAncestors := a.exponentialAncestors.insert header.hash exponentialAncestors }
  let bmmResults ← a.headerBmmResults header
  .ok { a with bmmResults := a.bmmResults.insert header.hash bmmResults }

/-- The result of a stored header at a mainchain block that commits to it. -/
def commitmentBmmResult (a : Archive) (header : Header) (mainHash : MainBlockHash)
    (mainHeaderInfo : BlockHeaderInfo) : ArchiveResult BmmResult :=
  if header.prevMainHash ≠ mainHeaderInfo.prevBlockHash then .ok .failed
  else do
    let verified ← a.parentVerified header.prevSideHash mainHash
    .ok (if verified then .verified else .failed)

/-- The info of the parent of a mainchain block must be stored. -/
def requireMainParentInfo (a : Archive) (info : BlockHeaderInfo) : ArchiveResult Unit :=
  if info.prevBlockHash ≠ .allZeros then do
    let _ ← a.getMainBlockInfo info.prevBlockHash
    .ok ()
  else .ok ()

/-- The result of the block that a mainchain block commits to, if there is one
and its header is stored. -/
def putCommitmentBmmResult (a : Archive) (mainHash : MainBlockHash)
    (mainHeaderInfo : BlockHeaderInfo) (commitment : Option BlockHash) : ArchiveResult Archive :=
  match commitment with
  | none => .ok a
  | some commitment =>
    match a.headers[commitment]? with
    | none => .ok a
    | some header => do
        let bmmResult ← a.commitmentBmmResult header mainHash mainHeaderInfo
        .ok { a with bmmResults :=
          a.bmmResults.insert commitment ((a.getBmmResults commitment).insert mainHash bmmResult) }

/-- Store the info of a mainchain block. -/
def putMainBlockInfo (a : Archive) (mainHash : MainBlockHash) (blockInfo : MainBlockInfo) :
    ArchiveResult Archive := do
  let mainHeaderInfo ← a.getMainHeaderInfo mainHash
  a.requireMainParentInfo mainHeaderInfo
  { a with mainBlockInfos := a.mainBlockInfos.insert mainHash blockInfo }.putCommitmentBmmResult
    mainHash mainHeaderInfo blockInfo.bmmCommitment

def newMainHeight (a : Archive) (info : BlockHeaderInfo) : ArchiveResult Nat :=
  if info.prevBlockHash = .allZeros then .ok 0
  else do
    let height ← a.getMainHeight info.prevBlockHash
    heightPlusOne height

/-- The work up to a new mainchain header. -/
def newTotalWork (a : Archive) (info : BlockHeaderInfo) : ArchiveResult Nat :=
  if info.prevBlockHash ≠ .allZeros then do
    let work ← a.getTotalWork info.prevBlockHash
    ensure (work + info.work < 2 ^ 256) (.panic "Addition of 256-bit integers overflowed")
    .ok (work + info.work)
  else .ok info.work

/-- The mainchain header with its height and work, and as a successor of its
parent. -/
def storeMainHeaderInfo (a : Archive) (info : BlockHeaderInfo) (height totalWork : Nat) :
    ArchiveResult Archive := do
  let a := { a with
    mainBlockHashToHeight := a.mainBlockHashToHeight.insert info.blockHash height
    mainHeaderInfos := a.mainHeaderInfos.insert info.blockHash info
    totalWork := a.totalWork.insert info.blockHash totalWork }
  let predSuccessors ← a.getMainSuccessors info.prevBlockHash
  let successors := a.mainSuccessors.insert info.prevBlockHash
    (predSuccessors.insert info.blockHash ())
  .ok { a with
    mainSuccessors := successors.insert info.blockHash (successors[info.blockHash]?.getD ∅) }

/-- Store a mainchain header. -/
def putMainHeaderInfo (a : Archive) (info : BlockHeaderInfo) : ArchiveResult Archive := do
  ensure (a.mainHeaderInfos[info.prevBlockHash]?.isSome ∨ info.prevBlockHash = .allZeros)
    (.error (.noMainHeaderInfo info.prevBlockHash))
  let height ← a.newMainHeight info
  let totalWork ← a.newTotalWork info
  let a ← a.storeMainHeaderInfo info height totalWork
  let exponentialAncestors ← a.mainIndex.newSkips (.ok info.prevBlockHash) height
  .ok { a with exponentialMainAncestors :=
    a.exponentialMainAncestors.insert info.blockHash exponentialAncestors }

end Archive

end PlainBitnames
