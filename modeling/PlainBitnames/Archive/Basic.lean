import PlainBitnames.Lib.Lineage
import PlainBitnames.State.TwoWayPegData

/-!
The archive of headers and bodies of the sidechain and of headers and block
infos of the mainchain, with the queries on both forests. An operation takes
the archive and returns the archive it leaves behind. Heights are numbers
below `2 ^ 32` and works are numbers below `2 ^ 256`; an addition that leaves
the range panics. Hash sets are finite maps to the unit type; nothing that is
read from them depends on their order.
-/

namespace PlainBitnames

open Fallible Lineage

variable [Primitives]

/-- `bitcoin::BlockHash::all_zeros`. -/
def MainBlockHash.allZeros : MainBlockHash := 0

/-- `mainchain::BlockHeaderInfo`. -/
structure BlockHeaderInfo where
  blockHash : MainBlockHash
  prevBlockHash : MainBlockHash
  height : Nat
  work : Nat
deriving DecidableEq

/-- `mainchain::BlockInfo`: the events of a mainchain block, and the sidechain
block it commits to. -/
structure MainBlockInfo extends BlockInfo where
  bmmCommitment : Option BlockHash
deriving DecidableEq

inductive BmmResult where
  | verified
  | failed
deriving DecidableEq

/-- A tip refers to both a sidechain block and the mainchain block that commits
to it. -/
structure Tip where
  blockHash : BlockHash
  mainBlockHash : MainBlockHash
deriving DecidableEq

/-- The tip of the mainchain that the sidechain tips refer to. -/
structure MainchainTip where
  cumulativeWork : Nat
  tipInfo : Option BlockHeaderInfo
deriving DecidableEq

def MainchainTip.blockHash (tip : MainchainTip) : MainBlockHash :=
  match tip.tipInfo with
  | some info => info.blockHash
  | none => .allZeros

structure SidechainTipInfo where
  sidechainHeight : Nat
  work : Nat
  /-- Main block hash with the least amount of work. -/
  mainBlockHash : MainBlockHash
deriving DecidableEq

namespace SidechainTipInfo

/-- Tips are stored in the order of the height, the work, and the bytes of the
hash. -/
instance : Ord SidechainTipInfo :=
  ⟨compareLex (compareOn sidechainHeight)
    (compareLex (compareOn work) (compareOn fun info => Borsh.ser info.mainBlockHash))⟩

instance : Std.TransOrd SidechainTipInfo :=
  inferInstanceAs (Std.TransCmp (compareLex (compareOn sidechainHeight)
    (compareLex (compareOn work) (compareOn fun info => Borsh.ser info.mainBlockHash))))

omit [Primitives] in
theorem compare_eq {a b : SidechainTipInfo} :
    compare a b = .eq ↔ a = b := by
  change compareLex (compareOn sidechainHeight)
    (compareLex (compareOn work) (compareOn fun info => Borsh.ser info.mainBlockHash)) a b = _ ↔ _
  simp only [compareLex_eq_eq, compareOn, Std.compare_eq_iff_eq]
  constructor
  · rintro ⟨hheight, hwork, hbytes⟩
    have hhash := (Borsh.reads_bitVec 256).of_ser_eq rfl rfl hbytes
    cases a
    cases b
    simp_all
  · rintro rfl
    exact ⟨rfl, rfl, rfl⟩

instance : Std.LawfulEqOrd SidechainTipInfo where
  compare_self := compare_eq.mpr rfl
  eq_of_compare := compare_eq.mp

end SidechainTipInfo

/-- State as of the current mainchain tip, excluding sidechain state. -/
structure SideTips where
  mainchainTip : MainchainTip
  /-- Tips for this sidechain. -/
  sidechainTips : Db BlockHash SidechainTipInfo
  /-- Tips for this sidechain, sorted by height, then work. -/
  orderedSidechainTips : Db SidechainTipInfo BlockHash
deriving DecidableEq

inductive ArchiveError where
  /-- A database lookup without a result. -/
  | db
  | invalidPrevSideHash
  | noAncestor (blockHash : BlockHash) (depth : Nat)
  | noBlockHash (blockHash : BlockHash)
  | noBmmResult (blockHash : BlockHash)
  | noBody (blockHash : BlockHash)
  | noHeader (blockHash : BlockHash)
  | noHeight (blockHash : BlockHash)
  | noMainAncestor (blockHash : MainBlockHash) (depth : Nat)
  | noMainBlockHash (blockHash : MainBlockHash)
  | noMainBlockInfo (blockHash : MainBlockHash)
  | noMainHeaderInfo (blockHash : MainBlockHash)
  | noMainHeight (blockHash : MainBlockHash)
  | missingSidechainParent (blockHash : BlockHash)
  | missingSidechainTip (blockHash : BlockHash)
  | invalidMainchainParent (expected : MainBlockHash)
  | invalidMainchainParentHeight (tipHeight : Nat)
  | invalidTipHeight (expected : Nat)
  | noMainchainTip
deriving DecidableEq

abbrev ArchiveResult (α : Type) := Except (Failure ArchiveError) α

/-- The blocks that include a transaction, with its position, for each transaction. -/
abbrev Inclusions := Db Txid (Db BlockHash UInt32)

structure Archive where
  blockHashToHeight : Db BlockHash Nat
  /-- BMM results for each header. -/
  bmmResults : Db BlockHash (Db MainBlockHash BmmResult)
  bodies : Db BlockHash Body
  /-- Ancestors, such that the nth element is the ancestor `2 ^ (n + 1)` blocks
  before. -/
  exponentialAncestors : Db BlockHash (List BlockHash)
  exponentialMainAncestors : Db MainBlockHash (List MainBlockHash)
  headers : Db BlockHash Header
  /-- Blocks that have been invalidated. -/
  invalidBlocks : Db BlockHash Unit
  mainBlockHashToHeight : Db MainBlockHash Nat
  mainBlockInfos : Db MainBlockHash MainBlockInfo
  mainHeaderInfos : Db MainBlockHash BlockHeaderInfo
  /-- Mainchain successor blocks, of all known blocks and of the zero hash. -/
  mainSuccessors : Db MainBlockHash (Db MainBlockHash Unit)
  sideTips : SideTips
  /-- Successor blocks; the successors of `none` are the genesis blocks. -/
  successors : Db (Option BlockHash) (Db BlockHash Unit)
  totalWork : Db MainBlockHash Nat
  txidToInclusions : Inclusions
deriving DecidableEq

namespace Archive

def new : Archive where
  blockHashToHeight := ∅
  bmmResults := ∅
  bodies := ∅
  exponentialAncestors := ∅
  exponentialMainAncestors := ∅
  headers := ∅
  invalidBlocks := ∅
  mainBlockHashToHeight := ∅
  mainBlockInfos := ∅
  mainHeaderInfos := ∅
  mainSuccessors := (∅ : Db _ _).insert .allZeros ∅
  sideTips := ⟨⟨0, none⟩, ∅, ∅⟩
  successors := (∅ : Db _ _).insert none ∅
  totalWork := ∅
  txidToInclusions := ∅

def getHeight (a : Archive) (blockHash : BlockHash) : ArchiveResult Nat :=
  okOr a.blockHashToHeight[blockHash]? (.error (.noHeight blockHash))

def getBmmResults (a : Archive) (blockHash : BlockHash) : Db MainBlockHash BmmResult :=
  a.bmmResults[blockHash]?.getD ∅

def tryGetBmmResult (a : Archive) (blockHash : BlockHash) (mainHash : MainBlockHash) :
    Option BmmResult :=
  (a.getBmmResults blockHash)[mainHash]?

def getBmmResult (a : Archive) (blockHash : BlockHash) (mainHash : MainBlockHash) :
    ArchiveResult BmmResult :=
  okOr (a.tryGetBmmResult blockHash mainHash) (.error (.noBmmResult blockHash))

def containsBody (a : Archive) (blockHash : BlockHash) : Bool := a.bodies.contains blockHash

def getBody (a : Archive) (blockHash : BlockHash) : ArchiveResult Body :=
  okOr a.bodies[blockHash]? (.error (.noBody blockHash))

def getHeader (a : Archive) (blockHash : BlockHash) : ArchiveResult Header :=
  okOr a.headers[blockHash]? (.error (.noHeader blockHash))

def getMainBlockInfo (a : Archive) (mainHash : MainBlockHash) : ArchiveResult MainBlockInfo :=
  okOr a.mainBlockInfos[mainHash]? (.error (.noMainBlockInfo mainHash))

def getMainHeight (a : Archive) (blockHash : MainBlockHash) : ArchiveResult Nat :=
  okOr a.mainBlockHashToHeight[blockHash]? (.error (.noMainHeight blockHash))

def getMainHeaderInfo (a : Archive) (blockHash : MainBlockHash) : ArchiveResult BlockHeaderInfo :=
  okOr a.mainHeaderInfos[blockHash]? (.error (.noMainHeaderInfo blockHash))

def getMainSuccessors (a : Archive) (blockHash : MainBlockHash) :
    ArchiveResult (Db MainBlockHash Unit) :=
  okOr a.mainSuccessors[blockHash]? (.error (.noMainBlockHash blockHash))

/-- The successors of a block, or the genesis blocks. -/
def getSuccessors (a : Archive) (blockHash : Option BlockHash) : ArchiveResult (Db BlockHash Unit) :=
  okOr a.successors[blockHash]? (match blockHash with
    | some blockHash => .error (.noBlockHash blockHash)
    | none => .panic "Successors to None should always be known")

def getTotalWork (a : Archive) (blockHash : MainBlockHash) : ArchiveResult Nat :=
  okOr a.totalWork[blockHash]? (.error (.noMainHeaderInfo blockHash))

/-- The index of the sidechain. -/
def sideIndex (a : Archive) : Index BlockHash ArchiveError where
  height blockHash := a.blockHashToHeight[blockHash]?
  parent blockHash := do
    let header ← a.getHeader blockHash
    okOr header.prevSideHash (.panic "block with height >= 1 should have a parent")
  skips blockHash := a.exponentialAncestors[blockHash]?
  noHeight := .noHeight
  noAncestor := .noAncestor
  noSkips _ := .db

/-- The index of the mainchain. -/
def mainIndex (a : Archive) : Index MainBlockHash ArchiveError where
  height blockHash := a.mainBlockHashToHeight[blockHash]?
  parent blockHash := do
    let info ← a.getMainHeaderInfo blockHash
    .ok info.prevBlockHash
  skips blockHash := a.exponentialMainAncestors[blockHash]?
  noHeight := .noMainHeight
  noAncestor := .noMainAncestor
  noSkips _ := .db

def getNthAncestor (a : Archive) (blockHash : BlockHash) (n : Nat) : ArchiveResult BlockHash :=
  a.sideIndex.nthAncestor blockHash n

def getNthMainAncestor (a : Archive) (blockHash : MainBlockHash) (n : Nat) :
    ArchiveResult MainBlockHash :=
  a.mainIndex.nthAncestor blockHash n

/-- The second block is a descendant of the first. -/
def isDescendant (a : Archive) (ancestor descendant : BlockHash) : ArchiveResult Bool :=
  a.sideIndex.isDescendant ancestor descendant

/-- The second mainchain block is a descendant of the first. -/
def isMainDescendant (a : Archive) (ancestor descendant : MainBlockHash) : ArchiveResult Bool :=
  a.mainIndex.isDescendant ancestor descendant

/-- The last common ancestor of two blocks, if there is one. -/
def lastCommonAncestor (a : Archive) (blockHash0 blockHash1 : BlockHash) :
    ArchiveResult (Option BlockHash) :=
  a.sideIndex.lastCommon? blockHash0 blockHash1

/-- The last common mainchain ancestor of two blocks. Unlike on the sidechain it
is not checked that there is one. -/
def lastCommonMainAncestor (a : Archive) (blockHash0 blockHash1 : MainBlockHash) :
    ArchiveResult MainBlockHash :=
  a.mainIndex.lastCommon blockHash0 blockHash1

/-- One of two mainchain blocks is a descendant of the other. -/
def sharedMainchainLineage (a : Archive) (blockHash0 blockHash1 : MainBlockHash) :
    ArchiveResult Bool := do
  let (blockHash0, blockHash1, _) ← a.mainIndex.level blockHash0 blockHash1
  .ok (decide (blockHash0 = blockHash1))

/-- The number of a block and its ancestors. -/
def lineageLength (a : Archive) (blockHash : BlockHash) : Nat :=
  a.blockHashToHeight[blockHash]?.getD 0 + 1

/-- The number of a mainchain block and its ancestors. -/
def mainLineageLength (a : Archive) (blockHash : MainBlockHash) : Nat :=
  a.mainBlockHashToHeight[blockHash]?.getD 0 + 1

/-- `ancestors(..).find_map(..)`: the first result along a block and its
ancestors. -/
def findAncestor {β : Type} (a : Archive) (f : BlockHash → ArchiveResult (Option β)) :
    Nat → Option BlockHash → ArchiveResult (Option β)
  | 0, _ | _ + 1, none => .ok none
  | fuel + 1, some blockHash => do
      let header ← a.getHeader blockHash
      match ← f blockHash with
      | some found => .ok (some found)
      | none => findAncestor a f fuel header.prevSideHash

/-- `ancestors(..).take_while(..)`, each with its header and body: a block and its
ancestors, newest first, up to a block that is left out. -/
def blocksUntil (a : Archive) (stop : Option BlockHash) :
    Nat → Option BlockHash → ArchiveResult (List (Header × Body))
  | 0, _ | _ + 1, none => .ok []
  | fuel + 1, some blockHash => do
      let header ← a.getHeader blockHash
      if stop = some blockHash then .ok []
      else do
        let body ← a.getBody blockHash
        let rest ← blocksUntil a stop fuel header.prevSideHash
        .ok ((header, body) :: rest)

/-- `main_ancestors(..).take_while(..)`, each with its info: a mainchain block and
its ancestors, newest first, up to a block that is left out. -/
def mainInfosUntil (a : Archive) (stop : Option MainBlockHash) :
    Nat → MainBlockHash → ArchiveResult (List (MainBlockHash × MainBlockInfo))
  | 0, _ => .ok []
  | fuel + 1, blockHash =>
    if blockHash = .allZeros then .ok []
    else do
      let headerInfo ← a.getMainHeaderInfo blockHash
      if stop = some headerInfo.blockHash then .ok []
      else do
        let info ← a.getMainBlockInfo headerInfo.blockHash
        let rest ← mainInfosUntil a stop fuel headerInfo.prevBlockHash
        .ok ((headerInfo.blockHash, info) :: rest)

end Archive

end PlainBitnames
