import PlainBitnames.Lib.MerkleTree
import PlainBitnames.Types.Filled

/-!
Headers and bodies, and the merkle root of a body. The transactions are the
leaves of a complete binary tree, or of a levelized tree if there are a
thousand or more; every node is annotated with the total of the fees and of the
canonical sizes below it. The outputs of the coinbase are the leaves of a
complete tree annotated with their values.
-/

namespace PlainBitnames

open Borsh Fallible

variable [Primitives]

structure Header where
  merkleRoot : MerkleRoot
  prevSideHash : Option BlockHash
  prevMainHash : MainBlockHash
deriving DecidableEq

instance : Borsh Header where
  ser h := ser h.merkleRoot ++ (ser h.prevSideHash ++ ser h.prevMainHash)
  fits _ := true

structure Coinbase where
  memo : List UInt8
  outputs : List Output
deriving DecidableEq

instance : Borsh Coinbase where
  ser c := ser c.memo ++ ser c.outputs
  fits c := fits c.memo && fits c.outputs

/-- A coinbase txid hashes the merkle root of its block, the previous mainchain
hash, and the previous sidechain hash. -/
def Coinbase.computeTxid (merkleRoot : MerkleRoot) (prevMainHash : MainBlockHash)
    (prevSideHash : Option BlockHash) : CoinbaseTxid :=
  hash (merkleRoot, prevMainHash, prevSideHash)

def Header.computeCoinbaseTxid (header : Header) : CoinbaseTxid :=
  Coinbase.computeTxid header.merkleRoot header.prevMainHash header.prevSideHash

def Header.hash (header : Header) : BlockHash := PlainBitnames.hash header

structure Authorization where
  verifyingKey : VerifyingKey
  signature : Signature
deriving DecidableEq

instance : Borsh Authorization where
  ser a := ser a.verifyingKey ++ ser a.signature
  fits _ := true

structure Body where
  coinbase : Coinbase
  transactions : List Transaction
  authorizations : List Authorization
deriving DecidableEq

instance : Borsh Body where
  ser b := ser b.coinbase ++ (ser b.transactions ++ ser b.authorizations)
  fits b := fits b.coinbase && fits b.transactions && fits b.authorizations

/-- A transaction with its authorizations. -/
structure Authorized (T : Type) where
  transaction : T
  authorizations : List Authorization
deriving DecidableEq

abbrev AuthorizedTransaction := Authorized Transaction

def Body.new (authorizedTransactions : List AuthorizedTransaction) (coinbase : Coinbase) : Body where
  coinbase := coinbase
  transactions := authorizedTransactions.map Authorized.transaction
  authorizations := authorizedTransactions.flatMap Authorized.authorizations

/-- Size limit of a body in bytes. -/
def Body.maxSize : Nat := 8 * 1024 * 1024

def Body.getCoinbaseValue (body : Body) : Option Amount :=
  Checked.sum? (body.coinbase.outputs.map Output.getValue)

inductive ComputeMerkleRootError where
  | feeComputation (txid : Txid) (source : GetFeeError)
deriving DecidableEq

/-- Addition that panics when it leaves the range. -/
def addOrPanic {E : Type} (a b : UInt64) : Except (Failure E) UInt64 :=
  okOr (Checked.add? a b) (.panic "attempt to add with overflow")

/-- Node of an annotated tree. The amount is the total of the fees in the tree
of transactions (`CbmtNode`) and of the values in the tree of coinbase outputs
(`CoinbaseCbmtNode`). -/
structure CbmtNode where
  commitment : Hash
  amount : Amount
  canonicalSize : UInt64
  index : Nat
deriving DecidableEq

/-- `CbmtNode::default()`. -/
def CbmtNode.default : CbmtNode := ⟨zeroHash, 0, 0, 0⟩

/-- The totals of two nodes and the commitment to both (`CbmtNodePreCommitment`,
`CoinbaseCbmtNodePreCommitment`), under the given index. -/
def CbmtNode.parent {E : Type} (lnode rnode : CbmtNode) (index : Nat) :
    Except (Failure E) CbmtNode := do
  let amount ← addOrPanic lnode.amount rnode.amount
  let canonicalSize ← addOrPanic lnode.canonicalSize rnode.canonicalSize
  .ok ⟨hash (lnode.commitment, amount, canonicalSize, rnode.commitment),
    amount, canonicalSize, index⟩

/-- `MergeFeeSizeTotal::merge`. -/
def mergeFeeSizeTotal {E : Type} (lnode rnode : CbmtNode) : Except (Failure E) CbmtNode := do
  let node ← lnode.parent rnode ((lnode.index - 1) / 2)
  ensure (lnode.index + 1 = rnode.index) (.panic "assert_eq!(lnode.index + 1, rnode.index)")
  .ok node

/-- `MergeValueSizeTotal::merge`. -/
def mergeValueSizeTotal {E : Type} (lnode rnode : CbmtNode) : Except (Failure E) CbmtNode := do
  ensure (lnode.index + 1 = rnode.index) (.panic "assert_eq!(lnode.index + 1, rnode.index)")
  lnode.parent rnode ((lnode.index - 1) / 2)

namespace Coinbase

/-- The leaf of a coinbase output (`CoinbaseCbmtLeafPreCommitment`). -/
def outputLeaf {E : Type} (nOutputs : Nat) (output : Output) (index : Nat) :
    Except (Failure E) CbmtNode := do
  -- `borsh::object_length(..).unwrap_or(0)`
  let canonicalSize : UInt64 :=
    if fits output ∧ (ser output).length < 2 ^ 64 then UInt64.ofNat (ser output).length else 0
  ensure (fits output) (.panic "failed to serialize with borsh to compute a hash")
  .ok ⟨PlainBitnames.hash (output.getValue, canonicalSize, output), output.getValue,
    canonicalSize, index + nOutputs - 1⟩

def computeOutputsMerkleRoot {E : Type} (coinbase : Coinbase) :
    Except (Failure E) Hash := do
  let leaves ← coinbase.outputs.zipIdx.mapM fun (output, index) =>
    outputLeaf coinbase.outputs.length output index
  let root ← MerkleTree.completeRoot mergeValueSizeTotal .default leaves
  .ok root.commitment

def computeMerkleRoot {E : Type} (coinbase : Coinbase) : Except (Failure E) Hash := do
  let outputsCommitment ← coinbase.computeOutputsMerkleRoot
  ensure (fits coinbase.memo) (.panic "failed to serialize with borsh to compute a hash")
  .ok (PlainBitnames.hash (coinbase.memo, outputsCommitment))

end Coinbase

namespace Body

/-- The leaf of a transaction (`CbmtLeafPreCommitment`). -/
def transactionLeaf (nTxs : Nat) (tx : FilledTransaction) (index : Nat) :
    Except (Failure ComputeMerkleRootError) CbmtNode := do
  let fees ← tx.getFee.mapError fun source => .error (.feeComputation tx.txid source)
  -- `borsh::object_length(..).unwrap()`
  ensure (fits tx.transaction ∧ (ser tx.transaction).length < 2 ^ 64)
    (.panic "called `Result::unwrap()` on an `Err` value")
  let canonicalSize := UInt64.ofNat (ser tx.transaction).length
  .ok ⟨PlainBitnames.hash (fees, canonicalSize, tx.transaction), fees, canonicalSize,
    index + nTxs - 1⟩

/-- `compute_merkle_root_levelized_parallel`. -/
def computeMerkleRootLevelized (leaves : List CbmtNode) :
    Except (Failure ComputeMerkleRootError) CbmtNode := do
  let final ← MerkleTree.levelize
    (fun parentIdx (lnode rnode : CbmtNode) => lnode.parent rnode parentIdx)
    leaves.length leaves
  okOr final.head? (.panic "Tree should have exactly one root")

/-- From this number of transactions on the tree is levelized. -/
def levelizedThreshold : Nat := 1000

/-- The root of the tree of transactions. -/
def computeTxsRoot (nTxs : Nat) (leaves : List CbmtNode) :
    Except (Failure ComputeMerkleRootError) CbmtNode :=
  if levelizedThreshold ≤ nTxs then computeMerkleRootLevelized leaves
  else MerkleTree.completeRoot mergeFeeSizeTotal .default leaves

def computeMerkleRoot (coinbase : Coinbase) (txs : List FilledTransaction) :
    Except (Failure ComputeMerkleRootError) MerkleRoot := do
  let leaves ← txs.zipIdx.mapM fun (tx, index) => transactionLeaf txs.length tx index
  let txsRoot ← computeTxsRoot txs.length leaves
  let coinbaseRoot ← coinbase.computeMerkleRoot
  .ok (PlainBitnames.hash (coinbaseRoot, txsRoot.commitment))

end Body

end PlainBitnames
