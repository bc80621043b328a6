import PlainBitnames.Node.Run

/-!
A node with its mempool. The transactions of a block leave the mempool when the
block is connected, and are put back when it is disconnected.
-/

namespace PlainBitnames

open Fallible

variable [Primitives]

structure PoolNode where
  node : Node
  mempool : MemPool
deriving DecidableEq

namespace PoolNode

def new : PoolNode := ⟨.new, .new⟩

/-- Validate a transaction and put it into the mempool, unless it is there already. -/
def broadcastTransaction (ctxt : BatchVerificationContext) (pool : PoolNode)
    (transaction : AuthorizedTransaction) : NodeResult PoolNode := do
  let _fee ← mapFailure .state (pool.node.state.validateTransaction ctxt transaction)
  if transaction.transaction.txid ∈ pool.mempool.transactions then .ok pool
  else do
    let mempool ← mapFailure .memPool (pool.mempool.put transaction)
    .ok { pool with mempool }

def connectTip (ctxt : BatchVerificationContext) (pool : PoolNode) (header : Header) (body : Body)
    (data : TwoWayPegData) : NodeResult PoolNode := do
  let node ← pool.node.connectTip ctxt header body data
  .ok ⟨node, body.transactions.foldl (fun mempool tx => mempool.delete tx.txid) pool.mempool⟩

/-- The tip is disconnected before its transactions are put back, last one first. -/
def disconnectTip (pool : PoolNode) : NodeResult PoolNode := do
  let node ← pool.node.disconnectTip
  let tipHash ← okOr pool.node.state.tip (.error (.state .noTip))
  let tipBody ← mapFailure .archive (pool.node.archive.getBody tipHash)
  let transactions ← okOr tipBody.authorizedTransactions
    (.panic "called `Option::unwrap()` on a `None` value")
  let mempool ← mapFailure .memPool (transactions.reverse.foldlM MemPool.put pool.mempool)
  .ok ⟨node, mempool⟩

end PoolNode

end PlainBitnames
