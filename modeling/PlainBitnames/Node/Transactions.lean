import PlainBitnames.Node.Mining

/-!
Looking up a transaction by its id: in the bodies of the archive, by way of the index of
inclusions, and in the mempool. A transaction that a peer pushes is validated on the state.
-/

namespace PlainBitnames

open Fallible

variable [Primitives]

/-- Where a transaction is included. -/
structure TxIn where
  blockHash : BlockHash
  idx : UInt32
deriving DecidableEq

namespace PoolNode

/-- The blocks that include a transaction, in the order of their hashes. -/
def inclusions (pool : PoolNode) (txid : Txid) : List (BlockHash × UInt32) :=
  (pool.node.archive.txidToInclusions.ofTx txid).toList

/-- A transaction of the archive or the mempool, if it exists. -/
def tryGetTransaction (pool : PoolNode) (txid : Txid) : NodeResult (Option Transaction) :=
  match (pool.inclusions txid).head? with
  | some (blockHash, txin) => do
      let body ← mapFailure .archive (pool.node.archive.getBody blockHash)
      let tx ← okOr body.transactions[txin.toNat]?
        (.panic "called `Option::unwrap()` on a `None` value")
      .ok (some tx)
  | none => .ok (pool.mempool.transactions[txid]?.map Authorized.transaction)

/-- The transactions of a stored body with their authorizations. -/
def authorizedTransactions (pool : PoolNode) (blockHash : BlockHash) :
    NodeResult (List AuthorizedTransaction) := do
  let body ← mapFailure .archive (pool.node.archive.getBody blockHash)
  okOr body.authorizedTransactions (.panic "called `Option::unwrap()` on a `None` value")

/-- A signed transaction of the mempool or the archive. -/
def getAuthorizedTransaction (pool : PoolNode) (txid : Txid) :
    NodeResult (Option AuthorizedTransaction) :=
  match pool.mempool.transactions[txid]? with
  | some transaction => .ok (some transaction)
  | none =>
    match (pool.inclusions txid).head? with
    | none => .ok none
    | some (blockHash, index) => do
        let transactions ← pool.authorizedTransactions blockHash
        .ok transactions[index.toNat]?

/-- A block is the tip or one of its ancestors. Without a tip every block counts. -/
def isIncluded (pool : PoolNode) (inclusion : BlockHash × UInt32) : NodeResult Bool :=
  match pool.node.state.tip with
  | some tip => mapFailure .archive (pool.node.archive.isDescendant inclusion.1 tip)
  | none => .ok true

/-- A transaction of the mempool that can be filled from the utxos. -/
def tryGetFilledPooled (pool : PoolNode) (txid : Txid) :
    NodeResult (Option (Authorized FilledTransaction × Option TxIn)) :=
  match pool.mempool.transactions[txid]? with
  | none => .ok none
  | some authTx =>
    match pool.node.state.fillAuthorizedTransaction authTx with
    | .ok filledTx => .ok (some (filledTx, none))
    | .error (.error (.noUtxo _)) => .ok none
    | .error err => mapFailure .state (.error err)

/-- A filled transaction of the archive or the mempool with its position in the archive, if
it exists and can be filled with the current state. -/
def tryGetFilledTransaction (pool : PoolNode) (txid : Txid) :
    NodeResult (Option (Authorized FilledTransaction × Option TxIn)) := do
  match ← (pool.inclusions txid).findM? pool.isIncluded with
  | some (blockHash, idx) => do
      let authTxs ← pool.authorizedTransactions blockHash
      let authTx ← okOr authTxs[idx.toNat]? (.panic "called `Option::unwrap()` on a `None` value")
      let filledTx ← mapFailure .state
        (pool.node.state.fillTransactionFromStxos authTx.transaction)
      .ok (some (⟨filledTx, authTx.authorizations⟩, some ⟨blockHash, idx⟩))
  | none => pool.tryGetFilledPooled txid

end PoolNode

/-- The response to a transaction that a peer pushes. -/
inductive PushTransactionResponse where
  | transactionAccepted (txid : Txid)
  | transactionRejected (txid : Txid)
deriving DecidableEq

/-- Handle a transaction that a peer pushes: the response to the peer, and the new
transaction, if any. An error ends the connection. -/
def handlePushTx (ctxt : BatchVerificationContext) (state : State) (tx : AuthorizedTransaction) :
    Option PushTransactionResponse × Result (Option AuthorizedTransaction) :=
  let txid := tx.transaction.txid
  match state.validateTransaction ctxt tx with
  | .error (.error (.noUtxo _)) => (some (.transactionRejected txid), .ok none)
  | .error (.error err) => (some (.transactionRejected txid), .error (.error err))
  | .error (.panic message) => (none, .error (.panic message))
  | .ok _ => (some (.transactionAccepted txid), .ok (some tx))

end PlainBitnames
