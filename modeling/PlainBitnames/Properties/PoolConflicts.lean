import PlainBitnames.Node.Pool
import PlainBitnames.Properties.Segments
import PlainBitnames.State.BlockSpec

/-!
Disconnecting a block puts its transactions back into the mempool. Connecting it
took out only the block's own transactions, so others that spend the same outputs
may be left, and then the mempool does not take the block's transactions back.
-/

namespace PlainBitnames

open Fallible

section

variable [Primitives] {ctxt : BatchVerificationContext} {state state' : State} {header : Header}
  {body : Body}

theorem State.applyBlock_nodup (h : state.applyBlock ctxt header body = .ok state') :
    (body.transactions.flatMap Transaction.inputs).Nodup := by
  obtain ⟨p, _, _, hp, -⟩ := applyBlock_ok h
  have hinputs : body.transactions.flatMap Transaction.inputs =
      p.filledTransactions.flatMap FilledTransaction.inputs := by
    rw [hp.transactions_eq, List.flatMap_map]
    rfl
  rw [hinputs]
  exact hp.nodup

/-- The transactions of a block that was applied have an authorization for each
input. -/
theorem State.applyBlock_authorized (h : state.applyBlock ctxt header body = .ok state') :
    ∃ authorized, body.authorizedTransactions = some authorized ∧
      authorized.map Authorized.transaction = body.transactions := by
  obtain ⟨p, _, _, hp, -⟩ := applyBlock_ok h
  obtain ⟨hcount, -⟩ := ensure_bind_eq_ok.mp hp.verified
  exact takeAuthorizations_eq_some hcount

namespace PoolNode

variable {pool : PoolNode} {node : Node}

/-- What remains of disconnecting a block after its state is disconnected. -/
theorem disconnectTip_eq {authorized : List AuthorizedTransaction}
    (htip : pool.node.state.tip = some header.hash)
    (hbody : pool.node.archive.bodies[header.hash]? = some body)
    (hauthorized : body.authorizedTransactions = some authorized)
    (hdisconnect : pool.node.disconnectTip = .ok node) :
    pool.disconnectTip = (do
      let mempool ← mapFailure .memPool (authorized.reverse.foldlM MemPool.put pool.mempool)
      .ok ⟨node, mempool⟩) := by
  have hget : mapFailure NodeError.archive (pool.node.archive.getBody header.hash) = .ok body :=
    mapFailure_eq_ok.mpr (okOr_eq_ok.mpr hbody)
  unfold disconnectTip
  rw [hdisconnect, htip]
  simp only [ok_bind, okOr_some, hget, hauthorized]

end PoolNode

/-- Disconnecting a block that was connected does not fail because of the mempool
exactly when the mempool spends none of the block's inputs. -/
theorem disconnectTip_memPool (hconnected : state.applyBlock ctxt header body = .ok state')
    {pool : PoolNode} {node : Node} (htip : pool.node.state.tip = some header.hash)
    (hbody : pool.node.archive.bodies[header.hash]? = some body)
    (hdisconnect : pool.node.disconnectTip = .ok node) :
    (∀ err, pool.disconnectTip ≠ .error (.error (.memPool err))) ↔
      ∀ tx ∈ body.transactions, ∀ input ∈ tx.inputs, input ∉ pool.mempool.spentUtxos := by
  obtain ⟨authorized, hauthorized, htransactions⟩ := State.applyBlock_authorized hconnected
  have hnodup := State.applyBlock_nodup hconnected
  rw [PoolNode.disconnectTip_eq htip hbody hauthorized hdisconnect]
  have hput : (∃ mempool, authorized.reverse.foldlM MemPool.put pool.mempool = .ok mempool) ↔
      ∀ tx ∈ body.transactions, ∀ input ∈ tx.inputs, input ∉ pool.mempool.spentUtxos := by
    rw [MemPool.foldlM_put_isOk, ← htransactions]
    rw [← htransactions, List.flatMap_map] at hnodup
    have hreverse : (authorized.reverse.flatMap fun tx => tx.transaction.inputs).Nodup :=
      ((List.reverse_perm authorized).flatMap_right _).nodup_iff.mpr hnodup
    simp only [hreverse, true_and, List.mem_reverse, List.forall_mem_map]
  rw [← hput]
  cases hresult : authorized.reverse.foldlM MemPool.put pool.mempool with
  | ok mempool => exact ⟨fun _ => ⟨mempool, rfl⟩, fun _ _ => nofun⟩
  | error err =>
    cases MemPool.foldlM_put_error hresult
    exact ⟨fun h => absurd rfl (h .utxoDoubleSpent), nofun⟩

end

namespace Instance

/-- Another transaction that spends the output of `mint`. -/
def rivalSpend : AuthorizedTransaction :=
  ⟨⟨[.regular mint.txid 0], [], [1], none⟩, [⟨7, 7⟩]⟩

def mintHeader : Header := { mine .empty mintBody with prevMainHash := 1 }

def spendHeader : Header :=
  { mine minted spendBody with prevSideHash := some mintHeader.hash, prevMainHash := 2 }

/-- The second and the third mainchain block commit to a block that creates an output
and to one that spends it. -/
def mintMain : Mainchain := lineMainchain [none, none, some mintHeader, some spendHeader]

/-- Both blocks are stored, and the first one is connected. -/
def mintOps : List NodeOp :=
  [connectMain mintMain 1, connectMain mintMain 2, connectMain mintMain 3,
    .header mintHeader, .body mintHeader.hash mintBody,
    .header spendHeader, .body spendHeader.hash spendBody, .reorg 0 ⟨mintHeader.hash, 2⟩]

def mintNode : Node := Node.new.run mintOps

/-- The mainchain block that the second block is connected with. -/
def spendData : TwoWayPegData := .ofInfos [(2, mintMain.info 2)]

def rivalPool : PoolNode :=
  (PoolNode.broadcastTransaction 0 ⟨mintNode, .new⟩ rivalSpend).toOption.getD .new

/-- A pool after the block that spends the output. -/
def spentPool (pool : PoolNode) : PoolNode :=
  (pool.connectTip 0 spendHeader spendBody spendData).toOption.getD .new

theorem mintNode_reaches : mintNode.Reaches mintMain fun _ _ => True := by
  have hreported : ∀ op ∈ mintOps, op.Reported mintMain := by decide +kernel
  exact .run .new hreported (Node.permits_true .new mintOps)

/-- A transaction is admitted, a block is connected that spends the same output, as a
reorg connects it, and the block cannot be disconnected. -/
theorem rival_blocks_disconnect :
    mintNode.Reaches mintMain (fun _ _ => True) ∧
      PoolNode.broadcastTransaction 0 ⟨mintNode, .new⟩ rivalSpend = .ok rivalPool ∧
      rivalPool.connectTip 0 spendHeader spendBody spendData = .ok (spentPool rivalPool) ∧
      (spentPool rivalPool).node = (mintNode.reorgToTip 0 ⟨spendHeader.hash, 3⟩).1 ∧
      (spentPool rivalPool).disconnectTip = .error (.error (.memPool .utxoDoubleSpent)) := by
  refine ⟨mintNode_reaches, ?_, ?_, by decide +kernel, by decide +kernel⟩
  · rw [rivalPool]
    exact eq_ok_getD _ (by decide +kernel)
  · rw [spentPool]
    exact eq_ok_getD _ (by decide +kernel)

theorem disconnectTip_memPool_spent :
    (spentPool ⟨mintNode, .new⟩).node.state.tip = some spendHeader.hash ∧
      ∀ err, (spentPool ⟨mintNode, .new⟩).disconnectTip ≠ .error (.error (.memPool err)) := by
  obtain ⟨state, hstate⟩ := exists_of_isOk
    (x := mintNode.state.applyBlock 0 spendHeader spendBody) (by decide +kernel)
  obtain ⟨node, hnode⟩ := exists_of_isOk (x := (spentPool ⟨mintNode, .new⟩).node.disconnectTip)
    (by decide +kernel)
  have htip : (spentPool ⟨mintNode, .new⟩).node.state.tip = some spendHeader.hash := by
    decide +kernel
  exact ⟨htip, (disconnectTip_memPool hstate htip (by decide +kernel) hnode).mpr
    (by decide +kernel)⟩

end Instance

end PlainBitnames
