import PlainBitnames.State.Block

/-!
The mempool: transactions by their ids, and the outpoints that they spend. A
transaction is not accepted if one of its inputs is spent by another one. Deleting
a transaction deletes those that spend its outputs too.
-/

namespace PlainBitnames

open Borsh Fallible

variable [Primitives]

/-- Mempool errors. -/
inductive MemPoolError where
  | missingTransaction (txid : Txid)
  | utxoDoubleSpent
deriving DecidableEq

structure MemPool where
  transactions : Db Txid AuthorizedTransaction
  /-- The outpoints that are spent, and by which transaction. -/
  spentUtxos : Db OutPoint Txid
deriving DecidableEq

/-- The transactions of a body with their authorizations: one for each input. -/
def takeAuthorizations : List Transaction → List Authorization → Option (List AuthorizedTransaction)
  | [], _ => some []
  | tx :: txs, authorizations =>
    if authorizations.length < tx.inputs.length then none
    else (takeAuthorizations txs (authorizations.drop tx.inputs.length)).map
      (⟨tx, authorizations.take tx.inputs.length⟩ :: ·)

def Body.authorizedTransactions (body : Body) : Option (List AuthorizedTransaction) :=
  takeAuthorizations body.transactions body.authorizations

theorem takeAuthorizations_eq_some {txs : List Transaction} {authorizations : List Authorization}
    (h : (txs.map fun tx => tx.inputs.length).sum ≤ authorizations.length) :
    ∃ authorized, takeAuthorizations txs authorizations = some authorized ∧
      authorized.map Authorized.transaction = txs := by
  induction txs generalizing authorizations with
  | nil => exact ⟨[], rfl, rfl⟩
  | cons tx txs ih =>
    rw [List.map_cons, List.sum_cons] at h
    have hrest : (txs.map fun tx => tx.inputs.length).sum ≤
        (authorizations.drop tx.inputs.length).length := by
      rw [List.length_drop]
      omega
    obtain ⟨rest, hrest, hmap⟩ := ih hrest
    refine ⟨⟨tx, authorizations.take tx.inputs.length⟩ :: rest, ?_, congrArg (tx :: ·) hmap⟩
    rw [takeAuthorizations, if_neg (by omega), hrest]
    rfl

theorem of_takeAuthorizations {txs : List Transaction} {authorizations : List Authorization}
    {authorized : List AuthorizedTransaction}
    (h : takeAuthorizations txs authorizations = some authorized) :
    (txs.map fun tx => tx.inputs.length).sum ≤ authorizations.length ∧
      authorized.map Authorized.transaction = txs := by
  induction txs generalizing authorizations authorized with
  | nil =>
    cases h
    exact ⟨Nat.zero_le _, rfl⟩
  | cons tx txs ih =>
    rw [takeAuthorizations] at h
    split at h
    case isTrue => cases h
    case isFalse hle =>
      obtain ⟨rest, hrest, rfl⟩ := Option.map_eq_some_iff.mp h
      obtain ⟨hsum, hmap⟩ := ih hrest
      rw [List.length_drop] at hsum
      refine ⟨?_, congrArg (tx :: ·) hmap⟩
      rw [List.map_cons, List.sum_cons]
      omega

namespace MemPool

def new : MemPool := ⟨∅, ∅⟩

def spendInput (txid : Txid) (spentUtxos : Db OutPoint Txid) (input : OutPoint) :
    Except (Failure MemPoolError) (Db OutPoint Txid) := do
  ensure (input ∉ spentUtxos) (.error .utxoDoubleSpent)
  .ok (spentUtxos.insert input txid)

def put (pool : MemPool) (transaction : AuthorizedTransaction) :
    Except (Failure MemPoolError) MemPool := do
  let txid := transaction.transaction.txid
  let spentUtxos ← transaction.transaction.inputs.foldlM (spendInput txid) pool.spentUtxos
  .ok ⟨pool.transactions.insert txid transaction, spentUtxos⟩

/-- Remove a transaction, and the inputs that it spends. -/
def remove (pool : MemPool) (txid : Txid) (tx : AuthorizedTransaction) : MemPool where
  transactions := pool.transactions.erase txid
  spentUtxos := Db.eraseAll pool.spentUtxos tx.transaction.inputs

/-- The transactions that spend outputs of a transaction. -/
def children (pool : MemPool) (txid : Txid) (tx : AuthorizedTransaction) : List Txid :=
  (List.range tx.transaction.outputs.length).filterMap fun vout =>
    pool.spentUtxos[OutPoint.regular txid (UInt32.ofNat vout)]?

/-- Delete the transactions of a queue, first in first out, and those that spend
their outputs. -/
def deleteQueue : Nat → List Txid → MemPool → MemPool
  | 0, _, pool | _ + 1, [], pool => pool
  | fuel + 1, txid :: queue, pool =>
    match pool.transactions[txid]? with
    | none => deleteQueue fuel queue pool
    | some tx =>
      let pool := pool.remove txid tx
      deleteQueue fuel (queue ++ pool.children txid tx) pool

/-- The number of outputs of all transactions. -/
def outputCount (pool : MemPool) : Nat :=
  Db.total (fun _ tx => tx.transaction.outputs.length) pool.transactions

def delete (pool : MemPool) (txid : Txid) : MemPool :=
  deleteQueue (1 + pool.outputCount) [txid] pool

/-- Inputs are recorded exactly when they are distinct and none is spent yet. -/
theorem foldlM_spendInput_eq_ok {txid : Txid} {spentUtxos spentUtxos' : Db OutPoint Txid}
    {inputs : List OutPoint} :
    inputs.foldlM (spendInput txid) spentUtxos = .ok spentUtxos' ↔
      inputs.Nodup ∧ (∀ input ∈ inputs, input ∉ spentUtxos) ∧
        spentUtxos' = Db.putAll spentUtxos (inputs.map fun input => (input, txid)) := by
  induction inputs generalizing spentUtxos with
  | nil => simp [Db.putAll, pure, Except.pure, eq_comm]
  | cons input inputs ih =>
    rw [foldlM_cons_eq_ok]
    constructor
    · rintro ⟨next, hnext, hrest⟩
      obtain ⟨hfresh, hnext⟩ := ensure_bind_eq_ok.mp hnext
      cases hnext
      obtain ⟨hnodup, hall, rfl⟩ := ih.mp hrest
      have hne : ∀ other ∈ inputs, input ≠ other ∧ other ∉ spentUtxos := fun other hother => by
        have := hall other hother
        rwa [Db.mem_insert, not_or] at this
      refine ⟨List.nodup_cons.mpr ⟨fun hmem => (hne input hmem).1 rfl, hnodup⟩, ?_, rfl⟩
      exact List.forall_mem_cons.mpr ⟨hfresh, fun other hother => (hne other hother).2⟩
    · rintro ⟨hnodup, hall, rfl⟩
      obtain ⟨hnot, hnodup⟩ := List.nodup_cons.mp hnodup
      obtain ⟨hfresh, hall⟩ := List.forall_mem_cons.mp hall
      refine ⟨_, ensure_bind_eq_ok.mpr ⟨hfresh, rfl⟩, ih.mpr ⟨hnodup, ?_, rfl⟩⟩
      intro other hother
      rw [Db.mem_insert, not_or]
      exact ⟨fun heq => hnot (heq ▸ hother), hall other hother⟩

/-- The mempool with a transaction whose inputs are not spent yet. -/
def add (pool : MemPool) (tx : AuthorizedTransaction) : MemPool where
  transactions := pool.transactions.insert tx.transaction.txid tx
  spentUtxos := Db.putAll pool.spentUtxos
    (tx.transaction.inputs.map fun input => (input, tx.transaction.txid))

variable {pool : MemPool}

theorem put_eq_ok {pool' : MemPool} {tx : AuthorizedTransaction} :
    pool.put tx = .ok pool' ↔ tx.transaction.inputs.Nodup ∧
      (∀ input ∈ tx.transaction.inputs, input ∉ pool.spentUtxos) ∧ pool' = pool.add tx := by
  unfold put
  rw [bind_eq_ok]
  simp only [foldlM_spendInput_eq_ok, Except.ok.injEq]
  constructor
  · rintro ⟨_, ⟨hnodup, hfresh, rfl⟩, rfl⟩
    exact ⟨hnodup, hfresh, rfl⟩
  · rintro ⟨hnodup, hfresh, rfl⟩
    exact ⟨_, ⟨hnodup, hfresh, rfl⟩, rfl⟩

theorem mem_add {tx : AuthorizedTransaction} {input : OutPoint} :
    input ∈ (pool.add tx).spentUtxos ↔
      input ∈ tx.transaction.inputs ∨ input ∈ pool.spentUtxos := by
  rw [add, Db.mem_putAll, List.map_map]
  simp

/-- Transactions are put into the mempool exactly when all their inputs are distinct
and none is spent yet. -/
theorem foldlM_put_isOk {txs : List AuthorizedTransaction} :
    (∃ pool', txs.foldlM put pool = .ok pool') ↔
      (txs.flatMap fun tx => tx.transaction.inputs).Nodup ∧
        ∀ tx ∈ txs, ∀ input ∈ tx.transaction.inputs, input ∉ pool.spentUtxos := by
  induction txs generalizing pool with
  | nil => exact ⟨fun _ => ⟨List.nodup_nil, fun _ h => (List.not_mem_nil h).elim⟩, fun _ => ⟨pool, rfl⟩⟩
  | cons tx txs ih =>
    rw [List.flatMap_cons, List.nodup_append, List.forall_mem_cons]
    constructor
    · rintro ⟨pool', h⟩
      obtain ⟨next, hnext, hrest⟩ := foldlM_cons_eq_ok.mp h
      obtain ⟨hnodup, hfresh, rfl⟩ := put_eq_ok.mp hnext
      obtain ⟨hnodup', hfresh'⟩ := ih.mp ⟨pool', hrest⟩
      simp only [mem_add, not_or] at hfresh'
      refine ⟨⟨hnodup, hnodup', ?_⟩, hfresh, fun tx htx input hinput =>
        (hfresh' tx htx input hinput).2⟩
      rintro input hinput _ hinput' rfl
      obtain ⟨tx', htx', hinput'⟩ := List.mem_flatMap.mp hinput'
      exact (hfresh' tx' htx' input hinput').1 hinput
    · rintro ⟨⟨hnodup, hnodup', hdisjoint⟩, hfresh, hfresh'⟩
      have hrest : ∀ tx' ∈ txs, ∀ input ∈ tx'.transaction.inputs,
          input ∉ (pool.add tx).spentUtxos := by
        intro tx' htx' input hinput
        rw [mem_add, not_or]
        exact ⟨fun hinput' => hdisjoint input hinput' input
          (List.mem_flatMap.mpr ⟨tx', htx', hinput⟩) rfl, hfresh' tx' htx' input hinput⟩
      obtain ⟨pool', hpool'⟩ := ih.mpr ⟨hnodup', hrest⟩
      exact ⟨pool', foldlM_cons_eq_ok.mpr ⟨_, put_eq_ok.mpr ⟨hnodup, hfresh, rfl⟩, hpool'⟩⟩

theorem foldlM_put_error {txs : List AuthorizedTransaction} {err : Failure MemPoolError}
    (h : txs.foldlM put pool = .error err) : err = .error .utxoDoubleSpent := by
  refine foldlM_error (P := fun err => err = .error .utxoDoubleSpent) (fun tx pool err h => ?_) h
  rcases bind_eq_error.mp h with h | ⟨_, -, h⟩
  · refine foldlM_error (P := fun err => err = .error .utxoDoubleSpent) (fun _ _ err h => ?_) h
    rcases bind_eq_error.mp h with h | ⟨_, -, h⟩
    · exact (ensure_eq_error.mp h).2.symm
    · cases h
  · cases h

end MemPool

end PlainBitnames
