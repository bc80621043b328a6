import PlainBitnames.Node.Pool
import PlainBitnames.Node.Template
import PlainBitnames.State.TxSpec

/-!
The transactions of a block template. They are taken from the mempool in the order of
their ids. Those that are not valid on the state, or that spend an output twice, are
deleted from the mempool.
-/

namespace PlainBitnames

open Borsh Fallible

variable [Primitives]

/-- The first transactions of the mempool. -/
def MemPool.take (pool : MemPool) (number : Nat) : List AuthorizedTransaction :=
  (pool.transactions.toList.take number).map Prod.snd

def State.fillAuthorizedTransaction (state : State) (transaction : AuthorizedTransaction) :
    Result (Authorized FilledTransaction) := do
  let filledTransaction ← state.fillTransaction transaction.transaction
  .ok ⟨filledTransaction, transaction.authorizations⟩

/-- What `get_transactions` has come to after some transactions. -/
structure Selection where
  mempool : MemPool
  fee : Amount
  returnedTransactions : List (Authorized FilledTransaction)
  spentUtxos : List OutPoint

namespace Selection

/-- A transaction is deleted from the mempool. -/
def delete (selection : Selection) (transaction : AuthorizedTransaction) : Selection :=
  { selection with mempool := selection.mempool.delete transaction.transaction.txid }

/-- Add a transaction to a selection if it is valid. -/
def step (ctxt : BatchVerificationContext) (state : State) (selection : Selection)
    (transaction : AuthorizedTransaction) : NodeResult Selection :=
  -- UTXO double spent
  if transaction.transaction.inputs.any fun input => decide (input ∈ selection.spentUtxos) then
    .ok (selection.delete transaction)
  else
    match state.validateTransaction ctxt transaction with
    | .error (.panic message) => .error (.panic message)
    | .error (.error _) => .ok (selection.delete transaction)
    | .ok _ => do
        let filledTransaction ← mapFailure .state (state.fillAuthorizedTransaction transaction)
        let valueIn ← okOr filledTransaction.transaction.spentValue (.error .amountOverflow)
        let valueOut ← okOr filledTransaction.transaction.valueOut (.error .amountOverflow)
        let txFee ← okOr (Checked.sub? valueIn valueOut) (.error .amountOverflow)
        let fee ← okOr (Checked.add? selection.fee txFee) (.error .amountUnderflow)
        .ok { selection with
          fee
          returnedTransactions := selection.returnedTransactions ++ [filledTransaction]
          spentUtxos := selection.spentUtxos ++ filledTransaction.transaction.inputs }

end Selection

/-- Up to a number of transactions for a block, with their fees. -/
def PoolNode.getTransactions (ctxt : BatchVerificationContext) (pool : PoolNode) (number : Nat) :
    NodeResult (PoolNode × List (Authorized FilledTransaction) × Amount) := do
  let selection ← (pool.mempool.take number).foldlM (Selection.step ctxt pool.node.state)
    ⟨pool.mempool, 0, [], []⟩
  .ok ({ pool with mempool := selection.mempool }, selection.returnedTransactions, selection.fee)

namespace MemPool

/-- The mempools that are filled by putting and deleting transactions. -/
inductive Filled : MemPool → Prop
  | new : Filled .new
  | put {pool pool' : MemPool} {transaction : AuthorizedTransaction} (h : Filled pool)
      (hput : pool.put transaction = .ok pool') : Filled pool'
  | delete {pool : MemPool} (h : Filled pool) (txid : Txid) : Filled (pool.delete txid)

/-- Every input of a transaction is recorded as spent by it. -/
structure Tracked (pool : MemPool) : Prop where
  txid_eq : ∀ {txid : Txid} {tx : AuthorizedTransaction},
    pool.transactions[txid]? = some tx → tx.transaction.txid = txid
  nodup : ∀ {txid : Txid} {tx : AuthorizedTransaction},
    pool.transactions[txid]? = some tx → tx.transaction.inputs.Nodup
  spent : ∀ {txid : Txid} {tx : AuthorizedTransaction}, pool.transactions[txid]? = some tx →
    ∀ input ∈ tx.transaction.inputs, pool.spentUtxos[input]? = some txid

variable {pool pool' : MemPool} {tx : AuthorizedTransaction}

theorem Tracked.new : Tracked .new := by
  refine ⟨fun h => ?_, fun h => ?_, fun h => ?_⟩ <;> cases (Db.get_empty _).symm.trans h

theorem Tracked.put (h : pool.Tracked) (hput : pool.put tx = .ok pool') : pool'.Tracked := by
  obtain ⟨hnodup, hfresh, rfl⟩ := put_eq_ok.mp hput
  have hkeys : ((tx.transaction.inputs.map fun input =>
      (input, tx.transaction.txid)).map Prod.fst) = tx.transaction.inputs := by
    rw [List.map_map]
    exact List.map_id _
  refine ⟨fun hget => ?_, fun hget => ?_, fun hget input hinput => ?_⟩ <;>
    rcases Db.get_insert_cases hget with ⟨rfl, rfl⟩ | ⟨hne, hget⟩
  · rfl
  · exact h.txid_eq hget
  · exact hnodup
  · exact h.nodup hget
  · refine Db.get_putAll_of_mem ?_ (List.mem_map_of_mem hinput)
    rwa [hkeys]
  · have hspent := h.spent hget input hinput
    rw [add, Db.get_putAll_of_not_mem, hspent]
    rw [hkeys]
    exact fun hmem => hfresh input hmem (Db.mem_of_get hspent)

theorem Tracked.remove (h : pool.Tracked) {txid : Txid} (htx : pool.transactions[txid]? = some tx) :
    (pool.remove txid tx).Tracked := by
  have hold : ∀ {txid' : Txid} {tx' : AuthorizedTransaction}, (pool.remove txid tx).transactions[txid']? = some tx' →
      txid ≠ txid' ∧ pool.transactions[txid']? = some tx' := by
    intro txid' tx' hget
    rw [MemPool.remove, Db.get_erase] at hget
    split at hget
    case isTrue => nomatch hget
    case isFalse hne => exact ⟨hne, hget⟩
  refine ⟨fun hget => h.txid_eq (hold hget).2, fun hget => h.nodup (hold hget).2,
    fun hget input hinput => ?_⟩
  obtain ⟨hne, hget⟩ := hold hget
  have hspent := h.spent hget input hinput
  rw [MemPool.remove, Db.get_eraseAll_of_not_mem, hspent]
  exact fun hmem => hne (Option.some.inj ((h.spent htx input hmem).symm.trans hspent))

theorem Tracked.delete (h : pool.Tracked) (txid : Txid) : (pool.delete txid).Tracked := by
  have hqueue : ∀ {fuel : Nat} {queue : List Txid} {pool : MemPool}, pool.Tracked →
      (deleteQueue fuel queue pool).Tracked := by
    intro fuel
    induction fuel with
    | zero => exact fun h => h
    | succ fuel ih =>
      intro queue pool h
      cases queue with
      | nil => exact h
      | cons txid queue =>
        rw [deleteQueue]
        split
        case h_1 => exact ih h
        case h_2 tx htx => exact ih (h.remove htx)
  exact hqueue h

theorem Filled.tracked (h : pool.Filled) : pool.Tracked := by
  induction h with
  | new => exact .new
  | put _ hput ih => exact ih.put hput
  | delete _ txid ih => exact ih.delete txid

theorem Tracked.disjoint_take (h : pool.Tracked) (number : Nat) :
    (pool.take number).Pairwise fun tx tx' =>
      ∀ input ∈ tx.transaction.inputs, input ∉ tx'.transaction.inputs := by
  rw [take, List.pairwise_map]
  have hkeys := List.pairwise_map.mp (Db.keys_nodup pool.transactions)
  refine (hkeys.sublist (List.take_sublist _ _)).imp_of_mem ?_
  intro entry entry' hentry hentry' hne input hinput hinput'
  have hget := Db.mem_toList.mp (List.mem_of_mem_take hentry)
  have hget' := Db.mem_toList.mp (List.mem_of_mem_take hentry')
  exact hne (Option.some.inj ((h.spent hget input hinput).symm.trans
    (h.spent hget' input hinput')))

theorem Tracked.nodup_take (h : pool.Tracked) {number : Nat} (htx : tx ∈ pool.take number) :
    tx.transaction.inputs.Nodup := by
  obtain ⟨entry, hentry, rfl⟩ := List.mem_map.mp htx
  exact h.nodup (Db.mem_toList.mp (List.mem_of_mem_take hentry))

end MemPool

/-- A pooled transaction that is valid on a state, filled from it. -/
def State.fillValid (ctxt : BatchVerificationContext) (state : State)
    (transaction : AuthorizedTransaction) : Option (Authorized FilledTransaction) :=
  match state.validateTransaction ctxt transaction with
  | .ok _ => (state.fillAuthorizedTransaction transaction).toOption
  | .error _ => none

def totalFees (txs : List (Authorized FilledTransaction)) : Nat :=
  (txs.map fun tx => (tx.transaction.fee.toOption.getD 0).toNat).sum

/-- A transaction that is filled from a state on which it is valid. -/
structure State.Admitted (ctxt : BatchVerificationContext) (state : State)
    (tx : Authorized FilledTransaction) : Prop where
  fills : state.Fills tx.transaction
  count_eq : tx.authorizations.length = tx.transaction.spentUtxosRequiringAuth.length
  addresses : ∀ pair ∈ tx.authorizations.zip tx.transaction.spentUtxos,
    pair.1.getAddress = pair.2.address
  verified : verifyAuthorizedTransaction ctxt ⟨tx.transaction.transaction, tx.authorizations⟩ =
    .ok ()
  valid : ∃ fee, state.validateFilledTransaction tx.transaction = .ok fee

namespace State

variable {ctxt : BatchVerificationContext} {state : State} {transaction : AuthorizedTransaction}
  {tx : Authorized FilledTransaction}

theorem validateTransaction_ok {fee : Amount}
    (h : state.validateTransaction ctxt transaction = .ok fee) :
    ∃ filled, state.fillTransaction transaction.transaction = .ok filled ∧
      state.validateFilledTransaction filled = .ok fee ∧
      state.Admitted ctxt ⟨filled, transaction.authorizations⟩ := by
  obtain ⟨filled, hfilled, h⟩ := bind_eq_ok.mp h
  obtain ⟨hcount, h⟩ := ensure_bind_eq_ok.mp h
  obtain ⟨haddresses, h⟩ := ensure_bind_eq_ok.mp h
  obtain ⟨⟨⟩, hverified, h⟩ := bind_eq_ok.mp h
  obtain ⟨htransaction, hfills⟩ := fillTransaction_eq_ok.mp hfilled
  refine ⟨filled, hfilled, h, hfills, hcount, by simpa using haddresses, ?_, fee, h⟩
  rw [htransaction]
  exact mapFailure_eq_ok.mp hverified

theorem fillValid_eq_some (h : state.fillValid ctxt transaction = some tx) :
    state.Admitted ctxt tx ∧ tx.transaction.transaction = transaction.transaction ∧
      tx.authorizations = transaction.authorizations := by
  unfold fillValid at h
  split at h
  case h_1 fee hvalid =>
    obtain ⟨filled, hfilled, -, hadmitted⟩ := validateTransaction_ok hvalid
    rw [fillAuthorizedTransaction, hfilled, ok_bind] at h
    obtain rfl := Option.some.inj h
    exact ⟨hadmitted, (fillTransaction_eq_ok.mp hfilled).1, rfl⟩
  case h_2 => nomatch h

end State

namespace Selection

variable {ctxt : BatchVerificationContext} {state : State} {selection selection' : Selection}

/-- A transaction whose inputs are not spent yet is added if it is valid. -/
theorem step_ok {transaction : AuthorizedTransaction}
    (h : step ctxt state selection transaction = .ok selection')
    (hfresh : ∀ input ∈ transaction.transaction.inputs, input ∉ selection.spentUtxos) :
    selection'.returnedTransactions =
        selection.returnedTransactions ++ (state.fillValid ctxt transaction).toList ∧
      selection'.fee.toNat =
        selection.fee.toNat + totalFees (state.fillValid ctxt transaction).toList ∧
      ∀ input ∈ selection'.spentUtxos,
        input ∈ selection.spentUtxos ∨ input ∈ transaction.transaction.inputs := by
  unfold step at h
  rw [if_neg (by simpa using hfresh)] at h
  unfold State.fillValid
  cases hvalid : state.validateTransaction ctxt transaction with
  | error failure =>
    rw [hvalid] at h
    cases failure with
    | panic => nomatch h
    | error =>
      cases h
      exact ⟨(List.append_nil _).symm, rfl, fun _ => .inl⟩
  | ok fee =>
    rw [hvalid] at h
    obtain ⟨filled, hfilled, hvalidated, -⟩ := State.validateTransaction_ok hvalid
    obtain ⟨htransaction, -⟩ := State.fillTransaction_eq_ok.mp hfilled
    have hfill : state.fillAuthorizedTransaction transaction =
        .ok ⟨filled, transaction.authorizations⟩ := by
      rw [State.fillAuthorizedTransaction, hfilled, ok_bind]
    have hfee := (State.validateFilledTransaction_ok hvalidated).fee_eq
    obtain ⟨authorized, hauthorized, h⟩ := bind_eq_ok.mp h
    cases hfill.symm.trans (mapFailure_eq_ok.mp hauthorized)
    obtain ⟨valueIn, hvalueIn, h⟩ := bind_eq_ok.mp h
    obtain ⟨valueOut, hvalueOut, h⟩ := bind_eq_ok.mp h
    obtain ⟨txFee, htxFee, h⟩ := bind_eq_ok.mp h
    obtain ⟨total, htotal, h⟩ := bind_eq_ok.mp h
    cases h
    have hvalueIn := okOr_eq_ok.mp hvalueIn
    have hvalueOut := okOr_eq_ok.mp hvalueOut
    have htxFee := okOr_eq_ok.mp htxFee
    have hsame : txFee = fee := by
      rw [FilledTransaction.fee, hvalueIn, okOr_some, ok_bind, hvalueOut, okOr_some,
        ok_bind] at hfee
      split at hfee
      case isTrue => nomatch hfee
      case isFalse =>
        rw [Checked.sub?] at htxFee
        split at htxFee
        case isTrue => exact (Option.some.inj htxFee).symm.trans (Except.ok.inj hfee)
        case isFalse => nomatch htxFee
    rw [hfill]
    refine ⟨rfl, ?_, fun input hinput => ?_⟩
    · simp only [totalFees, Except.toOption, Option.toList_some, List.map_cons, List.map_nil,
        List.sum_singleton, hfee, Option.getD_some]
      rw [← Checked.add?_eq_some.mp (okOr_eq_ok.mp htotal), hsame]
    · rw [← htransaction]
      exact List.mem_append.mp hinput

/-- Transactions with distinct inputs are selected exactly if they are valid. -/
theorem foldlM_step_ok {transactions : List AuthorizedTransaction}
    (h : transactions.foldlM (step ctxt state) selection = .ok selection')
    (hpair : transactions.Pairwise fun tx tx' =>
      ∀ input ∈ tx.transaction.inputs, input ∉ tx'.transaction.inputs)
    (hfresh : ∀ tx ∈ transactions, ∀ input ∈ tx.transaction.inputs,
      input ∉ selection.spentUtxos) :
    selection'.returnedTransactions =
        selection.returnedTransactions ++ transactions.filterMap (state.fillValid ctxt) ∧
      selection'.fee.toNat =
        selection.fee.toNat + totalFees (transactions.filterMap (state.fillValid ctxt)) := by
  induction transactions generalizing selection with
  | nil =>
    cases foldlM_nil_eq_ok.mp h
    exact ⟨(List.append_nil _).symm, rfl⟩
  | cons transaction transactions ih =>
    obtain ⟨hdisjoint, hpair⟩ := List.pairwise_cons.mp hpair
    obtain ⟨hhead, hfresh⟩ := List.forall_mem_cons.mp hfresh
    obtain ⟨next, hnext, h⟩ := foldlM_cons_eq_ok.mp h
    obtain ⟨hreturned, hfee, hspent⟩ := step_ok hnext hhead
    obtain ⟨hreturned', hfee'⟩ := ih h hpair fun tx htx input hinput hmem => by
      rcases hspent input hmem with hmem | hmem
      · exact hfresh tx htx input hinput hmem
      · exact hdisjoint tx htx input hmem hinput
    have hcons : (transaction :: transactions).filterMap (state.fillValid ctxt) =
        (state.fillValid ctxt transaction).toList ++ transactions.filterMap (state.fillValid ctxt) := by
      rw [List.filterMap_cons]
      cases state.fillValid ctxt transaction <;> rfl
    rw [hreturned', hfee', hreturned, hfee, hcons]
    refine ⟨List.append_assoc .., ?_⟩
    rw [totalFees, totalFees, totalFees, List.map_append, List.sum_append, Nat.add_assoc]

theorem filled_step {transaction : AuthorizedTransaction} (hpool : selection.mempool.Filled)
    (h : step ctxt state selection transaction = .ok selection') : selection'.mempool.Filled := by
  unfold step at h
  split at h
  case isTrue =>
    cases h
    exact .delete hpool _
  case isFalse =>
    split at h
    case h_1 => nomatch h
    case h_2 =>
      cases h
      exact .delete hpool _
    case h_3 =>
      obtain ⟨_, -, h⟩ := bind_eq_ok.mp h
      obtain ⟨_, -, h⟩ := bind_eq_ok.mp h
      obtain ⟨_, -, h⟩ := bind_eq_ok.mp h
      obtain ⟨_, -, h⟩ := bind_eq_ok.mp h
      obtain ⟨_, -, h⟩ := bind_eq_ok.mp h
      cases h
      exact hpool

end Selection

namespace PoolNode

variable {ctxt : BatchVerificationContext} {pool pool' : PoolNode}

/-- Transactions are admitted from the wallet and from peers by the same function. -/
theorem filled_broadcastTransaction {transaction : AuthorizedTransaction}
    (hpool : pool.mempool.Filled)
    (h : pool.broadcastTransaction ctxt transaction = .ok pool') : pool'.mempool.Filled := by
  obtain ⟨_, -, h⟩ := bind_eq_ok.mp h
  split at h
  case isTrue =>
    cases h
    exact hpool
  case isFalse =>
    obtain ⟨mempool, hput, h⟩ := bind_eq_ok.mp h
    cases h
    exact .put hpool (mapFailure_eq_ok.mp hput)

theorem filled_connectTip {header : Header} {body : Body} {data : TwoWayPegData}
    (hpool : pool.mempool.Filled)
    (h : pool.connectTip ctxt header body data = .ok pool') : pool'.mempool.Filled := by
  obtain ⟨node, -, h⟩ := bind_eq_ok.mp h
  cases h
  exact List.foldlRecOn body.transactions _ hpool fun _ hmempool tx _ =>
    MemPool.Filled.delete hmempool tx.txid

theorem filled_disconnectTip (hpool : pool.mempool.Filled)
    (h : pool.disconnectTip = .ok pool') : pool'.mempool.Filled := by
  obtain ⟨node, -, h⟩ := bind_eq_ok.mp h
  obtain ⟨tipHash, -, h⟩ := bind_eq_ok.mp h
  obtain ⟨tipBody, -, h⟩ := bind_eq_ok.mp h
  obtain ⟨transactions, -, h⟩ := bind_eq_ok.mp h
  obtain ⟨mempool, hputs, h⟩ := bind_eq_ok.mp h
  cases h
  exact foldlM_invariant hpool (fun _ _ _ _ hmempool hput => .put hmempool hput)
    (mapFailure_eq_ok.mp hputs)

theorem filled_getTransactions {number : Nat} {txs : List (Authorized FilledTransaction)}
    {fees : Amount} (hpool : pool.mempool.Filled)
    (h : pool.getTransactions ctxt number = .ok (pool', txs, fees)) : pool'.mempool.Filled := by
  obtain ⟨selection, hselection, h⟩ := bind_eq_ok.mp h
  cases h
  exact foldlM_invariant (P := fun selection => selection.mempool.Filled) hpool
    (fun _ _ _ _ hmempool hstep => Selection.filled_step hmempool hstep) hselection

end PoolNode

end PlainBitnames
