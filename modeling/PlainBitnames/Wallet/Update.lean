import PlainBitnames.Wallet.Basic

/-!
Keeping a wallet up to date with the node, and the wallets that its operations
lead to. An update adds the outputs that the node has at the addresses of the
wallet, and moves those of the wallet that the node has recorded as spent.
-/

namespace PlainBitnames

open Borsh Fallible

variable [Primitives]

namespace State

def getUtxosByAddresses (state : State) (addresses : List Address) :
    List (OutPoint × FilledOutput) :=
  state.utxos.toList.filter fun entry => addresses.contains entry.2.address

/-- Those of some outpoints that have been spent. -/
def getSpentUtxos (state : State) (outpoints : List OutPoint) : List (OutPoint × SpentOutput) :=
  outpoints.filterMap fun outpoint => state.stxos[outpoint]?.map fun output => (outpoint, output)

theorem mem_getUtxosByAddresses {state : State} {addresses : List Address}
    {entry : OutPoint × FilledOutput} :
    entry ∈ state.getUtxosByAddresses addresses ↔
      state.utxos[entry.1]? = some entry.2 ∧ entry.2.address ∈ addresses := by
  rw [getUtxosByAddresses, List.mem_filter, Db.mem_toList,
    List.contains_iff_mem]

theorem nodup_getUtxosByAddresses (state : State) (addresses : List Address) :
    ((state.getUtxosByAddresses addresses).map Prod.fst).Nodup :=
  (Db.keys_nodup state.utxos).sublist (List.filter_sublist.map _)

theorem map_fst_getSpentUtxos (state : State) (outpoints : List OutPoint) :
    (state.getSpentUtxos outpoints).map Prod.fst =
      outpoints.filter fun outpoint => decide (outpoint ∈ state.stxos) := by
  induction outpoints with
  | nil => rfl
  | cons outpoint outpoints ih =>
    rw [getSpentUtxos, List.filterMap_cons]
    cases hget : state.stxos[outpoint]? with
    | none =>
      have hnot := (Db.not_mem_iff _ _).mpr hget
      rw [List.filter_cons_of_neg (by simpa using hnot)]
      exact ih
    | some output =>
      have hmem := Db.mem_of_get hget
      rw [List.filter_cons_of_pos (by simpa using hmem), Option.map_some]
      exact congrArg (outpoint :: ·) ih

end State

variable [WalletKeys]

namespace Wallet

/-- A new wallet. -/
def fresh : Wallet := ⟨none, ∅, ∅, ∅, [], ∅, ∅, ∅⟩

/-- Overwrite the seed, or set it if it does not already exist. -/
def overwriteSeed (w : Wallet) (seed : Seed) : Wallet :=
  { w with
    seed := some seed
    addressToIndex := ∅
    indexToAddress := ∅
    utxos := ∅
    stxos := ∅
    bitnameReservations := ∅ }

def getAddresses (w : Wallet) : List Address := w.indexToAddress.toList.map Prod.snd

def putUtxos (w : Wallet) (utxos : List Coin) : Wallet :=
  { w with utxos := Db.putAll w.utxos utxos }

/-- Move an output that the wallet has to the spent ones. -/
def spendUtxo (w : Wallet) (outpoint : OutPoint) (inpoint : InPoint) : Wallet :=
  match w.utxos[outpoint]? with
  | some output => { w with
      utxos := w.utxos.erase outpoint
      stxos := w.stxos.insert outpoint ⟨output, inpoint⟩ }
  | none => w

def spendUtxos (w : Wallet) (spent : List (OutPoint × InPoint)) : Wallet :=
  spent.foldl (fun w entry => w.spendUtxo entry.1 entry.2) w

/-- Set the inputs that pending transactions use. -/
def setPendingTransactions (w : Wallet) (transactions : List AuthorizedTransaction) : Wallet :=
  { w with pendingInputs := transactions.flatMap fun tx => tx.transaction.inputs }

end Wallet

/-- `update_wallet`, for a node with a state and the transactions of its mempool. -/
def updateWallet (state : State) (transactions : List AuthorizedTransaction) (wallet : Wallet) :
    Wallet :=
  let utxos := state.getUtxosByAddresses wallet.getAddresses
  let outpoints := wallet.utxos.toList.map Prod.fst
  let spent := (state.getSpentUtxos outpoints).map fun entry => (entry.1, entry.2.inpoint)
  ((wallet.putUtxos utxos).spendUtxos spent).setPendingTransactions transactions

namespace Wallet

/-! ### What an update does -/

theorem spendUtxo_utxos (w : Wallet) (outpoint : OutPoint) (inpoint : InPoint) :
    (w.spendUtxo outpoint inpoint).utxos = w.utxos.erase outpoint := by
  rw [spendUtxo]
  split
  next => rfl
  next hnone => exact (Db.erase_of_not_mem ((Db.not_mem_iff _ _).mpr hnone)).symm

theorem spendUtxo_stxos (w : Wallet) (outpoint : OutPoint) (inpoint : InPoint)
    (other : OutPoint) : other ∈ (w.spendUtxo outpoint inpoint).stxos ↔
      other ∈ w.stxos ∨ other = outpoint ∧ outpoint ∈ w.utxos := by
  rw [spendUtxo]
  split
  next output hget =>
    have hmem := Db.mem_of_get hget
    rw [Db.mem_insert]
    simp [hmem, eq_comm, or_comm]
  next hnone =>
    have hnot := (Db.not_mem_iff _ _).mpr hnone
    simp [hnot]

theorem spendUtxos_utxos (w : Wallet) (spent : List (OutPoint × InPoint)) :
    (w.spendUtxos spent).utxos = Db.eraseAll w.utxos (spent.map Prod.fst) := by
  induction spent generalizing w with
  | nil => rfl
  | cons entry spent ih =>
    rw [List.map_cons, Db.eraseAll_cons, ← spendUtxo_utxos w entry.1 entry.2]
    exact ih _

/-- An output that the wallet has is recorded as spent if it is among the spent. -/
theorem spendUtxos_stxos (w : Wallet) (spent : List (OutPoint × InPoint)) (outpoint : OutPoint) :
    outpoint ∈ (w.spendUtxos spent).stxos ↔
      outpoint ∈ w.stxos ∨ outpoint ∈ spent.map Prod.fst ∧ outpoint ∈ w.utxos := by
  induction spent generalizing w with
  | nil => simp [spendUtxos]
  | cons entry spent ih =>
    have hstep : (w.spendUtxos (entry :: spent)) =
      (w.spendUtxo entry.1 entry.2).spendUtxos spent := rfl
    rw [hstep, ih, spendUtxo_stxos, spendUtxo_utxos, Db.mem_erase, List.map_cons, List.mem_cons]
    by_cases heq : outpoint = entry.1
    · subst heq
      tauto
    · have hne : entry.1 ≠ outpoint := Ne.symm heq
      tauto

theorem spendUtxos_addresses (w : Wallet) (spent : List (OutPoint × InPoint)) :
    (w.spendUtxos spent).seed = w.seed ∧
      (w.spendUtxos spent).addressToIndex = w.addressToIndex ∧
      (w.spendUtxos spent).indexToAddress = w.indexToAddress := by
  induction spent generalizing w with
  | nil => exact ⟨rfl, rfl, rfl⟩
  | cons entry spent ih =>
    have hone : (w.spendUtxo entry.1 entry.2).seed = w.seed ∧
        (w.spendUtxo entry.1 entry.2).addressToIndex = w.addressToIndex ∧
        (w.spendUtxo entry.1 entry.2).indexToAddress = w.indexToAddress := by
      rw [spendUtxo]
      split <;> exact ⟨rfl, rfl, rfl⟩
    obtain ⟨hseed, haddress, hindex⟩ := ih (w.spendUtxo entry.1 entry.2)
    exact ⟨hseed.trans hone.1, haddress.trans hone.2.1, hindex.trans hone.2.2⟩

/-- The outpoints of the wallet that the node has recorded as spent. -/
def spentOutpoints (state : State) (w : Wallet) : List OutPoint :=
  (state.getSpentUtxos (w.utxos.toList.map Prod.fst)).map Prod.fst

theorem mem_spentOutpoints {state : State} {w : Wallet} {outpoint : OutPoint} :
    outpoint ∈ spentOutpoints state w ↔ outpoint ∈ w.utxos ∧ outpoint ∈ state.stxos := by
  rw [spentOutpoints, State.map_fst_getSpentUtxos, List.mem_filter, decide_eq_true_eq]
  refine and_congr_left fun _ => ?_
  rw [← Std.ExtTreeMap.mem_keys, Std.ExtTreeMap.map_fst_toList_eq_keys]

theorem updateWallet_utxos (state : State) (transactions : List AuthorizedTransaction)
    (w : Wallet) : (updateWallet state transactions w).utxos =
      Db.eraseAll (Db.putAll w.utxos (state.getUtxosByAddresses w.getAddresses))
        (spentOutpoints state w) := by
  rw [updateWallet, setPendingTransactions, spendUtxos_utxos, List.map_map]
  rfl

theorem updateWallet_stxos (state : State) (transactions : List AuthorizedTransaction)
    (w : Wallet) (outpoint : OutPoint) :
    outpoint ∈ (updateWallet state transactions w).stxos ↔
      outpoint ∈ w.stxos ∨ outpoint ∈ spentOutpoints state w := by
  have hspent : outpoint ∈ spentOutpoints state w →
      outpoint ∈ Db.putAll w.utxos (state.getUtxosByAddresses w.getAddresses) :=
    fun h => Db.mem_putAll.mpr (.inr (mem_spentOutpoints.mp h).1)
  rw [updateWallet, setPendingTransactions, spendUtxos_stxos, List.map_map]
  show outpoint ∈ w.stxos ∨ outpoint ∈ spentOutpoints state w ∧
    outpoint ∈ Db.putAll w.utxos (state.getUtxosByAddresses w.getAddresses) ↔ _
  rw [and_iff_left_of_imp hspent]

theorem updateWallet_addresses (state : State) (transactions : List AuthorizedTransaction)
    (w : Wallet) : (updateWallet state transactions w).seed = w.seed ∧
      (updateWallet state transactions w).addressToIndex = w.addressToIndex ∧
      (updateWallet state transactions w).indexToAddress = w.indexToAddress :=
  spendUtxos_addresses _ _

end Wallet

end PlainBitnames
