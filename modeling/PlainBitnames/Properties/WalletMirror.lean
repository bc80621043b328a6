import PlainBitnames.Wallet.Update

/-!
A wallet after an update, compared with the node. The update only adds outputs and
moves spent ones, so it presumes that an output of the wallet that is no longer
unspent has been spent, and that what was spent stays spent. A block that is
disconnected, or a bundle that fails, breaks this: outputs that no longer exist
stay in the wallet, and outputs that are unspent again stay recorded as spent.
-/

namespace PlainBitnames

open Fallible

section

variable [Primitives] [WalletKeys]

namespace Wallet

/-- The wallet has exactly the utxos of the node at its addresses, and none that
it also records as spent. -/
structure Mirrors (state : State) (w : Wallet) : Prop where
  utxos_iff : ∀ (outpoint : OutPoint) (output : FilledOutput),
    w.utxos[outpoint]? = some output ↔
      state.utxos[outpoint]? = some output ∧ output.address ∈ w.getAddresses
  disjoint : ∀ outpoint : OutPoint, outpoint ∈ w.utxos → outpoint ∉ w.stxos

/-- The node has an unspent output at an address of the wallet. -/
def Unspent (state : State) (w : Wallet) (outpoint : OutPoint) : Prop :=
  ∃ output, state.utxos[outpoint]? = some output ∧ output.address ∈ w.getAddresses

/-- Nothing of the wallet has disappeared from the node or become unspent. -/
structure Steady (state : State) (w : Wallet) : Prop where
  /-- An output of the wallet is still unspent or has been recorded as spent. -/
  kept : ∀ outpoint : OutPoint, outpoint ∈ w.utxos → outpoint ∉ state.stxos →
    Unspent state w outpoint
  /-- An output of the wallet that has been recorded as spent is not unspent. -/
  gone : ∀ outpoint : OutPoint, outpoint ∈ w.utxos → outpoint ∈ state.stxos →
    ¬ Unspent state w outpoint
  /-- What the wallet records as spent is not unspent. -/
  spent : ∀ outpoint : OutPoint, outpoint ∈ w.stxos → ¬ Unspent state w outpoint

variable {state : State} {w : Wallet} {transactions : List AuthorizedTransaction}

theorem getAddresses_updateWallet :
    (updateWallet state transactions w).getAddresses = w.getAddresses := by
  rw [getAddresses, (updateWallet_addresses state transactions w).2.2, getAddresses]

theorem get_putAll_of_unspent {outpoint : OutPoint} {output : FilledOutput}
    (hget : state.utxos[outpoint]? = some output) (haddress : output.address ∈ w.getAddresses) :
    (Db.putAll w.utxos (state.getUtxosByAddresses w.getAddresses))[outpoint]? = some output :=
  Db.get_putAll_of_mem (state.nodup_getUtxosByAddresses _)
    (State.mem_getUtxosByAddresses.mpr ⟨hget, haddress⟩)

theorem get_putAll_cases_unspent {outpoint : OutPoint} {output : FilledOutput}
    (h : (Db.putAll w.utxos (state.getUtxosByAddresses w.getAddresses))[outpoint]? =
      some output) :
    state.utxos[outpoint]? = some output ∧ output.address ∈ w.getAddresses ∨
      ¬ Unspent state w outpoint ∧ w.utxos[outpoint]? = some output := by
  rcases Db.get_putAll_cases h with hmem | ⟨hnot, hget⟩
  · exact .inl (State.mem_getUtxosByAddresses.mp hmem)
  · refine .inr ⟨?_, hget⟩
    rintro ⟨other, hother, haddress⟩
    exact hnot (List.mem_map.mpr
      ⟨(outpoint, other), State.mem_getUtxosByAddresses.mpr ⟨hother, haddress⟩, rfl⟩)

theorem mirrors_of_steady (h : Steady state w) :
    Mirrors state (updateWallet state transactions w) := by
  constructor
  · intro outpoint output
    rw [updateWallet_utxos, getAddresses_updateWallet]
    by_cases hspent : outpoint ∈ spentOutpoints state w
    · rw [Db.get_eraseAll_of_mem hspent]
      obtain ⟨hmem, hstxo⟩ := mem_spentOutpoints.mp hspent
      have hgone := h.gone outpoint hmem hstxo
      refine iff_of_false (fun hnone => nomatch hnone) ?_
      exact fun hunspent => hgone ⟨output, hunspent⟩
    · rw [Db.get_eraseAll_of_not_mem hspent]
      constructor
      · intro hget
        rcases get_putAll_cases_unspent hget with hunspent | ⟨hnot, hold⟩
        · exact hunspent
        · have hmem := Db.mem_of_get hold
          refine absurd (h.kept outpoint hmem fun hstxo => ?_) hnot
          exact hspent (mem_spentOutpoints.mpr ⟨hmem, hstxo⟩)
      · rintro ⟨hget, haddress⟩
        exact get_putAll_of_unspent hget haddress
  · intro outpoint hmem hstxo
    rw [updateWallet_utxos, Db.mem_eraseAll] at hmem
    obtain ⟨hnot, hput⟩ := hmem
    rw [updateWallet_stxos] at hstxo
    have hold := hstxo.resolve_right hnot
    obtain ⟨output, hget⟩ := (Db.mem_iff _ _).mp hput
    rcases get_putAll_cases_unspent hget with hunspent | ⟨hnotUnspent, hwallet⟩
    · exact h.spent outpoint hold ⟨output, hunspent⟩
    · have hmem := Db.mem_of_get hwallet
      refine hnotUnspent (h.kept outpoint hmem fun hstxo => ?_)
      exact hnot (mem_spentOutpoints.mpr ⟨hmem, hstxo⟩)

theorem steady_of_mirrors (h : Mirrors state (updateWallet state transactions w)) :
    Steady state w := by
  have hutxos := h.utxos_iff
  rw [updateWallet_utxos, getAddresses_updateWallet] at hutxos
  constructor
  · intro outpoint hmem hstxo
    have hnot : outpoint ∉ spentOutpoints state w :=
      fun hspent => hstxo (mem_spentOutpoints.mp hspent).2
    have hput : outpoint ∈ Db.putAll w.utxos (state.getUtxosByAddresses w.getAddresses) :=
      Db.mem_putAll.mpr (.inr hmem)
    obtain ⟨output, hget⟩ := (Db.mem_iff _ _).mp hput
    exact ⟨output, (hutxos outpoint output).mp (by rw [Db.get_eraseAll_of_not_mem hnot, hget])⟩
  · rintro outpoint hmem hstxo ⟨output, hunspent⟩
    have hget := (hutxos outpoint output).mpr hunspent
    rw [Db.get_eraseAll_of_mem (mem_spentOutpoints.mpr ⟨hmem, hstxo⟩)] at hget
    cases hget
  · rintro outpoint hstxo ⟨output, hunspent⟩
    have hget := (hutxos outpoint output).mpr hunspent
    rw [← updateWallet_utxos state transactions] at hget
    exact h.disjoint outpoint (Db.mem_of_get hget)
      ((updateWallet_stxos state transactions w outpoint).mpr (.inl hstxo))

/-- After an update the wallet mirrors the node exactly if nothing that the wallet
had has disappeared or become unspent since. -/
theorem updateWallet_mirrors_iff (state : State) (transactions : List AuthorizedTransaction)
    (w : Wallet) : Mirrors state (updateWallet state transactions w) ↔ Steady state w :=
  ⟨steady_of_mirrors, mirrors_of_steady⟩

end Wallet

end

namespace Instance

/-- A wallet with the one address 0. -/
def receiver : Wallet :=
  ((Wallet.fresh.overwriteSeed ()).getNewAddress.toOption.map Prod.snd).getD Wallet.fresh

/-- A transaction without inputs that pays nothing to address 0. -/
def payReceiver : Transaction := ⟨[], [⟨0, .bitcoin 0, []⟩], [], none⟩

def payBody : Body := ⟨⟨[], []⟩, [payReceiver], []⟩

def payHeader : Header := mine State.empty payBody

/-- The state after a block with the payment, and after it is disconnected again. -/
def paid : State := (State.empty.applyBlock 0 payHeader payBody).toOption.getD State.empty

def unpaid : State := (paid.disconnectTip payHeader payBody).toOption.getD State.empty

/-- The wallet after an update at each of the two states. -/
def paidWallet : Wallet := updateWallet paid [] receiver

def unpaidWallet : Wallet := updateWallet unpaid [] paidWallet

theorem unpaid_not_mirrored :
    State.empty.applyBlock 0 payHeader payBody = .ok paid ∧
      paid.disconnectTip payHeader payBody = .ok unpaid ∧
      unpaid.utxos[(.regular payReceiver.txid 0 : OutPoint)]? = none ∧
      unpaidWallet.utxos[(.regular payReceiver.txid 0 : OutPoint)]? =
        some ⟨0, .bitcoin 0, []⟩ ∧
      ¬ Wallet.Mirrors unpaid unpaidWallet := by
  have hnode : unpaid.utxos[(.regular payReceiver.txid 0 : OutPoint)]? = none := by
    decide +kernel
  have hwallet : unpaidWallet.utxos[(.regular payReceiver.txid 0 : OutPoint)]? =
      some ⟨0, .bitcoin 0, []⟩ := by decide +kernel
  refine ⟨eq_ok_getD _ (by decide +kernel), eq_ok_getD _ (by decide +kernel), hnode, hwallet, ?_⟩
  intro hmirrors
  have hget := ((hmirrors.utxos_iff _ _).mp hwallet).1
  rw [hnode] at hget
  cases hget

end Instance

end PlainBitnames
