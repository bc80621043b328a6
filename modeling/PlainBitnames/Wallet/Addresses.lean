import PlainBitnames.Wallet.Names
import PlainBitnames.Wallet.Update

/-!
The addresses of a wallet along its operations. Every operation is made of a few
kinds of writes: a new address, names, an update from the node, a new seed. An
operation that fails leaves the writes it has made. In every wallet that writes
lead to, each address has the index it was derived from and every output is at an
address of the wallet.
-/

namespace PlainBitnames

open Borsh Fallible

variable [Primitives] [WalletKeys]

def addressOf (seed : Seed) (index : Nat) : Address :=
  getAddress (WalletKeys.verifyingKey (WalletKeys.txSigningKey seed index))

/-- Key derivation gives one key for one address. -/
def KeysByAddress : Prop := ∀ (seed seed' : Seed) (i j : Nat),
  addressOf seed i = addressOf seed' j →
    WalletKeys.txSigningKey seed i = WalletKeys.txSigningKey seed' j

namespace Wallet

/-- A write that keeps the seed. -/
inductive Write : Wallet → Wallet → Prop where
  | newAddress {w w' : Wallet} {address : Address} (h : w.getNewAddress = .ok (address, w')) :
      Write w w'
  | names (w : Wallet) (bitnameReservations : Db Hash String) (knownBitnames : Db BitName String) :
      Write w { w with
        bitnameReservations := bitnameReservations
        knownBitnames := knownBitnames }
  | update (state : State) (transactions : List AuthorizedTransaction) (w : Wallet) :
      Write w (updateWallet state transactions w)

/-- The wallets that operations lead to. -/
inductive Reached : Wallet → Prop where
  | fresh : Reached fresh
  | overwriteSeed {w : Wallet} (seed : Seed) (h : Reached w) : Reached (w.overwriteSeed seed)
  | write {w w' : Wallet} (h : Reached w) (hwrite : Write w w') : Reached w'

/-! ### Operations are made of writes -/

variable {w w' : Wallet} {address : Address}

theorem Reached.getNewAddress (h : Reached w) (hnew : w.getNewAddress = .ok (address, w')) :
    Reached w' :=
  h.write (.newAddress hnew)

theorem Reached.outputAddress {tx : Transaction} (h : Reached w)
    (hnew : w.outputAddress tx = .ok (address, w')) : Reached w' := by
  rw [Wallet.outputAddress] at hnew
  split at hnew
  · split at hnew
    · cases hnew
      exact h
    · exact h.getNewAddress hnew
  · exact h.getNewAddress hnew

theorem Reached.reserveBitname {tx tx' : Transaction} {plainName : String} (h : Reached w)
    (hreserve : w.reserveBitname tx plainName = .ok (tx', w')) : Reached w' := by
  obtain ⟨-, hreserve⟩ := ensure_bind_eq_ok.mp hreserve
  obtain ⟨⟨address, w₁⟩, haddress, hreserve⟩ := bind_eq_ok.mp hreserve
  have hw₁ : Reached w₁ := by
    rw [reservationAddress] at haddress
    split at haddress
    · obtain ⟨output, -, haddress⟩ := bind_eq_ok.mp haddress
      cases haddress
      exact h
    · exact h.outputAddress haddress
  obtain ⟨signingKey, -, hreserve⟩ := bind_eq_ok.mp hreserve
  cases hreserve
  exact hw₁.write (.names ..)

theorem Reached.registerBitname {order : Shuffle Coin} {tx tx' : Transaction} {plainName : String}
    {data : MutableBitNameData} (h : Reached w)
    (hregister : w.registerBitname order tx plainName data = .ok (tx', w')) : Reached w' := by
  obtain ⟨-, hregister⟩ := ensure_bind_eq_ok.mp hregister
  obtain ⟨⟨address, w₁⟩, haddress, hregister⟩ := bind_eq_ok.mp hregister
  obtain ⟨reservation, -, hregister⟩ := bind_eq_ok.mp hregister
  obtain ⟨⟨outpoint, nonce⟩, -, hregister⟩ := bind_eq_ok.mp hregister
  cases hregister
  exact (h.outputAddress haddress).write (.names ..)

section

variable {sort : UnstableSort coinValue} {order : Shuffle OutPoint} {w w' : Wallet}
  {tx : Transaction}

theorem Reached.createRegularTransaction {fee : Amount} (h : Reached w)
    (hcreate : w.createRegularTransaction sort order fee = .ok (tx, w')) : Reached w' := by
  obtain ⟨selection, -, hcreate⟩ := bind_eq_ok.mp hcreate
  obtain ⟨change, -, hcreate⟩ := bind_eq_ok.mp hcreate
  obtain ⟨⟨address, w₁⟩, hnew, hcreate⟩ := bind_eq_ok.mp hcreate
  cases hcreate
  exact h.getNewAddress hnew

theorem Reached.createWithdrawal {mainAddress : MainAddress} {value mainFee fee : Amount}
    (h : Reached w)
    (hcreate : w.createWithdrawal sort order mainAddress value mainFee fee = .ok (tx, w')) :
    Reached w' := by
  obtain ⟨valueAndFee, -, hcreate⟩ := bind_eq_ok.mp hcreate
  obtain ⟨amount, -, hcreate⟩ := bind_eq_ok.mp hcreate
  obtain ⟨selection, -, hcreate⟩ := bind_eq_ok.mp hcreate
  obtain ⟨_, -, hcreate⟩ := bind_eq_ok.mp hcreate
  obtain ⟨_, -, hcreate⟩ := bind_eq_ok.mp hcreate
  obtain ⟨_, -, hcreate⟩ := bind_eq_ok.mp hcreate
  obtain ⟨⟨address, w₁⟩, hnew, hcreate⟩ := bind_eq_ok.mp hcreate
  obtain ⟨⟨changeAddress, w₂⟩, hnew', hcreate⟩ := bind_eq_ok.mp hcreate
  cases hcreate
  exact (h.getNewAddress hnew).getNewAddress hnew'

theorem Reached.withChange {inputs : List OutPoint} {outputs : List Output} {change : Amount}
    (h : Reached w) (hcreate : w.withChange inputs outputs change = .ok (tx, w')) :
    Reached w' := by
  rw [Wallet.withChange] at hcreate
  split at hcreate
  · obtain ⟨⟨address, w₁⟩, hnew, hcreate⟩ := bind_eq_ok.mp hcreate
    cases hcreate
    exact h.getNewAddress hnew
  · cases hcreate
    exact h

theorem Reached.createTransfer {address : Address} {value fee : Amount}
    {memo : Option (List UInt8)} (h : Reached w)
    (hcreate : w.createTransfer sort order address value fee memo = .ok (tx, w')) :
    Reached w' := by
  obtain ⟨amount, -, hcreate⟩ := bind_eq_ok.mp hcreate
  obtain ⟨selection, -, hcreate⟩ := bind_eq_ok.mp hcreate
  obtain ⟨_, -, hcreate⟩ := bind_eq_ok.mp hcreate
  obtain ⟨change, -, hcreate⟩ := bind_eq_ok.mp hcreate
  exact h.withChange hcreate

theorem Reached.createTransferMany {dests : List (Address × Amount)} {fee : Amount}
    (h : Reached w) (hcreate : w.createTransferMany sort order dests fee = .ok (tx, w')) :
    Reached w' := by
  obtain ⟨-, hcreate⟩ := ensure_bind_eq_ok.mp hcreate
  obtain ⟨value, -, hcreate⟩ := bind_eq_ok.mp hcreate
  obtain ⟨amount, -, hcreate⟩ := bind_eq_ok.mp hcreate
  obtain ⟨selection, -, hcreate⟩ := bind_eq_ok.mp hcreate
  obtain ⟨_, -, hcreate⟩ := bind_eq_ok.mp hcreate
  obtain ⟨change, -, hcreate⟩ := bind_eq_ok.mp hcreate
  exact h.withChange hcreate

end

/-! ### The invariant -/

/-- The tables of addresses belong to the seed, and outputs are at addresses. -/
structure Consistent (w : Wallet) : Prop where
  derived : ∀ (address : Address) (index : Nat), w.addressToIndex[address]? = some index →
    ∃ seed, w.seed = some seed ∧ address = addressOf seed index
  listed : ∀ (index : Nat) (address : Address), w.indexToAddress[index]? = some address →
    address ∈ w.addressToIndex
  owned : ∀ (outpoint : OutPoint) (output : FilledOutput), w.utxos[outpoint]? = some output →
    output.address ∈ w.addressToIndex

theorem getNewAddress_eq_ok (h : w.getNewAddress = .ok (address, w')) :
    ∃ seed index, w.seed = some seed ∧ address = addressOf seed index ∧ w' = { w with
      indexToAddress := w.indexToAddress.insert index address
      addressToIndex := w.addressToIndex.insert address index } := by
  obtain ⟨signingKey, hkey, h⟩ := bind_eq_ok.mp h
  obtain ⟨seed, hseed, hkey⟩ := bind_eq_ok.mp hkey
  cases hkey
  cases h
  exact ⟨seed, _, okOr_eq_ok.mp hseed, rfl, rfl⟩

theorem exists_getNewAddress {seed : Seed} (hseed : w.seed = some seed) :
    ∃ address w', w.getNewAddress = .ok (address, w') := by
  rw [getNewAddress, getTxSigningKey, hseed, okOr_some, ok_bind, ok_bind]
  exact ⟨_, _, rfl⟩

theorem consistent_update (h : w.Consistent) (state : State)
    (transactions : List AuthorizedTransaction) :
    (updateWallet state transactions w).Consistent := by
  obtain ⟨hseed, haddress, hindex⟩ := updateWallet_addresses state transactions w
  constructor
  · rw [haddress, hseed]
    exact h.derived
  · rw [haddress, hindex]
    exact h.listed
  · intro outpoint output hget
    rw [haddress]
    rw [updateWallet_utxos] at hget
    by_cases hspent : outpoint ∈ spentOutpoints state w
    · rw [Db.get_eraseAll_of_mem hspent] at hget
      cases hget
    · rw [Db.get_eraseAll_of_not_mem hspent] at hget
      rcases Db.get_putAll_cases hget with hmem | ⟨-, hold⟩
      · obtain ⟨entry, hentry, heq⟩ := List.mem_map.mp (State.mem_getUtxosByAddresses.mp hmem).2
        rw [← heq]
        exact h.listed entry.1 entry.2 (Db.mem_toList.mp hentry)
      · exact h.owned outpoint output hold

theorem consistent_newAddress (h : w.Consistent) (hnew : w.getNewAddress = .ok (address, w')) :
    w'.Consistent := by
  obtain ⟨seed, index, hseed, haddress, rfl⟩ := getNewAddress_eq_ok hnew
  constructor
  · intro other index' hget
    rcases Db.get_insert_cases hget with ⟨rfl, rfl⟩ | ⟨-, hget⟩
    · exact ⟨seed, hseed, haddress⟩
    · exact h.derived other index' hget
  · intro index' other hget
    rw [Db.mem_insert]
    rcases Db.get_insert_cases hget with ⟨rfl, rfl⟩ | ⟨-, hget⟩
    · exact .inl rfl
    · exact .inr (h.listed index' other hget)
  · intro outpoint output hget
    exact (Db.mem_insert ..).mpr (.inr (h.owned outpoint output hget))

theorem consistent_fresh : fresh.Consistent := by
  constructor <;> intro _ _ hget <;> rw [fresh, Db.get_empty] at hget <;> cases hget

theorem Consistent.write (h : w.Consistent) (hwrite : Write w w') : w'.Consistent := by
  cases hwrite with
  | newAddress hnew => exact consistent_newAddress h hnew
  | names => exact ⟨h.derived, h.listed, h.owned⟩
  | update state transactions => exact consistent_update h state transactions

theorem Reached.consistent (h : Reached w) : w.Consistent := by
  induction h with
  | fresh => exact consistent_fresh
  | overwriteSeed seed _ _ =>
    constructor <;> intro _ _ hget <;> rw [Wallet.overwriteSeed, Db.get_empty] at hget <;>
      cases hget
  | write _ hwrite ih => exact ih.write hwrite

theorem Consistent.exists_signingKey (h : w.Consistent) (hmem : address ∈ w.addressToIndex) :
    ∃ seed index, w.seed = some seed ∧ address = addressOf seed index ∧
      w.getTxSigningKeyForAddr address = .ok (WalletKeys.txSigningKey seed index) := by
  obtain ⟨index, hindex⟩ := (Db.mem_iff _ _).mp hmem
  obtain ⟨seed, hseed, haddress⟩ := h.derived address index hindex
  refine ⟨seed, index, hseed, haddress, ?_⟩
  rw [addressOf] at haddress
  rw [getTxSigningKeyForAddr, hindex, okOr_some, ok_bind, getTxSigningKey, hseed, okOr_some,
    ok_bind, ok_bind, ensure_of haddress, ok_bind]

end Wallet

end PlainBitnames
