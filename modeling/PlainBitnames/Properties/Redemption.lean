import PlainBitnames.State.BlockSpec
import PlainBitnames.Wallet.Addresses

/-!
A reservation can be redeemed. The nonce of a reservation is derived from the key
of the address that holds it; a later registration derives the same key for the
address of that output, finds the commitment again and reveals a nonce that
implies it. The transaction spends one reservation for one new name, so it passes
the checks of the state, and its output is filled with the name.
-/

namespace PlainBitnames

open Borsh Fallible

section

variable [Primitives] [WalletKeys]

namespace Wallet

/-- A registration that redeems a reservation of the wallet. -/
structure Redeems (state : State) (w : Wallet) (name : BitName) (tx : Transaction) (w' : Wallet)
    (outpoint : OutPoint) (spent : FilledOutput) : Prop where
  inputs_eq : tx.inputs = [outpoint]
  held : w.utxos[outpoint]? = some spent
  registers : ∃ nonce data, tx.data = some (.bitNameRegistration name nonce data)
  implied : spent.reservationCommitment = tx.impliedReservationCommitment
  reservations : State.validateReservations ⟨tx, [spent]⟩ = .ok ()
  bitnames : state.validateBitnames ⟨tx, [spent]⟩ = .ok ()
  filled : ∃ address ∈ w'.getAddresses,
    (FilledTransaction.mk tx [spent]).filledOutputs = some [⟨address, .bitName name, []⟩]

theorem mem_getAddresses_of_new {w w' : Wallet} {address : Address}
    (h : w.getNewAddress = .ok (address, w')) : address ∈ w'.getAddresses := by
  obtain ⟨seed, index, -, -, rfl⟩ := getNewAddress_eq_ok h
  refine List.mem_map.mpr ⟨(index, address), ?_, rfl⟩
  exact Db.mem_toList.mpr (Db.get_insert_self _ _ _)

/-- The reservation that is made from an empty transaction. -/
theorem reserveBitname_empty {w w' : Wallet} {tx : Transaction} {plainName : String}
    (hw : w.Consistent) (h : w.reserveBitname emptyTransaction plainName = .ok (tx, w')) :
    ∃ seed index, tx = ⟨[], [newOutput (addressOf seed index) .bitNameReservation], [],
      some (.bitNameReservation (commitmentTo (reservationNonce
        (WalletKeys.txSigningKey seed index) (nameHash plainName)) (nameHash plainName)))⟩ := by
  obtain ⟨-, h⟩ := ensure_bind_eq_ok.mp h
  obtain ⟨⟨address, w₁⟩, hnew, h⟩ := bind_eq_ok.mp h
  have hw₁ := consistent_newAddress hw hnew
  have hmem : address ∈ w₁.addressToIndex := by
    obtain ⟨_, index, -, -, rfl⟩ := getNewAddress_eq_ok hnew
    exact (Db.mem_insert ..).mpr (.inl rfl)
  obtain ⟨signingKey, hkey, h⟩ := bind_eq_ok.mp h
  obtain ⟨seed, index, -, rfl, hkey'⟩ := hw₁.exists_signingKey hmem
  obtain rfl := Except.ok.inj (hkey.symm.trans hkey')
  cases h
  exact ⟨seed, index, rfl⟩

omit [WalletKeys] in
/-- What connecting a reservation without inputs creates. -/
theorem created_reservation {address : Address} {commitment : Hash} {state : State}
    {filled : FilledTransaction}
    (hfill : state.fillTransaction ⟨[], [newOutput address .bitNameReservation], [],
      some (.bitNameReservation commitment)⟩ = .ok filled) {entry : OutPoint × FilledOutput}
    (hentry : entry ∈ filled.created) :
    entry.2 = ⟨address, .bitNameReservation filled.txid commitment, []⟩ := by
  cases hfill
  obtain rfl := List.mem_singleton.mp hentry
  rfl

/-- The search finds a reservation if some reservation commits to the name under
the key of its address. -/
theorem findReservation_ok {w : Wallet} (hw : w.Consistent) {name : BitName} {coins : List Coin}
    (howned : ∀ coin ∈ coins, coin.2.address ∈ w.addressToIndex) {coin : Coin}
    (hcoin : coin ∈ coins)
    (hmatch : ∀ signingKey, w.getTxSigningKeyForAddr coin.2.address = .ok signingKey →
      coin.2.reservationCommitment = some (commitmentTo (reservationNonce signingKey name) name)) :
    ∃ outpoint output nonce, (outpoint, output) ∈ coins ∧
      output.reservationCommitment = some (commitmentTo nonce name) ∧
      w.findReservation name coins = .ok (some (outpoint, nonce)) := by
  induction coins with
  | nil => cases hcoin
  | cons first coins ih =>
    obtain ⟨outpoint, output⟩ := first
    obtain ⟨hfirst, howned⟩ := List.forall_mem_cons.mp howned
    obtain ⟨seed, index, -, -, hkey⟩ := hw.exists_signingKey hfirst
    have hrest : coin ∈ coins → ∃ outpoint' output' nonce,
        (outpoint', output') ∈ (outpoint, output) :: coins ∧
          output'.reservationCommitment = some (commitmentTo nonce name) ∧
          w.findReservation name coins = .ok (some (outpoint', nonce)) := by
      intro hmem
      obtain ⟨outpoint', output', nonce, hmem', hcommitment, hfound⟩ := ih howned hmem
      exact ⟨outpoint', output', nonce, List.mem_cons_of_mem _ hmem', hcommitment, hfound⟩
    rw [findReservation]
    split
    next hnone =>
      refine hrest ((List.mem_cons.mp hcoin).resolve_left ?_)
      rintro rfl
      rw [hmatch _ hkey] at hnone
      cases hnone
    next commitment hcommitment =>
      rw [hkey, ok_bind]
      dsimp only
      split
      next heq =>
        exact ⟨outpoint, output, _, List.mem_cons_self, by rw [hcommitment, heq], rfl⟩
      next hne =>
        refine hrest ((List.mem_cons.mp hcoin).resolve_left ?_)
        rintro rfl
        rw [hmatch _ hkey] at hcommitment
        exact hne (Option.some.inj hcommitment)

/-- A registration that spends a matching reservation and makes one name. -/
def registration (outpoint : OutPoint) (address : Address) (name : BitName) (nonce : Hash)
    (data : MutableBitNameData) : Transaction :=
  ⟨[outpoint], [newOutput address .bitName], [], some (.bitNameRegistration name nonce data)⟩

omit [WalletKeys] in
/-- An output with a commitment is a reservation and not a name. -/
theorem content_of_commitment {spent : FilledOutput} {commitment : Hash}
    (h : spent.reservationCommitment = some commitment) :
    ∃ txid, spent.content = .bitNameReservation txid commitment := by
  obtain ⟨address, content, memo⟩ := spent
  cases content <;> cases h
  exact ⟨_, rfl⟩

section

variable {outpoint : OutPoint} {address address' : Address} {name : BitName} {nonce : Hash}
  {data : MutableBitNameData} {txid : Txid} {memo : List UInt8}

omit [WalletKeys] in
theorem validateReservations_registration :
    State.validateReservations ⟨registration outpoint address name nonce data,
      [⟨address', .bitNameReservation txid (commitmentTo nonce name), memo⟩]⟩ = .ok () :=
  rfl

omit [WalletKeys] in
theorem filledOutputs_registration :
    (FilledTransaction.mk (registration outpoint address name nonce data)
      [⟨address', .bitNameReservation txid (commitmentTo nonce name), memo⟩]).filledOutputs =
      some [⟨address, .bitName name, []⟩] :=
  rfl

omit [WalletKeys] in
theorem validateBitnames_of_registration {state : State} {tx : FilledTransaction}
    (hdata : tx.transaction.data = some (.bitNameRegistration name nonce data))
    (hfree : name ∉ state.bitnames.bitnames)
    (hburns : (tx.spentReservations.any
      fun input => input.2.reservationCommitment = some (commitmentTo nonce name)) = true)
    (hbalanced : tx.transaction.bitnameOutputs.length = tx.spentBitnames.length + 1) :
    state.validateBitnames tx = .ok () := by
  have hupdate : ¬ (tx.transaction.isUpdate = true ∧
      (tx.spentBitnames.length < 1 ∨ tx.transaction.bitnameOutputs.length < 1)) := by
    rintro ⟨hupdate, -⟩
    rw [Transaction.isUpdate, hdata] at hupdate
    cases hupdate
  have hbatch : tx.transaction.batchIcannData = none := by rw [Transaction.batchIcannData, hdata]
  have hname : tx.transaction.registrationNameHash = some name := by
    rw [Transaction.registrationNameHash, hdata]
  have himplied : tx.transaction.impliedReservationCommitment = some (commitmentTo nonce name) := by
    rw [Transaction.impliedReservationCommitment, hdata]
    rfl
  rw [State.validateBitnames, ensure_of hupdate, ok_bind, hbatch]
  dsimp only
  rw [ok_bind, hname]
  dsimp only
  rw [ensure_of hfree, ok_bind, himplied]
  dsimp only
  rw [ensure_of hburns, ok_bind, ensure_of hbalanced]

omit [WalletKeys] in
theorem validateBitnames_registration {state : State} (hfree : name ∉ state.bitnames.bitnames) :
    state.validateBitnames ⟨registration outpoint address name nonce data,
      [⟨address', .bitNameReservation txid (commitmentTo nonce name), memo⟩]⟩ = .ok () := by
  refine validateBitnames_of_registration rfl hfree ?_ rfl
  simp [FilledTransaction.spentReservations, FilledTransaction.spentInputs,
    FilledTransaction.inputs, registration, FilledOutput.isReservation,
    FilledContent.isReservation, FilledOutput.reservationCommitment,
    FilledContent.reservationCommitment, FilledContent.reservationData]

end

theorem registerBitname_redeems (order : Shuffle Coin) {w w' : Wallet} {state : State}
    {plainName : String} {address : Address} {outpoint : OutPoint} {spent : FilledOutput}
    {nonce : Hash} (data : MutableBitNameData) (hnew : w.getNewAddress = .ok (address, w'))
    (hheld : w.utxos[outpoint]? = some spent)
    (hcommitment : spent.reservationCommitment = some (commitmentTo nonce (nameHash plainName)))
    (hfound : w'.findReservation (nameHash plainName) (order.run w'.utxos.toList) =
      .ok (some (outpoint, nonce)))
    (hfree : nameHash plainName ∉ state.bitnames.bitnames) :
    ∃ tx w'' outpoint spent,
      w.registerBitname order emptyTransaction plainName data = .ok (tx, w'') ∧
        Redeems state w (nameHash plainName) tx w'' outpoint spent := by
  obtain ⟨txid, hcontent⟩ := content_of_commitment hcommitment
  obtain ⟨address', content, memo⟩ := spent
  obtain rfl : content = .bitNameReservation txid (commitmentTo nonce (nameHash plainName)) :=
    hcontent
  have haddress : w.outputAddress emptyTransaction = .ok (address, w') := hnew
  have hmem : address ∈ w'.getAddresses := mem_getAddresses_of_new hnew
  refine ⟨registration outpoint address (nameHash plainName) nonce data,
    { w' with knownBitnames := w'.knownBitnames.insert (nameHash plainName) plainName },
    outpoint, _, ?_, rfl, hheld, ⟨nonce, data, rfl⟩, hcommitment,
    validateReservations_registration, validateBitnames_registration hfree, address,
    hmem, filledOutputs_registration⟩
  rw [registerBitname, ensure_of (by rfl), ok_bind, haddress, ok_bind]
  dsimp only
  rw [hfound, ok_bind]
  rfl

/-- A reservation that a wallet has made from an empty transaction can be redeemed
by every wallet that holds its output, in whatever order it goes through its
outputs. -/
theorem reservation_redeemable (hkeys : KeysByAddress) (order : Shuffle Coin)
    {w₀ w₁ w₂ : Wallet} (hw₀ : Reached w₀) {plainName : String} {tx : Transaction}
    (hreserve : w₀.reserveBitname emptyTransaction plainName = .ok (tx, w₁))
    {before : State} {filled : FilledTransaction} (hfill : before.fillTransaction tx = .ok filled)
    {entry : OutPoint × FilledOutput} (hcreated : entry ∈ filled.created) (hw₂ : Reached w₂)
    (hheld : w₂.utxos[entry.1]? = some entry.2) {state : State}
    (hfree : nameHash plainName ∉ state.bitnames.bitnames) (data : MutableBitNameData) :
    ∃ tx' w₃ outpoint spent,
      w₂.registerBitname order emptyTransaction plainName data = .ok (tx', w₃) ∧
        Redeems state w₂ (nameHash plainName) tx' w₃ outpoint spent := by
  obtain ⟨seed, index, rfl⟩ := reserveBitname_empty hw₀.consistent hreserve
  obtain ⟨seed', -, hseed', -, -⟩ :=
    hw₂.consistent.exists_signingKey (hw₂.consistent.owned _ _ hheld)
  obtain ⟨address, w₂', hnew⟩ := exists_getNewAddress hseed'
  have hw₂' := consistent_newAddress hw₂.consistent hnew
  have hutxos : w₂'.utxos = w₂.utxos := by
    obtain ⟨_, _, -, -, rfl⟩ := getNewAddress_eq_ok hnew
    rfl
  have hmem : ∀ coin, coin ∈ order.run w₂'.utxos.toList ↔ w₂.utxos[coin.1]? = some coin.2 := by
    intro coin
    rw [(order.perm _).mem_iff, Db.mem_toList, hutxos]
  have howned : ∀ coin ∈ order.run w₂'.utxos.toList, coin.2.address ∈ w₂'.addressToIndex := by
    intro coin hcoin
    exact hw₂'.owned coin.1 coin.2 (hutxos ▸ (hmem coin).mp hcoin)
  have hmatch : ∀ signingKey, w₂'.getTxSigningKeyForAddr entry.2.address = .ok signingKey →
      entry.2.reservationCommitment = some (commitmentTo
        (reservationNonce signingKey (nameHash plainName)) (nameHash plainName)) := by
    intro signingKey hkey
    obtain ⟨seed', index', -, haddress, hkey'⟩ :=
      hw₂'.exists_signingKey (howned entry ((hmem entry).mpr hheld))
    obtain rfl := Except.ok.inj (hkey.symm.trans hkey')
    rw [created_reservation hfill hcreated] at haddress ⊢
    -- the key of the address is the one that the reservation was made with
    rw [hkeys seed seed' index index' haddress]
    rfl
  obtain ⟨outpoint, output, nonce, hfound, hcommitment, hsearch⟩ :=
    findReservation_ok hw₂' howned ((hmem entry).mpr hheld) hmatch
  exact registerBitname_redeems order data hnew ((hmem _).mp hfound) hcommitment hsearch hfree

end Wallet

end

namespace Instance

theorem toNat_addressOf (seed : Seed) (index : Nat) :
    (addressOf seed index).toNat = index % 256 := by
  have hkey : (BitVec.ofNat 256 (index % 256)).toNat = index % 256 :=
    Nat.mod_eq_of_lt (by omega)
  show (UInt8.ofNat (BitVec.ofNat 256 (index % 256)).toNat).toNat % 2 ^ 160 = index % 256
  rw [hkey, UInt8.toNat_ofNat']
  omega

theorem keysByAddress : KeysByAddress := by
  intro _ _ i j h
  have hnat := congrArg BitVec.toNat h
  rw [toNat_addressOf, toNat_addressOf] at hnat
  exact hnat

/-- A wallet with a seed, and what it makes of an empty transaction to reserve a
name. -/
def seeded : Wallet := Wallet.fresh.overwriteSeed ()

def reserving : Transaction × Wallet :=
  (seeded.reserveBitname emptyTransaction "name").toOption.getD (emptyTransaction, seeded)

theorem seeded_reserves :
    seeded.reserveBitname emptyTransaction "name" = .ok (reserving.1, reserving.2) :=
  eq_ok_getD (emptyTransaction, seeded) (by decide +kernel)

def reservingBody : Body := ⟨⟨[], []⟩, [reserving.1], []⟩

/-- The state after a block with the reservation, and the wallet updated there. -/
def reservingState : State :=
  (State.empty.applyBlock 0 (mine State.empty reservingBody) reservingBody).toOption.getD
    State.empty

def holding : Wallet := updateWallet reservingState [] reserving.2

theorem holding_reached : Wallet.Reached holding := by
  have hseeded : Wallet.Reached seeded := Wallet.Reached.fresh.overwriteSeed ()
  exact (hseeded.reserveBitname seeded_reserves).write (.update _ _ _)

def reservedEntry : OutPoint × FilledOutput :=
  (.regular reserving.1.txid 0, (holding.utxos[(.regular reserving.1.txid 0 : OutPoint)]?).getD
    ⟨0, .bitcoin 0, []⟩)

theorem reservation_redeemable_holding :
    reservingState.utxos[reservedEntry.1]? = some reservedEntry.2 ∧
      ∃ tx w outpoint spent,
        holding.registerBitname (insertionOrder _) emptyTransaction "name"
            ⟨none, none, none, none, none, none⟩ = .ok (tx, w) ∧
          Wallet.Redeems reservingState holding (nameHash "name") tx w outpoint spent := by
  have hcreated : reservedEntry ∈ (FilledTransaction.mk reserving.1 []).created := by
    decide +kernel
  have hheld : holding.utxos[reservedEntry.1]? = some reservedEntry.2 := by decide +kernel
  have hfree : nameHash "name" ∉ reservingState.bitnames.bitnames := by decide +kernel
  have hfill : State.empty.fillTransaction reserving.1 = .ok ⟨reserving.1, []⟩ := by
    decide +kernel
  have hseeded : Wallet.Reached seeded := Wallet.Reached.fresh.overwriteSeed ()
  exact ⟨by decide +kernel, Wallet.reservation_redeemable keysByAddress (insertionOrder _) hseeded
    seeded_reserves hfill hcreated holding_reached hheld hfree _⟩

end Instance

end PlainBitnames
