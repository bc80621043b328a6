import PlainBitnames.Node.Transactions
import PlainBitnames.Properties.NameHistory
import PlainBitnames.State.Contents

/-!
A transaction that was valid in a state, in a later state. Its inputs hold what they held, as
long as they are unspent, so that it fails only if an input is gone or if the name that it
registers is taken.
-/

namespace PlainBitnames

open Borsh Fallible

section

variable [Primitives]

namespace FilledTransaction

variable {tx tx' : FilledTransaction} {utxos utxos' : List FilledOutput}

theorem retainRequiringAuth_alike (h : List.Forall₂ FilledOutput.Alike utxos utxos')
    (names : List BitName) : List.Forall₂ FilledOutput.Alike (retainRequiringAuth names utxos)
      (retainRequiringAuth names utxos') := by
  induction h generalizing names with
  | nil =>
    cases names <;> exact .nil
  | @cons a b _ _ halike _ ih =>
    cases names with
    | nil => exact .cons halike (ih [])
    | cons name names =>
      rw [retainRequiringAuth, retainRequiringAuth, halike.bitname_eq]
      split
      case h_1 => exact .cons halike (ih _)
      case h_2 =>
        split
        case isTrue => exact ih names
        case isFalse => exact .cons halike (ih _)

/-- What validation reads of two fillings of one transaction with outputs that are alike. -/
structure Agrees (tx tx' : FilledTransaction) : Prop where
  transaction : tx'.transaction = tx.transaction
  spent : List.Forall₂ FilledOutput.Alike tx.spentUtxos tx'.spentUtxos

theorem Agrees.map_filter (h : Agrees tx tx') {α : Type} {p : FilledOutput → Bool}
    {f : FilledOutput → α} (hp : ∀ a b : FilledOutput, a.Alike b → p a = p b)
    (hf : ∀ a b : FilledOutput, a.Alike b → p a = true → f a = f b) :
    (tx'.spentInputs.filter fun input => p input.2).map (fun input => f input.2) =
      (tx.spentInputs.filter fun input => p input.2).map fun input => f input.2 := by
  unfold spentInputs inputs
  rw [h.transaction]
  exact (map_filter_zip hp hf h.spent _).symm

theorem Agrees.length_filter (h : Agrees tx tx') {p : FilledOutput → Bool}
    (hp : ∀ a b : FilledOutput, a.Alike b → p a = p b) :
    (tx'.spentInputs.filter fun input => p input.2).length =
      (tx.spentInputs.filter fun input => p input.2).length := by
  have hmap := h.map_filter hp (fun _ _ _ _ => (rfl : () = ()))
  simpa using congrArg List.length hmap

theorem Agrees.length_spentBitnames (h : Agrees tx tx') :
    tx'.spentBitnames.length = tx.spentBitnames.length :=
  h.length_filter fun _ _ halike => halike.isBitname_eq

theorem Agrees.length_spentReservations (h : Agrees tx tx') :
    tx'.spentReservations.length = tx.spentReservations.length :=
  h.length_filter fun _ _ halike => halike.isReservation_eq

theorem Agrees.any_spentReservations (h : Agrees tx tx') (implied : Hash) :
    (tx'.spentReservations.any fun input => input.2.reservationCommitment = some implied) =
      tx.spentReservations.any fun input => input.2.reservationCommitment = some implied := by
  have hmap := h.map_filter (p := FilledOutput.isReservation)
    (f := FilledOutput.reservationCommitment) (fun _ _ halike => halike.isReservation_eq)
    (fun _ _ halike _ => halike.reservationCommitment_eq)
  have hany := congrArg (fun l => l.any fun commitment => decide (commitment = some implied)) hmap
  rw [List.any_map, List.any_map] at hany
  exact hany

theorem Agrees.fee_eq (h : Agrees tx tx') : tx'.fee = tx.fee := by
  have hvalues : tx'.spentUtxos.map FilledOutput.getValue =
      tx.spentUtxos.map FilledOutput.getValue := by
    have hspent := h.spent
    generalize tx.spentUtxos = utxos, tx'.spentUtxos = utxos' at hspent
    induction hspent with
    | nil => rfl
    | cons halike _ ih => rw [List.map_cons, List.map_cons, halike.getValue_eq, ih]
  unfold fee spentValue valueOut outputs
  rw [hvalues, h.transaction]

theorem Agrees.length_requiringAuth (h : Agrees tx tx') :
    tx'.spentUtxosRequiringAuth.length = tx.spentUtxosRequiringAuth.length := by
  unfold spentUtxosRequiringAuth
  rw [h.transaction]
  split
  case h_1 => exact (retainRequiringAuth_alike h.spent _).length_eq.symm
  case h_2 => exact h.spent.length_eq.symm

theorem Agrees.addresses (h : Agrees tx tx') {authorizations : List Authorization}
    (haddresses : ∀ pair ∈ authorizations.zip tx.spentUtxos, pair.1.getAddress = pair.2.address) :
    ∀ pair ∈ authorizations.zip tx'.spentUtxos, pair.1.getAddress = pair.2.address := by
  have hspent := h.spent
  generalize tx.spentUtxos = utxos, tx'.spentUtxos = utxos' at hspent haddresses
  induction hspent generalizing authorizations with
  | nil => simp
  | cons halike _ ih =>
    cases authorizations with
    | nil => simp
    | cons authorization authorizations =>
      rw [List.zip_cons_cons, List.forall_mem_cons] at haddresses ⊢
      exact ⟨haddresses.1.trans halike.1, ih haddresses.2⟩

theorem Agrees.no_withdrawal (h : Agrees tx tx')
    (hnone : ∀ input ∈ tx.spentInputs, input.2.content.isWithdrawal = false) :
    ∀ input ∈ tx'.spentInputs, input.2.content.isWithdrawal = false := by
  have hlength := h.length_filter (p := fun output => output.content.isWithdrawal)
    fun _ _ halike => halike.isWithdrawal_eq
  have hempty : (tx.spentInputs.filter fun input => input.2.content.isWithdrawal) = [] :=
    List.filter_eq_nil_iff.mpr fun input hinput => by simp [hnone input hinput]
  rw [hempty, List.length_nil, List.length_eq_zero_iff, List.filter_eq_nil_iff] at hlength
  exact fun input hinput => Bool.eq_false_of_not_eq_true (hlength input hinput)

end FilledTransaction

namespace State

open FilledTransaction

variable {ctxt : BatchVerificationContext} {state state' : State} {tx tx' : FilledTransaction}

/-- The result of validating a transaction that is fine but for the name that it registers. -/
def nameChecked {α : Type} (state : State) (transaction : Transaction) (a : α) : Result α :=
  match transaction.registrationNameHash with
  | some nameHash =>
    if nameHash ∈ state.bitnames.bitnames then .error (.error (.bitNameAlreadyRegistered nameHash))
    else .ok a
  | none => .ok a

theorem validateReservations_agrees (h : Agrees tx tx') :
    validateReservations tx' = validateReservations tx := by
  unfold validateReservations
  rw [h.length_spentReservations, h.transaction]

theorem validateBatchIcann_agrees (h : Agrees tx tx') :
    validateBatchIcann tx' = validateBatchIcann tx := by
  unfold validateBatchIcann inputs outputs
  rw [h.transaction]

theorem validateBitnames_agrees (h : Agrees tx tx') :
    state.validateBitnames tx' = state.validateBitnames tx := by
  unfold validateBitnames
  simp only [h.length_spentBitnames, h.transaction, h.any_spentReservations]

theorem validateBitnames_of_ok {u : Unit} (h : state.validateBitnames tx = .ok u) (state' : State) :
    state'.validateBitnames tx = state'.nameChecked tx.transaction () := by
  have hfresh := (validateBitnames_ok h).2.1
  unfold nameChecked
  cases hname : tx.transaction.registrationNameHash with
  | none =>
    rw [← h]
    unfold validateBitnames
    rw [hname]
  | some nameHash =>
    dsimp only
    split
    case isTrue hmem =>
      obtain ⟨hupdate, h⟩ := ensure_bind_eq_ok.mp h
      unfold validateBitnames
      dsimp only at h ⊢
      rw [ensure_of hupdate, ok_bind]
      have htaken : ensure (nameHash ∉ state'.bitnames.bitnames)
          (.error (.bitNameAlreadyRegistered nameHash) : Failure Error) =
            .error (.error (.bitNameAlreadyRegistered nameHash)) :=
        ensure_eq_error.mpr ⟨not_not.mpr hmem, rfl⟩
      rw [hname]
      cases hbatch : tx.transaction.batchIcannData with
      | none =>
        dsimp only
        rw [ok_bind]
        exact bind_eq_error.mpr (.inl htaken)
      | some data =>
        rw [hbatch] at h
        obtain ⟨hlength, -⟩ := ensure_bind_eq_ok.mp h
        dsimp only
        rw [ensure_of hlength, ok_bind]
        exact bind_eq_error.mpr (.inl htaken)
    case isFalse hnot =>
      rw [← h]
      unfold validateBitnames
      simp only [hname, hnot, (hfresh nameHash hname).1]

theorem validateFilledTransaction_of_ok {fee : Amount} (h : Agrees tx tx')
    (hok : state.validateFilledTransaction tx = .ok fee) (state' : State) :
    state'.validateFilledTransaction tx' = state'.nameChecked tx.transaction fee := by
  have hvalidated := validateFilledTransaction_ok hok
  obtain ⟨⟨⟩, hreservations, hok⟩ := bind_eq_ok.mp hok
  obtain ⟨⟨⟩, hbitnames, hok⟩ := bind_eq_ok.mp hok
  have hfind : (tx'.spentInputs.find? fun input => input.2.content.isWithdrawal) = none := by
    simpa using h.no_withdrawal hvalidated.no_withdrawal
  have hfee : tx'.fee.mapError (fun e => (.error (.computeFee e) : Failure Error)) = .ok fee := by
    rw [h.fee_eq, hvalidated.fee_eq]
    rfl
  unfold validateFilledTransaction
  rw [validateReservations_agrees h, hreservations, ok_bind, validateBitnames_agrees h,
    validateBitnames_of_ok hbitnames, validateBatchIcann_agrees h, hvalidated.batch_valid]
  dsimp only
  rw [hfind]
  dsimp only [ok_bind]
  rw [hfee]
  unfold nameChecked
  split
  case h_1 =>
    split <;> rfl
  case h_2 => rfl

theorem fillTransaction_cases (state : State) (transaction : Transaction) :
    (∃ filled, state.fillTransaction transaction = .ok filled) ∨
      ∃ input ∈ transaction.inputs, input ∉ state.utxos ∧
        state.fillTransaction transaction = .error (.error (.noUtxo input)) := by
  cases hfill : state.fillTransaction transaction with
  | ok filled => exact .inl ⟨filled, rfl⟩
  | error err =>
    rcases bind_eq_error.mp hfill with herr | ⟨_, -, herr⟩
    · obtain ⟨input, hinput, herr⟩ := exists_of_mapM_eq_error herr
      cases hget : state.utxos[input]? with
      | none =>
        rw [hget] at herr
        cases herr
        exact .inr ⟨input, hinput, (Db.not_mem_iff _ _).mpr hget, rfl⟩
      | some output =>
        rw [hget] at herr
        cases herr
    · cases herr

/-- A transaction that was valid and whose inputs hold what they held is valid, unless the name
that it registers is taken. -/
theorem validateTransaction_of_ok {transaction : AuthorizedTransaction} {fee : Amount}
    (hok : state.validateTransaction ctxt transaction = .ok fee)
    (halike : ∀ (input : OutPoint) a b, state.utxos[input]? = some a →
      state'.utxos[input]? = some b → a.Alike b) {filled' : FilledTransaction}
    (hfilled' : state'.fillTransaction transaction.transaction = .ok filled') :
    state'.validateTransaction ctxt transaction = state'.nameChecked transaction.transaction fee := by
  obtain ⟨filled, hfilled, hvalid, hadmitted⟩ := validateTransaction_ok hok
  obtain ⟨htransaction, hfills⟩ := fillTransaction_eq_ok.mp hfilled
  obtain ⟨htransaction', hfills'⟩ := fillTransaction_eq_ok.mp hfilled'
  have hagrees : Agrees filled filled' := by
    refine ⟨htransaction'.trans htransaction.symm, ?_⟩
    have hfills' : List.Forall₂ (fun input utxo => state'.utxos[input]? = some utxo)
        filled.inputs filled'.spentUtxos := by
      rw [inputs, htransaction, ← htransaction']
      exact hfills'
    exact forall₂_of_common halike hfills hfills'
  have hcount : transaction.authorizations.length = filled.spentUtxosRequiringAuth.length :=
    hadmitted.count_eq
  have haddresses : (transaction.authorizations.zip filled'.spentUtxos).all
      (fun pair => decide (pair.1.getAddress = pair.2.address)) = true := by
    simpa using hagrees.addresses hadmitted.addresses
  have hverified : verifyAuthorizedTransaction ctxt transaction = .ok () := by
    have hverified := hadmitted.verified
    rwa [htransaction] at hverified
  unfold validateTransaction
  rw [hfilled', ok_bind, hagrees.length_requiringAuth]
  dsimp only
  rw [ensure_of hcount, ok_bind, ensure_of haddresses, ok_bind, mapFailure_eq_ok.mpr hverified,
    ok_bind, validateFilledTransaction_of_ok hagrees hvalid, htransaction]

end State

/-- The connection is kept if the transaction is accepted or an input is missing. -/
theorem handlePushTx_ok_iff {ctxt : BatchVerificationContext} {state : State}
    {tx : AuthorizedTransaction} : (∃ new, (handlePushTx ctxt state tx).2 = .ok new) ↔
      (∃ fee, state.validateTransaction ctxt tx = .ok fee) ∨
        ∃ input, state.validateTransaction ctxt tx = .error (.error (.noUtxo input)) := by
  unfold handlePushTx
  dsimp only
  split
  case h_1 input heq => exact ⟨fun _ => .inr ⟨input, heq⟩, fun _ => ⟨none, rfl⟩⟩
  case h_2 err hne heq =>
    constructor
    · rintro ⟨_, hok⟩
      cases hok
    · rintro (⟨_, hok⟩ | ⟨input, hok⟩)
      · cases heq.symm.trans hok
      · cases heq.symm.trans hok
        exact absurd rfl (hne input)
  case h_3 heq =>
    constructor
    · rintro ⟨_, hok⟩
      cases hok
    · rintro (⟨_, hok⟩ | ⟨input, hok⟩) <;> cases heq.symm.trans hok
  case h_4 fee heq => exact ⟨fun _ => .inl ⟨fee, heq⟩, fun _ => ⟨some tx, rfl⟩⟩

/-- A transaction that was valid is accepted later or fails for a missing input exactly if an
input is missing or the name that it registers is free, and exactly then the connection to a peer
that pushes it is kept. -/
theorem stale_transaction_iff (hcf : CollisionFree) {done later : List Step} {state state' : State}
    (hrun : State.empty.run done = .ok state) (hlater : state.run later = .ok state')
    (hdeposits : DepositsDistinct (done ++ later)) {ctxt : BatchVerificationContext}
    {tx : AuthorizedTransaction} {fee : Amount}
    (hvalid : state.validateTransaction ctxt tx = .ok fee) :
    (((∃ fee, state'.validateTransaction ctxt tx = .ok fee) ∨
        ∃ input, state'.validateTransaction ctxt tx = .error (.error (.noUtxo input))) ↔
      ((∀ input ∈ tx.transaction.inputs, input ∈ state'.utxos) →
        ∀ nameHash, tx.transaction.registrationNameHash = some nameHash →
          nameHash ∉ state'.bitnames.bitnames)) ∧
      ((∃ new, (handlePushTx ctxt state' tx).2 = .ok new) ↔
        (∃ fee, state'.validateTransaction ctxt tx = .ok fee) ∨
          ∃ input, state'.validateTransaction ctxt tx = .error (.error (.noUtxo input))) := by
  constructor
  · rcases state'.fillTransaction_cases tx.transaction with ⟨filled', hfilled'⟩ |
      ⟨input, hinput, hnot, herr⟩
    · have hresult := State.validateTransaction_of_ok hvalid
        (fun _ _ _ => utxos_alike hcf hrun hlater hdeposits) hfilled'
      obtain ⟨htransaction, hfills⟩ := State.fillTransaction_eq_ok.mp hfilled'
      have hmem : ∀ input ∈ tx.transaction.inputs, input ∈ state'.utxos := fun input hinput =>
        hfills.mem_utxos (by rwa [FilledTransaction.inputs, htransaction])
      rw [hresult]
      unfold State.nameChecked
      cases hname : tx.transaction.registrationNameHash with
      | none =>
        refine ⟨fun _ _ _ heq => ?_, fun _ => .inl ⟨fee, rfl⟩⟩
        cases heq
      | some nameHash =>
        dsimp only
        split
        case isTrue htaken =>
          constructor
          · rintro (⟨_, heq⟩ | ⟨_, heq⟩) <;> cases heq
          · exact fun hfree => absurd htaken (hfree hmem nameHash rfl)
        case isFalse hfree =>
          refine ⟨fun _ _ other heq => ?_, fun _ => .inl ⟨fee, rfl⟩⟩
          cases heq
          exact hfree
    · refine ⟨fun _ hmem => absurd (hmem input hinput) hnot, fun _ => .inr ⟨input, ?_⟩⟩
      exact bind_eq_error.mpr (.inl herr)
  · exact handlePushTx_ok_iff

end

namespace Instance

/-- Another reservation of the name `[9]`. -/
def rivalReserveTx : Transaction :=
  ⟨[], [⟨7, .bitNameReservation, []⟩], [],
    some (.bitNameReservation (Primitives.keyedHash [10] (Primitives.hashBytes [9])))⟩

/-- Another registration of the name. -/
def rivalRegisterTx : AuthorizedTransaction :=
  ⟨⟨[.regular rivalReserveTx.txid 0], [⟨7, .bitName, []⟩], [],
    some (.bitNameRegistration [9] [10] ⟨none, none, none, none, none, none⟩)⟩, [⟨7, 7⟩]⟩

/-- The name is reserved twice. -/
def reserveBothActs : List (Body ⊕ TwoWayPegData) :=
  [.inl ⟨⟨[], []⟩, [reserveTx, rivalReserveTx], []⟩]

def reservedBoth : State := after reserveBothActs

/-- One of the reservations is used. -/
def registerOne : List Step := script reservedBoth [.inl ⟨⟨[], []⟩, [registerTx], [⟨7, 7⟩]⟩]

def registeredOne : State := (reservedBoth.run registerOne).toOption.getD reservedBoth

/-- The loser of the race for a name is disconnected, although its inputs are unspent. -/
theorem taken_name_ends_connection :
    State.empty.run (stepsOf reserveBothActs) = .ok reservedBoth ∧
      reservedBoth.run registerOne = .ok registeredOne ∧
      DepositsDistinct (stepsOf reserveBothActs ++ registerOne) ∧
      reservedBoth.validateTransaction 0 rivalRegisterTx = .ok 0 ∧
      registeredOne.validateTransaction 0 rivalRegisterTx =
        .error (.error (.bitNameAlreadyRegistered [9])) ∧
      handlePushTx 0 registeredOne rivalRegisterTx =
        (some (.transactionRejected rivalRegisterTx.transaction.txid),
          .error (.error (.bitNameAlreadyRegistered [9]))) := by
  refine ⟨eq_ok_getD State.empty (by decide +kernel), eq_ok_getD reservedBoth (by decide +kernel),
    ?_, by decide +kernel, by decide +kernel, by decide +kernel⟩
  unfold DepositsDistinct
  decide +kernel

/-- A block that does not touch the reservation or the name. -/
def mintLater : List Step := script reservedBoth [.inl mintBody]

def mintedLater : State := (reservedBoth.run mintLater).toOption.getD reservedBoth

theorem stale_transaction_minted :
    reservedBoth.validateTransaction 0 rivalRegisterTx = .ok 0 ∧
      ((∃ fee, mintedLater.validateTransaction 0 rivalRegisterTx = .ok fee) ∨
        ∃ input, mintedLater.validateTransaction 0 rivalRegisterTx =
          .error (.error (.noUtxo input))) := by
  have hrun : State.empty.run (stepsOf reserveBothActs) = .ok reservedBoth :=
    eq_ok_getD State.empty (by decide +kernel)
  have hlater : reservedBoth.run mintLater = .ok mintedLater :=
    eq_ok_getD reservedBoth (by decide +kernel)
  have hdeposits : DepositsDistinct (stepsOf reserveBothActs ++ mintLater) := by
    unfold DepositsDistinct
    decide +kernel
  have hvalid : reservedBoth.validateTransaction 0 rivalRegisterTx = .ok 0 := by decide +kernel
  have hfree : ([9] : BitName) ∉ mintedLater.bitnames.bitnames := by decide +kernel
  refine ⟨hvalid, (stale_transaction_iff collisionFree hrun hlater hdeposits hvalid).1.mpr ?_⟩
  intro _ nameHash hname
  cases hname
  exact hfree

end Instance

end PlainBitnames
