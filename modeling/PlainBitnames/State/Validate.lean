import PlainBitnames.State.Basic
import PlainBitnames.Types.Authorization

/-!
Filling transactions with the outputs they spend, and the checks a filled
transaction must pass. All checks read the state before the block.
-/

namespace PlainBitnames

open Borsh Fallible

variable [Primitives]

/-- `BATCH_ICANN_VERIFYING_KEY_BYTES`. -/
def batchIcannVerifyingKeyBytes : BitVec 256 := 0

/-- `BATCH_ICANN_VERIFYING_KEY`: the key that can make batch ICANN
registrations, if the bytes are a valid key. -/
def batchIcannVerifyingKey : Option VerifyingKey :=
  Primitives.verifyingKeyTryFrom batchIcannVerifyingKeyBytes

namespace State

def fillTransaction (state : State) (transaction : Transaction) :
    Result FilledTransaction := do
  let spentUtxos ← transaction.inputs.mapM fun input =>
    okOr state.utxos[input]? (.error (.noUtxo input))
  .ok ⟨transaction, spentUtxos⟩

/-- Fill a transaction that has already been applied, last input first. -/
def fillTransactionFromStxos (state : State) (tx : Transaction) : Result FilledTransaction := do
  let spentUtxos ← tx.inputs.zipIdx.reverse.mapM fun (input, vin) => do
    let stxo ← okOr state.stxos[input]? (.error (.noStxo input))
    ensure (stxo.inpoint = .regular tx.txid (UInt32.ofNat vin))
      (.panic "assert_eq!(stxo.inpoint, InPoint::Regular)")
    .ok stxo.output
  .ok ⟨tx, spentUtxos.reverse⟩

def validateReservations (tx : FilledTransaction) : Result Unit :=
  let nReservationInputs := tx.spentReservations.length
  let nReservationOutputs := tx.transaction.reservationOutputs.length
  let balanced :=
    if tx.transaction.isReservation then nReservationOutputs = nReservationInputs + 1
    else if tx.transaction.isRegistration then nReservationInputs = nReservationOutputs + 1
    else nReservationInputs = nReservationOutputs
  ensure balanced (.error (.unbalancedReservations nReservationInputs nReservationOutputs))

def validateBitnames (state : State) (tx : FilledTransaction) : Result Unit := do
  let nBitnameInputs := tx.spentBitnames.length
  let nBitnameOutputs := tx.transaction.bitnameOutputs.length
  let unbalanced : Failure Error := .error (.unbalancedBitNames nBitnameInputs nBitnameOutputs)
  ensure (¬ (tx.transaction.isUpdate ∧ (nBitnameInputs < 1 ∨ nBitnameOutputs < 1)))
    (.error (.bitName .noBitNamesToUpdate))
  match tx.transaction.batchIcannData with
  | some data => ensure (data.plainNames.length ≤ nBitnameOutputs) (.error .tooFewBitNameOutputs)
  | none => .ok ()
  match tx.transaction.registrationNameHash with
  | some nameHash => do
      ensure (nameHash ∉ state.bitnames.bitnames) (.error (.bitNameAlreadyRegistered nameHash))
      match tx.transaction.impliedReservationCommitment with
      | some implied =>
        ensure (tx.spentReservations.any
            fun input => input.2.reservationCommitment = some implied)
          (.error (.bitName (.noReservationForRegistration nameHash)))
      | none => .ok ()
      ensure (nBitnameOutputs = nBitnameInputs + 1) unbalanced
  | none => ensure (nBitnameOutputs = nBitnameInputs) unbalanced

/-- A plain name that can be registered as an ICANN domain: ASCII, at most one
separator, accepted by the domain name parser. -/
def validPlainName (name : String) : Bool :=
  name.toList.all (fun c => decide (c.val < 128)) &&
    decide ((name.toList.filter (· = '.')).length ≤ 1) && Primitives.parseDomainName name

def validateBatchIcann (tx : FilledTransaction) : Result Unit :=
  match tx.transaction.batchIcannData with
  | some data => do
      match data.plainNames.find? fun name => !validPlainName name with
      | some plainName => .error (.error (.icannNameInvalid plainName))
      | none => .ok ()
      let msgHash := hash (tx.inputs, tx.outputs, data.plainNames)
      match batchIcannVerifyingKey with
      | some verifyingKey =>
        ensure (verify data.signature verifyingKey .arbitrary (ser msgHash))
          (.error .invalidBatchIcannRegistrationSignature)
      | none => .error (.error .invalidBatchIcannRegistrationSignature)
  | none => .ok ()

/-- Validates a filled transaction, and returns the fee. -/
def validateFilledTransaction (state : State) (tx : FilledTransaction) : Result Amount := do
  validateReservations tx
  state.validateBitnames tx
  validateBatchIcann tx
  match tx.spentInputs.find? fun input => input.2.content.isWithdrawal with
  | some (outpoint, _) => .error (.error (.spendWithdrawalOutput outpoint))
  | none => .ok ()
  tx.fee.mapError fun e => .error (.computeFee e)

/-- Validates a transaction on its own, and returns the fee. The authorizations are
compared with the first spent utxos. -/
def validateTransaction (ctxt : BatchVerificationContext) (state : State)
    (transaction : AuthorizedTransaction) : Result Amount := do
  let filledTransaction ← state.fillTransaction transaction.transaction
  let nAuthorizationsRequired := filledTransaction.spentUtxosRequiringAuth.length
  ensure (transaction.authorizations.length = nAuthorizationsRequired)
    (.error (.wrongNumberOfAuthorizations nAuthorizationsRequired
      transaction.authorizations.length))
  ensure ((transaction.authorizations.zip filledTransaction.spentUtxos).all
      fun pair => decide (pair.1.getAddress = pair.2.address))
    (.error .wrongPubKeyForAddress)
  mapFailure (fun _ => .authorizationError) (verifyAuthorizedTransaction ctxt transaction)
  state.validateFilledTransaction filledTransaction

/-- The height at which the latest failed bundle failed, and the bundle. -/
def getLatestFailedWithdrawalBundle (state : State) : Result (Option (Nat × M6id)) :=
  match state.latestFailedWithdrawalBundle with
  | none => .ok none
  | some latestFailed => do
      let m6id := (HeightRollBack.latest latestFailed).value
      let (_, status) ← okOr state.withdrawalBundles[m6id]?
        (.panic "Inconsistent DBs: latest failed m6id should exist in withdrawal_bundles")
      let failed ← okOr (status.toList.reverse.find? fun s => s.value = .failed)
        (.panic "missing failure status")
      .ok (some (failed.height, m6id))

def depositUtxoValue (entry : OutPoint × FilledOutput) : Option Amount :=
  match entry.1 with
  | .deposit _ => some entry.2.getValue
  | _ => none

def depositStxoValue (entry : OutPoint × SpentOutput) : Option Amount :=
  match entry.1 with
  | .deposit _ => some entry.2.output.getValue
  | _ => none

def withdrawalStxoValue (entry : OutPoint × SpentOutput) : Option Amount :=
  match entry.2.inpoint with
  | .withdrawal _ => some entry.2.output.getValue
  | _ => none

/-- Total sidechain wealth: deposits, minus the outputs removed by bundles. -/
def sidechainWealth (state : State) : Result Amount := do
  let depositUtxos ← okOr (Checked.sum? (state.utxos.toList.filterMap depositUtxoValue))
    (.error .amountOverflow)
  let depositStxos ← okOr (Checked.sum? (state.stxos.toList.filterMap depositStxoValue))
    (.error .amountOverflow)
  let withdrawalStxos ← okOr (Checked.sum? (state.stxos.toList.filterMap withdrawalStxoValue))
    (.error .amountOverflow)
  let deposits ← okOr (Checked.add? depositUtxos depositStxos) (.error .amountOverflow)
  okOr (Checked.sub? deposits withdrawalStxos) (.error .amountOverflow)

end State

end PlainBitnames
