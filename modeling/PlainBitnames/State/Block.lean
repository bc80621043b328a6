import PlainBitnames.State.Validate

/-!
Validation, connection and disconnection of blocks. A block is connected in one
of two ways: `connect` applies its transactions one by one to the databases,
`connectPrevalidated` looks every input up in the state before the block,
accumulates deletions and puts, and applies these at the end.
-/

namespace PlainBitnames

open Borsh Fallible

variable [Primitives]

namespace State

/-- Two neighbours of a list are equal. -/
def adjacentEqual : List OutPoint → Bool
  | a :: b :: rest => a == b || adjacentEqual (b :: rest)
  | _ => false

/-- Double-spend detection: sort the keys of all inputs, then scan. -/
def utxoDoubleSpent (inputs : List OutPoint) : Bool :=
  adjacentEqual (inputs.insertionSort fun a b => (compare a b).isLE)

/-- What the checks of a body compute. -/
structure CheckedBody where
  filledTransactions : List FilledTransaction
  coinbaseValue : Amount
  totalFees : Amount
  merkleRoot : MerkleRoot

/-- Add the fee of a transaction to the fees of those before it. -/
def addFee (state : State) (totalFees : Amount) (tx : FilledTransaction) : Result Amount := do
  let fee ← state.validateFilledTransaction tx
  okOr (Checked.add? totalFees fee) (.error .amountOverflow)

/-- The checks that `validate` and `prevalidate` have in common. -/
def checkBody (ctxt : BatchVerificationContext) (state : State) (header : Header)
    (body : Body) : Result CheckedBody := do
  ensure (fits body) (.error .borshSerialize)
  ensure ((ser body).length ≤ Body.maxSize) (.error .bodyTooLarge)
  ensure (header.prevSideHash = state.tip)
    (.error (.invalidHeader (.prevSideHash state.tip header.prevSideHash)))
  let coinbaseValue ← okOr body.getCoinbaseValue (.error .amountOverflow)
  let filledTransactions ← body.transactions.mapM state.fillTransaction
  ensure (utxoDoubleSpent (filledTransactions.flatMap FilledTransaction.inputs) = false)
    (.error .utxoDoubleSpent)
  let totalFees ← filledTransactions.foldlM state.addFee 0
  ensure (coinbaseValue ≤ totalFees) (.error .notEnoughFees)
  let merkleRoot ← mapFailure .computeMerkleRoot
    (Body.computeMerkleRoot body.coinbase filledTransactions)
  ensure (merkleRoot = header.merkleRoot) (.error (.invalidBody header.merkleRoot merkleRoot))
  let nAuthorizationsRequired :=
    (filledTransactions.map fun tx => tx.spentUtxosRequiringAuth.length).sum
  ensure (body.authorizations.length = nAuthorizationsRequired)
    (.error (.wrongNumberOfAuthorizations nAuthorizationsRequired body.authorizations.length))
  let spentUtxos := filledTransactions.flatMap FilledTransaction.spentUtxosRequiringAuth
  ensure ((body.authorizations.zip spentUtxos).all
      fun pair => decide (pair.1.getAddress = pair.2.address))
    (.error .wrongPubKeyForAddress)
  -- `verify_authorizations(..).is_err()` drops the error, but not a panic
  mapFailure (fun _ => .authorizationError) (verifyAuthorizations ctxt body)
  .ok ⟨filledTransactions, coinbaseValue, totalFees, merkleRoot⟩

/-- Validate a block, returning the fees and the merkle root. -/
def validate (ctxt : BatchVerificationContext) (state : State) (header : Header) (body : Body) :
    Result (Amount × MerkleRoot) := do
  let checked ← state.checkBody ctxt header body
  .ok (checked.totalFees, checked.merkleRoot)

def nextHeight (state : State) : Result Nat :=
  match state.height with
  | none => .ok 0
  | some height => do
      ensure (height + 1 < 2 ^ 32) (.panic "attempt to add with overflow")
      .ok (height + 1)

/-- Computed values of a valid block. -/
structure PrevalidatedBlock where
  filledTransactions : List FilledTransaction
  computedMerkleRoot : MerkleRoot
  totalFees : Amount
  coinbaseValue : Amount
  nextHeight : Nat

def prevalidate (ctxt : BatchVerificationContext) (state : State) (header : Header)
    (body : Body) : Result PrevalidatedBlock := do
  let checked ← state.checkBody ctxt header body
  let height ← state.nextHeight
  .ok ⟨checked.filledTransactions, checked.merkleRoot, checked.totalFees,
    checked.coinbaseValue, height⟩

def fillCoinbaseContent : Content → Result FilledContent
  | .bitcoin value => .ok (.bitcoin value)
  | .withdrawal withdrawal => .ok (.bitcoinWithdrawal withdrawal)
  | .bitName | .bitNameReservation => .error (.error .badCoinbaseOutputContent)

def coinbaseUtxos (header : Header) (body : Body) : Result (List (OutPoint × FilledOutput)) :=
  body.coinbase.outputs.zipIdx.mapM fun (output, vout) => do
    let content ← fillCoinbaseContent output.content
    .ok (.coinbase header.computeCoinbaseTxid (UInt32.ofNat vout),
      ⟨output.address, content, output.memo⟩)

def createdUtxos (tx : FilledTransaction) : Result (List (OutPoint × FilledOutput)) := do
  let filledOutputs ← okOr tx.filledOutputs (.error .fillTxOutputContentsFailed)
  .ok (filledOutputs.zipIdx.map fun (output, vout) =>
    (.regular tx.txid (UInt32.ofNat vout), output))

/-- The effect of a transaction on the BitName databases. -/
def applyData (dbs : Dbs) (data : Option TransactionData) (tx : FilledTransaction)
    (height : Nat) : Result Dbs :=
  match data with
  | none => .ok dbs
  | some (.bitNameReservation commitment) => .ok (dbs.putReservation tx.txid commitment)
  | some (.bitNameRegistration nameHash _ bitnameData) =>
    mapFailure .bitName (dbs.applyRegistration tx nameHash bitnameData height)
  | some (.bitNameUpdate updates) =>
    mapFailure .bitName (dbs.applyUpdates tx updates height)
  | some (.batchIcann data) => mapFailure .bitName (dbs.applyBatchIcann tx data)

/-- Mutations accumulated over the transactions of a block. The BitName
databases are updated at once. -/
structure Mutations where
  utxoDeletes : Db OutPoint Unit
  stxoPuts : Db OutPoint SpentOutput
  utxoPuts : Db OutPoint FilledOutput
  bitnames : Dbs

/-- The inputs of a transaction as spent outputs, looked up in one state. -/
def spentOutputs (state : State) (tx : FilledTransaction) :
    Result (List (OutPoint × SpentOutput)) :=
  tx.inputs.zipIdx.mapM fun (input, vin) => do
    let spentOutput ← okOr state.utxos[input]? (.error (.noUtxo input))
    .ok (input, ⟨spentOutput, .regular tx.txid (UInt32.ofNat vin)⟩)

/-- Accumulate the mutations of a transaction, given with its filled form. -/
def accumulate (state : State) (height : Nat) (mutations : Mutations)
    (tx : Transaction × FilledTransaction) : Result Mutations := do
  let (transaction, filledTx) := tx
  let spent ← state.spentOutputs filledTx
  let created ← createdUtxos filledTx
  let bitnames ← applyData mutations.bitnames transaction.data filledTx height
  .ok {
    utxoDeletes := Db.putAll mutations.utxoDeletes (spent.map fun entry => (entry.1, ()))
    stxoPuts := Db.putAll mutations.stxoPuts spent
    utxoPuts := Db.putAll mutations.utxoPuts created
    bitnames }

/-- Connect a prevalidated block using precomputed values. -/
def connectPrevalidated (state : State) (header : Header) (body : Body)
    (prevalidated : PrevalidatedBlock) : Result (MerkleRoot × State) := do
  let coinbase ← coinbaseUtxos header body
  let mutations ← (body.transactions.zip prevalidated.filledTransactions).foldlM
    (state.accumulate prevalidated.nextHeight)
    ⟨∅, ∅, Db.putAll ∅ coinbase, state.bitnames⟩
  .ok (prevalidated.computedMerkleRoot, { state with
    utxos := Db.putAll (Db.eraseAll state.utxos mutations.utxoDeletes.keys)
      mutations.utxoPuts.toList
    stxos := Db.putAll state.stxos mutations.stxoPuts.toList
    bitnames := mutations.bitnames
    tip := some header.hash
    height := some prevalidated.nextHeight })

/-- Apply a block by combining validation and connection. -/
def applyBlock (ctxt : BatchVerificationContext) (state : State) (header : Header)
    (body : Body) : Result State := do
  let prevalidated ← state.prevalidate ctxt header body
  let (_, state) ← state.connectPrevalidated header body prevalidated
  .ok state

/-- Spend an input: the output moves from the utxos to the stxos. -/
def spendInput (txid : Txid) (state : State) (input : OutPoint × Nat) : Result State := do
  let spentOutput ← okOr state.utxos[input.1]? (.error (.noUtxo input.1))
  .ok { state with
    utxos := state.utxos.erase input.1
    stxos := state.stxos.insert input.1 ⟨spentOutput, .regular txid (UInt32.ofNat input.2)⟩ }

/-- Apply a transaction to the databases. -/
def connectTransaction (height : Nat) (acc : State × List FilledTransaction)
    (transaction : Transaction) : Result (State × List FilledTransaction) := do
  let (state, filledTxs) := acc
  let filledTx ← state.fillTransaction transaction
  let state ← filledTx.inputs.zipIdx.foldlM (spendInput filledTx.txid) state
  let created ← createdUtxos filledTx
  let bitnames ← applyData state.bitnames transaction.data filledTx height
  .ok ({ state with utxos := Db.putAll state.utxos created, bitnames }, filledTxs ++ [filledTx])

def connect (state : State) (header : Header) (body : Body) : Result (MerkleRoot × State) := do
  let height ← state.nextHeight
  ensure (state.tip = header.prevSideHash)
    (.error (.invalidHeader (.prevSideHash state.tip header.prevSideHash)))
  let coinbase ← coinbaseUtxos header body
  let (state, filledTxs) ← body.transactions.foldlM (connectTransaction height)
    ({ state with utxos := Db.putAll state.utxos coinbase }, [])
  let merkleRoot ← mapFailure .computeMerkleRoot
    (Body.computeMerkleRoot body.coinbase filledTxs)
  ensure (merkleRoot = header.merkleRoot) (.error (.invalidBody header.merkleRoot merkleRoot))
  .ok (merkleRoot, { state with tip := some header.hash, height := some height })

/-- Take back the effect of a transaction on the BitName databases. -/
def revertData (dbs : Dbs) (data : Option TransactionData) (tx : FilledTransaction)
    (height : Nat) : Result Dbs :=
  match data with
  | none => .ok dbs
  | some (.bitNameReservation _) => do
      let (deleted, dbs) := dbs.deleteReservation tx.txid
      ensure (deleted = true) (.error (.bitName (.missingReservation tx.txid)))
      .ok dbs
  | some (.bitNameRegistration nameHash _ _) =>
    mapFailure .bitName (dbs.revertRegistration tx nameHash)
  | some (.bitNameUpdate updates) =>
    mapFailure .bitName (dbs.revertUpdates tx updates height)
  | some (.batchIcann data) => mapFailure .bitName (dbs.revertBatchIcann tx data)

/-- Delete an output that must be there. -/
def deleteUtxo (state : State) (outpoint : OutPoint) : Result State := do
  ensure (outpoint ∈ state.utxos) (.error (.noUtxo outpoint))
  .ok { state with utxos := state.utxos.erase outpoint }

/-- Move a spent output back to the utxos. -/
def unspend (state : State) (outpoint : OutPoint) : Result State := do
  let spentOutput ← okOr state.stxos[outpoint]? (.error (.noStxo outpoint))
  .ok { state with
    stxos := state.stxos.erase outpoint
    utxos := state.utxos.insert outpoint spentOutput.output }

/-- The outpoints of a list of outputs, last to first. -/
def outpointsReversed (outpoint : UInt32 → OutPoint) (outputs : List Output) : List OutPoint :=
  outputs.zipIdx.reverse.map fun (_, vout) => outpoint (UInt32.ofNat vout)

/-- Revert a transaction. -/
def disconnectTransaction (height : Nat) (acc : State × List FilledTransaction)
    (tx : Transaction) : Result (State × List FilledTransaction) := do
  let (state, filledTxs) := acc
  let filledTx ← state.fillTransactionFromStxos tx
  let bitnames ← revertData state.bitnames tx.data filledTx height
  let state ← (outpointsReversed (.regular tx.txid) tx.outputs).foldlM deleteUtxo
    { state with bitnames }
  let state ← tx.inputs.reverse.foldlM unspend state
  .ok (state, filledTxs ++ [filledTx])

def disconnectTip (state : State) (header : Header) (body : Body) : Result State := do
  let tipHash ← okOr state.tip (.error .noTip)
  ensure (tipHash = header.hash) (.error (.invalidHeader (.blockHash tipHash header.hash)))
  let height ← okOr state.height (.panic "Height should not be None")
  -- revert txs, last-to-first
  let (state, filledTxs) ← body.transactions.reverse.foldlM (disconnectTransaction height)
    (state, [])
  let state ← (outpointsReversed (.coinbase header.computeCoinbaseTxid)
    body.coinbase.outputs).foldlM deleteUtxo state
  let merkleRoot ← mapFailure .computeMerkleRoot
    (Body.computeMerkleRoot body.coinbase filledTxs.reverse)
  ensure (merkleRoot = header.merkleRoot) (.error (.invalidBody header.merkleRoot merkleRoot))
  match header.prevSideHash, height with
  | none, 0 => .ok { state with tip := none, height := none }
  | none, _ + 1 => .error (.error .noTip)
  | some _, 0 => .error (.error .noTip)
  | some prevSideHash, height + 1 =>
    .ok { state with tip := some prevSideHash, height := some height }

end State

end PlainBitnames
