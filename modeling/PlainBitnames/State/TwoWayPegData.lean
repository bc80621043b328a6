import PlainBitnames.State.Block

/-!
Connection and disconnection of two-way peg data: deposits, and the events of
withdrawal bundles. A bundle starts out pending and is then submitted, and
confirmed or failed; a bundle that was not made here is unknown. After the
events of a block a new bundle is collected if none is pending.
-/

namespace PlainBitnames

open Borsh Fallible

variable [Primitives]

/-- A deposit as the mainchain node reports it. -/
structure Deposit where
  outpoint : BitcoinOutPoint
  address : Address
  value : Amount
deriving DecidableEq

/-- The output of a deposit holds its value, without memo. -/
def Deposit.output (deposit : Deposit) : FilledOutput :=
  ⟨deposit.address, .bitcoin deposit.value, []⟩

inductive BlockEvent where
  | deposit (deposit : Deposit)
  | withdrawalBundle (event : WithdrawalBundleEvent)
deriving DecidableEq

structure BlockInfo where
  events : List BlockEvent
deriving DecidableEq

/-- Mainchain blocks in order, with their events. -/
structure TwoWayPegData where
  blockInfo : List (MainBlockHash × BlockInfo)
deriving DecidableEq

/-- All events in order, each with the hash of its block. -/
def TwoWayPegData.events (data : TwoWayPegData) : List (MainBlockHash × BlockEvent) :=
  data.blockInfo.flatMap fun (hash, info) => info.events.map fun event => (hash, event)

/-- `WITHDRAWAL_BUNDLE_FAILURE_GAP`. -/
def withdrawalBundleFailureGap : Nat := 4

/-- Add a withdrawal to those with its destination. -/
def addWithdrawal (outpoint : OutPoint) (output : FilledOutput) (w : WithdrawalContent) :
    List AggregatedWithdrawal → Option (List AggregatedWithdrawal)
  | [] => some [⟨[(outpoint, output)], w.mainAddress, w.value, w.mainFee⟩]
  | aggregated :: rest =>
    if aggregated.mainAddress = w.mainAddress then do
      let value ← Checked.add? aggregated.value w.value
      let mainFee ← Checked.add? aggregated.mainFee w.mainFee
      some (⟨aggregated.spendUtxos ++ [(outpoint, output)], aggregated.mainAddress, value,
        mainFee⟩ :: rest)
    else (addWithdrawal outpoint output w rest).map (aggregated :: ·)

/-- Add an output to the aggregated withdrawals, if it is a withdrawal. -/
def aggregate (withdrawals : List AggregatedWithdrawal) (entry : OutPoint × FilledOutput) :
    Option (List AggregatedWithdrawal) :=
  match entry.2.content with
  | .bitcoinWithdrawal w => addWithdrawal entry.1 entry.2 w withdrawals
  | _ => some withdrawals

/-- A bundle under construction. -/
structure BundleDraft where
  fee : Amount
  spendUtxos : SpendUtxos
  bundleOutputs : List TxOut
  bundleTxoutsSize : Nat

/-- Add payouts as long as the predicted weight allows. -/
def fillBundle : List AggregatedWithdrawal → BundleDraft → Result BundleDraft
  | [], draft => .ok draft
  | aggregated :: rest, draft =>
    let scriptPubkey := Primitives.scriptPubkey aggregated.mainAddress
    let nOutputs := draft.bundleOutputs.length + 1
    if 2 ^ 32 ≤ nOutputs then .ok draft
    -- a script that is too long is left out, others might be ok
    else if 2 ^ 32 ≤ scriptPubkey.length then fillBundle rest draft
    else match WithdrawalBundle.txoutSize scriptPubkey.length with
      | none => fillBundle rest draft
      | some txoutSize =>
        match checkedAdd32 draft.bundleTxoutsSize txoutSize with
        | none => .ok draft
        | some bundleTxoutsSize =>
          if WithdrawalBundle.predictWeight nOutputs bundleTxoutsSize = none then .ok draft
          else do
            let fee ← addOrPanic draft.fee aggregated.mainFee
            fillBundle rest {
              fee
              spendUtxos := Db.putAll draft.spendUtxos aggregated.spendUtxos
              bundleOutputs := draft.bundleOutputs ++ [⟨aggregated.value, scriptPubkey⟩]
              bundleTxoutsSize }

namespace State

/-- Make a bundle of the withdrawal outputs, those with the highest fees
first. -/
def collectWithdrawalBundle (state : State) (blockHeight : Nat) :
    Result (Option WithdrawalBundle) := do
  let aggregated ← okOr (state.utxos.toList.foldlM aggregate []) (.error .amountOverflow)
  if aggregated = [] then .ok none
  else do
    let draft ← fillBundle (aggregated.insertionSort fun a b => b.le a) ⟨0, ∅, [], 0⟩
    let bundle ← mapFailure .withdrawalBundle
      (WithdrawalBundle.new blockHeight draft.fee draft.spendUtxos draft.bundleOutputs)
    ensure (Primitives.weight bundle.tx ≤ maxStandardTxWeight)
      (.error (.bundleTooHeavy (Primitives.weight bundle.tx) maxStandardTxWeight))
    .ok (some bundle)

/-- An output of a bundle leaves the utxos. -/
def spendForBundle (m6id : M6id) (missing : OutPoint → Error) (state : State)
    (entry : OutPoint × FilledOutput) : Result State := do
  ensure (entry.1 ∈ state.utxos) (.error (missing entry.1))
  .ok { state with
    utxos := state.utxos.erase entry.1
    stxos := state.stxos.insert entry.1 ⟨entry.2, .withdrawal m6id⟩ }

/-- An output of a bundle returns to the utxos. -/
def unspendFromBundle (state : State) (entry : OutPoint × FilledOutput) : State :=
  { state with
    stxos := state.stxos.erase entry.1
    utxos := state.utxos.insert entry.1 entry.2 }

/-- An output of a bundle that must be spent returns to the utxos. -/
def restoreFromBundle (state : State) (entry : OutPoint × FilledOutput) : Result State := do
  ensure (entry.1 ∈ state.stxos) (.error (.noStxo entry.1))
  .ok (state.unspendFromBundle entry)

/-- A bundle can be submitted again, unexpectedly, from these states only. -/
def checkResubmission (eventBlockHash : MainBlockHash) (m6id : M6id)
    (bundle : WithdrawalBundleInfo) (latest : HeightStamped WithdrawalBundleStatus) :
    Except ConnectWithdrawalBundleSubmittedError Unit :=
  match bundle, latest.value with
  | _, .confirmed => .error (.confirmedResubmitted eventBlockHash m6id)
  | _, .submitted | _, .submittedUnexpected =>
    .error (.resubmitted eventBlockHash m6id latest.height)
  | .known _, .dropped => .ok ()
  | .unknown, .dropped | .unknownConfirmed _, .dropped =>
    .error (.unknownDropped m6id latest.height)
  | .known _, .pending => .error (.droppedPending m6id)
  | .unknown, .pending | .unknownConfirmed _, .pending =>
    .error (.unknownPending m6id latest.height)
  | .known _, .failed | .unknown, .failed => .ok ()
  | .unknownConfirmed _, .failed => .error (.unknownConfirmedFailed m6id latest.height)

/-- Record a further status of a bundle. -/
def pushStatus (state : State) (m6id : M6id) (bundle : WithdrawalBundleInfo)
    (status : HeightRollBack WithdrawalBundleStatus) (value : WithdrawalBundleStatus)
    (blockHeight : Nat) : Result State := do
  let status ← okOr (HeightRollBack.push status value blockHeight)
    (.panic "push status should be valid")
  .ok { state with withdrawalBundles := state.withdrawalBundles.insert m6id (bundle, status) }

/-- The pending bundle was submitted: its outputs are spent. -/
def connectPendingSubmitted (state : State) (blockHeight : Nat)
    (indexEvents : BlockIndexEvents) (m6id : M6id) : Result (State × BlockIndexEvents) := do
  let unknown : Failure Error :=
    .error (.connectWithdrawalBundleSubmitted (.pendingWithdrawalBundleUnknown m6id))
  match state.withdrawalBundles[m6id]? with
  | some (.known bundle, status) => do
      let state ← bundle.spendUtxos.toList.foldlM
        (spendForBundle m6id fun outpoint =>
          .connectWithdrawalBundleSubmitted (.noUtxo outpoint)) state
      ensure ((HeightRollBack.latest status).value = .pending)
        (.panic "assert_eq!(bundle_status.latest().value, Pending)")
      let state ← state.pushStatus m6id (.known bundle) status .submitted blockHeight
      .ok ({ state with pendingWithdrawalBundle := none },
        { indexEvents with
          bundleSpends := indexEvents.bundleSpends ++
            bundle.spendUtxos.toList.map fun entry => (entry.1, m6id) })
  | _ => .error unknown

def connectWithdrawalBundleSubmitted (state : State) (blockHeight : Nat)
    (indexEvents : BlockIndexEvents) (eventBlockHash : MainBlockHash) (m6id : M6id) :
    Result (State × BlockIndexEvents) :=
  if state.pendingWithdrawalBundle = some m6id then
    state.connectPendingSubmitted blockHeight indexEvents m6id
  else match state.withdrawalBundles[m6id]? with
    | some (bundle, status) => do
        (checkResubmission eventBlockHash m6id bundle (HeightRollBack.latest status)).mapError
          fun e => .error (.connectWithdrawalBundleSubmitted e)
        let state ← state.pushStatus m6id bundle status .submittedUnexpected blockHeight
        .ok (state, indexEvents)
    | none =>
      .ok ({ state with
        withdrawalBundles := state.withdrawalBundles.insert m6id
          (.unknown, HeightRollBack.new .submitted blockHeight) }, indexEvents)

/-- The bundle was submitted, expectedly or not. -/
def isSubmitted (status : WithdrawalBundleStatus) : Bool :=
  status = .submitted || status = .submittedUnexpected

/-- The outputs of a bundle that was submitted unexpectedly are spent when it is
confirmed. -/
def spendUnexpected (state : State) (eventBlockHash : MainBlockHash) (m6id : M6id)
    (bundle : WithdrawalBundle) (latest : WithdrawalBundleStatus) : Result State :=
  if latest = .submittedUnexpected then
    bundle.spendUtxos.toList.foldlM
      (spendForBundle m6id (.unexpectedWithdrawalBundleInsolvency eventBlockHash m6id)) state
  else .ok state

/-- If an unknown bundle is confirmed, all utxos are considered spent. -/
def spendAll (state : State) (m6id : M6id) : State :=
  { state with
    stxos := Db.putAll state.stxos (state.utxos.toList.map fun entry =>
      (entry.1, ⟨entry.2, .withdrawal m6id⟩))
    utxos := ∅ }

def connectWithdrawalBundleConfirmed (state : State) (blockHeight : Nat)
    (eventBlockHash : MainBlockHash) (m6id : M6id) : Result State := do
  let (bundle, status) ← okOr state.withdrawalBundles[m6id]?
    (.error (.unknownWithdrawalBundle m6id))
  let latest := (HeightRollBack.latest status).value
  -- already applied
  if latest = .confirmed then .ok state
  else do
    ensure (isSubmitted latest) (.panic "assert!(matches!(latest, Submitted))")
    match bundle with
    | .unknownConfirmed _ =>
      .error (.error (.unknownWithdrawalBundleReconfirmed eventBlockHash m6id))
    | .unknown => do
        ensure (blockHeight = 0)
          (.error (.unknownWithdrawalBundleConfirmed eventBlockHash m6id))
        (state.spendAll m6id).pushStatus m6id
          (.unknownConfirmed (Db.putAll ∅ state.utxos.toList)) status .confirmed blockHeight
    | .known bundle => do
        let state ← state.spendUnexpected eventBlockHash m6id bundle latest
        state.pushStatus m6id (.known bundle) status .confirmed blockHeight

/-- The latest failed bundles with one more. -/
def pushLatestFailed (latestFailed : Option (HeightRollBack M6id)) (m6id : M6id)
    (blockHeight : Nat) : Result (HeightRollBack M6id) :=
  match latestFailed with
  | some latestFailed => okOr (HeightRollBack.push latestFailed m6id blockHeight)
      (.panic "Push latest failed m6id should be valid")
  | none => .ok (HeightRollBack.new m6id blockHeight)

/-- The outputs of a known bundle return when it fails, and the failure is
recorded, unless the bundle was submitted unexpectedly. -/
def returnFailed (state : State) (blockHeight : Nat) (m6id : M6id)
    (bundle : WithdrawalBundleInfo) (latest : WithdrawalBundleStatus) : Result State :=
  match bundle with
  | .unknown | .unknownConfirmed _ => .ok state
  | .known bundle =>
    if latest = .submittedUnexpected then .ok state
    else do
      let latestFailed ←
        pushLatestFailed state.latestFailedWithdrawalBundle m6id blockHeight
      .ok { bundle.spendUtxos.toList.foldl unspendFromBundle state with
        latestFailedWithdrawalBundle := some latestFailed }

def connectWithdrawalBundleFailed (state : State) (blockHeight : Nat) (m6id : M6id) :
    Result State := do
  let (bundle, status) ← okOr state.withdrawalBundles[m6id]?
    (.error (.unknownWithdrawalBundle m6id))
  let latest := (HeightRollBack.latest status).value
  -- already applied
  if latest = .failed then .ok state
  else do
    ensure (isSubmitted latest) (.panic "assert!(matches!(latest, Submitted))")
    let state ← state.returnFailed blockHeight m6id bundle latest
    state.pushStatus m6id bundle status .failed blockHeight

def connectWithdrawalBundleEvent (state : State) (blockHeight : Nat)
    (indexEvents : BlockIndexEvents) (eventBlockHash : MainBlockHash)
    (event : WithdrawalBundleEvent) : Result (State × BlockIndexEvents) :=
  match event.status with
  | .submitted =>
    state.connectWithdrawalBundleSubmitted blockHeight indexEvents eventBlockHash event.m6id
  | .confirmed => do
      let state ← state.connectWithdrawalBundleConfirmed blockHeight eventBlockHash event.m6id
      .ok (state, indexEvents)
  | .failed => do
      let state ← state.connectWithdrawalBundleFailed blockHeight event.m6id
      .ok (state, indexEvents)

/-- The state during the events of a block, with what is recorded on the way. -/
structure Connecting where
  state : State
  indexEvents : BlockIndexEvents
  latestDepositBlockHash : Option MainBlockHash
  latestWithdrawalBundleEventBlockHash : Option MainBlockHash

def connect2wpdEvent (blockHeight : Nat) (c : Connecting)
    (event : MainBlockHash × BlockEvent) : Result Connecting :=
  match event.2 with
  | .deposit deposit =>
    let outpoint := OutPoint.deposit deposit.outpoint
    .ok { c with
      state := { c.state with utxos := c.state.utxos.insert outpoint deposit.output }
      indexEvents := { c.indexEvents with
        deposits := c.indexEvents.deposits ++ [(outpoint, deposit.output)] }
      latestDepositBlockHash := some event.1 }
  | .withdrawalBundle bundleEvent => do
      let (state, indexEvents) ←
        c.state.connectWithdrawalBundleEvent blockHeight c.indexEvents event.1 bundleEvent
      .ok { c with state, indexEvents, latestWithdrawalBundleEventBlockHash := some event.1 }

def appendEventBlock (log : Db SeqIdx (MainBlockHash × Nat)) (hash : Option MainBlockHash)
    (blockHeight : Nat) : Db SeqIdx (MainBlockHash × Nat) :=
  match hash with
  | some hash => log.insert (SeqIdx.next log) (hash, blockHeight)
  | none => log

def recordEvents (c : Connecting) (blockHeight : Nat) : State :=
  { c.state with
    blockIndexEvents :=
      if c.indexEvents.isEmpty then c.state.blockIndexEvents
      else c.state.blockIndexEvents.insert blockHeight c.indexEvents
    depositBlocks :=
      appendEventBlock c.state.depositBlocks c.latestDepositBlockHash blockHeight
    withdrawalBundleEventBlocks :=
      appendEventBlock c.state.withdrawalBundleEventBlocks
        c.latestWithdrawalBundleEventBlockHash blockHeight }

/-- Enough blocks have passed since the latest failure of a bundle. -/
def failureGapReached (state : State) (blockHeight : Nat) : Result Bool := do
  let latestFailed ← state.getLatestFailedWithdrawalBundle
  let failureHeight := (latestFailed.map Prod.fst).getD 0
  ensure (failureHeight ≤ blockHeight) (.panic "attempt to subtract with overflow")
  .ok (decide (withdrawalBundleFailureGap ≤ blockHeight - failureHeight))

def pendingStatus (state : State) (m6id : M6id) (blockHeight : Nat) :
    Result (HeightRollBack WithdrawalBundleStatus) :=
  match state.withdrawalBundles[m6id]? with
  | some (_, status) =>
    okOr (HeightRollBack.push status .pending blockHeight)
      (.panic "push pending status should be valid")
  | none => .ok (HeightRollBack.new .pending blockHeight)

/-- Make a collected bundle the pending one. -/
def putPending (state : State) (bundle : WithdrawalBundle) (blockHeight : Nat) :
    Result State := do
  let m6id := bundle.computeM6id
  let status ← state.pendingStatus m6id blockHeight
  .ok { state with
    pendingWithdrawalBundle := some m6id
    withdrawalBundles := state.withdrawalBundles.insert m6id (.known bundle, status) }

/-- Collect a new bundle, if the gap is reached and none is pending. -/
def collectPending (state : State) (blockHeight : Nat) : Result State := do
  let gapReached ← state.failureGapReached blockHeight
  if gapReached ∧ state.pendingWithdrawalBundle = none then do
    match ← state.collectWithdrawalBundle blockHeight with
    | some bundle => state.putPending bundle blockHeight
    | none => .ok state
  else .ok state

def connectTwoWayPegData (state : State) (data : TwoWayPegData) : Result State := do
  let blockHeight ← okOr state.height (.error .noTip)
  let c ← data.events.foldlM (connect2wpdEvent blockHeight) ⟨state, .empty, none, none⟩
  (recordEvents c blockHeight).collectPending blockHeight

/-- Take back the latest status of a bundle; a bundle without status is
forgotten. -/
def putOrDelete (state : State) (m6id : M6id) (bundle : WithdrawalBundleInfo)
    (status : Option (HeightRollBack WithdrawalBundleStatus)) : State :=
  { state with
    withdrawalBundles :=
      match status with
      | some status => state.withdrawalBundles.insert m6id (bundle, status)
      | none => state.withdrawalBundles.erase m6id }

/-- The outputs of a bundle that was pending before return to the utxos. -/
def restorePending (state : State) (m6id : M6id) (bundle : WithdrawalBundleInfo)
    (prev : Option (HeightRollBack WithdrawalBundleStatus)) : Result State :=
  match bundle with
  | .unknown | .unknownConfirmed _ => .ok state
  | .known bundle =>
    if (prev.map fun prev => (HeightRollBack.latest prev).value) = some .pending then do
      let state ← bundle.spendUtxos.toList.reverse.foldlM restoreFromBundle state
      .ok { state with pendingWithdrawalBundle := some m6id }
    else .ok state

def disconnectWithdrawalBundleSubmitted (state : State) (blockHeight : Nat) (m6id : M6id) :
    Result State :=
  match state.withdrawalBundles[m6id]? with
  | none =>
    -- already applied
    if state.pendingWithdrawalBundle = some m6id then .ok state
    else .error (.error (.unknownWithdrawalBundle m6id))
  | some (bundle, status) => do
      let (prev, latest) := HeightRollBack.pop status
      ensure (isSubmitted latest.value) (.panic "assert!(matches!(latest, Submitted))")
      ensure (latest.height = blockHeight) (.panic "assert_eq!(latest.height, block_height)")
      let state ← state.restorePending m6id bundle prev
      .ok (state.putOrDelete m6id bundle prev)

/-- What a confirmation has spent returns to the utxos. -/
def restoreConfirmed (state : State) (bundle : WithdrawalBundleInfo)
    (prevValue : WithdrawalBundleStatus) : Result (State × WithdrawalBundleInfo) :=
  match bundle with
  | .known bundle =>
    if prevValue = .submittedUnexpected then do
      let state ← bundle.spendUtxos.toList.foldlM restoreFromBundle state
      .ok (state, .known bundle)
    else .ok (state, .known bundle)
  | .unknownConfirmed spendUtxos => do
      let state ← spendUtxos.toList.foldlM restoreFromBundle state
      .ok (state, .unknown)
  | .unknown => .ok (state, .unknown)

def disconnectWithdrawalBundleConfirmed (state : State) (blockHeight : Nat) (m6id : M6id) :
    Result State := do
  let (bundle, status) ← okOr state.withdrawalBundles[m6id]?
    (.error (.unknownWithdrawalBundle m6id))
  let (prev, latest) := HeightRollBack.pop status
  -- already applied
  if isSubmitted latest.value then .ok state
  else do
    ensure (latest.value = .confirmed) (.panic "assert_eq!(latest.value, Confirmed)")
    ensure (latest.height = blockHeight) (.panic "assert_eq!(latest.height, block_height)")
    let prev ← okOr prev (.panic "Pop confirmed bundle status should be valid")
    let prevValue := (HeightRollBack.latest prev).value
    ensure (isSubmitted prevValue) (.panic "assert!(matches!(prev, Submitted))")
    let (state, bundle) ← state.restoreConfirmed bundle prevValue
    .ok (state.putOrDelete m6id bundle (some prev))

/-- Take back the latest failed bundle. -/
def popLatestFailed (state : State) (blockHeight : Nat) (m6id : M6id) : Result State := do
  let latestFailed ← okOr state.latestFailedWithdrawalBundle
    (.panic "latest failed withdrawal bundle should exist")
  let (prev, latest) := HeightRollBack.pop latestFailed
  ensure (latest.value = m6id) (.panic "assert_eq!(latest_failed_m6id.value, m6id)")
  ensure (latest.height = blockHeight)
    (.panic "assert_eq!(latest_failed_m6id.height, block_height)")
  .ok { state with latestFailedWithdrawalBundle := prev }

/-- What a failure has returned is spent again. -/
def respendFailed (state : State) (blockHeight : Nat) (m6id : M6id)
    (bundle : WithdrawalBundleInfo) (prevValue : WithdrawalBundleStatus) : Result State :=
  match bundle with
  | .unknown | .unknownConfirmed _ => .ok state
  | .known bundle =>
    if prevValue = .submittedUnexpected then .ok state
    else do
      let state ← bundle.spendUtxos.toList.reverse.foldlM (spendForBundle m6id .noUtxo) state
      state.popLatestFailed blockHeight m6id

def disconnectWithdrawalBundleFailed (state : State) (blockHeight : Nat) (m6id : M6id) :
    Result State := do
  let (bundle, status) ← okOr state.withdrawalBundles[m6id]?
    (.error (.unknownWithdrawalBundle m6id))
  let (prev, latest) := HeightRollBack.pop status
  -- already applied
  if latest.value = .submitted then .ok state
  else do
    ensure (latest.value = .failed) (.panic "assert_eq!(latest.value, Failed)")
    ensure (latest.height = blockHeight) (.panic "assert_eq!(latest.height, block_height)")
    let prev ← okOr prev (.panic "Pop failed bundle status should be valid")
    let prevValue := (HeightRollBack.latest prev).value
    ensure (isSubmitted prevValue) (.panic "assert!(matches!(prev, Submitted))")
    let state ← state.respendFailed blockHeight m6id bundle prevValue
    .ok (state.putOrDelete m6id bundle (some prev))

def disconnectWithdrawalBundleEvent (state : State) (blockHeight : Nat)
    (event : WithdrawalBundleEvent) : Result State :=
  match event.status with
  | .submitted => state.disconnectWithdrawalBundleSubmitted blockHeight event.m6id
  | .confirmed => state.disconnectWithdrawalBundleConfirmed blockHeight event.m6id
  | .failed => state.disconnectWithdrawalBundleFailed blockHeight event.m6id

/-- The state while the events of a block are taken back, with the block hashes
seen first. -/
structure Disconnecting where
  state : State
  latestDepositBlockHash : Option MainBlockHash
  latestWithdrawalBundleEventBlockHash : Option MainBlockHash

def disconnectEvent (blockHeight : Nat) (d : Disconnecting)
    (event : MainBlockHash × BlockEvent) : Result Disconnecting :=
  match event.2 with
  | .deposit deposit => do
      let state ← d.state.deleteUtxo (.deposit deposit.outpoint)
      .ok { d with
        state
        latestDepositBlockHash := d.latestDepositBlockHash.orElse fun _ => some event.1 }
  | .withdrawalBundle bundleEvent => do
      let state ← d.state.disconnectWithdrawalBundleEvent blockHeight bundleEvent
      .ok { d with
        state
        latestWithdrawalBundleEventBlockHash :=
          d.latestWithdrawalBundleEventBlockHash.orElse fun _ => some event.1 }

/-- Remove the last entry of an event-block log, which must be the given one. -/
def dropEventBlock (log : Db SeqIdx (MainBlockHash × Nat)) (hash : Option MainBlockHash)
    (blockHeight : Nat) (missing : Error) : Result (Db SeqIdx (MainBlockHash × Nat)) :=
  match hash with
  | some hash => do
      let (seqIdx, lastHash, lastHeight) ← okOr (Db.last log) (.error missing)
      ensure (hash = lastHash) (.panic "assert_eq!(latest_block_hash, last_block_hash)")
      ensure (blockHeight = lastHeight) (.panic "assert_eq!(block_height, last_block_height)")
      ensure (seqIdx ∈ log) (.error missing)
      .ok (log.erase seqIdx)
  | none => .ok log

/-- Take back the pending bundle, if it was collected at this height. -/
def dropPending (state : State) (blockHeight : Nat) : Result State := do
  let gapReached ← state.failureGapReached blockHeight
  match state.pendingWithdrawalBundle with
  | some m6id =>
    if gapReached then do
      let (bundle, status) ← okOr state.withdrawalBundles[m6id]?
        (.error (.pendingWithdrawalBundleUnknown m6id))
      if (HeightRollBack.latest status).height = blockHeight then
        .ok ({ state with pendingWithdrawalBundle := none }.putOrDelete m6id bundle
          (HeightRollBack.pop status).1)
      else .ok state
    else .ok state
  | none => .ok state

def disconnectTwoWayPegData (state : State) (data : TwoWayPegData) : Result State := do
  let blockHeight ← okOr state.height (.panic "Height should not be None")
  let state := { state with blockIndexEvents := state.blockIndexEvents.erase blockHeight }
  let d ← data.events.reverse.foldlM (disconnectEvent blockHeight) ⟨state, none, none⟩
  let withdrawalBundleEventBlocks ← dropEventBlock d.state.withdrawalBundleEventBlocks
    d.latestWithdrawalBundleEventBlockHash blockHeight .noWithdrawalBundleEventBlock
  let state ← { d.state with withdrawalBundleEventBlocks }.dropPending blockHeight
  let depositBlocks ← dropEventBlock state.depositBlocks d.latestDepositBlockHash blockHeight
    .noDepositBlock
  .ok { state with depositBlocks }

end State

end PlainBitnames
