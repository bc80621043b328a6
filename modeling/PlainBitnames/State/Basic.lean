import PlainBitnames.State.Bitnames
import PlainBitnames.Types.WithdrawalBundle

/-!
The sidechain state as of the current tip, and the errors its operations
return. Every database is a finite map; an operation takes the state and
returns the state it leaves behind, so a failed operation leaves nothing.
-/

namespace PlainBitnames

open Borsh Fallible

variable [Primitives]

/-! `utxos` and `stxos` are keyed by `OutPointKey`, the canonical encoding of an
outpoint. -/

theorem OutPoint.ser_injective : Function.Injective (ser : OutPoint → List UInt8) :=
  fun _ _ h => reads_outPoint.of_ser_eq rfl rfl h

instance : Ord OutPoint := Db.byteOrd ser
instance : Std.TransOrd OutPoint := Db.byteOrd_trans
instance : Std.LawfulEqOrd OutPoint := Db.byteOrd_lawful OutPoint.ser_injective

/-- Sequential key of an event-block log. It is stored as the four bytes of a
`u32`, least significant first, and the log is read in the order of these
bytes. -/
structure SeqIdx where
  val : UInt32
deriving DecidableEq

namespace SeqIdx

def bytes (i : SeqIdx) : List UInt8 := ser i.val

omit [Primitives] in
theorem bytes_injective : Function.Injective bytes := by
  intro i j h
  have hval : i.val = j.val := reads_uint32.of_ser_eq rfl rfl h
  cases i
  cases j
  simp_all

instance : Ord SeqIdx := Db.byteOrd bytes
instance : Std.TransOrd SeqIdx := Db.byteOrd_trans
instance : Std.LawfulEqOrd SeqIdx := Db.byteOrd_lawful bytes_injective

/-- The key after the last entry of a log. -/
def next {V : Type} (log : Db SeqIdx V) : SeqIdx :=
  match Db.last log with
  | some (i, _) => ⟨i.val + 1⟩
  | none => ⟨0⟩

end SeqIdx

inductive ConnectWithdrawalBundleSubmittedError where
  | confirmedResubmitted (eventBlockHash : MainBlockHash) (m6id : M6id)
  | droppedPending (m6id : M6id)
  | noUtxo (outpoint : OutPoint)
  | pendingWithdrawalBundleUnknown (m6id : M6id)
  | resubmitted (eventBlockHash : MainBlockHash) (m6id : M6id) (submittedBlockHeight : Nat)
  | unknownConfirmedFailed (m6id : M6id) (failedBlockHeight : Nat)
  | unknownDropped (m6id : M6id) (droppedBlockHeight : Nat)
  | unknownPending (m6id : M6id) (pendingBlockHeight : Nat)
deriving DecidableEq

inductive InvalidHeaderError where
  | blockHash (expected computed : BlockHash)
  | prevSideHash (expected received : Option BlockHash)
deriving DecidableEq

/-- State errors. -/
inductive Error where
  | amountOverflow
  | authorizationError
  | badCoinbaseOutputContent
  | bitName (e : BitNameError)
  | bitNameAlreadyRegistered (nameHash : BitName)
  | bodyTooLarge
  | bundleTooHeavy (weight maxWeight : Nat)
  | borshSerialize
  | computeFee (e : ComputeFeeError)
  | computeMerkleRoot (e : ComputeMerkleRootError)
  | connectWithdrawalBundleSubmitted (e : ConnectWithdrawalBundleSubmittedError)
  | fillTxOutputContentsFailed
  | icannNameInvalid (plainName : String)
  | invalidBatchIcannRegistrationSignature
  | invalidBody (expected computed : MerkleRoot)
  | invalidHeader (e : InvalidHeaderError)
  | noDepositBlock
  | notEnoughFees
  | noStxo (outpoint : OutPoint)
  | noTip
  | noUtxo (outpoint : OutPoint)
  | spendWithdrawalOutput (outpoint : OutPoint)
  | noWithdrawalBundleEventBlock
  | pendingWithdrawalBundleUnknown (m6id : M6id)
  | tooFewBitNameOutputs
  | unbalancedBitNames (nBitnameInputs nBitnameOutputs : Nat)
  | unbalancedReservations (nReservationInputs nReservationOutputs : Nat)
  | unexpectedWithdrawalBundleInsolvency (eventBlockHash : MainBlockHash) (m6id : M6id)
      (outpoint : OutPoint)
  | unknownWithdrawalBundle (m6id : M6id)
  | unknownWithdrawalBundleConfirmed (eventBlockHash : MainBlockHash) (m6id : M6id)
  | unknownWithdrawalBundleReconfirmed (eventBlockHash : MainBlockHash) (m6id : M6id)
  | utxoDoubleSpent
  | withdrawalBundle (e : WithdrawalBundleError)
  | wrongNumberOfAuthorizations (expected received : Nat)
  | wrongPubKeyForAddress
deriving DecidableEq

/-- The outcome of an operation on the state. -/
abbrev Result (α : Type) := Except (Failure Error) α

/-- Information about a withdrawal bundle. -/
inductive WithdrawalBundleInfo where
  | known (bundle : WithdrawalBundle)
  /-- Unknown but unconfirmed or failed. -/
  | unknown
  /-- If an unknown bundle is confirmed, all utxos are considered spent. -/
  | unknownConfirmed (spendUtxos : SpendUtxos)
deriving DecidableEq

/-- Coin movements that a block body does not carry. -/
structure BlockIndexEvents where
  deposits : List (OutPoint × FilledOutput)
  bundleSpends : List (OutPoint × M6id)
deriving DecidableEq

namespace BlockIndexEvents

def empty : BlockIndexEvents := ⟨[], []⟩

def isEmpty (events : BlockIndexEvents) : Bool :=
  events.deposits.isEmpty && events.bundleSpends.isEmpty

end BlockIndexEvents

structure State where
  /-- Current tip. -/
  tip : Option BlockHash
  /-- Current height. -/
  height : Option Nat
  bitnames : Dbs
  utxos : Db OutPoint FilledOutput
  stxos : Db OutPoint SpentOutput
  /-- Pending withdrawal bundle. -/
  pendingWithdrawalBundle : Option M6id
  /-- Latest failed (known) withdrawal bundle. -/
  latestFailedWithdrawalBundle : Option (HeightRollBack M6id)
  /-- Withdrawal bundles and their status. -/
  withdrawalBundles : Db M6id (WithdrawalBundleInfo × HeightRollBack WithdrawalBundleStatus)
  /-- Coin movements that no block body carries, by the height that applied them. -/
  blockIndexEvents : Db Nat BlockIndexEvents
  /-- Deposit blocks and the height at which they were applied. -/
  depositBlocks : Db SeqIdx (MainBlockHash × Nat)
  /-- Withdrawal bundle event blocks and the height at which they were applied. -/
  withdrawalBundleEventBlocks : Db SeqIdx (MainBlockHash × Nat)
deriving DecidableEq

/-- The state of a new environment. -/
def State.empty : State where
  tip := none
  height := none
  bitnames := ⟨∅, ∅, ∅⟩
  utxos := ∅
  stxos := ∅
  pendingWithdrawalBundle := none
  latestFailedWithdrawalBundle := none
  withdrawalBundles := ∅
  blockIndexEvents := ∅
  depositBlocks := ∅
  withdrawalBundleEventBlocks := ∅

end PlainBitnames
