import PlainBitnames.State.RollBack
import PlainBitnames.Types.Filled

/-!
The BitName databases: registered names with the history of their data, open
reservations by the txid that made them, and the names by sequence number. An
operation either returns the databases it leaves behind or fails, with an error
or with one of the assertions of the rollback code.
-/

namespace PlainBitnames

open Fallible

variable [Primitives]

/-- Errors related to BitNames. -/
inductive BitNameError where
  | alreadyIcann (bitname : BitName)
  | missing (bitname : BitName)
  | missingData (bitname : BitName) (blockHeight : Nat)
  | missingBitNameInput (bitname : BitName)
  | missingReservation (txid : Txid)
  | noBitNamesToUpdate
  | noReservationForRegistration (bitname : BitName)
deriving DecidableEq

/-- BitName data that supports rollbacks. -/
structure BitNameData where
  seqId : Nat
  commitment : TxidRollBack (Option Hash)
  isIcann : Bool
  socketAddrV4 : TxidRollBack (Option SocketAddrV4)
  socketAddrV6 : TxidRollBack (Option SocketAddrV6)
  encryptionPubkey : TxidRollBack (Option EncryptionPubKey)
  signingPubkey : TxidRollBack (Option VerifyingKey)
  paymailFeeSats : TxidRollBack (Option UInt64)
deriving DecidableEq

/-- Apply an update to a single data field. -/
def applyFieldUpdate {α : Type} (field : TxidRollBack (Option α)) (update : Update α)
    (txid : Txid) (height : Nat) : TxidRollBack (Option α) :=
  match update with
  | .delete => TxidRollBack.push field none txid height
  | .retain => field
  | .set value => TxidRollBack.push field (some value) txid height

/-- Revert an update to a single data field. The entry that is popped must be
the one the update has pushed. -/
def revertFieldUpdate {α : Type} [DecidableEq α] (field : TxidRollBack (Option α))
    (update : Update α) (txid : Txid) (height : Nat) :
    Except (Failure BitNameError) (TxidRollBack (Option α)) :=
  match update with
  | .delete => popped none
  | .retain => .ok field
  | .set value => popped (some value)
where
  popped (expected : Option α) : Except (Failure BitNameError) (TxidRollBack (Option α)) := do
    let (rest, entry) ← okOr (NonEmpty.pop field) (.panic "assert!(popped.is_some())")
    ensure (entry.data = expected) (.panic "assert_eq!(popped.data, value)")
    ensure (entry.txid = txid) (.panic "assert_eq!(popped.txid, txid)")
    ensure (entry.height = height) (.panic "assert_eq!(popped.height, height)")
    .ok rest

namespace BitNameData

/-- Initialize from the data provided during a registration. -/
def init (data : MutableBitNameData) (txid : Txid) (height seqId : Nat) : BitNameData where
  seqId := seqId
  commitment := .new data.commitment txid height
  isIcann := false
  socketAddrV4 := .new data.socketAddrV4 txid height
  socketAddrV6 := .new data.socketAddrV6 txid height
  encryptionPubkey := .new data.encryptionPubkey txid height
  signingPubkey := .new data.signingPubkey txid height
  paymailFeeSats := .new data.paymailFeeSats txid height

def applyUpdates (data : BitNameData) (updates : BitNameDataUpdates) (txid : Txid)
    (height : Nat) : BitNameData where
  seqId := data.seqId
  commitment := applyFieldUpdate data.commitment updates.commitment txid height
  isIcann := data.isIcann
  socketAddrV4 := applyFieldUpdate data.socketAddrV4 updates.socketAddrV4 txid height
  socketAddrV6 := applyFieldUpdate data.socketAddrV6 updates.socketAddrV6 txid height
  encryptionPubkey := applyFieldUpdate data.encryptionPubkey updates.encryptionPubkey txid height
  signingPubkey := applyFieldUpdate data.signingPubkey updates.signingPubkey txid height
  paymailFeeSats := applyFieldUpdate data.paymailFeeSats updates.paymailFeeSats txid height

def revertUpdates (data : BitNameData) (updates : BitNameDataUpdates) (txid : Txid)
    (height : Nat) : Except (Failure BitNameError) BitNameData := do
  let paymailFeeSats ←
    revertFieldUpdate data.paymailFeeSats updates.paymailFeeSats txid height
  let signingPubkey ← revertFieldUpdate data.signingPubkey updates.signingPubkey txid height
  let encryptionPubkey ←
    revertFieldUpdate data.encryptionPubkey updates.encryptionPubkey txid height
  let socketAddrV4 ← revertFieldUpdate data.socketAddrV4 updates.socketAddrV4 txid height
  let socketAddrV6 ← revertFieldUpdate data.socketAddrV6 updates.socketAddrV6 txid height
  let commitment ← revertFieldUpdate data.commitment updates.commitment txid height
  .ok ⟨data.seqId, commitment, data.isIcann, socketAddrV4, socketAddrV6, encryptionPubkey,
    signingPubkey, paymailFeeSats⟩

end BitNameData

/-- The reservation a registration burns: the first spent one with the implied
commitment. -/
def FilledTransaction.burnedReservation (tx : FilledTransaction) (implied : Hash) :
    Option Txid :=
  tx.spentReservations.findSome? fun input =>
    match input.2.reservationData with
    | some (txid, commitment) => if commitment = implied then some txid else none
    | none => none

/-- The name an update is about: the last spent one. -/
def FilledTransaction.updatedBitname (tx : FilledTransaction) :
    Except (Failure BitNameError) BitName := do
  let input ← okOr tx.spentBitnames.getLast? (.error .noBitNamesToUpdate)
  okOr input.2.bitname (.panic "should only contain BitName outputs")

/-- The BitName databases. -/
structure Dbs where
  bitnames : Db BitName BitNameData
  reservations : Db Txid Hash
  seqToBitname : Db Nat BitName
deriving DecidableEq

namespace Dbs

/-- The sequence number of the last registered BitName. -/
def lastSeq (dbs : Dbs) : Option Nat := (Db.last dbs.seqToBitname).map Prod.fst

/-- The sequence number that the next registered BitName will take. -/
def nextSeq (dbs : Dbs) : Except (Failure BitNameError) Nat :=
  match dbs.lastSeq with
  | some seq => do
      ensure (seq + 1 < 2 ^ 32) (.panic "attempt to add with overflow")
      .ok (seq + 1)
  | none => .ok 0

def deleteReservation (dbs : Dbs) (txid : Txid) : Bool × Dbs :=
  (dbs.reservations.contains txid, { dbs with reservations := dbs.reservations.erase txid })

def putReservation (dbs : Dbs) (txid : Txid) (commitment : Hash) : Dbs :=
  { dbs with reservations := dbs.reservations.insert txid commitment }

def applyUpdates (dbs : Dbs) (tx : FilledTransaction) (updates : BitNameDataUpdates)
    (height : Nat) : Except (Failure BitNameError) Dbs := do
  let updated ← tx.updatedBitname
  let data ← okOr dbs.bitnames[updated]? (.error (.missing updated))
  .ok { dbs with
    bitnames := dbs.bitnames.insert updated (data.applyUpdates updates tx.txid height) }

def revertUpdates (dbs : Dbs) (tx : FilledTransaction) (updates : BitNameDataUpdates)
    (height : Nat) : Except (Failure BitNameError) Dbs := do
  let updated ← tx.updatedBitname
  let data ← okOr dbs.bitnames[updated]? (.error (.missing updated))
  let data ← data.revertUpdates updates tx.txid height
  .ok { dbs with bitnames := dbs.bitnames.insert updated data }

def applyRegistration (dbs : Dbs) (tx : FilledTransaction) (bitname : BitName)
    (data : MutableBitNameData) (height : Nat) : Except (Failure BitNameError) Dbs := do
  let implied ← okOr tx.transaction.impliedReservationCommitment
    (.error (.noReservationForRegistration bitname))
  let burned ← okOr (tx.burnedReservation implied)
    (.error (.noReservationForRegistration bitname))
  ensure (burned ∈ dbs.reservations) (.error (.missingReservation burned))
  let seq ← dbs.nextSeq
  .ok {
    bitnames := dbs.bitnames.insert bitname (.init data tx.txid height seq)
    reservations := dbs.reservations.erase burned
    seqToBitname := dbs.seqToBitname.insert seq bitname }

def revertRegistration (dbs : Dbs) (tx : FilledTransaction) (bitname : BitName) :
    Except (Failure BitNameError) Dbs := do
  let data ← okOr dbs.bitnames[bitname]? (.error (.missing bitname))
  let (_, latest) ← okOr (Db.last dbs.seqToBitname)
    (.panic "A registered bitname should have a seq id")
  ensure (latest = bitname) (.panic "assert_eq!(latest_registered_bitname, bitname)")
  ensure (data.seqId ∈ dbs.seqToBitname) (.error (.missing bitname))
  let implied ← okOr tx.transaction.impliedReservationCommitment
    (.panic "A BitName registration tx should have an implied commitment")
  let burned ← okOr (tx.burnedReservation implied)
    (.panic "A BitName registration tx should correspond to a burned reservation")
  .ok {
    bitnames := dbs.bitnames.erase bitname
    reservations := dbs.reservations.insert burned implied
    seqToBitname := dbs.seqToBitname.erase data.seqId }

/-- The spent names from the first one after `name` on, if it is among them. -/
def searchFrom (name : BitName) : List BitName → Option (List BitName)
  | [] => none
  | spent :: rest => if spent = name then some rest else searchFrom name rest

/-- One step of a walk over declared names along the spent names. -/
def icannStep (check : BitNameData → BitName → Except (Failure BitNameError) Unit)
    (isIcann : Bool) (state : Dbs × List BitName) (name : BitName) :
    Except (Failure BitNameError) (Dbs × List BitName) := do
  let rest ← okOr (searchFrom name state.2) (.error (.missingBitNameInput name))
  let data ← okOr state.1.bitnames[name]? (.error (.missing name))
  check data name
  .ok ({ state.1 with bitnames := state.1.bitnames.insert name { data with isIcann } }, rest)

/-- The names of the spent BitName outputs. -/
def spentNames (tx : FilledTransaction) : List BitName :=
  tx.spentBitnames.filterMap fun input => input.2.bitname

def applyBatchIcann (dbs : Dbs) (tx : FilledTransaction) (batch : BatchIcannRegistrationData) :
    Except (Failure BitNameError) Dbs := do
  let (dbs, _) ← batch.nameHashes.foldlM
    (icannStep (fun data name => ensure (data.isIcann = false) (.error (.alreadyIcann name))) true)
    (dbs, spentNames tx)
  .ok dbs

/-- Unlike the application, the reverse walk takes the names last to first, and
asserts that they are not yet marked. -/
def revertBatchIcann (dbs : Dbs) (tx : FilledTransaction) (batch : BatchIcannRegistrationData) :
    Except (Failure BitNameError) Dbs := do
  let (dbs, _) ← batch.nameHashes.reverse.foldlM
    (icannStep (fun data _ =>
      ensure (data.isIcann = false) (.panic "assert!(!bitname_data.is_icann)")) false)
    (dbs, spentNames tx)
  .ok dbs

end Dbs

end PlainBitnames
