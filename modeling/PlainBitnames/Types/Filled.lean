import PlainBitnames.Lib.Fallible
import PlainBitnames.Types.Transaction

/-!
Transactions together with the outputs they spend. The outputs of a filled
transaction carry their asset: the names and reservations it spends move to its
outputs of the same kind in order, a registration appends the new name and
drops the reservation it burns, and a reservation appends itself.
-/

namespace PlainBitnames

open Fallible

variable [Primitives]

/-- `FilledContent`: output content with the asset it stands for. -/
inductive FilledContent where
  | bitcoin (value : Amount)
  | bitcoinWithdrawal (withdrawal : WithdrawalContent)
  | bitName (bitname : BitName)
  /-- Reservation txid and commitment. -/
  | bitNameReservation (txid : Txid) (commitment : Hash)
deriving DecidableEq

namespace FilledContent

def bitname : FilledContent → Option BitName
  | .bitName name => some name
  | _ => none

def isBitname : FilledContent → Bool
  | .bitName _ => true
  | _ => false

def isReservation : FilledContent → Bool
  | .bitNameReservation _ _ => true
  | _ => false

def isWithdrawal : FilledContent → Bool
  | .bitcoinWithdrawal _ => true
  | _ => false

def reservationData : FilledContent → Option (Txid × Hash)
  | .bitNameReservation txid commitment => some (txid, commitment)
  | _ => none

def reservationCommitment (content : FilledContent) : Option Hash :=
  content.reservationData.map Prod.snd

/-- `From<Filled> for Content`. -/
def toContent : FilledContent → Content
  | .bitcoin value => .bitcoin value
  | .bitcoinWithdrawal withdrawal => .withdrawal withdrawal
  | .bitName _ => .bitName
  | .bitNameReservation _ _ => .bitNameReservation

def getValue (content : FilledContent) : Amount := content.toContent.getValue

end FilledContent

structure FilledOutput where
  address : Address
  content : FilledContent
  memo : List UInt8
deriving DecidableEq

instance : LawfulBEq FilledOutput := inferInstance

namespace FilledOutput

def bitname (o : FilledOutput) : Option BitName := o.content.bitname

def isBitname (o : FilledOutput) : Bool := o.content.isBitname

def isReservation (o : FilledOutput) : Bool := o.content.isReservation

def reservationData (o : FilledOutput) : Option (Txid × Hash) := o.content.reservationData

def reservationCommitment (o : FilledOutput) : Option Hash := o.content.reservationCommitment

/-- `From<FilledOutput> for Output`. -/
def toOutput (o : FilledOutput) : Output := ⟨o.address, o.content.toContent, o.memo⟩

def getValue (o : FilledOutput) : Amount := o.content.getValue

end FilledOutput

/-- An output together with the input or bundle that spent it. -/
structure SpentOutput where
  output : FilledOutput
  inpoint : InPoint
deriving DecidableEq

inductive ComputeFeeError where
  | underfunded
  | valueInOverflow
  | valueOutOverflow
deriving DecidableEq

inductive GetFeeError where
  | amountOverflow
  | amountUnderflow
deriving DecidableEq

structure FilledTransaction where
  transaction : Transaction
  spentUtxos : List FilledOutput
deriving DecidableEq

namespace FilledTransaction

def txid (tx : FilledTransaction) : Txid := tx.transaction.txid

def inputs (tx : FilledTransaction) : List OutPoint := tx.transaction.inputs

def outputs (tx : FilledTransaction) : List Output := tx.transaction.outputs

/-- The inputs with the outputs they spend. -/
def spentInputs (tx : FilledTransaction) : List (OutPoint × FilledOutput) :=
  tx.inputs.zip tx.spentUtxos

def spentReservations (tx : FilledTransaction) : List (OutPoint × FilledOutput) :=
  tx.spentInputs.filter fun input => input.2.isReservation

def spentBitnames (tx : FilledTransaction) : List (OutPoint × FilledOutput) :=
  tx.spentInputs.filter fun input => input.2.isBitname

def spentValue (tx : FilledTransaction) : Option Amount :=
  Checked.sum? (tx.spentUtxos.map FilledOutput.getValue)

def valueOut (tx : FilledTransaction) : Option Amount :=
  Checked.sum? (tx.outputs.map Output.getValue)

/-- The value spent minus the value out, if it is not negative. -/
def fee (tx : FilledTransaction) : Except ComputeFeeError Amount := do
  let spentValue ← okOr tx.spentValue .valueInOverflow
  let valueOut ← okOr tx.valueOut .valueOutOverflow
  if spentValue < valueOut then .error .underfunded else .ok (spentValue - valueOut)

/-- The fee as the merkle root commits to it. -/
def getFee (tx : FilledTransaction) : Except GetFeeError Amount := do
  let inputValue ← okOr (Checked.sum? (tx.spentUtxos.map FilledOutput.getValue)) .amountOverflow
  let outputValue ← okOr (Checked.sum? (tx.outputs.map Output.getValue)) .amountOverflow
  okOr (Checked.sub? inputValue outputValue) .amountUnderflow

def filledBitnameOutputContent (tx : FilledTransaction) : List FilledContent :=
  tx.spentBitnames.map (fun input => input.2.content) ++
    (tx.transaction.registrationNameHash.map FilledContent.bitName).toList

/-- In a registration the first reservation with the implied commitment is
burned: it does not occur in the outputs. -/
def retainReservations (toBurn : Option Hash) (contents : List FilledContent) :
    List FilledContent :=
  match toBurn with
  | some commitment =>
    contents.eraseP fun content => content.reservationCommitment == some commitment
  | none => contents

def filledReservationOutputContent (tx : FilledTransaction) : List FilledContent :=
  retainReservations tx.transaction.impliedReservationCommitment
      (tx.spentReservations.map fun input => input.2.content) ++
    (tx.transaction.reservationCommitment.map
      (FilledContent.bitNameReservation tx.txid)).toList

/-- Walk the outputs, taking the next name or reservation where one is due. -/
def fillOutputs : List Output → List FilledContent → List FilledContent →
    Option (List FilledOutput)
  | [], _, _ => some []
  | o :: os, bitnames, reservations =>
    match o.content with
    | .bitName =>
      match bitnames with
      | [] => none
      | content :: rest =>
        (fillOutputs os rest reservations).map (⟨o.address, content, o.memo⟩ :: ·)
    | .bitNameReservation =>
      match reservations with
      | [] => none
      | content :: rest =>
        (fillOutputs os bitnames rest).map (⟨o.address, content, o.memo⟩ :: ·)
    | .bitcoin value =>
      (fillOutputs os bitnames reservations).map (⟨o.address, .bitcoin value, o.memo⟩ :: ·)
    | .withdrawal withdrawal =>
      (fillOutputs os bitnames reservations).map
        (⟨o.address, .bitcoinWithdrawal withdrawal, o.memo⟩ :: ·)

/-- The filled outputs, or `none` if the outputs cannot be filled. -/
def filledOutputs (tx : FilledTransaction) : Option (List FilledOutput) :=
  fillOutputs tx.outputs tx.filledBitnameOutputContent tx.filledReservationOutputContent

/-- Drop each spent name that is the next declared ICANN name. -/
def retainRequiringAuth : List BitName → List FilledOutput → List FilledOutput
  | _, [] => []
  | [], o :: os => o :: retainRequiringAuth [] os
  | name :: names, o :: os =>
    match o.bitname with
    | none => o :: retainRequiringAuth (name :: names) os
    | some spentBitname =>
      if spentBitname = name then retainRequiringAuth names os
      else o :: retainRequiringAuth (name :: names) os

/-- Not all spent utxos require an authorization. -/
def spentUtxosRequiringAuth (tx : FilledTransaction) : List FilledOutput :=
  match tx.transaction.batchIcannData with
  | some data => retainRequiringAuth data.nameHashes tx.spentUtxos
  | none => tx.spentUtxos

end FilledTransaction

end PlainBitnames
