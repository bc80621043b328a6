import PlainBitnames.Instance
import PlainBitnames.State.TxSpec

/-!
Filling outputs conserves assets: a transaction that passes the checks of reservations
and names hands the names and reservations that it spends on to its outputs, and the
reservation that a registration leaves out is the one whose record it deletes.
-/

namespace PlainBitnames

open Fallible

section

variable [Primitives]

namespace FilledTransaction

/-- The contents of the spent BitNames, in input order. -/
def spentNameContents (tx : FilledTransaction) : List FilledContent :=
  tx.spentBitnames.map fun input => input.2.content

/-- The contents of the spent reservations, in input order. -/
def spentReservationContents (tx : FilledTransaction) : List FilledContent :=
  tx.spentReservations.map fun input => input.2.content

/-- The filled outputs hand on the spent assets. -/
structure Conserves (tx : FilledTransaction) (filled : List FilledOutput) : Prop where
  /-- Apart from their contents the outputs are the ones of the transaction. -/
  toOutput_eq : filled.map FilledOutput.toOutput = tx.outputs
  /-- The spent names are followed by the name that is registered. -/
  names_eq : (filled.map FilledOutput.content).filter FilledContent.isBitname =
    tx.spentNameContents ++ (tx.transaction.registrationNameHash.map FilledContent.bitName).toList
  /-- A registration leaves out the first reservation with the implied commitment, and
  this is the one whose record the application deletes. -/
  registration : ∀ implied, tx.transaction.impliedReservationCommitment = some implied →
    ∃ before burned after,
      tx.spentReservationContents = before ++ .bitNameReservation burned implied :: after ∧
      (∀ content ∈ before, content.reservationCommitment ≠ some implied) ∧
      (filled.map FilledOutput.content).filter FilledContent.isReservation = before ++ after ∧
      ∀ (dbs dbs' : Dbs) (bitname : BitName) (data : MutableBitNameData) (height : Nat),
        dbs.applyRegistration tx bitname data height = .ok dbs' →
          burned ∈ dbs.reservations ∧ dbs'.reservations = dbs.reservations.erase burned
  /-- A reservation appends itself. -/
  reservation : ∀ commitment, tx.transaction.reservationCommitment = some commitment →
    (filled.map FilledOutput.content).filter FilledContent.isReservation =
      tx.spentReservationContents ++ [.bitNameReservation tx.txid commitment]
  /-- All other transactions hand on the reservations as they are. -/
  other : tx.transaction.isRegistration = false → tx.transaction.isReservation = false →
    (filled.map FilledOutput.content).filter FilledContent.isReservation =
      tx.spentReservationContents

/-- The record that the application of a registration deletes. -/
theorem burned_of_applyRegistration {tx : FilledTransaction} {implied : Hash} {burned : Txid}
    (himplied : tx.transaction.impliedReservationCommitment = some implied)
    (hburned : tx.burnedReservation implied = some burned) {dbs dbs' : Dbs} {bitname : BitName}
    {data : MutableBitNameData} {height : Nat}
    (h : dbs.applyRegistration tx bitname data height = .ok dbs') :
    burned ∈ dbs.reservations ∧ dbs'.reservations = dbs.reservations.erase burned := by
  rw [Dbs.applyRegistration, himplied, okOr_some, ok_bind, hburned, okOr_some, ok_bind] at h
  obtain ⟨hmem, h⟩ := ensure_bind_eq_ok.mp h
  obtain ⟨seq, -, h⟩ := bind_eq_ok.mp h
  cases h
  exact ⟨hmem, rfl⟩

end FilledTransaction

namespace Transaction

theorem impliedReservationCommitment_of_reservation {tx : Transaction} {commitment : Hash}
    (h : tx.reservationCommitment = some commitment) : tx.impliedReservationCommitment = none := by
  by_contra hne
  obtain ⟨implied, himplied⟩ := Option.ne_none_iff_exists'.mp hne
  cases h.symm.trans (registration himplied).2.2

theorem commitments_of_other {tx : Transaction} (hregistration : tx.isRegistration = false)
    (hreservation : tx.isReservation = false) :
    tx.impliedReservationCommitment = none ∧ tx.reservationCommitment = none := by
  unfold isRegistration at hregistration
  unfold isReservation at hreservation
  unfold impliedReservationCommitment reservationCommitment
  cases hdata : tx.data with
  | none => exact ⟨rfl, rfl⟩
  | some data => cases data <;> simp_all

end Transaction

/-- The outputs of a transaction that passes the checks of reservations and names can be
filled, and the filled outputs conserve the spent assets. -/
theorem filledOutputs_conserves (state : State) (tx : FilledTransaction)
    (hreservations : State.validateReservations tx = .ok ())
    (hnames : state.validateBitnames tx = .ok ()) :
    ∃ filled, tx.filledOutputs = some filled ∧ tx.Conserves filled := by
  obtain ⟨filled, hfillable⟩ := State.exists_fillable (State.validateReservations_ok hreservations)
    (State.validateBitnames_ok hnames).2.2
    (fun _ himplied => State.validateBitnames_reserved hnames himplied)
  refine ⟨filled, hfillable.filled_eq, hfillable.toOutput_eq, hfillable.names_eq, ?_, ?_, ?_⟩
  · intro implied himplied
    obtain ⟨burned, hburned⟩ := FilledTransaction.exists_burnedReservation
      (State.validateBitnames_reserved hnames himplied)
    obtain ⟨before, after, hspent, hfirst, hretain⟩ :=
      FilledTransaction.burnedReservation_split hburned
    refine ⟨before, burned, after, hspent, hfirst, ?_, ?_⟩
    · rw [hfillable.reservations_eq, FilledTransaction.filledReservationOutputContent, himplied,
        hretain, (Transaction.registration himplied).2.2]
      exact List.append_nil _
    · intro dbs dbs' bitname data height happly
      exact FilledTransaction.burned_of_applyRegistration himplied hburned happly
  · intro commitment hcommitment
    rw [hfillable.reservations_eq, FilledTransaction.filledReservationOutputContent, hcommitment,
      Transaction.impliedReservationCommitment_of_reservation hcommitment]
    rfl
  · intro hregistration hreservation
    obtain ⟨himplied, hcommitment⟩ :=
      Transaction.commitments_of_other hregistration hreservation
    rw [hfillable.reservations_eq, FilledTransaction.filledReservationOutputContent, himplied,
      hcommitment]
    exact List.append_nil _

end

namespace Instance

/-- A registration that spends a name and two reservations with the implied commitment. -/
def registeringTx : FilledTransaction where
  transaction :=
    ⟨[.regular [1] 0, .regular [2] 0, .regular [3] 0],
      [⟨0, .bitNameReservation, []⟩, ⟨0, .bitName, []⟩, ⟨0, .bitName, []⟩], [],
      some (.bitNameRegistration [7] [8] ⟨none, none, none, none, none, none⟩)⟩
  spentUtxos :=
    [⟨0, .bitNameReservation [2] (Primitives.keyedHash [8] (Primitives.hashBytes [7])), []⟩,
      ⟨0, .bitName [6], []⟩,
      ⟨0, .bitNameReservation [3] (Primitives.keyedHash [8] (Primitives.hashBytes [7])), []⟩]

theorem filledOutputs_conserves_registering :
    ∃ filled, registeringTx.filledOutputs = some filled ∧ registeringTx.Conserves filled :=
  filledOutputs_conserves State.empty registeringTx (by decide +kernel) (by decide +kernel)

end Instance

end PlainBitnames
