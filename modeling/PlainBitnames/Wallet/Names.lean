import PlainBitnames.Wallet.Basic

/-!
Reserving and registering names with a wallet. The nonce of a reservation is
derived from the key of the address that holds it, so a registration finds its
reservation again by trying the keys of all reservations that the wallet holds.
-/

namespace PlainBitnames

open Borsh Fallible

variable [Primitives]

def Transaction.isRegular (tx : Transaction) : Bool := tx.data.isNone

/-- A transaction with nothing in it. -/
def emptyTransaction : Transaction := ⟨[], [], [], none⟩

/-- `blake3::hash` of a plain name. -/
def nameHash (plainName : String) : BitName := Primitives.blake3 plainName.toUTF8.data.toList

/-- The commitment to a name under a nonce: `hmac(nonce, name_hash)`. -/
def commitmentTo (nonce : Hash) (name : BitName) : Hash :=
  Primitives.keyedHash nonce (Primitives.hashBytes name)

variable [WalletKeys]

def reservationNonce (signingKey : SigningKey) (name : BitName) : Hash :=
  Primitives.keyedHash (Primitives.blake3 (WalletKeys.scalarBytes signingKey))
    (Primitives.hashBytes name)

namespace Wallet

/-- The address of the last output, if the wallet owns it, or else a new one. -/
def outputAddress (w : Wallet) (tx : Transaction) : Result (Address × Wallet) :=
  match tx.outputs.getLast? with
  | some lastOutput =>
    if lastOutput.address ∈ w.addressToIndex then .ok (lastOutput.address, w)
    else w.getNewAddress
  | none => w.getNewAddress

/-- The address of a reservation: a reservation transaction keeps the one it has. -/
def reservationAddress (w : Wallet) (tx : Transaction) : Result (Address × Wallet) :=
  if tx.isReservation then do
    let output ← okOr tx.reservationOutputs.getLast?
      (.panic "A bitname reservation tx must have at least one reservation output")
    .ok (output.address, w)
  else w.outputAddress tx

/-- Add a reservation to a regular transaction, or change the name that a
reservation transaction reserves. -/
def reserveBitname (w : Wallet) (tx : Transaction) (plainName : String) :
    Result (Transaction × Wallet) := do
  ensure (tx.isRegular ∨ tx.isReservation)
    (.panic "this function only accepts a regular or bitname reservation tx")
  let (reservationAddr, w) ← w.reservationAddress tx
  let signingKey ← w.getTxSigningKeyForAddr reservationAddr
  let name := nameHash plainName
  let commitment := commitmentTo (reservationNonce signingKey name) name
  let w := { w with
    bitnameReservations := w.bitnameReservations.insert commitment plainName
    knownBitnames := w.knownBitnames.insert name plainName }
  let outputs :=
    if tx.isRegular then tx.outputs ++ [newOutput reservationAddr .bitNameReservation]
    else tx.outputs
  .ok ({ tx with outputs := outputs, data := some (.bitNameReservation commitment) }, w)

/-- The outpoint of the first reservation whose commitment is to this name, and
its nonce. -/
def findReservation (w : Wallet) (name : BitName) :
    List Coin → Result (Option (OutPoint × Hash))
  | [] => .ok none
  | (outpoint, output) :: coins =>
    match output.reservationCommitment with
    | none => w.findReservation name coins
    | some reservationCommitment => do
        let signingKey ← w.getTxSigningKeyForAddr output.address
        let nonce := reservationNonce signingKey name
        if commitmentTo nonce name = reservationCommitment then .ok (some (outpoint, nonce))
        else w.findReservation name coins

/-- Add a registration to a regular transaction. -/
def registerBitname (order : Shuffle Coin) (w : Wallet) (tx : Transaction) (plainName : String)
    (bitnameData : MutableBitNameData) : Result (Transaction × Wallet) := do
  ensure (tx.isRegular = true) (.panic "this function only accepts a regular tx")
  let (registrationAddr, w) ← w.outputAddress tx
  let name := nameHash plainName
  let reservation ← w.findReservation name (order.run w.utxos.toList)
  let w := { w with knownBitnames := w.knownBitnames.insert name plainName }
  let (outpoint, nonce) ← okOr reservation (.error (.noBitnameReservation plainName))
  .ok ({ tx with
    inputs := tx.inputs ++ [outpoint]
    outputs := tx.outputs ++ [newOutput registrationAddr .bitName]
    data := some (.bitNameRegistration name nonce bitnameData) }, w)

end Wallet

end PlainBitnames
