import PlainBitnames.Lib.Checked
import PlainBitnames.Primitives

/-!
Outpoints, outputs and transactions, with the canonical encoding of everything
a transaction id commits to. The encoding of a withdrawal address is its script
and the encoding of an IPv6 socket address is its IP and port, so the network
of an address and the flow information of a socket are not committed to.
-/

namespace PlainBitnames

open Borsh

variable [Primitives]

/-- `bitcoin::OutPoint`. -/
structure BitcoinOutPoint where
  txid : BitVec 256
  vout : UInt32
deriving DecidableEq

instance : Borsh BitcoinOutPoint where
  ser o := ser o.txid ++ ser o.vout
  fits _ := true

inductive OutPoint where
  /-- Created by transactions. -/
  | regular (txid : Txid) (vout : UInt32)
  /-- Created by block bodies. -/
  | coinbase (txid : CoinbaseTxid) (vout : UInt32)
  /-- Created by mainchain deposits. -/
  | deposit (outpoint : BitcoinOutPoint)
deriving DecidableEq

instance : Borsh OutPoint where
  ser
    | .regular txid vout => 0 :: (ser txid ++ ser vout)
    | .coinbase txid vout => 1 :: (ser txid ++ ser vout)
    | .deposit outpoint => 2 :: ser outpoint
  fits _ := true

/-- Reference to a transaction input, or to the bundle that removed an output. -/
inductive InPoint where
  | regular (txid : Txid) (vin : UInt32)
  | withdrawal (m6id : M6id)
deriving DecidableEq

structure WithdrawalContent where
  value : Amount
  mainFee : Amount
  mainAddress : MainAddress
deriving DecidableEq

instance : Borsh WithdrawalContent where
  ser w := ser w.value ++ (ser w.mainFee ++ ser (Primitives.scriptPubkey w.mainAddress))
  fits w := fits (Primitives.scriptPubkey w.mainAddress)

/-- A withdrawal removes both the payout and the mainchain fee. -/
def WithdrawalContent.getValue (w : WithdrawalContent) : Amount :=
  (Checked.add? w.value w.mainFee).getD (UInt64.ofNat (2 ^ 64 - 1))

inductive Content where
  | bitcoin (value : Amount)
  | bitName
  | bitNameReservation
  | withdrawal (withdrawal : WithdrawalContent)
deriving DecidableEq

instance : Borsh Content where
  ser
    | .bitcoin value => 0 :: ser value
    | .bitName => [1]
    | .bitNameReservation => [2]
    | .withdrawal w => 3 :: ser w
  fits
    | .withdrawal w => fits w
    | _ => true

namespace Content

def isBitname : Content → Bool
  | .bitName => true
  | _ => false

def isReservation : Content → Bool
  | .bitNameReservation => true
  | _ => false

def getValue : Content → Amount
  | .bitcoin value => value
  | .bitName | .bitNameReservation => 0
  | .withdrawal w => w.getValue

end Content

structure Output where
  address : Address
  content : Content
  memo : List UInt8
deriving DecidableEq

instance : Borsh Output where
  ser o := ser o.address ++ (ser o.content ++ ser o.memo)
  fits o := fits o.content && fits o.memo

namespace Output

def isBitname (o : Output) : Bool := o.content.isBitname

def isReservation (o : Output) : Bool := o.content.isReservation

def isValue (o : Output) : Bool :=
  match o.content with
  | .bitcoin _ | .withdrawal _ => true
  | .bitName | .bitNameReservation => false

def getValue (o : Output) : Amount := o.content.getValue

end Output

/-- `SocketAddrV4`. -/
structure SocketAddrV4 where
  ip : BitVec 32
  port : UInt16
deriving DecidableEq

instance : Borsh SocketAddrV4 where
  ser a := ser a.ip ++ ser a.port
  fits _ := true

/-- `SocketAddrV6`. -/
structure SocketAddrV6 where
  ip : BitVec 128
  port : UInt16
  flowinfo : UInt32
  scopeId : UInt32
deriving DecidableEq

instance : Borsh SocketAddrV6 where
  ser a := ser a.ip ++ ser a.port
  fits _ := true

/-- BitName data that can be updated later. -/
structure MutableBitNameData where
  commitment : Option Hash
  socketAddrV4 : Option SocketAddrV4
  socketAddrV6 : Option SocketAddrV6
  encryptionPubkey : Option EncryptionPubKey
  signingPubkey : Option VerifyingKey
  paymailFeeSats : Option UInt64
deriving DecidableEq

instance : Borsh MutableBitNameData where
  ser d := ser d.commitment ++ (ser d.socketAddrV4 ++ (ser d.socketAddrV6 ++
    (ser d.encryptionPubkey ++ (ser d.signingPubkey ++ ser d.paymailFeeSats))))
  fits _ := true

/-- Delete, retain, or set a value. -/
inductive Update (α : Type) where
  | delete
  | retain
  | set (value : α)
deriving DecidableEq

instance {α : Type} [Borsh α] : Borsh (Update α) where
  ser
    | .delete => [0]
    | .retain => [1]
    | .set value => 2 :: ser value
  fits
    | .set value => fits value
    | _ => true

/-- Updates to the data associated with a BitName. -/
structure BitNameDataUpdates where
  commitment : Update Hash
  socketAddrV4 : Update SocketAddrV4
  socketAddrV6 : Update SocketAddrV6
  encryptionPubkey : Update EncryptionPubKey
  signingPubkey : Update VerifyingKey
  paymailFeeSats : Update UInt64
deriving DecidableEq

instance : Borsh BitNameDataUpdates where
  ser d := ser d.commitment ++ (ser d.socketAddrV4 ++ (ser d.socketAddrV6 ++
    (ser d.encryptionPubkey ++ (ser d.signingPubkey ++ ser d.paymailFeeSats))))
  fits _ := true

structure BatchIcannRegistrationData where
  plainNames : List String
  signature : Signature
deriving DecidableEq

instance : Borsh BatchIcannRegistrationData where
  ser d := ser d.plainNames ++ ser d.signature
  fits d := fits d.plainNames

inductive TransactionData where
  | bitNameReservation (commitment : Hash)
  | bitNameRegistration (nameHash : BitName) (revealedNonce : Hash)
      (bitnameData : MutableBitNameData)
  | bitNameUpdate (updates : BitNameDataUpdates)
  | batchIcann (data : BatchIcannRegistrationData)
deriving DecidableEq

instance : Borsh TransactionData where
  ser
    | .bitNameReservation commitment => 0 :: ser commitment
    | .bitNameRegistration nameHash revealedNonce bitnameData =>
      1 :: (ser nameHash ++ (ser revealedNonce ++ ser bitnameData))
    | .bitNameUpdate updates => 2 :: ser updates
    | .batchIcann data => 3 :: ser data
  fits
    | .batchIcann data => fits data
    | _ => true

structure Transaction where
  inputs : List OutPoint
  outputs : List Output
  memo : List UInt8
  data : Option TransactionData
deriving DecidableEq

instance : Borsh Transaction where
  ser tx := ser tx.inputs ++ (ser tx.outputs ++ (ser tx.memo ++ ser tx.data))
  fits tx := fits tx.inputs && fits tx.outputs && fits tx.memo && fits tx.data

namespace Transaction

def txid (tx : Transaction) : Txid := hash tx

def isRegistration (tx : Transaction) : Bool :=
  match tx.data with
  | some (.bitNameRegistration _ _ _) => true
  | _ => false

def isReservation (tx : Transaction) : Bool :=
  match tx.data with
  | some (.bitNameReservation _) => true
  | _ => false

def isUpdate (tx : Transaction) : Bool :=
  match tx.data with
  | some (.bitNameUpdate _) => true
  | _ => false

def registrationNameHash (tx : Transaction) : Option BitName :=
  match tx.data with
  | some (.bitNameRegistration nameHash _ _) => some nameHash
  | _ => none

def impliedReservationCommitment (tx : Transaction) : Option Hash :=
  match tx.data with
  | some (.bitNameRegistration nameHash revealedNonce _) =>
    some (Primitives.keyedHash revealedNonce (Primitives.hashBytes nameHash))
  | _ => none

def reservationCommitment (tx : Transaction) : Option Hash :=
  match tx.data with
  | some (.bitNameReservation commitment) => some commitment
  | _ => none

def batchIcannData (tx : Transaction) : Option BatchIcannRegistrationData :=
  match tx.data with
  | some (.batchIcann data) => some data
  | _ => none

def bitnameOutputs (tx : Transaction) : List Output := tx.outputs.filter Output.isBitname

def reservationOutputs (tx : Transaction) : List Output :=
  tx.outputs.filter Output.isReservation

end Transaction

def BatchIcannRegistrationData.nameHashes (data : BatchIcannRegistrationData) :
    List BitName :=
  data.plainNames.map fun name => Primitives.blake3 name.toUTF8.data.toList

end PlainBitnames
