import PlainBitnames.Lib.Borsh
import PlainBitnames.Lib.Db

/-!
What the program takes from crates outside the repository: the BLAKE3 hash,
Schnorr signatures and their batch verification, mainchain addresses and
transactions, and the domain name parser. They are the fields of one class, so
every definition and theorem of the development holds for any behaviour of
them.

Digests form an abstract type. A 32-byte hash cannot be injective on all byte
strings; over an abstract type collision freedom is an ordinary hypothesis
(`CollisionFree`) that some instance satisfies.
-/

namespace PlainBitnames

/-- `bitcoin::Amount`, in satoshis. -/
abbrev Amount := UInt64

/-- `Address`: 20 bytes. -/
abbrev Address := BitVec 160

/-- `VerifyingKey`, as the 32 bytes of its compressed point. -/
abbrev VerifyingKey := BitVec 256

/-- `EncryptionPubKey`: 32 bytes. -/
abbrev EncryptionPubKey := BitVec 256

/-- `Signature`: a compressed point, then a scalar. -/
abbrev Signature := BitVec 512

/-- `bitcoin::BlockHash`. -/
abbrev MainBlockHash := BitVec 256

/-- The MAC key of a `BatchVerificationContext`. -/
abbrev BatchVerificationContext := BitVec 256

/-- `bitcoin::TxOut`. -/
structure TxOut where
  value : Amount
  scriptPubkey : List UInt8
deriving DecidableEq

/-- The `bitcoin::Transaction` of a withdrawal bundle. The list of inputs is
always empty and left out. -/
structure BitcoinTransaction where
  version : Nat
  lockTime : Nat
  output : List TxOut
deriving DecidableEq

class Primitives where
  /-- `[u8; 32]`, the digests of BLAKE3 and the ids of mainchain transactions. -/
  Hash : Type
  hashDecEq : DecidableEq Hash
  /-- The bytes of a digest; all digests have encodings none of which begins
  another, as strings of one length do. -/
  hashBytes : Hash → List UInt8
  hashBytes_append : ∀ ⦃a b : Hash⦄ ⦃r s : List UInt8⦄,
    hashBytes a ++ r = hashBytes b ++ s → a = b ∧ r = s
  /-- `[0; 32]`. -/
  zeroHash : Hash
  /-- `blake3::hash`. -/
  blake3 : List UInt8 → Hash
  /-- `blake3::keyed_hash`. -/
  keyedHash : Hash → List UInt8 → Hash
  /-- The first 20 bytes of the extendable output of BLAKE3. -/
  blake3Xof : List UInt8 → Address
  /-- `bitcoin::Address<NetworkUnchecked>`, with its derived order. -/
  MainAddress : Type
  mainAddressOrder : LinearOrder MainAddress
  scriptPubkey : MainAddress → List UInt8
  /-- `bitcoin::Transaction::compute_txid`. -/
  computeTxid : BitcoinTransaction → Hash
  /-- `bitcoin::Transaction::weight`, in weight units. -/
  weight : BitcoinTransaction → Nat
  /-- `VerifyingKey::try_from` on 32 bytes. -/
  verifyingKeyTryFrom : BitVec 256 → Option VerifyingKey
  /-- The signature is valid for the key over the message. -/
  verifySignature : VerifyingKey → Signature → List UInt8 → Bool
  /-- A batch verifier with these items queued returns `Ok`. -/
  verifyBatch : BatchVerificationContext →
    List (VerifyingKey × Signature × List UInt8) → Bool
  /-- `addr::parse_domain_name` returns `Ok`. -/
  parseDomainName : String → Bool

export Primitives (Hash zeroHash MainAddress)

variable [Primitives]

instance : DecidableEq Hash := Primitives.hashDecEq
instance : LinearOrder MainAddress := Primitives.mainAddressOrder

/-- Distinct byte strings have distinct hashes. -/
def CollisionFree : Prop := Function.Injective Primitives.blake3

instance : Borsh Hash := ⟨Primitives.hashBytes, fun _ => true⟩

theorem reads_hash : Borsh.Reads Hash Eq :=
  fun _ _ _ _ _ _ h => Primitives.hashBytes_append h

theorem hashBytes_injective : Function.Injective (Primitives.hashBytes : Hash → _) :=
  fun a b h => (Primitives.hashBytes_append (r := []) (s := []) (by rw [h])).1

/-- Digests are stored under their bytes. -/
instance : Ord Hash := Db.byteOrd Primitives.hashBytes
instance : Std.TransOrd Hash := Db.byteOrd_trans
instance : Std.LawfulEqOrd Hash := Db.byteOrd_lawful hashBytes_injective
instance : LawfulBEq Hash := inferInstance

/-! The order of the other key types of the archive. -/

instance : Std.TransOrd MainBlockHash := inferInstance
instance : Std.LawfulEqOrd MainBlockHash := inferInstance
instance : Std.TransOrd (Option Hash) := inferInstance
instance : Std.LawfulEqOrd (Option Hash) := inferInstance

/-- `hashes::hash` and `hashes::hash_with_scratch_buffer`: the hash of the
canonical encoding. -/
def hash {α : Type} [Borsh α] (data : α) : Hash := Primitives.blake3 (Borsh.ser data)

theorem ser_eq_of_hash_eq (hcf : CollisionFree) {α β : Type} [Borsh α] [Borsh β]
    {a : α} {b : β} (h : hash a = hash b) : Borsh.ser a = Borsh.ser b :=
  hcf h

/-! Transparent wrappers around a digest. -/

abbrev Txid := Hash
abbrev CoinbaseTxid := Hash
abbrev BlockHash := Hash
abbrev MerkleRoot := Hash
abbrev BitName := Hash
abbrev M6id := Hash

end PlainBitnames
