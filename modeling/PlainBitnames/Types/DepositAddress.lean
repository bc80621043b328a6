import PlainBitnames.Lib.BorshReader
import PlainBitnames.Lib.Text
import PlainBitnames.Primitives

/-!
`types/address.rs`: the text forms of an address. A bare address is base58 of its
twenty bytes; a deposit address puts the sidechain in front of it and the first
bytes of a digest of both behind it, as hexadecimal digits.

Base58, the digest and Unicode lower case come from libraries. Base58 is a
bijection, the digest is 32 bytes, and lower case is the ASCII one on ASCII texts
and on every text whose lower case is hexadecimal digits only: no other character
has one of these as its lower case.
-/

namespace PlainBitnames

open Borsh Fallible Text

class TextPrimitives where
  /-- `bitcoin::base58::encode`. -/
  base58Encode : List UInt8 → List Char
  /-- `bitcoin::base58::decode`; the error is the invalid character. -/
  base58Decode : List Char → Except Char (List UInt8)
  base58Decode_eq_ok : ∀ {text : List Char} {bytes : List UInt8},
    base58Decode text = .ok bytes ↔ text = base58Encode bytes
  /-- `sha256::Hash::hash`. -/
  sha256 : List UInt8 → List UInt8
  length_sha256 : ∀ bytes : List UInt8, (sha256 bytes).length = 32
  /-- `str::to_lowercase`. -/
  toLowercase : List Char → List Char
  toLowercase_ascii : ∀ text : List Char, (∀ c ∈ text, c.toNat < 128) →
    toLowercase text = text.map Char.toLower
  toLowercase_hex : ∀ text : List Char, (∀ c ∈ toLowercase text, IsHex c) →
    toLowercase text = text.map Char.toLower

export TextPrimitives (base58Encode base58Decode base58Decode_eq_ok sha256 length_sha256
  toLowercase toLowercase_ascii toLowercase_hex)

/-- `error::ParseAddress`. -/
inductive ParseAddressError where
  | bs58 (invalid : Char)
  | missingDepositChecksum (address : List Char)
  | missingDepositPrefix (address : List Char)
  | wrongDepositChecksum (address checksum : List Char)
  | wrongLength (length : Nat)
deriving DecidableEq

/-- The bytes of a text. -/
def utf8 (text : List Char) : List UInt8 := (String.ofList text).toUTF8.data.toList

/-- `THIS_SIDECHAIN`. -/
def thisSidechain : UInt8 := 2

/-- `s{THIS_SIDECHAIN}_`. -/
def sidechainTag : List Char := 's' :: Nat.toDigits 10 thisSidechain.toNat ++ ['_']

namespace Address

/-- The address of an array of twenty bytes. -/
def ofBytes (bytes : List UInt8) : Address := BitVec.ofNat 160 (leNat bytes)

theorem length_ser (address : Address) : (ser address).length = 20 := length_leBytes _ _

theorem ofBytes_ser (address : Address) : ofBytes (ser address) = address := by
  have hlt : address.toNat < 256 ^ 20 := address.isLt
  rw [ofBytes, show ser address = leBytes 20 address.toNat from rfl, leNat_leBytes hlt,
    BitVec.ofNat_toNat, BitVec.setWidth_eq]

theorem ser_ofBytes {bytes : List UInt8} (h : bytes.length = 20) : ser (ofBytes bytes) = bytes := by
  have hlt := leNat_lt bytes
  rw [h] at hlt
  have hnat : (ofBytes bytes).toNat = leNat bytes := Nat.mod_eq_of_lt hlt
  rw [show ser (ofBytes bytes) = leBytes 20 (ofBytes bytes).toNat from rfl, hnat, ← h,
    leBytes_leNat]

variable [TextPrimitives]

def asBase58 (address : Address) : List Char := base58Encode (ser address)

/-- What the checksum of a deposit address is about. -/
def depositText (addressStr : List Char) : List Char := sidechainTag ++ addressStr ++ ['_']

/-- The digits of the digest, of which a checksum is the first ones. -/
def depositDigest (addressStr : List Char) : List UInt8 := sha256 (utf8 (depositText addressStr))

def formatForDeposit (address : Address) : List Char :=
  depositText address.asBase58 ++ hexEncode ((depositDigest address.asBase58).take 3)

/-- `impl FromStr`. -/
def fromStr (s : List Char) : Except ParseAddressError Address := do
  let bytes ← (base58Decode s).mapError .bs58
  ensure (bytes.length = 20) (.wrongLength bytes.length)
  .ok (ofBytes bytes)

def fromDepositAddress (s : List Char) : Except ParseAddressError Address := do
  let rest ← okOr (s.dropPrefix? sidechainTag) (.missingDepositPrefix s)
  let (addressStr, checksum) ← okOr
    ((rsplitOnce '_' rest).filter fun split => !split.2.isEmpty) (.missingDepositChecksum s)
  ensure (toLowercase checksum <+: hexEncode (depositDigest addressStr))
    (.wrongDepositChecksum s checksum)
  fromStr addressStr

end Address

end PlainBitnames
