import PlainBitnames.Lib.BorshReader
import PlainBitnames.Types.Encoding

/-!
`OutPointKey`: the canonical encoding of an outpoint as an array of 37 bytes.
Here digests are what they are in the program, all arrays of 32 bytes; the rest
of the development needs only that their encodings can be told apart.
-/

namespace PlainBitnames

open Borsh Fallible

/-- Digests as `[u8; 32]`: every array of 32 bytes is one, and nothing else. -/
class HashArray [Primitives] where
  ofBytes : List UInt8 → Hash
  length_hashBytes : ∀ digest : Hash, (Primitives.hashBytes digest).length = 32
  hashBytes_ofBytes : ∀ bytes : List UInt8, bytes.length = 32 →
    Primitives.hashBytes (ofBytes bytes) = bytes

variable [Primitives] [HashArray]

instance : Readable Hash :=
  .ofArray 32 HashArray.ofBytes HashArray.length_hashBytes HashArray.hashBytes_ofBytes
    fun digest => hashBytes_injective
      (HashArray.hashBytes_ofBytes _ (HashArray.length_hashBytes digest))

omit [Primitives] [HashArray] in
theorem ser_bitcoinOutPoint (outpoint : BitcoinOutPoint) :
    ser outpoint = ser (outpoint.txid, outpoint.vout) := rfl

/-- `util::borsh::deserialize::bitcoin_outpoint`. -/
instance : Readable BitcoinOutPoint where
  read bytes := do
    let ((txid, vout), rest) ← read bytes
    .ok (⟨txid, vout⟩, rest)
  read_eq_ok {bytes rest outpoint} := by
    rw [ser_bitcoinOutPoint, ← read_eq_ok]
    constructor
    · intro h
      obtain ⟨⟨⟨txid, vout⟩, tail⟩, hread, h⟩ := bind_eq_ok.mp h
      cases h
      exact hread
    · intro h
      rw [h, ok_bind]

namespace OutPoint

/-- `OutPoint::deserialize_reader`. -/
def deserializeReader : List UInt8 → Except ReadError (OutPoint × List UInt8)
  | [] => .error .unexpectedEnd
  | 0 :: bytes => do
      let ((txid, vout), rest) ← read bytes
      .ok (.regular txid vout, rest)
  | 1 :: bytes => do
      let ((txid, vout), rest) ← read bytes
      .ok (.coinbase txid vout, rest)
  | 2 :: bytes => do
      let (outpoint, rest) ← read bytes
      .ok (.deposit outpoint, rest)
  | tag :: _ => .error (.unexpectedVariant tag)

theorem ser_of_deserializeReader {bytes rest : List UInt8} {outpoint : OutPoint}
    (h : deserializeReader bytes = .ok (outpoint, rest)) : bytes = ser outpoint ++ rest := by
  unfold deserializeReader at h
  split at h
  next => cases h
  next bytes =>
    obtain ⟨⟨⟨txid, vout⟩, tail⟩, hread, h⟩ := bind_eq_ok.mp h
    cases h
    exact congrArg (List.cons 0) (read_eq_ok.mp hread)
  next bytes =>
    obtain ⟨⟨⟨txid, vout⟩, tail⟩, hread, h⟩ := bind_eq_ok.mp h
    cases h
    exact congrArg (List.cons 1) (read_eq_ok.mp hread)
  next bytes =>
    obtain ⟨⟨deposit, tail⟩, hread, h⟩ := bind_eq_ok.mp h
    cases h
    exact congrArg (List.cons 2) (read_eq_ok.mp hread)
  next => cases h

theorem deserializeReader_ser (outpoint : OutPoint) (rest : List UInt8) :
    deserializeReader (ser outpoint ++ rest) = .ok (outpoint, rest) := by
  cases outpoint with
  | regular txid vout =>
    have hread : read (ser (txid, vout) ++ rest) = .ok ((txid, vout), rest) := read_eq_ok.mpr rfl
    exact bind_eq_ok.mpr ⟨_, hread, rfl⟩
  | coinbase txid vout =>
    have hread : read (ser (txid, vout) ++ rest) = .ok ((txid, vout), rest) := read_eq_ok.mpr rfl
    exact bind_eq_ok.mpr ⟨_, hread, rfl⟩
  | deposit deposit =>
    have hread : read (ser deposit ++ rest) = .ok (deposit, rest) := read_eq_ok.mpr rfl
    exact bind_eq_ok.mpr ⟨_, hread, rfl⟩

instance : Readable OutPoint where
  read := deserializeReader
  read_eq_ok := ⟨ser_of_deserializeReader, fun h => h ▸ deserializeReader_ser _ _⟩

end OutPoint

/-- `OUTPOINT_KEY_SIZE`. -/
def outpointKeySize : Nat := 37

omit [HashArray] in
theorem length_ser_regular (txid : Txid) (vout : UInt32) :
    (ser (OutPoint.regular txid vout)).length = 5 + (Primitives.hashBytes txid).length := by
  change (0 :: (Primitives.hashBytes txid ++ leBytes 4 vout.toNat)).length = _
  rw [List.length_cons, List.length_append, length_leBytes]
  omega

theorem length_ser_outPoint (outpoint : OutPoint) : (ser outpoint).length = outpointKeySize := by
  cases outpoint with
  | regular txid vout => rw [length_ser_regular, HashArray.length_hashBytes, outpointKeySize]
  | coinbase txid vout =>
    exact (length_ser_regular txid vout).trans (by rw [HashArray.length_hashBytes, outpointKeySize])
  | deposit deposit =>
    change (2 :: (leBytes 32 deposit.txid.toNat ++ leBytes 4 deposit.vout.toNat)).length = _
    rw [List.length_cons, List.length_append, length_leBytes, length_leBytes, outpointKeySize]

/-- Fixed-width key for an outpoint. -/
structure OutPointKey where
  bytes : List UInt8
  length_eq : bytes.length = outpointKeySize
deriving DecidableEq

/-- Why a database key cannot be decoded. -/
inductive KeyError where
  | wrongLength
  | deserialize (e : ReadError)
deriving DecidableEq

namespace OutPointKey

variable {key : OutPointKey}

omit [Primitives] [HashArray] in
theorem ext_bytes {key' : OutPointKey} (h : key.bytes = key'.bytes) : key = key' := by
  cases key
  cases key'
  simp_all

/-- The key whose first bytes are `written` and whose other bytes are those of
the zeroed buffer. -/
def ofWritten (written : List UInt8) (h : written.length ≤ outpointKeySize) : OutPointKey :=
  ⟨written ++ List.replicate (outpointKeySize - written.length) 0, by simp; omega⟩

/-- `from_outpoint`: serialize into a buffer of 37 bytes. -/
def fromOutpoint (outpoint : OutPoint) : Except (Failure Empty) OutPointKey :=
  if h : (ser outpoint).length ≤ outpointKeySize then .ok (ofWritten (ser outpoint) h)
  else .error (.panic "serializing OutPoint into key buffer should never fail")

/-- `to_outpoint`. -/
def toOutpoint (key : OutPointKey) : Except (Failure Empty) OutPoint :=
  match OutPoint.deserializeReader key.bytes with
  | .ok (outpoint, _) => .ok outpoint
  | .error _ => .error (.panic "OutPointKey stores canonical Borsh-serialized OutPoints")

/-- `bytes_decode`. -/
def bytesDecode (bytes : List UInt8) : Except KeyError OutPointKey :=
  if h : bytes.length = outpointKeySize then do
    let _ ← (OutPoint.deserializeReader bytes).mapError .deserialize
    .ok ⟨bytes, h⟩
  else .error .wrongLength

theorem fromOutpoint_eq_ok {outpoint : OutPoint} :
    fromOutpoint outpoint = .ok key ↔ key.bytes = ser outpoint := by
  have hlength := length_ser_outPoint outpoint
  have hbytes : (ofWritten (ser outpoint) hlength.le).bytes = ser outpoint := by
    change ser outpoint ++ List.replicate (outpointKeySize - (ser outpoint).length) 0 = _
    rw [hlength, Nat.sub_self, List.replicate_zero, List.append_nil]
  have hok : fromOutpoint outpoint = .ok (ofWritten (ser outpoint) hlength.le) :=
    dif_pos hlength.le
  constructor
  · intro h
    cases hok.symm.trans h
    exact hbytes
  · intro h
    rw [hok, ext_bytes (hbytes.trans h.symm)]

def ofOutPoint (outpoint : OutPoint) : OutPointKey := ⟨ser outpoint, length_ser_outPoint outpoint⟩

theorem fromOutpoint_eq (outpoint : OutPoint) : fromOutpoint outpoint = .ok (ofOutPoint outpoint) :=
  fromOutpoint_eq_ok.mpr rfl

theorem toOutpoint_eq_ok {outpoint : OutPoint} :
    key.toOutpoint = .ok outpoint ↔ key.bytes = ser outpoint := by
  unfold toOutpoint
  constructor
  · intro h
    split at h
    next decoded rest hread =>
      cases h
      have hbytes := OutPoint.ser_of_deserializeReader hread
      have hrest : rest.length = 0 := by
        have hlength := congrArg List.length hbytes
        rw [List.length_append, length_ser_outPoint, key.length_eq] at hlength
        omega
      rw [hbytes, List.length_eq_zero_iff.mp hrest, List.append_nil]
    next => cases h
  · intro h
    have hread := OutPoint.deserializeReader_ser outpoint []
    rw [List.append_nil, ← h] at hread
    rw [hread]

theorem bytesDecode_eq_ok {bytes : List UInt8} :
    bytesDecode bytes = .ok key ↔ key.bytes = bytes ∧ ∃ outpoint, key.toOutpoint = .ok outpoint := by
  unfold bytesDecode toOutpoint
  constructor
  · intro h
    split at h
    next hlength =>
      obtain ⟨⟨outpoint, rest⟩, hread, h⟩ := bind_eq_ok.mp h
      cases h
      rw [mapError_eq_ok.mp hread]
      exact ⟨rfl, outpoint, rfl⟩
    next => cases h
  · rintro ⟨rfl, outpoint, h⟩
    split at h
    next decoded rest hread =>
      rw [dif_pos key.length_eq, hread]
      rfl
    next => cases h

end OutPointKey

end PlainBitnames
