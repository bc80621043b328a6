import PlainBitnames.Types.DepositAddress

/-!
Deposit addresses, read both ways. What `formatForDeposit` writes is read back.
In the other direction the parser compares as many digits of the digest as the
text has, so it also accepts a checksum of fewer digits than the six that are
written; from six digits on, an accepted text is the written form with the same
digest continued.
-/

namespace PlainBitnames

open Borsh Fallible Text

section

variable [TextPrimitives]

namespace Address

/-- Up to the letter case of the checksum, a text starts with the written form of
an address and continues the same digest. -/
def KeepsChecksum (s : List Char) (address : Address) : Prop :=
  ∃ checksum rest, s = depositText address.asBase58 ++ (checksum ++ rest) ∧
    formatForDeposit address = depositText address.asBase58 ++ checksum.map Char.toLower ∧
    (checksum ++ rest).map Char.toLower <+: hexEncode (depositDigest address.asBase58)

/-- Six characters or more follow the last underscore. -/
def LongChecksum (s : List Char) : Prop :=
  ∃ front checksum, s = front ++ '_' :: checksum ∧ '_' ∉ checksum ∧ 6 ≤ checksum.length

theorem fromStr_asBase58 (address : Address) : fromStr address.asBase58 = .ok address := by
  rw [fromStr, asBase58, base58Decode_eq_ok.mpr rfl, Except.mapError, ok_bind,
    ensure_of (length_ser address), ok_bind, ofBytes_ser]

theorem asBase58_of_fromStr {s : List Char} {address : Address}
    (h : fromStr s = .ok address) : s = address.asBase58 := by
  obtain ⟨bytes, hbytes, h⟩ := bind_eq_ok.mp h
  obtain ⟨hlength, h⟩ := ensure_bind_eq_ok.mp h
  cases h
  rw [asBase58, ser_ofBytes hlength]
  exact base58Decode_eq_ok.mp (mapError_eq_ok.mp hbytes)

/-- An accepted text: the tag, the address and a checksum that starts the digest. -/
theorem fromDepositAddress_eq_ok {s : List Char} {address : Address} :
    fromDepositAddress s = .ok address ↔
      ∃ checksum, s = depositText address.asBase58 ++ checksum ∧ checksum ≠ [] ∧
        '_' ∉ checksum ∧ toLowercase checksum <+: hexEncode (depositDigest address.asBase58) := by
  constructor
  · intro h
    obtain ⟨rest, hrest, h⟩ := bind_eq_ok.mp h
    obtain ⟨⟨addressStr, checksum⟩, hsplit, h⟩ := bind_eq_ok.mp h
    obtain ⟨hdigest, h⟩ := ensure_bind_eq_ok.mp h
    obtain rfl := asBase58_of_fromStr h
    obtain ⟨tag, rfl, htag⟩ := List.dropPrefix?_eq_some_iff.mp (okOr_eq_ok.mp hrest)
    obtain ⟨hsplit, hne⟩ := Option.filter_eq_some_iff.mp (okOr_eq_ok.mp hsplit)
    obtain ⟨rfl, hnot⟩ := eq_of_rsplitOnce hsplit
    refine ⟨checksum, ?_, by simpa using hne, hnot, hdigest⟩
    rw [depositText, eq_of_beq htag]
    simp
  · rintro ⟨checksum, rfl, hne, hnot, hdigest⟩
    have hrest : (depositText address.asBase58 ++ checksum).dropPrefix? sidechainTag =
        some (address.asBase58 ++ '_' :: checksum) := by
      refine List.dropPrefix?_eq_some_iff.mpr ⟨sidechainTag, ?_, BEq.rfl⟩
      simp [depositText]
    have hsplit : (rsplitOnce '_' (address.asBase58 ++ '_' :: checksum)).filter
        (fun split => !split.2.isEmpty) = some (address.asBase58, checksum) := by
      rw [rsplitOnce_append hnot, Option.filter_some]
      simpa using hne
    rw [fromDepositAddress, hrest, okOr_some, ok_bind, hsplit, okOr_some, ok_bind]
    dsimp only
    rw [ensure_of hdigest, ok_bind, fromStr_asBase58]

theorem length_writtenChecksum (address : Address) :
    (hexEncode ((depositDigest address.asBase58).take 3)).length = 6 := by
  rw [length_hexEncode, List.length_take, depositDigest, length_sha256]
  rfl

theorem fromDepositAddress_formatForDeposit (address : Address) :
    fromDepositAddress address.formatForDeposit = .ok address := by
  have hhex : ∀ c ∈ hexEncode ((depositDigest address.asBase58).take 3), IsHex c :=
    fun c hc => isHex_of_mem hc
  refine fromDepositAddress_eq_ok.mpr ⟨_, rfl, ?_, ?_, ?_⟩
  · intro hnil
    have hlength := length_writtenChecksum address
    rw [hnil] at hlength
    cases hlength
  · exact fun hmem => not_isHex_underscore (hhex _ hmem)
  · rw [toLowercase_ascii _ fun c hc => (hhex c hc).toNat_lt, map_toLower_of_isHex hhex,
      hexEncode_take]
    exact List.take_prefix _ _

omit [TextPrimitives] in
theorem not_mem_of_lower_isHex {text : List Char} (h : ∀ c ∈ text.map Char.toLower, IsHex c) :
    '_' ∉ text := by
  intro hmem
  exact not_isHex_underscore (h _ (List.mem_map.mpr ⟨'_', hmem, by decide⟩))

theorem keepsChecksum_iff {s : List Char} {address : Address}
    (h : fromDepositAddress s = .ok address) : KeepsChecksum s address ↔ LongChecksum s := by
  constructor
  · rintro ⟨checksum, rest, rfl, hformat, hdigest⟩
    have hwritten := List.append_cancel_left hformat
    have hlength := congrArg List.length hwritten
    rw [length_writtenChecksum, List.length_map] at hlength
    refine ⟨sidechainTag ++ address.asBase58, checksum ++ rest, by simp [depositText], ?_, ?_⟩
    · exact not_mem_of_lower_isHex fun c hc => isHex_of_mem (hdigest.subset hc)
    · rw [List.length_append]
      omega
  · rintro ⟨front, checksum', hs', hnot', hlong⟩
    obtain ⟨checksum, rfl, -, hnot, hdigest⟩ := fromDepositAddress_eq_ok.mp h
    -- the last underscore of the text is the one in front of the checksum
    have hsame : checksum' = checksum := by
      have hs : depositText address.asBase58 ++ checksum =
          sidechainTag ++ address.asBase58 ++ '_' :: checksum := by simp [depositText]
      have hsplit : rsplitOnce '_' (depositText address.asBase58 ++ checksum) =
          some (front, checksum') := by rw [hs', rsplitOnce_append hnot']
      rw [hs, rsplitOnce_append hnot] at hsplit
      exact (Prod.mk.inj (Option.some.inj hsplit)).2.symm
    subst hsame
    rw [toLowercase_hex _ fun c hc => isHex_of_mem (hdigest.subset hc)] at hdigest
    refine ⟨checksum'.take 6, checksum'.drop 6, by rw [List.take_append_drop], ?_, ?_⟩
    · rw [formatForDeposit, hexEncode_take, List.map_take, List.append_cancel_left_eq]
      obtain ⟨tail, htail⟩ := hdigest
      rw [← htail, List.take_append_of_le_length (by rw [List.length_map]; exact hlong)]
    · rw [List.take_append_drop]
      exact hdigest

/-- Deposit addresses round trip, and an accepted text keeps the written checksum
exactly if it has as many digits as that one. -/
theorem deposit_checksums :
    (∀ address : Address, fromDepositAddress address.formatForDeposit = .ok address) ∧
      ∀ s address, fromDepositAddress s = .ok address →
        (KeepsChecksum s address ↔ LongChecksum s) :=
  ⟨fromDepositAddress_formatForDeposit, fun _ _ => keepsChecksum_iff⟩

end Address

end

namespace Instance

/-- Stand-ins for the libraries: one character for every byte, a fixed digest,
and ASCII lower case. -/
def byteChar (byte : UInt8) : Char := Char.ofNat (256 + byte.toNat)

def charByte (c : Char) : Except Char UInt8 := do
  ensure (256 ≤ c.toNat ∧ c.toNat < 512) c
  .ok (UInt8.ofNat (c.toNat - 256))

theorem toNat_byteChar (byte : UInt8) : (byteChar byte).toNat = 256 + byte.toNat := by
  have hbyte := byte.toNat_lt
  have hvalid : (256 + byte.toNat).isValidChar := .inl (by omega)
  rw [byteChar, Char.ofNat, dif_pos hvalid]
  rfl

theorem charByte_eq_ok {c : Char} {byte : UInt8} : charByte c = .ok byte ↔ c = byteChar byte := by
  have hbyte := byte.toNat_lt
  constructor
  · intro h
    obtain ⟨hc, h⟩ := ensure_bind_eq_ok.mp h
    obtain rfl := Except.ok.inj h
    have hlt : c.toNat - 256 < 2 ^ 8 := by omega
    rw [byteChar, UInt8.toNat_ofNat_of_lt' hlt, Nat.add_sub_of_le hc.1, Char.ofNat_toNat]
  · rintro rfl
    rw [charByte, ensure_of (by rw [toNat_byteChar]; omega), ok_bind, toNat_byteChar,
      Nat.add_sub_cancel_left, UInt8.ofNat_toNat]

instance textPrimitives : TextPrimitives where
  base58Encode bytes := bytes.map byteChar
  base58Decode text := text.mapM charByte
  base58Decode_eq_ok := by
    intro text bytes
    rw [mapM_eq_ok]
    simp only [charByte_eq_ok]
    constructor
    · intro h
      induction h with
      | nil => rfl
      | cons hc _ ih => rw [hc, ih, List.map_cons]
    · rintro rfl
      rw [List.forall₂_map_left_iff]
      exact List.forall₂_same.mpr fun _ _ => rfl
  sha256 _ := List.replicate 32 171
  length_sha256 _ := rfl
  toLowercase text := text.map Char.toLower
  toLowercase_ascii _ _ := rfl
  toLowercase_hex _ _ := rfl

theorem deposit_checksums_zero :
    Address.fromDepositAddress (Address.formatForDeposit 0) = .ok 0 :=
  Address.deposit_checksums.1 0

/-- The deposit address of the zero address with the first digit of its checksum only. -/
def oneDigit : List Char := Address.depositText (Address.asBase58 0) ++ ['a']

theorem oneDigit_accepted :
    Address.fromDepositAddress oneDigit = .ok 0 ∧ ¬ Address.KeepsChecksum oneDigit 0 := by
  have haccepted : Address.fromDepositAddress oneDigit = .ok 0 := by decide +kernel
  refine ⟨haccepted, fun hkeeps => ?_⟩
  obtain ⟨front, checksum, hs, hnot, hlong⟩ := (Address.keepsChecksum_iff haccepted).mp hkeeps
  have hbehind : (rsplitOnce '_' oneDigit).map Prod.snd = some ['a'] := by decide +kernel
  rw [hs, rsplitOnce_append hnot] at hbehind
  obtain rfl : checksum = ['a'] := Option.some.inj hbehind
  exact absurd hlong (by decide)

end Instance

end PlainBitnames
