import PlainBitnames.Lib.Borsh
import PlainBitnames.Lib.Fallible

/-!
Reading canonical encodings off the front of a byte string. `Readable` carries
the proof that a reader accepts exactly the encodings of its type: what it
returns is the value whose encoding stands there, and it never refuses one.
-/

namespace Borsh

open Fallible

/-- Why no value can be read. -/
inductive ReadError where
  | unexpectedEnd
  | unexpectedVariant (tag : UInt8)
deriving DecidableEq

/-- A type whose encodings can be read off the front of a byte string. -/
class Readable (α : Type) [Borsh α] where
  read : List UInt8 → Except ReadError (α × List UInt8)
  read_eq_ok : ∀ {bytes rest : List UInt8} {a : α},
    read bytes = .ok (a, rest) ↔ bytes = ser a ++ rest

export Readable (read read_eq_ok)

/-- The number with these bytes, least significant first. -/
def leNat : List UInt8 → Nat
  | [] => 0
  | byte :: rest => byte.toNat + 256 * leNat rest

theorem leNat_lt (bytes : List UInt8) : leNat bytes < 256 ^ bytes.length := by
  induction bytes with
  | nil => decide
  | cons byte rest ih =>
    have hbyte := byte.toNat_lt
    rw [leNat, List.length_cons, pow_succ]
    omega

theorem leBytes_leNat (bytes : List UInt8) : leBytes bytes.length (leNat bytes) = bytes := by
  induction bytes with
  | nil => rfl
  | cons byte rest ih =>
    have hbyte := byte.toNat_lt
    have hhigh : (byte.toNat + 256 * leNat rest) / 256 = leNat rest := by omega
    have hlow : UInt8.ofNat (byte.toNat + 256 * leNat rest) = byte :=
      UInt8.toNat_inj.mp (by rw [UInt8.toNat_ofNat']; omega)
    rw [List.length_cons, leNat, leBytes, hhigh, ih, hlow]

theorem leNat_leBytes {k n : Nat} (h : n < 256 ^ k) : leNat (leBytes k n) = n := by
  refine leBytes_inj (k := k) ?_ h ?_
  · simpa using leNat_lt (leBytes k n)
  · simpa using leBytes_leNat (leBytes k n)

/-- Read an array of `k` bytes. -/
def readArray (k : Nat) (bytes : List UInt8) : Except ReadError (List UInt8 × List UInt8) :=
  if k ≤ bytes.length then .ok (bytes.take k, bytes.drop k) else .error .unexpectedEnd

theorem readArray_eq_ok {k : Nat} {bytes array rest : List UInt8} :
    readArray k bytes = .ok (array, rest) ↔ array.length = k ∧ bytes = array ++ rest := by
  unfold readArray
  constructor
  · intro h
    split at h
    next hle =>
      cases h
      exact ⟨List.length_take_of_le hle, (List.take_append_drop k bytes).symm⟩
    next => cases h
  · rintro ⟨rfl, rfl⟩
    rw [if_pos (by simp), List.take_left, List.drop_left]

/-- A type that is read as an array of fixed length. -/
abbrev Readable.ofArray {α : Type} [Borsh α] (k : Nat) (ofBytes : List UInt8 → α)
    (length_ser : ∀ a : α, (ser a).length = k)
    (ser_ofBytes : ∀ bytes : List UInt8, bytes.length = k → ser (ofBytes bytes) = bytes)
    (ofBytes_ser : ∀ a : α, ofBytes (ser a) = a) : Readable α where
  read bytes := do
    let (array, rest) ← readArray k bytes
    .ok (ofBytes array, rest)
  read_eq_ok {bytes rest a} := by
    constructor
    · intro h
      obtain ⟨⟨array, tail⟩, harray, h⟩ := bind_eq_ok.mp h
      obtain ⟨hlength, hbytes⟩ := readArray_eq_ok.mp harray
      cases h
      rw [ser_ofBytes array hlength, hbytes]
    · intro h
      rw [readArray_eq_ok.mpr ⟨length_ser a, h⟩, ok_bind]
      exact congrArg (fun b => Except.ok (b, rest)) (ofBytes_ser a)

instance : Readable UInt32 :=
  .ofArray 4 (fun bytes => UInt32.ofNat (leNat bytes)) (fun _ => length_leBytes 4 _)
    (fun bytes hlength => by
      have hlt := leNat_lt bytes
      rw [hlength] at hlt
      have hval : (UInt32.ofNat (leNat bytes)).toNat = leNat bytes :=
        UInt32.toNat_ofNat_of_lt' hlt
      change leBytes 4 (UInt32.ofNat (leNat bytes)).toNat = bytes
      rw [hval, ← hlength, leBytes_leNat])
    (fun a => by
      change UInt32.ofNat (leNat (leBytes 4 a.toNat)) = a
      rw [leNat_leBytes (by have := a.toNat_lt; omega), UInt32.ofNat_toNat])

instance : Readable (BitVec 256) :=
  .ofArray 32 (fun bytes => BitVec.ofNat 256 (leNat bytes)) (fun _ => length_leBytes 32 _)
    (fun bytes hlength => by
      have hlt := leNat_lt bytes
      rw [hlength] at hlt
      have hval : (BitVec.ofNat 256 (leNat bytes)).toNat = leNat bytes :=
        Nat.mod_eq_of_lt (by norm_num at hlt ⊢; exact hlt)
      change leBytes 32 (BitVec.ofNat 256 (leNat bytes)).toNat = bytes
      rw [hval, ← hlength, leBytes_leNat])
    (fun a => by
      change BitVec.ofNat 256 (leNat (leBytes 32 a.toNat)) = a
      rw [leNat_leBytes (by have := a.isLt; norm_num at this ⊢; exact this), BitVec.ofNat_toNat,
        BitVec.setWidth_eq])

instance {α β : Type} [Borsh α] [Borsh β] [Readable α] [Readable β] : Readable (α × β) where
  read bytes := do
    let (a, rest) ← read bytes
    let (b, rest) ← read rest
    .ok ((a, b), rest)
  read_eq_ok {bytes rest p} := by
    constructor
    · intro h
      obtain ⟨⟨a, tail⟩, hfst, h⟩ := bind_eq_ok.mp h
      obtain ⟨⟨b, last⟩, hsnd, h⟩ := bind_eq_ok.mp h
      cases h
      rw [read_eq_ok.mp hfst, read_eq_ok.mp hsnd]
      exact (List.append_assoc _ _ _).symm
    · intro h
      have hbytes : bytes = ser p.1 ++ (ser p.2 ++ rest) := by
        rw [h]
        exact List.append_assoc _ _ _
      rw [read_eq_ok.mpr hbytes, ok_bind]
      dsimp only
      rw [read_eq_ok.mpr rfl, ok_bind]

end Borsh
