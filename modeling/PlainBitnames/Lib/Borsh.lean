import Mathlib.Data.List.Forall2
import Mathlib.Data.Option.Basic
import Mathlib.Tactic

/-!
Canonical binary encodings in the manner of Borsh: integers are little endian
of fixed width, a vector is its length as a `u32` followed by its elements, an
option or an enumeration starts with a tag byte, and a record is the
concatenation of its fields. A vector of `2 ^ 32` elements or more has no
encoding; `fits` says that none occurs.

An encoding may leave out part of a value. `Reads R` therefore says that two
encodings, whatever follows them, agree only on values related by `R`, and then
only if what follows agrees too. For a type whose encoding is complete `R` is
equality.
-/

/-- A type with a canonical encoding. -/
class Borsh (α : Type) where
  ser : α → List UInt8
  fits : α → Bool

namespace Borsh

/-- The `k` low bytes of a number, least significant first. -/
def leBytes : Nat → Nat → List UInt8
  | 0, _ => []
  | k + 1, n => UInt8.ofNat n :: leBytes k (n / 256)

@[simp] theorem length_leBytes (k n : Nat) : (leBytes k n).length = k := by
  induction k generalizing n with
  | zero => rfl
  | succ k ih => simp [leBytes, ih]

theorem leBytes_inj {k n m : Nat} (hn : n < 256 ^ k) (hm : m < 256 ^ k)
    (h : leBytes k n = leBytes k m) : n = m := by
  induction k generalizing n m with
  | zero => simp at hn hm; omega
  | succ k ih =>
    simp only [leBytes, List.cons.injEq] at h
    have hlow : n % 256 = m % 256 := by
      have := congrArg UInt8.toNat h.1
      simpa using this
    have hhigh : n / 256 = m / 256 :=
      ih (by rw [pow_succ] at hn; omega) (by rw [pow_succ] at hm; omega) h.2
    omega

instance : Borsh UInt8 := ⟨fun b => [b], fun _ => true⟩
instance : Borsh UInt16 := ⟨fun n => leBytes 2 n.toNat, fun _ => true⟩
instance : Borsh UInt32 := ⟨fun n => leBytes 4 n.toNat, fun _ => true⟩
instance : Borsh UInt64 := ⟨fun n => leBytes 8 n.toNat, fun _ => true⟩

/-- A byte array of fixed length. -/
instance (w : Nat) : Borsh (BitVec w) :=
  ⟨fun b => leBytes ((w + 7) / 8) b.toNat, fun _ => true⟩

instance {α : Type} [Borsh α] : Borsh (Option α) where
  ser
    | none => [0]
    | some a => 1 :: ser a
  fits
    | none => true
    | some a => fits a

instance {α : Type} [Borsh α] : Borsh (List α) where
  ser l := leBytes 4 l.length ++ l.flatMap ser
  fits l := decide (l.length < 2 ^ 32) && l.all fits

instance {α β : Type} [Borsh α] [Borsh β] : Borsh (α × β) where
  ser p := ser p.1 ++ ser p.2
  fits p := fits p.1 && fits p.2

instance : Borsh String where
  ser s := ser s.toUTF8.data.toList
  fits s := fits s.toUTF8.data.toList

/-- Encodings of `α`, whatever follows them, agree only on values related by
`R` and only if what follows agrees. -/
def Reads (α : Type) [Borsh α] (R : α → α → Prop) : Prop :=
  ∀ ⦃a b : α⦄ ⦃r s : List UInt8⦄, fits a = true → fits b = true →
    ser a ++ r = ser b ++ s → R a b ∧ r = s

variable {α β : Type} [Borsh α] [Borsh β] {R : α → α → Prop}

theorem Reads.of_ser_eq (hreads : Reads α R) {a b : α} (ha : fits a = true) (hb : fits b = true)
    (h : ser a = ser b) : R a b :=
  (hreads ha hb (r := []) (s := []) (by rw [h])).1

theorem reads_of_length (hlength : ∀ a b : α, (ser a).length = (ser b).length)
    (hinj : ∀ a b : α, ser a = ser b → R a b) : Reads α R := by
  intro a b r s _ _ h
  obtain ⟨hser, hrest⟩ := List.append_inj h (hlength a b)
  exact ⟨hinj a b hser, hrest⟩

theorem reads_uint8 : Reads UInt8 Eq :=
  reads_of_length (fun _ _ => rfl) (fun _ _ h => (List.cons.inj h).1)

theorem reads_uint16 : Reads UInt16 Eq :=
  reads_of_length (by simp [ser]) fun a b h =>
    UInt16.toNat_inj.mp (leBytes_inj (by have := a.toNat_lt; omega)
      (by have := b.toNat_lt; omega) h)

theorem reads_uint32 : Reads UInt32 Eq :=
  reads_of_length (by simp [ser]) fun a b h =>
    UInt32.toNat_inj.mp (leBytes_inj (by have := a.toNat_lt; omega)
      (by have := b.toNat_lt; omega) h)

theorem reads_uint64 : Reads UInt64 Eq :=
  reads_of_length (by simp [ser]) fun a b h =>
    UInt64.toNat_inj.mp (leBytes_inj (by have := a.toNat_lt; omega)
      (by have := b.toNat_lt; omega) h)

theorem reads_bitVec (w : Nat) : Reads (BitVec w) Eq := by
  have hbound : ∀ b : BitVec w, b.toNat < 256 ^ ((w + 7) / 8) := by
    intro b
    calc b.toNat < 2 ^ w := b.isLt
      _ ≤ 2 ^ (8 * ((w + 7) / 8)) := Nat.pow_le_pow_right (by decide) (by omega)
      _ = 256 ^ ((w + 7) / 8) := by rw [pow_mul]; norm_num
  exact reads_of_length (by simp [ser]) fun a b h =>
    BitVec.eq_of_toNat_eq (leBytes_inj (hbound a) (hbound b) h)

theorem Reads.option (hreads : Reads α R) : Reads (Option α) (Option.Rel R) := by
  intro x y r s hx hy h
  cases x with
  | none =>
    cases y with
    | none => exact ⟨.none, by simpa [ser] using h⟩
    | some b => simp [ser] at h
  | some a =>
    cases y with
    | none => simp [ser] at h
    | some b =>
      have htail : ser a ++ r = ser b ++ s := by simpa [ser] using h
      obtain ⟨hab, hrest⟩ := hreads hx hy htail
      exact ⟨.some hab, hrest⟩

theorem Reads.pair {S : β → β → Prop} (hfst : Reads α R) (hsnd : Reads β S) :
    Reads (α × β) (fun p q => R p.1 q.1 ∧ S p.2 q.2) := by
  intro p q r s hp hq h
  simp only [fits, Bool.and_eq_true] at hp hq
  simp only [ser, List.append_assoc] at h
  obtain ⟨h1, hrest⟩ := hfst hp.1 hq.1 h
  obtain ⟨h2, hrest⟩ := hsnd hp.2 hq.2 hrest
  exact ⟨⟨h1, h2⟩, hrest⟩

theorem Reads.elements (hreads : Reads α R) {l m : List α} {r s : List UInt8}
    (hl : ∀ a ∈ l, fits a = true) (hm : ∀ b ∈ m, fits b = true) (hlength : l.length = m.length)
    (h : l.flatMap ser ++ r = m.flatMap ser ++ s) : List.Forall₂ R l m ∧ r = s := by
  induction l generalizing m with
  | nil =>
    obtain rfl := List.length_eq_zero_iff.mp hlength.symm
    exact ⟨.nil, by simpa using h⟩
  | cons a l ih =>
    cases m with
    | nil => cases hlength
    | cons b m =>
      simp only [List.flatMap_cons, List.append_assoc] at h
      obtain ⟨hab, hrest⟩ := hreads (hl a (by simp)) (hm b (by simp)) h
      obtain ⟨htail, hrest⟩ := ih (fun x hx => hl x (by simp [hx]))
        (fun x hx => hm x (by simp [hx])) (by simpa using hlength) hrest
      exact ⟨.cons hab htail, hrest⟩

theorem fits_list {l : List α} :
    fits l = true ↔ l.length < 2 ^ 32 ∧ ∀ a ∈ l, fits a = true := by
  simp [fits]

theorem Reads.list (hreads : Reads α R) : Reads (List α) (List.Forall₂ R) := by
  intro l m r s hl hm h
  rw [fits_list] at hl hm
  simp only [ser, List.append_assoc] at h
  obtain ⟨hlen, hrest⟩ := List.append_inj h (by simp)
  have hlength : l.length = m.length :=
    leBytes_inj (by omega) (by omega) hlen
  exact hreads.elements hl.2 hm.2 hlength hrest

theorem Reads.mono {S : α → α → Prop} (hreads : Reads α R) (himp : ∀ a b, R a b → S a b) :
    Reads α S := by
  intro a b r s ha hb h
  obtain ⟨hab, hrest⟩ := hreads ha hb h
  exact ⟨himp a b hab, hrest⟩

theorem Reads.fields {γ : Type} [Borsh γ] (hreads : Reads α R) (f : γ → α)
    (hser : ∀ c, ser c = ser (f c)) (hfits : ∀ c, fits c = true → fits (f c) = true) :
    Reads γ (fun c d => R (f c) (f d)) := by
  intro c d r s hc hd h
  rw [hser, hser] at h
  exact hreads (hfits c hc) (hfits d hd) h

theorem Reads.option_eq (hreads : Reads α Eq) : Reads (Option α) Eq :=
  hreads.option.mono fun _ _ h => by cases h <;> simp_all

theorem Reads.list_eq (hreads : Reads α Eq) : Reads (List α) Eq :=
  hreads.list.mono fun _ _ h => List.forall₂_eq_eq_eq ▸ h

theorem reads_string : Reads String Eq := by
  intro a b r s ha hb h
  obtain ⟨hbytes, hrest⟩ := reads_uint8.list_eq ha hb h
  refine ⟨?_, hrest⟩
  exact String.toByteArray_inj.mp (ByteArray.ext (Array.toList_inj.mp hbytes))

end Borsh
