import PlainBitnames.Lib.Decimal
import PlainBitnames.Lib.Fallible

/-!
`types/bitname_seq_id.rs`: the human-readable form of sequential ids. The last
eight digits are offset, permuted and written as two segments of four; the
digits above them, if any, are a segment in front. Sums and differences of `u32`
stop with a panic where they leave the range, as overflow checks have it.
-/

namespace PlainBitnames

open Decimal Fallible

structure BitNameSeqId where
  val : UInt32
deriving DecidableEq

/-- `error::ParseBitNameSeqId`. -/
inductive ParseBitNameSeqIdError where
  | emptySegment
  | emptySegmentEnd
  | emptySegmentStart
  | invalidChar (char : Char)
  | invalidSegment (segment : List Char)
  | overflow
  | tooFewSegments
  | tooManySegments
deriving DecidableEq

/-- `a + b` on `u32`. -/
def addU32 {E : Type} (a b : UInt32) : Except (Failure E) UInt32 :=
  if a.toNat + b.toNat < 2 ^ 32 then .ok (a + b)
  else .error (.panic "attempt to add with overflow")

/-- `a - b` on `u32`. -/
def subU32 {E : Type} (a b : UInt32) : Except (Failure E) UInt32 :=
  if b ≤ a then .ok (a - b) else .error (.panic "attempt to subtract with overflow")

/-- `checked_mul` on `u32`. -/
def checkedMulU32 (a b : UInt32) : Option UInt32 :=
  if a.toNat * b.toNat < 2 ^ 32 then some (a * b) else none

theorem subU32_of_le {E : Type} {a b : UInt32} (h : b ≤ a) :
    subU32 (E := E) a b = .ok (a - b) :=
  if_pos h

theorem checkedMulU32_eq_some {a b c : UInt32} :
    checkedMulU32 a b = some c ↔ a.toNat * b.toNat = c.toNat := by
  have hc := c.toNat_lt
  unfold checkedMulU32
  split
  next h =>
    rw [Option.some.injEq, ← UInt32.toNat_inj, UInt32.toNat_mul, Nat.mod_eq_of_lt h]
  next h =>
    refine iff_of_false (fun h' => nomatch h') ?_
    omega

/-- A number may carry a plus sign. -/
def unsigned : List Char → List Char
  | '+' :: digits => digits
  | digits => digits

/-- `str::parse::<u32>`. -/
def parseU32 (text : List Char) : Option UInt32 :=
  let digits := unsigned text
  if digits ≠ [] ∧ (∀ c ∈ digits, c.isDigit = true) ∧ number digits < 2 ^ 32 then
    some (.ofNat (number digits))
  else none

theorem unsigned_digits {digits : List Char} (hdigits : ∀ c ∈ digits, c.isDigit = true) :
    unsigned digits = digits := by
  unfold unsigned
  split
  next rest => exact absurd (hdigits '+' (List.mem_cons_self ..)) (by decide)
  next => rfl

theorem parseU32_digits {digits : List Char} (hne : digits ≠ [])
    (hdigits : ∀ c ∈ digits, c.isDigit = true) (hlt : number digits < 2 ^ 32) :
    ∃ n, parseU32 digits = some n ∧ n.toNat = number digits := by
  refine ⟨.ofNat (number digits), ?_, UInt32.toNat_ofNat_of_lt' hlt⟩
  rw [parseU32, unsigned_digits hdigits]
  exact if_pos ⟨hne, hdigits, hlt⟩

namespace BitNameSeqId

/-- `DISPLAY_OFFSET`. -/
def displayOffset : UInt32 := 23071990

/-- The eight last digits reordered, behind the first component unless it is zero. -/
def layout (firstFourDigitComponent : UInt32) :
    List Char → Except (Failure Empty) String
  | [d0, d1, d2, d3, d4, d5, d6, d7] =>
    if 0 < firstFourDigitComponent then
      .ok (.ofList (zeroPad 4 firstFourDigitComponent.toNat ++
        '-' :: [d4, d3, d1, d6] ++ '-' :: [d2, d7, d0, d5]))
    else
      .ok (.ofList ([d4, d3, d1, d6] ++ '-' :: [d2, d7, d0, d5]))
  | _ => .error (.panic "assertion failed: last_8_digits.len() == 8")

/-- `impl Display`. -/
def fmt (id : BitNameSeqId) : Except (Failure Empty) String := do
  let shifted ← addU32 (id.val % 100000000) displayOffset
  layout (id.val / 100000000) (zeroPad 8 (shifted % 100000000).toNat)

/-- Four ASCII digits. -/
structure Segment where
  d0 : Char
  d1 : Char
  d2 : Char
  d3 : Char
  isDigit : ∀ c ∈ [d0, d1, d2, d3], c.isDigit = true

def Segment.text (s : Segment) : List Char := [s.d0, s.d1, s.d2, s.d3]

/-- `parse_segment`. -/
def parseSegment (s : List Char) : Except (Failure ParseBitNameSeqIdError) Segment := do
  ensure (s.head? ≠ some '-') (.error .emptySegment)
  if hdigits : ∀ c ∈ s, c.isDigit = true then
    match s, hdigits with
    | [d0, d1, d2, d3], hdigits => .ok ⟨d0, d1, d2, d3, hdigits⟩
    | s, _ => .error (.error (.invalidSegment s))
  else
    .error (.error (.invalidSegment s))

/-- The digits of the last component, in their own order. -/
def lastEightDigits (s0 s1 : Segment) : List Char :=
  [s1.d2, s0.d2, s1.d0, s0.d1, s0.d0, s1.d3, s0.d3, s1.d1]

/-- `last_8_digit_component`. -/
def lastEightDigitComponent (s0 s1 : Segment) :
    Except (Failure ParseBitNameSeqIdError) UInt32 := do
  let offset ← okOr (parseU32 (lastEightDigits s0 s1)) (.panic "called `Result::unwrap()`")
  if displayOffset ≤ offset then
    subU32 offset displayOffset
  else
    let below ← subU32 displayOffset offset
    subU32 100000000 below

/-- The loop over the text: a piece before every `-`, then the final one. -/
def parseSegments (segments : List Segment) :
    List (List Char) → Except (Failure ParseBitNameSeqIdError) (List Segment)
  | [] => .ok segments
  | [last] => do
      let segment ← parseSegment last
      .ok (segments ++ [segment])
  | piece :: pieces => do
      let segment ← parseSegment piece
      ensure ((segments ++ [segment]).length ≤ 2) (.error .tooManySegments)
      parseSegments (segments ++ [segment]) pieces

def ofSegments : List Segment → Except (Failure ParseBitNameSeqIdError) BitNameSeqId
  | [] | [_] => .error (.error .tooFewSegments)
  | [s0, s1] => do
      let last ← lastEightDigitComponent s0 s1
      .ok ⟨last⟩
  | [s0, s1, s2] => do
      let first ← okOr (parseU32 s0.text) (.panic "called `Result::unwrap()`")
      let high ← okOr (checkedMulU32 first 100000000) (.error .overflow)
      let last ← lastEightDigitComponent s1 s2
      let sum ← addU32 high last
      .ok ⟨sum⟩
  | _ => .error (.error .tooManySegments)

/-- `impl FromStr`. -/
def fromStr (s : String) : Except (Failure ParseBitNameSeqIdError) BitNameSeqId := do
  match s.toList.find? fun c => !(c.isDigit || c == '-') with
  | some invalid => .error (.error (.invalidChar invalid))
  | none =>
    ensure (s.toList.head? ≠ some '-') (.error .emptySegmentStart)
    ensure (s.toList.getLast? ≠ some '-') (.error .emptySegmentEnd)
    let segments ← parseSegments [] (s.toList.splitOn '-')
    ofSegments segments

end BitNameSeqId

end PlainBitnames
