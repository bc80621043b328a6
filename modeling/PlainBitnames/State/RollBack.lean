import PlainBitnames.Primitives

/-!
Histories of a value, of which the most recent entry can be taken back. An
entry is stamped with the height, and for BitName data also with the txid, at
which it was recorded.
-/

namespace PlainBitnames

/-- `nonempty::NonEmpty`. -/
structure NonEmpty (α : Type) where
  head : α
  tail : List α
deriving DecidableEq

namespace NonEmpty

variable {α : Type}

def singleton (a : α) : NonEmpty α := ⟨a, []⟩

def toList (l : NonEmpty α) : List α := l.head :: l.tail

def last (l : NonEmpty α) : α := l.tail.getLast?.getD l.head

def push (l : NonEmpty α) (a : α) : NonEmpty α := ⟨l.head, l.tail ++ [a]⟩

/-- The list without its last element and that element, unless only the head
is left. -/
def pop (l : NonEmpty α) : Option (NonEmpty α × α) :=
  l.tail.getLast?.map fun a => (⟨l.head, l.tail.dropLast⟩, a)

@[simp] theorem last_push (l : NonEmpty α) (a : α) : (l.push a).last = a := by
  simp [last, push]

@[simp] theorem pop_push (l : NonEmpty α) (a : α) : (l.push a).pop = some (l, a) := by
  simp [pop, push]

@[simp] theorem last_singleton (a : α) : (singleton a).last = a := rfl

@[simp] theorem pop_singleton (a : α) : (singleton a).pop = none := rfl

@[simp] theorem toList_singleton (a : α) : (singleton a).toList = [a] := rfl

end NonEmpty

/-- A value paired with the block height at which it was last updated. -/
structure HeightStamped (α : Type) where
  value : α
  height : Nat
deriving DecidableEq

/-- A value paired with the txid and the block height at which it was last
updated. -/
structure TxidStamped [Primitives] (α : Type) where
  data : α
  txid : Txid
  height : Nat
deriving DecidableEq

/-- `RollBack<HeightStamped<T>>`. -/
abbrev HeightRollBack (α : Type) := NonEmpty (HeightStamped α)

namespace HeightRollBack

variable {α : Type}

def new (value : α) (height : Nat) : HeightRollBack α := .singleton ⟨value, height⟩

/-- The history without its most recent entry, if there is an earlier one, and
the most recent entry. -/
def pop (r : HeightRollBack α) : Option (HeightRollBack α) × HeightStamped α :=
  match NonEmpty.pop r with
  | some (rest, entry) => (some rest, entry)
  | none => (none, r.head)

/-- Attempt to push a value as the new most recent. -/
def push (r : HeightRollBack α) (value : α) (height : Nat) : Option (HeightRollBack α) :=
  if height < r.last.height then none else some (NonEmpty.push r ⟨value, height⟩)

/-- Returns the most recent value. -/
def latest (r : HeightRollBack α) : HeightStamped α := r.last

theorem push_eq_some {r r' : HeightRollBack α} {value : α} {height : Nat} :
    push r value height = some r' ↔
      (latest r).height ≤ height ∧ NonEmpty.push r ⟨value, height⟩ = r' := by
  unfold push latest
  split <;> simp <;> omega

end HeightRollBack

/-- `RollBack<TxidStamped<T>>`. -/
abbrev TxidRollBack [Primitives] (α : Type) := NonEmpty (TxidStamped α)

namespace TxidRollBack

variable [Primitives] {α : Type}

def new (value : α) (txid : Txid) (height : Nat) : TxidRollBack α :=
  .singleton ⟨value, txid, height⟩

def push (r : TxidRollBack α) (value : α) (txid : Txid) (height : Nat) : TxidRollBack α :=
  NonEmpty.push r ⟨value, txid, height⟩

end TxidRollBack

end PlainBitnames
