import Mathlib.Data.List.Sort
import PlainBitnames.Types.Encoding

/-!
Withdrawal bundles: the mainchain transaction that pays out withdrawal outputs,
with the outputs it spends. The transaction commits to the outpoints of these
outputs and to the height at which the bundle was made.
-/

namespace PlainBitnames

open Borsh Fallible

variable [Primitives]

namespace OutPoint

/-- The byte string whose lexicographic order is the derived order of
`OutPoint`: the variant, then the txid, then the output index as a number. -/
def ordBytes : OutPoint → List UInt8
  | .regular txid vout => 0 :: (ser txid ++ (ser vout).reverse)
  | .coinbase txid vout => 1 :: (ser txid ++ (ser vout).reverse)
  | .deposit outpoint => 2 :: (ser outpoint.txid ++ (ser outpoint.vout).reverse)

theorem ordBytes_injective : Function.Injective (ordBytes : OutPoint → List UInt8) := by
  have hvout : ∀ {v w : UInt32}, (ser v).reverse = (ser w).reverse → v = w := by
    intro v w h
    exact reads_uint32.of_ser_eq rfl rfl (List.reverse_injective h)
  intro a b h
  cases a <;> cases b <;> obtain ⟨htag, hbody⟩ := List.cons.inj h <;>
    try exact absurd htag (by decide)
  case regular.regular =>
    obtain ⟨htxid, hrest⟩ := reads_hash rfl rfl hbody
    rw [htxid, hvout hrest]
  case coinbase.coinbase =>
    obtain ⟨htxid, hrest⟩ := reads_hash rfl rfl hbody
    rw [htxid, hvout hrest]
  case deposit.deposit o o' =>
    obtain ⟨htxid, hrest⟩ := reads_bitVec 256 rfl rfl hbody
    cases o
    cases o'
    simp only at htxid hrest
    rw [htxid, hvout hrest]

/-- The derived order of `OutPoint`. -/
def cmp : OutPoint → OutPoint → Ordering := compareOn ordBytes

instance : Std.TransCmp (cmp : OutPoint → OutPoint → Ordering) :=
  inferInstanceAs (Std.TransCmp (compareOn ordBytes))

instance : Std.LawfulEqCmp (cmp : OutPoint → OutPoint → Ordering) :=
  @Std.LawfulEqCmp.mk _ _ _ fun h => ordBytes_injective (Std.compare_eq_iff_eq.mp h)

end OutPoint

/-- `BTreeMap<OutPoint, FilledOutput>`. -/
abbrev SpendUtxos := SortedMap OutPoint FilledOutput OutPoint.cmp

/-- Checked addition of `u32` numbers. -/
def checkedAdd32 (a b : Nat) : Option Nat := if a + b < 2 ^ 32 then some (a + b) else none

/-- `bitcoin::VarInt::size`. -/
def varIntSize (n : Nat) : Nat :=
  if n < 0xFD then 1 else if n ≤ 0xFFFF then 3 else if n ≤ 0xFFFFFFFF then 5 else 9

/-- `bitcoin::policy::MAX_STANDARD_TX_WEIGHT`. -/
def maxStandardTxWeight : Nat := 400000

structure WithdrawalBundle where
  spendUtxos : SpendUtxos
  tx : BitcoinTransaction
deriving DecidableEq

inductive WithdrawalBundleError where
  | bundleTooHeavy (weight maxWeight : Nat)
deriving DecidableEq

namespace WithdrawalBundle

/-- The size of a single txout: amount, script length, script. -/
def txoutSize (spkSize : Nat) : Option Nat := do
  let size ← checkedAdd32 8 (varIntSize spkSize)
  checkedAdd32 size spkSize

/-- Predict the weight of a bundle with the given number of payouts and sum of
their sizes; `none` if it exceeds the maximum. The input is the treasury, with
an empty script; the other two outputs are the commitments. -/
def predictWeight (nOutputs sumTxoutSizes : Nat) : Option Nat := do
  let nOutputs ← checkedAdd32 nOutputs 2
  let inputsCommitmentTxoutSize ← txoutSize 34
  let mainchainFeeCommitmentTxoutSize ← txoutSize 10
  let sumTxoutSizes ←
    checkedAdd32 (inputsCommitmentTxoutSize + mainchainFeeCommitmentTxoutSize) sumTxoutSizes
  let txinBaseSize := 36 + varIntSize 0 + 0 + 4
  let vinBaseSize ← checkedAdd32 (varIntSize 1) txinBaseSize
  let size ← checkedAdd32 4 vinBaseSize
  let voutSize ← checkedAdd32 (varIntSize nOutputs) sumTxoutSizes
  let size ← checkedAdd32 size voutSize
  let txBaseSize ← checkedAdd32 size 4
  if txBaseSize * 4 ≤ maxStandardTxWeight then some (txBaseSize * 4) else none

/-- The commitment to the spent outpoints and to the block height. -/
def inputsCommitment (blockHeight : Nat) (spendUtxos : SpendUtxos) : Hash :=
  hash (spendUtxos.toList.map Prod.fst ++ [OutPoint.regular zeroHash (UInt32.ofNat blockHeight)])

/-- `OP_RETURN` and a push of the given bytes. -/
def opReturn (bytes : List UInt8) : List UInt8 := 0x6a :: UInt8.ofNat bytes.length :: bytes

def new (blockHeight : Nat) (fee : Amount) (spendUtxos : SpendUtxos)
    (bundleOutputs : List TxOut) : Except (Failure WithdrawalBundleError) WithdrawalBundle := do
  let inputsCommitmentTxout : TxOut :=
    ⟨0, opReturn (ser (inputsCommitment blockHeight spendUtxos))⟩
  let mainchainFeeTxout : TxOut := ⟨0, opReturn (ser fee).reverse⟩
  let tx : BitcoinTransaction :=
    { version := 2, lockTime := 0,
      output := [mainchainFeeTxout, inputsCommitmentTxout] ++ bundleOutputs }
  ensure (Primitives.weight tx ≤ maxStandardTxWeight)
    (.error (.bundleTooHeavy (Primitives.weight tx) maxStandardTxWeight))
  .ok ⟨spendUtxos, tx⟩

def computeM6id (bundle : WithdrawalBundle) : M6id := Primitives.computeTxid bundle.tx

end WithdrawalBundle

/-- The withdrawals to one mainchain address. -/
structure AggregatedWithdrawal where
  spendUtxos : List (OutPoint × FilledOutput)
  mainAddress : MainAddress
  value : Amount
  mainFee : Amount

/-- The order by fee, then value, then address. -/
def AggregatedWithdrawal.le (a b : AggregatedWithdrawal) : Prop :=
  a.mainFee < b.mainFee ∨ a.mainFee = b.mainFee ∧
    (a.value < b.value ∨ a.value = b.value ∧ a.mainAddress ≤ b.mainAddress)

instance (a b : AggregatedWithdrawal) : Decidable (a.le b) :=
  inferInstanceAs (Decidable (_ ∨ _ ∧ (_ ∨ _ ∧ _)))

inductive WithdrawalBundleStatus where
  | confirmed
  /-- Formerly pending bundle. -/
  | dropped
  | failed
  | pending
  | submitted
  /-- Submitted although dropped or failed before. -/
  | submittedUnexpected
deriving DecidableEq

inductive WithdrawalBundleEventStatus where
  | confirmed
  | failed
  | submitted
deriving DecidableEq

structure WithdrawalBundleEvent where
  m6id : M6id
  status : WithdrawalBundleEventStatus
deriving DecidableEq

end PlainBitnames
