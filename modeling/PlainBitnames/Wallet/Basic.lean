import PlainBitnames.Instance
import PlainBitnames.Lib.Greedy

/-!
`lib/wallet/mod.rs`: the addresses and outputs of a wallet, coin selection and the
transactions it makes. Keys are derived from a seed and an index by libraries.
Indices are natural numbers: they are handed out one by one, and a wallet of
`2 ^ 32` addresses exceeds the size of its database many times over. Failures of
the database are left out.

The sort that coin selection uses is unstable and the coins selected are kept in a
hash map, so both are parameters: any sort, any order of the entries.
-/

namespace PlainBitnames

open Borsh Fallible

instance : Std.TransOrd Address := inferInstance

/-- Key derivation: `get_tx_signing_key` for a seed and an index. -/
class WalletKeys where
  Seed : Type
  SigningKey : Type
  txSigningKey : Seed → Nat → SigningKey
  /-- `VerifyingKey::from`. -/
  verifyingKey : SigningKey → VerifyingKey
  /-- `to_scalar().as_bytes()`. -/
  scalarBytes : SigningKey → List UInt8

export WalletKeys (Seed SigningKey)

section

variable [Primitives] [WalletKeys]

inductive WalletError where
  | addressDoesNotExist (address : Address)
  | amountOverflow
  | noBitnameReservation (plainName : String)
  | noSeed
  | notEnoughFunds
  | noTransferDestination
deriving DecidableEq

structure Wallet where
  seed : Option Seed
  /-- Map each address to its index. -/
  addressToIndex : Db Address Nat
  /-- Map each address index to an address. -/
  indexToAddress : Db Nat Address
  utxos : Db OutPoint FilledOutput
  /-- The inputs that pending transactions use. -/
  pendingInputs : List OutPoint
  stxos : Db OutPoint SpentOutput
  /-- Associates reservation commitments with plaintext names. -/
  bitnameReservations : Db Hash String
  /-- Associates names with plaintext names. -/
  knownBitnames : Db BitName String

namespace Wallet

abbrev Result (α : Type) := Except (Failure WalletError) α

/-- `a - b` on `Amount`, which panics if the result is negative. -/
def subAmount (a b : Amount) : Result Amount :=
  okOr (Checked.sub? a b) (.panic "Amount subtraction error")

def getTxSigningKey (w : Wallet) (index : Nat) : Result SigningKey := do
  let seed ← okOr w.seed (.error .noSeed)
  .ok (WalletKeys.txSigningKey seed index)

/-- The signing key that corresponds to an address of the wallet. -/
def getTxSigningKeyForAddr (w : Wallet) (address : Address) : Result SigningKey := do
  let index ← okOr w.addressToIndex[address]? (.error (.addressDoesNotExist address))
  let signingKey ← w.getTxSigningKey index
  ensure (address = getAddress (WalletKeys.verifyingKey signingKey))
    (.panic "assertion failed: signing key does not correspond to address")
  .ok signingKey

/-- Derive an address the wallet never used. -/
def getNewAddress (w : Wallet) : Result (Address × Wallet) := do
  let nextIndex := (Db.last w.indexToAddress).elim 0 fun entry => entry.1 + 1
  let signingKey ← w.getTxSigningKey nextIndex
  let address := getAddress (WalletKeys.verifyingKey signingKey)
  .ok (address, { w with
    indexToAddress := w.indexToAddress.insert nextIndex address
    addressToIndex := w.addressToIndex.insert address nextIndex })

/-- An output with nothing in its memo. -/
def newOutput (address : Address) (content : Content) : Output := ⟨address, content, []⟩

/-- A transaction without data. -/
def newTransaction (inputs : List OutPoint) (outputs : List Output) : Transaction :=
  ⟨inputs, outputs, [], none⟩

/-! ### Coin selection -/

abbrev Coin := OutPoint × FilledOutput

def coinValue (coin : Coin) : Nat := coin.2.getValue.toNat

/-- Coins that selection passes over. -/
def skips (w : Wallet) (coin : Coin) : Bool :=
  w.pendingInputs.contains coin.1 || coin.2.content.isWithdrawal || coin.2.isBitname ||
    coin.2.isReservation || coin.2.getValue == 0

/-- The loop of coin selection. The coins selected are a hash map; their outpoints
are distinct, so it is the list of what has been inserted. -/
def selectLoop (w : Wallet) (value : Amount) :
    Amount → List Coin → List Coin → Result (Amount × List Coin)
  | total, selected, [] => .ok (total, selected)
  | total, selected, coin :: coins =>
    if w.skips coin then w.selectLoop value total selected coins
    else if value ≤ total then .ok (total, selected)
    else do
      let total ← okOr (Checked.add? total coin.2.getValue) (.error .amountOverflow)
      w.selectLoop value total (selected ++ [coin]) coins

def selectCoins (sort : UnstableSort coinValue) (w : Wallet) (value : Amount) :
    Result (Amount × List Coin) := do
  let (total, selected) ← w.selectLoop value 0 [] (sort.run w.utxos.toList)
  ensure (value ≤ total) (.error .notEnoughFunds)
  .ok (total, selected)

/-! ### Transactions -/

section

variable (sort : UnstableSort coinValue) (order : Shuffle OutPoint)

def createRegularTransaction (w : Wallet) (fee : Amount) : Result (Transaction × Wallet) := do
  let (total, coins) ← w.selectCoins sort fee
  let change ← subAmount total fee
  let inputs := order.run (coins.map Prod.fst)
  let (address, w) ← w.getNewAddress
  .ok (newTransaction inputs [newOutput address (.bitcoin change)], w)

def createWithdrawal (w : Wallet) (mainAddress : MainAddress) (value mainFee fee : Amount) :
    Result (Transaction × Wallet) := do
  let valueAndFee ← okOr (Checked.add? value fee) (.error .amountOverflow)
  let amount ← okOr (Checked.add? valueAndFee mainFee) (.error .amountOverflow)
  let (total, coins) ← w.selectCoins sort amount
  let change ← subAmount total value
  let change ← subAmount change fee
  let change ← subAmount change mainFee
  let inputs := order.run (coins.map Prod.fst)
  let (address, w) ← w.getNewAddress
  let (changeAddress, w) ← w.getNewAddress
  .ok (newTransaction inputs
    [newOutput address (.withdrawal ⟨value, mainFee, mainAddress⟩),
      newOutput changeAddress (.bitcoin change)], w)

/-- Pay the change, if there is any, to a new address. -/
def withChange (w : Wallet) (inputs : List OutPoint) (outputs : List Output) (change : Amount) :
    Result (Transaction × Wallet) :=
  if change ≠ 0 then do
    let (address, w) ← w.getNewAddress
    .ok (newTransaction inputs (outputs ++ [newOutput address (.bitcoin change)]), w)
  else
    .ok (newTransaction inputs outputs, w)

def createTransfer (w : Wallet) (address : Address) (value fee : Amount)
    (memo : Option (List UInt8)) : Result (Transaction × Wallet) := do
  let amount ← okOr (Checked.add? value fee) (.error .amountOverflow)
  let (total, coins) ← w.selectCoins sort amount
  let change ← subAmount total value
  let change ← subAmount change fee
  w.withChange (order.run (coins.map Prod.fst)) [⟨address, .bitcoin value, memo.getD []⟩] change

/-- Pay each address in `dests`, the entries of a map in its order, and pay the
change to a new address. -/
def createTransferMany (w : Wallet) (dests : List (Address × Amount)) (fee : Amount) :
    Result (Transaction × Wallet) := do
  ensure (dests ≠ []) (.error .noTransferDestination)
  let value ← okOr (Checked.sum? (dests.map Prod.snd)) (.error .amountOverflow)
  let amount ← okOr (Checked.add? value fee) (.error .amountOverflow)
  let (total, coins) ← w.selectCoins sort amount
  let change ← subAmount total value
  let change ← subAmount change fee
  w.withChange (order.run (coins.map Prod.fst))
    (dests.map fun dest => newOutput dest.1 (.bitcoin dest.2)) change

end

end Wallet

end

namespace Instance

/-- The key of an index is its low byte, under the address of that number. -/
instance walletKeys : WalletKeys where
  Seed := Unit
  SigningKey := Nat
  txSigningKey _ index := index % 256
  verifyingKey key := BitVec.ofNat 256 key
  scalarBytes key := [UInt8.ofNat key]

def mergeOrder : UnstableSort Wallet.coinValue where
  run l := l.mergeSort fun a b => Wallet.coinValue a ≤ Wallet.coinValue b
  perm l := List.mergeSort_perm l _
  sorted l := by
    have hsorted : (l.mergeSort fun a b => Wallet.coinValue a ≤ Wallet.coinValue b).Pairwise
        fun a b => decide (Wallet.coinValue a ≤ Wallet.coinValue b) = true := by
      refine List.pairwise_mergeSort ?_ ?_ l
      · intro a b c hab hbc
        rw [decide_eq_true_eq] at *
        exact hab.trans hbc
      · intro a b
        rw [Bool.or_eq_true, decide_eq_true_eq, decide_eq_true_eq]
        exact Nat.le_total _ _
    simpa using hsorted

def insertionOrder (α : Type) : Shuffle α := ⟨id, fun _ => List.Perm.refl _⟩

end Instance

end PlainBitnames
