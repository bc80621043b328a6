import PlainBitnames.Node.Basic
import PlainBitnames.State.NameHistory
import PlainBitnames.Wallet.Update

/-!
`get_paymail` of `app/app.rs`: the outputs of a wallet that have a memo and pay the
fee of a BitName that the wallet owned, at the address they are paid to, when they
were paid. Hash maps are lists of entries, iterated in any order; indexing one with a
key that it does not have panics.
-/

namespace PlainBitnames

open Fallible

variable [Primitives] [WalletKeys]

namespace Wallet

def getBitnames (w : Wallet) : List Coin :=
  w.utxos.toList.filter fun coin => coin.2.isBitname

def getSpentBitnames (w : Wallet) : List (OutPoint × SpentOutput) :=
  w.stxos.toList.filter fun entry => entry.2.output.isBitname

end Wallet

namespace Node

/-- The height of the block that includes a transaction and that the tip descends
from. -/
def inclusionHeight (node : Node) (tip : BlockHash) (txid : Txid) : NodeResult (Option Nat) := do
  let blocks := (node.archive.txidToInclusions.ofTx txid).toList.map Prod.fst
  let found ← mapFailure .archive
    (blocks.findM? fun blockHash => node.archive.isDescendant blockHash tip)
  match found with
  | none => .ok none
  | some blockHash => do
      let height ← mapFailure .archive (node.archive.getHeight blockHash)
      .ok (some height)

def getCurrentBitnameData (node : Node) (bitname : BitName) : NodeResult Types.BitNameData :=
  okOr (node.state.bitnames.tryGetCurrentBitnameData bitname)
    (.error (.state (.bitName (.missing bitname))))

def getBitnameDataAtBlockHeight (node : Node) (bitname : BitName) (height : Nat) :
    NodeResult Types.BitNameData := do
  let data ← okOr node.state.bitnames.bitnames[bitname]?
    (.error (.state (.bitName (.missing bitname))))
  okOr (data.atBlockHeight height) (.error (.state (.bitName (.missingData bitname height))))

end Node

namespace Paymail

open Wallet (Coin)

/-- A BitName that the wallet owned at an address, from a height up to another. -/
structure Ownership where
  address : Address
  data : Types.BitNameData
  start : Nat
  stop : Nat

/-- Only the inboxes of a whitelist, if there is one. -/
def listed (inboxWhitelist : Option (List BitName)) (output : FilledOutput) : Bool :=
  match inboxWhitelist with
  | none => true
  | some whitelist =>
    match output.bitname with
    | none => false
    | some bitname => whitelist.contains bitname

/-- Index a map of block heights. -/
def index {K : Type} [DecidableEq K] (heights : List (K × Option Nat)) (key : K) :
    NodeResult (Option Nat) :=
  okOr (heights.lookup key) (.panic "no entry found for key")

/-- The outpoints of transactions among some outpoints, with their block heights. -/
def outpointHeights (node : Node) (tip : BlockHash) (outpoints : List OutPoint) :
    NodeResult (List (OutPoint × Option Nat)) :=
  let regular := outpoints.filterMap fun
    | .regular txid vout => some (OutPoint.regular txid vout, txid)
    | _ => none
  regular.mapM fun (outpoint, txid) => do
    let height ← node.inclusionHeight tip txid
    .ok (outpoint, height)

def inpointHeight (node : Node) (tip : BlockHash) (inpoint : InPoint) :
    NodeResult (InPoint × Option Nat) :=
  match inpoint with
  | .regular txid _ => do
      let height ← node.inclusionHeight tip txid
      .ok (inpoint, height)
  | .withdrawal _ =>
    .error (.panic "Impossible: bitname inpoint can only refer to regular tx")

/-- The ownership of a BitName that the wallet has. -/
def owned (node : Node) (heights : List (OutPoint × Option Nat)) (coin : Coin) :
    NodeResult (Option Ownership) :=
  match coin.2.bitname with
  | none => .ok none
  | some bitname => do
      let data ← node.getCurrentBitnameData bitname
      let height ← index heights coin.1
      .ok (height.map fun height => ⟨coin.2.address, data, height, 2 ^ 32 - 1⟩)

/-- The ownership of a BitName that the wallet has spent. -/
def ownedBefore (node : Node) (heights : List (OutPoint × Option Nat))
    (inpointHeights : List (InPoint × Option Nat)) (entry : OutPoint × SpentOutput) :
    NodeResult (Option Ownership) :=
  match entry.2.output.bitname with
  | none => .ok none
  | some bitname => do
      let height ← index heights entry.1
      match height with
      | none => .ok none
      | some acquired => do
          let spent ← index inpointHeights entry.2.inpoint
          let data ← node.getBitnameDataAtBlockHeight bitname acquired
          .ok (some ⟨entry.2.output.address, data, acquired, spent.getD (2 ^ 32 - 1)⟩)

/-- The least fee of the BitNames owned at a height that have one. -/
def minFee (owners : List Ownership) (height : Nat) : Option UInt64 :=
  let fees := owners.filterMap fun owner =>
    if owner.start ≤ height ∧ height < owner.stop then owner.data.mutableData.paymailFeeSats
    else none
  fees.min?

/-- Retain an output if a memo exists and its value reaches the fee. -/
def retains (owners : List Ownership) (heights : List (OutPoint × Option Nat)) (coin : Coin) :
    NodeResult Bool :=
  let owners := owners.filter fun owner => owner.address = coin.2.address
  if coin.2.memo = [] ∨ owners = [] then .ok false
  else do
    let height ← index heights coin.1
    .ok (((height.bind (minFee owners)).map fun fee => decide (fee ≤ coin.2.getValue)).getD false)

end Paymail

open Wallet Paymail in
def getPaymail (order : Shuffle Coin) (spentOrder : Shuffle (OutPoint × SpentOutput))
    (node : Node) (w : Wallet) (inboxWhitelist : Option (List BitName)) :
    NodeResult (List Coin) :=
  let utxos := order.run w.utxos.toList
  let bitnameUtxos := order.run (w.getBitnames.filter fun coin => listed inboxWhitelist coin.2)
  let bitnameStxos := spentOrder.run
    (w.getSpentBitnames.filter fun entry => listed inboxWhitelist entry.2.output)
  match node.state.tip with
  | none => .ok []
  | some tip => do
      let heights ← outpointHeights node tip
        (utxos.map Prod.fst ++ bitnameStxos.map Prod.fst)
      let inpointHeights ← bitnameStxos.mapM fun entry => inpointHeight node tip entry.2.inpoint
      let now ← bitnameUtxos.mapM (owned node heights)
      let before ← bitnameStxos.mapM (ownedBefore node heights inpointHeights)
      utxos.filterM (retains ((now ++ before).filterMap id) heights)

end PlainBitnames
