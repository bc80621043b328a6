import PlainBitnames.Node.Basic

/-!
Block templates: a block to blind merge mine on top of the mainchain tip. Its
parent is the tip of the state, or an ancestor of it if the mainchain tip lies on
another branch. On top of an ancestor the block is empty.
-/

namespace PlainBitnames

open Fallible

variable [Primitives]

/-- A block that is ready to be blind merged mined. -/
structure BlockTemplate where
  /-- Bribe to offer for this block. -/
  bribe : Amount
  header : Header
  height : Nat
  body : Body
  /-- Fees collected by the transactions in the block. -/
  fees : Amount
deriving DecidableEq

inductive TemplateError where
  | archive (err : ArchiveError)
  | computeMerkleRoot (err : ComputeMerkleRootError)
deriving DecidableEq

abbrev TemplateResult (α : Type) := Except (Failure TemplateError) α

def emptyBlockBmmBribe : Amount := 1000

namespace Archive

/-- A block that builds on a block strictly before the given mainchain block. -/
def minableBefore (a : Archive) (mainAncestor : MainBlockHash) (blockHash : BlockHash) :
    ArchiveResult (Option BlockHash) := do
  let header ← a.getHeader blockHash
  if header.prevMainHash = mainAncestor then .ok none
  else do
    let isAncestor ← a.isMainDescendant header.prevMainHash mainAncestor
    .ok (if isAncestor then some blockHash else none)

/-- The block to mine on, for the tip of the state and the tip of the mainchain,
which is known to the archive. -/
def templateParent (a : Archive) (tipHash : Option BlockHash) (prevMainHash : MainBlockHash) :
    ArchiveResult (Option BlockHash) :=
  match tipHash with
  | none => .ok none
  | some tipHash => do
      let tipHeader ← a.getHeader tipHash
      let lastCommonMainAncestor ← a.lastCommonMainAncestor prevMainHash tipHeader.prevMainHash
      if lastCommonMainAncestor = tipHeader.prevMainHash then .ok (some tipHash)
      else
        -- Find a tip to mine on
        a.findAncestor (a.minableBefore lastCommonMainAncestor) (a.lineageLength tipHash)
          (some tipHash)

/-- The height of a block on top of another one. -/
def templateHeight (a : Archive) (prevSideHash : Option BlockHash) : ArchiveResult Nat :=
  match prevSideHash with
  | none => .ok 0
  | some prevSideHash => do
      let height ← a.getHeight prevSideHash
      heightPlusOne height

end Archive

/-- The coinbase that collects the fees of the transactions of a template. -/
def templateCoinbase (address : Address) (txFees : Amount) : Coinbase :=
  ⟨[], if txFees = 0 then [] else [⟨address, .bitcoin txFees, []⟩]⟩

/-- The bribe, header, body and fees of a block on top of the tip, with the
transactions of the mempool. -/
def fullTemplate (prevSideHash : Option BlockHash) (prevMainHash : MainBlockHash)
    (transactions : List (Authorized FilledTransaction) × Amount) (receiveAddress : Address)
    (fee : Option Amount) : TemplateResult (Amount × Header × Body × Amount) := do
  let (txs, txFees) := transactions
  let coinbase := templateCoinbase receiveAddress txFees
  let merkleRoot ← mapFailure .computeMerkleRoot
    (Body.computeMerkleRoot coinbase (txs.map Authorized.transaction))
  let body := Body.new (txs.map fun tx => ⟨tx.transaction.transaction, tx.authorizations⟩) coinbase
  let bribe := fee.getD (if 0 < txFees then txFees else emptyBlockBmmBribe)
  .ok (bribe, ⟨merkleRoot, prevSideHash, prevMainHash⟩, body, txFees)

/-- The bribe, header, body and fees of a block on top of another block, without
transactions. -/
def emptyTemplate (prevSideHash : Option BlockHash) (prevMainHash : MainBlockHash) :
    TemplateResult (Amount × Header × Body × Amount) := do
  let coinbase : Coinbase := ⟨[], []⟩
  let merkleRoot ← mapFailure .computeMerkleRoot (Body.computeMerkleRoot coinbase [])
  .ok (emptyBlockBmmBribe, ⟨merkleRoot, prevSideHash, prevMainHash⟩, Body.new [] coinbase, 0)

namespace Node

/-- Assemble a block to blind merge mine. The transactions are those of the mempool
with their fees, and the address is the one that receives them. -/
def buildBlockTemplate (node : Node) (prevMainHash : MainBlockHash)
    (transactions : List (Authorized FilledTransaction) × Amount) (receiveAddress : Address)
    (fee : Option Amount) : TemplateResult BlockTemplate := do
  let prevSideHash ← mapFailure .archive (node.archive.templateParent node.state.tip prevMainHash)
  let (bribe, header, body, fees) ←
    (if prevSideHash = node.state.tip then
      fullTemplate prevSideHash prevMainHash transactions receiveAddress fee
    else emptyTemplate prevSideHash prevMainHash)
  let height ← mapFailure .archive (node.archive.templateHeight prevSideHash)
  .ok ⟨bribe, header, height, body, fees⟩

/-- A template builds on the block to mine on. -/
theorem buildBlockTemplate_ok {node : Node} {prevMainHash : MainBlockHash}
    {transactions : List (Authorized FilledTransaction) × Amount} {receiveAddress : Address}
    {fee : Option Amount} {template : BlockTemplate}
    (h : node.buildBlockTemplate prevMainHash transactions receiveAddress fee = .ok template) :
    node.archive.templateParent node.state.tip prevMainHash = .ok template.header.prevSideHash ∧
      template.header.prevMainHash = prevMainHash := by
  obtain ⟨prevSideHash, hparent, h⟩ := bind_eq_ok.mp h
  rw [mapFailure_eq_ok] at hparent
  obtain ⟨⟨bribe, header, body, fees⟩, hheader, h⟩ := bind_eq_ok.mp h
  obtain ⟨height, -, h⟩ := bind_eq_ok.mp h
  cases h
  have hboth : header.prevSideHash = prevSideHash ∧ header.prevMainHash = prevMainHash := by
    split at hheader
    all_goals
      obtain ⟨merkleRoot, -, hheader⟩ := bind_eq_ok.mp hheader
      cases hheader
      exact ⟨rfl, rfl⟩
  exact ⟨hboth.1 ▸ hparent, hboth.2⟩

end Node

end PlainBitnames
