import PlainBitnames.Node.Ops
import PlainBitnames.Node.Prepared
import PlainBitnames.Properties.ForkChoice

/-!
Reorgs pass every mainchain block after the common ancestor to one block, in
order, except for two defects. When the new tip is in the chain of the state,
the blocks to apply start with the genesis block again. And when the first block
to apply builds on no mainchain block, it takes the whole batch.
-/

namespace PlainBitnames

open Fallible Lineage

section

variable [Primitives]

namespace Node

open MainBlockHash Archive

variable {m : Mainchain} {node : Node} {newTip : Tip} {reorg : Reorg} {common : Option BlockHash}
  {header : Header} {blocks : List (Header × Body)} {batch : List (MainBlockHash × MainBlockInfo)}

/-- The end of the common part of the chains is the common ancestor, unless that
is the new tip. -/
theorem Prepared.endsAt (h : SideStored node.archive)
    (hp : Prepared node newTip reorg common header blocks batch)
    (htip : ¬ UpTo node.archive.sideParent node.state.tip newTip.blockHash) :
    EndsAt node.archive common (node.archive.sideParent newTip.blockHash) common := by
  refine .inl ⟨rfl, fun s hs => ?_⟩
  obtain ⟨hup, hdescends⟩ := (hp.upTo_common h s).mp (hs ▸ upTo_some.mpr (.refl s))
  refine (descends_iff_upTo_parent.mp hdescends).resolve_left ?_
  rintro rfl
  exact htip hup

variable {mainHash : MainBlockHash}

end Node

end

namespace Instance

/-- A mainchain without forks, whose blocks are numbered from 1. -/
def lineMainchain (commitments : List (Option Header)) : Mainchain where
  header hash := ⟨hash, hash - 1, hash.toNat - 1, 1⟩
  info hash := ⟨⟨[]⟩, (commitments.getD hash.toNat none).map Header.hash⟩

/-- The mainchain task connects a block of a mainchain. -/
def connectMain (m : Mainchain) (n : Nat) : NodeOp :=
  .mainchainEvent (.connectBlock (m.header (BitVec.ofNat 256 n)) (m.info (BitVec.ofNat 256 n)))

def emptyBody : Body := ⟨⟨[], []⟩, [], []⟩

def storeEmpty (header : Header) : List NodeOp := [.header header, .body header.hash emptyBody]

def lineMain : Mainchain := lineMainchain [none, none, some headerG, some headerB1]

def lineOps : List NodeOp :=
  [connectMain lineMain 1, connectMain lineMain 2, connectMain lineMain 3] ++ storeEmpty headerG ++
    storeEmpty headerB1

def lineNode : Node := Node.new.run lineOps

def lineTip : Tip := ⟨headerB1.hash, 3⟩

end Instance

end PlainBitnames
