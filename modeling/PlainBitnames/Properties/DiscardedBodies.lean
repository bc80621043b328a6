import PlainBitnames.Node.Orderly
import PlainBitnames.Properties.ConnectedBodies
import PlainBitnames.Properties.PoolConflicts

/-!
The bodies that a reorg discards. A block that cannot be connected for a state error is taken
for invalid, and its body is discarded. A state error comes from the checks of the block, but
also from the two-way peg data that is connected after the block was applied.
-/

namespace PlainBitnames

open Borsh Fallible Lineage

section

variable [Primitives]

namespace Node

open Archive

/-- The loop of a reorg while it goes on: a number of blocks are connected to a node, and the
others are left. -/
inductive Advances (ctxt : BatchVerificationContext) (tip : Option Tip) :
    List (Header × Body × List (MainBlockHash × MainBlockInfo)) → Node →
      List (Header × Body × List (MainBlockHash × MainBlockInfo)) → Node → Prop
  | refl (blocks : List (Header × Body × List (MainBlockHash × MainBlockInfo))) (node : Node) :
      Advances ctxt tip blocks node blocks node
  | connect {block : Header × Body × List (MainBlockHash × MainBlockInfo)}
      {blocks left : List (Header × Body × List (MainBlockHash × MainBlockInfo))}
      {node next parent : Node} {better : Bool}
      (hconnect : node.connectTip ctxt block.1 block.2.1 (.ofInfos block.2.2) = .ok next)
      (hreached : next.reachedBetter tip = .ok better)
      (hleft : Advances ctxt tip blocks next left parent) :
      Advances ctxt tip (block :: blocks) node left parent

variable {m : Mainchain} {ctxt : BatchVerificationContext} {tip : Option Tip}
  {node parent committed : Node} {block : Header × Body × List (MainBlockHash × MainBlockInfo)}
  {blocks left : List (Header × Body × List (MainBlockHash × MainBlockInfo))} {newTip : Tip}

section Failing

end Failing

section Advancing

variable {err : Failure NodeError}

/-- A reorg stops at one block at most. -/
theorem Advances.unique {block' : Header × Body × List (MainBlockHash × MainBlockInfo)}
    {left' : List (Header × Body × List (MainBlockHash × MainBlockInfo))} {parent' : Node}
    {err' : Failure NodeError} (h : Advances ctxt tip blocks node (block :: left) parent)
    (herr : parent.connectTip ctxt block.1 block.2.1 (.ofInfos block.2.2) = .error err)
    (h' : Advances ctxt tip blocks node (block' :: left') parent')
    (herr' : parent'.connectTip ctxt block'.1 block'.2.1 (.ofInfos block'.2.2) = .error err') :
    block = block' ∧ parent = parent' := by
  generalize hall : block :: left = all at h
  induction h with
  | refl =>
    subst hall
    cases h' with
    | refl => exact ⟨rfl, rfl⟩
    | connect hconnect => cases herr.symm.trans hconnect
  | connect hconnect hreached _ ih =>
    cases h' with
    | refl => cases herr'.symm.trans hconnect
    | connect hconnect' _ hleft' =>
      cases hconnect.symm.trans hconnect'
      exact ih herr hleft' hall

theorem Advances.linked (h : Advances ctxt tip blocks node left parent)
    (hlinked : Linked node.state.tip (bare blocks)) : Linked parent.state.tip (bare left) := by
  induction h with
  | refl => exact hlinked
  | connect hconnect _ _ ih => exact ih (connectTip_tip hconnect ▸ hlinked.2)

theorem Advances.subset (h : Advances ctxt tip blocks node left parent) : left ⊆ blocks := by
  induction h with
  | refl => exact List.Subset.refl _
  | connect _ _ _ ih => exact List.subset_cons_of_subset _ ih

end Advancing

end Node

end

namespace Instance

end Instance

end PlainBitnames
