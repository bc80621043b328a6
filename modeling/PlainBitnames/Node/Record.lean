import PlainBitnames.Node.Reorg

/-!
The loop of a reorg that connects blocks, with a record of the bodies that blocks are
connected with. The record is committed together with the node. One rule says what
holds of both in the end.
-/

namespace PlainBitnames

open Fallible

variable [Primitives]

namespace Node

/-- The bodies that blocks are connected with while blocks are applied: first those of
the node last committed, then those of the node that blocks are connected to. -/
def recordBlocks (ctxt : BatchVerificationContext) (tip : Option Tip) :
    List (Header × Body × List (MainBlockHash × MainBlockInfo)) → Node →
      Db BlockHash Body × Db BlockHash Body → Db BlockHash Body × Db BlockHash Body
  | [], _, records => records
  | (header, body, infos) :: blocks, node, (committed, connected) =>
    match node.connectTip ctxt header body (.ofInfos infos) with
    | .error _ => (committed, connected)
    | .ok node =>
      let connected := connected.insert header.hash body
      match node.reachedBetter tip with
      | .error _ => (committed, connected)
      | .ok false => recordBlocks ctxt tip blocks node (committed, connected)
      | .ok true => recordBlocks ctxt tip blocks node (connected, connected)

/-- The bodies that blocks are connected with after a reorg. -/
def recordReorg (ctxt : BatchVerificationContext) (node : Node) (newTip : Tip)
    (connected : Db BlockHash Body) : Db BlockHash Body :=
  match node.prepareReorg newTip with
  | .error _ | .ok none => connected
  | .ok (some reorg) =>
    let records := recordBlocks ctxt reorg.tip reorg.blocks reorg.node (connected, connected)
    match applyBlocks ctxt reorg.tip reorg.blocks node reorg.node with
    | (_, .error _) => records.1
    | (_, .ok node) => if node.state.tip = some newTip.blockHash then records.2 else records.1

variable {node : Node} {blocks : List (Header × Body × List (MainBlockHash × MainBlockInfo))}

theorem applyBlocks_cons {ctxt : BatchVerificationContext} {tip : Option Tip} {header : Header}
    {body : Body} {infos : List (MainBlockHash × MainBlockInfo)} {committed : Node} :
    applyBlocks ctxt tip ((header, body, infos) :: blocks) committed node =
      match node.connectTip ctxt header body (.ofInfos infos) with
      | .error err =>
        ((committed.abortReorg header.hash body err).1, .error (committed.abortReorg header.hash body err).2)
      | .ok next => match next.reachedBetter tip with
        | .error err => (committed, .error err)
        | .ok false => applyBlocks ctxt tip blocks committed next
        | .ok true => applyBlocks ctxt tip blocks next next := Eq.refl _

theorem recordBlocks_cons {ctxt : BatchVerificationContext} {tip : Option Tip} {header : Header}
    {body : Body} {infos : List (MainBlockHash × MainBlockInfo)}
    {committed connected : Db BlockHash Body} :
    recordBlocks ctxt tip ((header, body, infos) :: blocks) node (committed, connected) =
      match node.connectTip ctxt header body (.ofInfos infos) with
      | .error _ => (committed, connected)
      | .ok next => match next.reachedBetter tip with
        | .error _ => (committed, connected.insert header.hash body)
        | .ok false =>
          recordBlocks ctxt tip blocks next (committed, connected.insert header.hash body)
        | .ok true => recordBlocks ctxt tip blocks next
            (connected.insert header.hash body, connected.insert header.hash body) := Eq.refl _

/-- A rule for applying blocks. What holds of the blocks that are left, the node last
committed and the one that blocks are connected to, each with its record, must be kept
by connecting a block, also if the result is committed, and must tell what is committed
when a block fails. -/
theorem recordBlocks_rule (ctxt : BatchVerificationContext) (tip : Option Tip)
    {P : List (Header × Body × List (MainBlockHash × MainBlockInfo)) →
      Node × Db BlockHash Body → Node × Db BlockHash Body → Prop}
    {Q : Node × Db BlockHash Body → Prop}
    (hstop : ∀ blocks committed pending, P blocks committed pending → Q committed)
    (habort : ∀ block blocks committed pending err, P (block :: blocks) committed pending →
      Q ((committed.1.abortReorg block.1.hash block.2.1 err).1, committed.2))
    (hconnect : ∀ block blocks committed pending next, P (block :: blocks) committed pending →
      pending.1.connectTip ctxt block.1 block.2.1 (.ofInfos block.2.2) = .ok next →
      P blocks committed (next, pending.2.insert block.1.hash block.2.1) ∧
        (next.reachedBetter tip = .ok true →
          P blocks (next, pending.2.insert block.1.hash block.2.1)
            (next, pending.2.insert block.1.hash block.2.1))) {committed : Node}
    (record connected : Db BlockHash Body) (h : P blocks (committed, record) (node, connected)) :
    let result := applyBlocks ctxt tip blocks committed node
    let records := recordBlocks ctxt tip blocks node (record, connected)
    Q (result.1, records.1) ∧
      ∀ node', result.2 = .ok node' → P [] (result.1, records.1) (node', records.2) := by
  induction blocks generalizing committed node record connected with
  | nil => exact ⟨hstop _ _ _ h, fun node' hnode => Except.ok.inj hnode ▸ h⟩
  | cons block blocks ih =>
    obtain ⟨header, body, infos⟩ := block
    rw [applyBlocks_cons, recordBlocks_cons]
    cases hresult : node.connectTip ctxt header body (.ofInfos infos) with
    | error err => exact ⟨habort _ _ _ _ err h, nofun⟩
    | ok next =>
      obtain ⟨hnext, hbetter⟩ := hconnect _ _ _ _ _ h hresult
      dsimp only
      cases hreached : next.reachedBetter tip with
      | error err => exact ⟨hstop _ _ _ h, nofun⟩
      | ok better =>
        cases better with
        | false => exact ih _ _ hnext
        | true => exact ih _ _ (hbetter hreached)

/-- The rule without the record. -/
theorem applyBlocks_rule (ctxt : BatchVerificationContext) (tip : Option Tip)
    {P : List (Header × Body × List (MainBlockHash × MainBlockInfo)) → Node → Node → Prop}
    {Q : Node → Prop} (hstop : ∀ blocks committed node, P blocks committed node → Q committed)
    (habort : ∀ block blocks committed node err, P (block :: blocks) committed node →
      Q (committed.abortReorg block.1.hash block.2.1 err).1)
    (hconnect : ∀ block blocks committed node next, P (block :: blocks) committed node →
      node.connectTip ctxt block.1 block.2.1 (.ofInfos block.2.2) = .ok next →
      P blocks committed next ∧ (next.reachedBetter tip = .ok true → P blocks next next))
    {committed : Node} (h : P blocks committed node) :
    Q (applyBlocks ctxt tip blocks committed node).1 ∧
      ∀ node', (applyBlocks ctxt tip blocks committed node).2 = .ok node' →
        P [] (applyBlocks ctxt tip blocks committed node).1 node' :=
  recordBlocks_rule ctxt tip (P := fun blocks committed pending => P blocks committed.1 pending.1)
    (Q := fun committed => Q committed.1) (fun blocks _ _ h => hstop blocks _ _ h)
    (fun block blocks _ _ err h => habort block blocks _ _ err h)
    (fun block blocks _ _ next h hnext => hconnect block blocks _ _ next h hnext)
    ∅ ∅ h

end Node

end PlainBitnames
