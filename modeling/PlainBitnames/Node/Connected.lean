import PlainBitnames.Node.Prepared
import PlainBitnames.State.EventLog

/-!
States that blocks were connected to one after the other, each with its mainchain
blocks. The blocks are exactly those up to the tip of the state.
-/

namespace PlainBitnames

open Fallible Lineage

variable [Primitives]

/-- A state to which blocks were connected one after the other. `Undoes` relates the
state after each block to the one before it. -/
inductive State.Connected (Undoes : State → State → Prop) :
    State → List (Header × Body × List (MainBlockHash × MainBlockInfo)) → Prop
  | empty : Connected Undoes .empty []
  | connect {state applied state' : State} {ctxt : BatchVerificationContext} {header : Header}
      {body : Body} {infos : List (MainBlockHash × MainBlockInfo)}
      {blocks : List (Header × Body × List (MainBlockHash × MainBlockInfo))}
      (h : Connected Undoes state blocks)
      (happly : state.applyBlock ctxt header body = .ok applied)
      (hconnect : applied.connectTwoWayPegData (.ofInfos infos) = .ok state')
      (hundoes : Undoes state' state) :
      Connected Undoes state' (blocks ++ [(header, body, infos)])

/-- A state after which disconnecting the tip, if it succeeds, gives another one. -/
def Archive.DisconnectsTo (a : Archive) (state' state : State) : Prop :=
  ∀ node, (Node.mk a state').disconnectTip = .ok node → node.state = state

namespace State

variable {Undoes : State → State → Prop} {state : State}
  {blocks : List (Header × Body × List (MainBlockHash × MainBlockInfo))}

theorem Connected.mono {Undoes' : State → State → Prop} (h : Connected Undoes state blocks)
    (himp : ∀ state' state, Undoes state' state → Undoes' state' state) :
    Connected Undoes' state blocks := by
  induction h with
  | empty => exact .empty
  | connect _ happly hconnect hundoes ih => exact .connect ih happly hconnect (himp _ _ hundoes)

/-- The tip of a block that was connected, and the one before it. -/
theorem connect_tip {applied state' : State} {ctxt : BatchVerificationContext} {header : Header}
    {body : Body} {data : TwoWayPegData} (happly : state.applyBlock ctxt header body = .ok applied)
    (hconnect : applied.connectTwoWayPegData data = .ok state') :
    state'.tip = some header.hash ∧ header.prevSideHash = state.tip := by
  obtain ⟨p, coinbase, dbs, hp, -, -, -, rfl⟩ := applyBlock_ok happly
  exact ⟨connectTwoWayPegData_tip hconnect, hp.prev_eq⟩

/-- The blocks that were connected are those up to the tip. -/
theorem Connected.mem_iff (hcf : CollisionFree) {a : Archive} (hstored : a.SideStored)
    (h : Connected Undoes state blocks) (htip : ∀ tip, state.tip = some tip → tip ∈ a.headers)
    (b : BlockHash) :
    b ∈ blocks.map (fun block => block.1.hash) ↔ UpTo a.sideParent state.tip b := by
  induction h with
  | empty => exact ⟨nofun, fun hup => absurd hup (not_upTo_none b)⟩
  | @connect state applied state' ctxt header body infos blocks h happly hconnect _ ih =>
    obtain ⟨htip', hprev⟩ := connect_tip happly hconnect
    have hheader : a.headers[header.hash]? = some header := by
      obtain ⟨stored, hget⟩ := (Db.mem_iff _ _).mp (htip _ htip')
      rw [hget, hstored.header_again hcf hget]
    have hparent : a.sideParent header.hash = state.tip :=
      (Archive.SideStored.sideParent_eq hheader).trans hprev
    have hmem : ∀ tip, state.tip = some tip → tip ∈ a.headers := fun tip htip =>
      hstored.parent_mem hheader (hprev.trans htip)
    rw [List.map_append, List.mem_append, ih hmem, htip', upTo_some, descends_iff_upTo_parent,
      hparent, List.map_singleton, List.mem_singleton, or_comm]

end State

namespace Node

open State

variable {a : Archive} {node node' : Node}
  {blocks : List (Header × Body × List (MainBlockHash × MainBlockInfo))}

/-- Blocks without their mainchain blocks. -/
def bare (blocks : List (Header × Body × List (MainBlockHash × MainBlockInfo))) :
    List (Header × Body) :=
  blocks.map fun block => (block.1, block.2.1)

theorem connectTip_tip {ctxt : BatchVerificationContext} {header : Header} {body : Body}
    {data : TwoWayPegData} (h : node.connectTip ctxt header body data = .ok node') :
    node'.state.tip = some header.hash := by
  obtain ⟨applied, _, happly, hstate, -, -⟩ := connectTip_ok h
  exact (connect_tip happly hstate).1

theorem connected_connectTip {Undoes : State → State → Prop} {ctxt : BatchVerificationContext}
    {header : Header} {body : Body} {infos : List (MainBlockHash × MainBlockInfo)}
    (h : Connected Undoes node.state blocks)
    (hconnect : node.connectTip ctxt header body (.ofInfos infos) = .ok node')
    (hundoes : Undoes node'.state node.state) :
    Connected Undoes node'.state (blocks ++ [(header, body, infos)]) := by
  obtain ⟨applied, _, happly, hstate, -, -⟩ := connectTip_ok hconnect
  exact .connect h happly hstate hundoes

theorem disconnectTip_tip (h : node.disconnectTip = .ok node') : ∃ tip, node.state.tip = some tip := by
  obtain ⟨tip, htip, -⟩ := bind_eq_ok.mp h
  exact ⟨tip, okOr_eq_ok.mp htip⟩

/-- Disconnecting tips that disconnect to the state before them leaves the first of
the blocks. -/
theorem connected_disconnectTips {n : Nat} (h : Connected node.archive.DisconnectsTo node.state blocks)
    (hdisconnect : node.disconnectTips n = .ok node') :
    ∃ kept undone, blocks = kept ++ undone ∧
      Connected node'.archive.DisconnectsTo node'.state kept := by
  induction n generalizing node blocks with
  | zero => exact Except.ok.inj hdisconnect ▸ ⟨blocks, [], (List.append_nil _).symm, h⟩
  | succ n ih =>
    obtain ⟨next, hnext, hrest⟩ := bind_eq_ok.mp hdisconnect
    obtain ⟨tip, htip⟩ := disconnectTip_tip hnext
    have harchive := disconnectTip_archive hnext
    obtain ⟨a, state⟩ := node
    cases h with
    | empty => cases htip
    | connect h happly hconnect hundoes =>
      have hstate := hundoes next hnext
      rw [← hstate, ← harchive] at h
      obtain ⟨kept, undone, rfl, hkept⟩ := ih h hrest
      exact ⟨kept, undone ++ [_], List.append_assoc _ _ _, hkept⟩

end Node

end PlainBitnames
