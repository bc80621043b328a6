import PlainBitnames.Node.Active
import PlainBitnames.Archive.Iter
import PlainBitnames.Properties.PoolConflicts

/-!
The block of the current chain at a height, and the coin movements of a block. A height
leads to a block only through the tip: the ancestors of the tip are counted.
-/

namespace PlainBitnames

open Fallible Lineage

section

variable [Primitives]

/-- The errors of reading the movements of a block. -/
inductive IndexError where
  | node (err : NodeError)
  | notInCurrentChain (blockHash : BlockHash)

namespace Node

/-- The ancestor of the tip at a height: `ancestors(tip).nth(tip_height - height)`. -/
def tryGetBlockHash (node : Node) (height : Nat) : NodeResult (Option BlockHash) :=
  match node.state.tip, node.state.height with
  | some tip, some tipHeight =>
    if height ≤ tipHeight then do
      let ancestors ← mapFailure .archive
        (Batches.takeFrom node.archive.ancestorHeaders (tipHeight - height + 1) (some tip))
      .ok (ancestors[tipHeight - height]?.map Prod.fst)
    else .ok none
  | _, _ => .ok none

/-- The movements are stored by height, so a block off the current chain is refused. -/
def getBlockIndexEvents (node : Node) (blockHash : BlockHash) :
    Except (Failure IndexError) BlockIndexEvents := do
  let height ← mapFailure (IndexError.node ∘ .archive) (node.archive.getHeight blockHash)
  let found ← mapFailure .node (node.tryGetBlockHash height)
  ensure (found = some blockHash) (.error (.notInCurrentChain blockHash))
  .ok (node.state.blockIndexEvents[height]?.getD .empty)

/-- The block of the current chain at a height, and none above the tip. -/
def IsBlockAt (node : Node) (height : Nat) (found : Option BlockHash) : Prop :=
  (found = none ↔ ∀ top, node.state.height = some top → top < height) ∧
    ∀ b, found = some b ↔ node.Active b ∧ node.archive.blockHashToHeight[b]? = some height

variable {node : Node}

theorem Anchored.tryGetBlockHash (hcf : CollisionFree) (hside : node.archive.SideStored)
    (h : node.Anchored) (height : Nat) :
    ∃ found, node.tryGetBlockHash height = .ok found ∧ node.IsBlockAt height found := by
  unfold Node.tryGetBlockHash IsBlockAt Active
  cases htip : node.state.tip with
  | none =>
    rw [h.measured.none htip]
    exact ⟨none, rfl, iff_of_true rfl nofun,
      fun b => iff_of_false nofun fun hb => not_upTo_none b hb.1⟩
  | some tip =>
    obtain ⟨k, hk⟩ := hside.height.mpr (h.mem tip htip)
    obtain ⟨top, htop, hheightOf⟩ := h.measured.tip htip
    cases (hside.heightOf hk).unique hcf hheightOf
    have hr := hside.describes.rooted
    obtain ⟨items, hlength, htake, hget⟩ := Batches.exists_items hr hside.steps hk
    simp only [htop, upTo_some, Option.some.injEq, forall_eq']
    split
    case isTrue hle =>
      rw [htake 0 tip rfl, List.drop_zero]
      refine ⟨_, rfl, ?_, fun b => ?_⟩
      · rw [Option.map_eq_none_iff, List.getElem?_take_of_lt (Nat.lt_succ_self _),
          List.getElem?_eq_none_iff]
        omega
      rw [List.getElem?_take_of_lt (Nat.lt_succ_self _), Option.map_eq_some_iff]
      constructor
      · rintro ⟨item, hitem, rfl⟩
        have hancestor := ((hget _ _).mp hitem).1
        refine ⟨⟨_, hancestor⟩, ?_⟩
        exact (hr.height_ancestor hk hancestor).2.trans (by rw [Nat.sub_sub_self hle])
      · rintro ⟨hb, hheight⟩
        obtain ⟨item, hitem, rfl⟩ := hside.steps hheight
        exact ⟨item, (hget _ item).mpr ⟨((hr.descends_iff hheight hk).mp hb).2, hitem⟩, rfl⟩
    case isFalse hnot =>
      refine ⟨none, rfl, iff_of_true rfl (Nat.not_le.mp hnot), fun b => iff_of_false nofun ?_⟩
      rintro ⟨hb, hheight⟩
      exact hnot ((hr.descends_iff hheight hk).mp hb).1

end Node

/-- In every node that operations reach, every height up to that of the tip leads to the one
block of the current chain there, and movements are read exactly for the blocks of the
current chain. -/
theorem block_at_height (hcf : CollisionFree) {m : Mainchain} {Allowed : Node → NodeOp → Prop}
    {node : Node} (h : node.Reaches m Allowed) :
    (∀ height, ∃ found, node.tryGetBlockHash height = .ok found ∧
      node.IsBlockAt height found) ∧
      ∀ b events, node.getBlockIndexEvents b = .ok events ↔
        node.Active b ∧ ∃ height, node.archive.blockHashToHeight[b]? = some height ∧
          events = node.state.blockIndexEvents[height]?.getD .empty := by
  have hfound := (h.anchored hcf).tryGetBlockHash hcf (h.stored hcf).side
  refine ⟨hfound, fun b events => ?_⟩
  constructor
  · intro hevents
    obtain ⟨height, hheight, hevents⟩ := bind_eq_ok.mp hevents
    obtain ⟨found, hget, hevents⟩ := bind_eq_ok.mp hevents
    obtain ⟨hsome, hevents⟩ := ensure_bind_eq_ok.mp hevents
    rw [mapFailure_eq_ok] at hheight hget
    obtain ⟨_, hok, -, hiff⟩ := hfound height
    cases hok.symm.trans hget
    exact ⟨((hiff b).mp hsome).1, height, okOr_eq_ok.mp hheight, (Except.ok.inj hevents).symm⟩
  · rintro ⟨hb, height, hheight, rfl⟩
    obtain ⟨found, hok, -, hiff⟩ := hfound height
    exact bind_eq_ok.mpr ⟨height, mapFailure_eq_ok.mpr (okOr_eq_ok.mpr hheight),
      bind_eq_ok.mpr ⟨found, mapFailure_eq_ok.mpr hok,
        ensure_bind_eq_ok.mpr ⟨(hiff b).mpr ⟨hb, hheight⟩, rfl⟩⟩⟩

end

namespace Instance

theorem block_at_height_mint :
    mintNode.tryGetBlockHash 0 = .ok (some mintHeader.hash) ∧ mintNode.Active mintHeader.hash := by
  have hfound : mintNode.tryGetBlockHash 0 = .ok (some mintHeader.hash) := by decide +kernel
  obtain ⟨found, hok, -, hiff⟩ := (block_at_height collisionFree mintNode_reaches).1 0
  cases hok.symm.trans hfound
  exact ⟨hfound, ((hiff _).mp rfl).1⟩

end Instance

end PlainBitnames
