import PlainBitnames.Lib.MerkleQueue
import PlainBitnames.Properties.MerklePaths

/-!
Building the trees of transactions and of coinbase outputs. With the indices the
leaves are given, `merge` is called on neighbours only, the left one at an odd
index, so neither its assertion nor the subtraction in the index of the parent
fails; the root stands at index 0 and holds the totals over all leaves.
-/

namespace PlainBitnames

open Borsh Fallible MerkleTree

section

variable [Primitives]

/-- The totals over a row of nodes. -/
def HasTotals (amount size : Nat) (row : List CbmtNode) : Prop :=
  amountSum (row.map CbmtNode.totals) = amount ∧ sizeSum (row.map CbmtNode.totals) = size

theorem HasTotals.perm {amount size : Nat} {row row' : List CbmtNode} (hperm : row.Perm row')
    (h : HasTotals amount size row) : HasTotals amount size row' := by
  have hmap := hperm.map CbmtNode.totals
  refine ⟨?_, ?_⟩
  · rw [← h.1]
    exact ((hmap.map _).sum_eq).symm
  · rw [← h.2]
    exact ((hmap.map _).sum_eq).symm

theorem hasTotals_cons {amount size : Nat} {node : CbmtNode} {row : List CbmtNode} :
    HasTotals amount size (node :: row) ↔
      node.amount.toNat + amountSum (row.map CbmtNode.totals) = amount ∧
        node.canonicalSize.toNat + sizeSum (row.map CbmtNode.totals) = size := by
  unfold HasTotals amountSum sizeSum
  rw [List.map_cons, List.map_cons, List.map_cons, List.sum_cons, List.sum_cons]
  rfl

variable {E : Type}

/-- A merge that makes the parent of neighbours keeps the totals of a row. -/
theorem joins_of_parent {merge : CbmtNode → CbmtNode → Except (Failure E) CbmtNode}
    (hmerge : ∀ lnode rnode : CbmtNode, lnode.index + 1 = rnode.index →
      merge lnode rnode = lnode.parent rnode ((lnode.index - 1) / 2))
    {amount size : Nat} (hamount : amount < 2 ^ 64) (hsize : size < 2 ^ 64) :
    Joins merge CbmtNode.index (HasTotals amount size) where
  perm := HasTotals.perm
  join := by
    intro lnode rnode rest _ hnext h
    obtain ⟨ha, hs⟩ := hasTotals_cons.mp h
    obtain ⟨hra, hrs⟩ := hasTotals_cons.mp (⟨rfl, rfl⟩ : HasTotals _ _ (rnode :: rest))
    have hamount' : (lnode.amount + rnode.amount).toNat =
        lnode.amount.toNat + rnode.amount.toNat := by
      rw [UInt64.toNat_add, Nat.mod_eq_of_lt (by omega)]
    have hsize' : (lnode.canonicalSize + rnode.canonicalSize).toNat =
        lnode.canonicalSize.toNat + rnode.canonicalSize.toNat := by
      rw [UInt64.toNat_add, Nat.mod_eq_of_lt (by omega)]
    refine ⟨⟨hash (lnode.commitment, lnode.amount + rnode.amount,
      lnode.canonicalSize + rnode.canonicalSize, rnode.commitment), lnode.amount + rnode.amount,
      lnode.canonicalSize + rnode.canonicalSize, (lnode.index - 1) / 2⟩, ?_, rfl, ?_⟩
    · rw [hmerge lnode rnode hnext.symm, CbmtNode.parent, addOrPanic_eq_ok.mpr hamount'.symm, ok_bind,
        addOrPanic_eq_ok.mpr hsize'.symm, ok_bind]
    · refine hasTotals_cons.mpr ⟨?_, ?_⟩
      · change (lnode.amount + rnode.amount).toNat + _ = amount
        omega
      · change (lnode.canonicalSize + rnode.canonicalSize).toNat + _ = size
        omega

theorem mergeFeeSizeTotal_parent (lnode rnode : CbmtNode) (h : lnode.index + 1 = rnode.index) :
    (mergeFeeSizeTotal lnode rnode : Except (Failure E) CbmtNode) =
      lnode.parent rnode ((lnode.index - 1) / 2) := by
  rw [mergeFeeSizeTotal, ensure_of h]
  cases (lnode.parent rnode ((lnode.index - 1) / 2) : Except (Failure E) CbmtNode) <;> rfl

theorem mergeValueSizeTotal_parent (lnode rnode : CbmtNode) (h : lnode.index + 1 = rnode.index) :
    (mergeValueSizeTotal lnode rnode : Except (Failure E) CbmtNode) =
      lnode.parent rnode ((lnode.index - 1) / 2) := by
  rw [mergeValueSizeTotal, ensure_of h, ok_bind]

/-- Building the tree over the leaves calls `merge` on neighbours only, ends at
index 0 and totals the leaves, and gives the root of the complete tree. -/
def MergesUp (merge : CbmtNode → CbmtNode → Except (Failure E) CbmtNode)
    (leaves : List CbmtNode) : Prop :=
  ∃ root calls, (queueRoot (logged merge) .default leaves).run [] = .ok (root, calls) ∧
    queueRoot merge .default leaves = .ok root ∧ completeRoot merge .default leaves = .ok root ∧
    (∀ call ∈ calls, call.1.index % 2 = 1 ∧ call.2.index = call.1.index + 1) ∧ root.index = 0 ∧
    root.amount.toNat = amountSum (leaves.map CbmtNode.totals) ∧
    root.canonicalSize.toNat = sizeSum (leaves.map CbmtNode.totals)

theorem mergesUp_of_indexed {merge : CbmtNode → CbmtNode → Except (Failure E) CbmtNode}
    (hmerge : ∀ lnode rnode : CbmtNode, lnode.index + 1 = rnode.index →
      merge lnode rnode = lnode.parent rnode ((lnode.index - 1) / 2)) {leaves : List CbmtNode}
    (hindex : leaves.map CbmtNode.index = List.range' (leaves.length - 1) leaves.length)
    (hamount : amountSum (leaves.map CbmtNode.totals) < 2 ^ 64)
    (hsize : sizeSum (leaves.map CbmtNode.totals) < 2 ^ 64) : MergesUp merge leaves := by
  by_cases hne : leaves = []
  · subst hne
    exact ⟨.default, [], rfl, rfl, rfl, nofun, rfl, rfl, rfl⟩
  · obtain ⟨root, calls, hrun, hroot, hcomplete, hcalls, hzero, htotals⟩ :=
      (joins_of_parent hmerge hamount hsize).queueRoot .default hne hindex ⟨rfl, rfl⟩
    obtain ⟨hrootAmount, hrootSize⟩ := hasTotals_cons.mp htotals
    exact ⟨root, calls, hrun, hroot, hcomplete, hcalls, hzero, hrootAmount, hrootSize⟩

/-- An indexed loop gives its results consecutive indices. -/
theorem map_index_of_mapM {α : Type} {f : α × Nat → Except (Failure E) CbmtNode} {l : List α}
    {leaves : List CbmtNode}
    (hf : ∀ a i node, f (a, i) = .ok node → node.index = i + l.length - 1)
    (h : l.zipIdx.mapM f = .ok leaves) :
    leaves.map CbmtNode.index = List.range' (leaves.length - 1) leaves.length := by
  have hall := mapM_eq_ok.mp h
  have hlength : leaves.length = l.length := by
    have hlen := hall.length_eq
    rwa [List.length_zipIdx, eq_comm] at hlen
  refine List.ext_getElem (by simp) fun i hi _ => ?_
  rw [List.length_map] at hi
  obtain ⟨a, ha⟩ : ∃ a, l[i]? = some a := ⟨_, List.getElem?_eq_getElem (hlength ▸ hi)⟩
  have hzip : ((a, i), leaves[i]) ∈ l.zipIdx.zip leaves := by
    refine List.mem_of_getElem? (i := i) ?_
    rw [List.getElem?_zip_eq_some, List.getElem?_zipIdx, ha]
    exact ⟨by simp, List.getElem?_eq_getElem hi⟩
  have hindex := hf a i leaves[i] ((List.forall₂_iff_zip.mp hall).2 hzip)
  rw [List.getElem_map, List.getElem_range', hindex]
  omega

theorem transactionLeaf_index {nTxs index : Nat} {tx : FilledTransaction} {node : CbmtNode}
    (h : Body.transactionLeaf nTxs tx index = .ok node) : node.index = index + nTxs - 1 := by
  obtain ⟨fee, _, h⟩ := bind_eq_ok.mp h
  obtain ⟨_, h⟩ := ensure_bind_eq_ok.mp h
  cases h
  rfl

theorem outputLeaf_index {nOutputs index : Nat} {output : Output} {node : CbmtNode}
    (h : (Coinbase.outputLeaf nOutputs output index : Except (Failure E) CbmtNode) = .ok node) :
    node.index = index + nOutputs - 1 := by
  obtain ⟨_, h⟩ := ensure_bind_eq_ok.mp h
  cases h
  rfl

/-- Building the tree over the transactions of a body and the tree over the outputs
of a coinbase merges neighbours up to index 0 and totals the leaves. -/
theorem treeMerging_total :
    (∀ (txs : List FilledTransaction) (leaves : List CbmtNode),
      txs.zipIdx.mapM (fun (tx, index) => Body.transactionLeaf txs.length tx index) = .ok leaves →
      amountSum (leaves.map CbmtNode.totals) < 2 ^ 64 →
      sizeSum (leaves.map CbmtNode.totals) < 2 ^ 64 →
        MergesUp (E := ComputeMerkleRootError) mergeFeeSizeTotal leaves) ∧
    (∀ (E : Type) (coinbase : Coinbase) (leaves : List CbmtNode),
      (coinbase.outputs.zipIdx.mapM fun (output, index) =>
        Coinbase.outputLeaf coinbase.outputs.length output index :
          Except (Failure E) (List CbmtNode)) = .ok leaves →
      amountSum (leaves.map CbmtNode.totals) < 2 ^ 64 →
      sizeSum (leaves.map CbmtNode.totals) < 2 ^ 64 →
        MergesUp (E := E) mergeValueSizeTotal leaves) := by
  refine ⟨?_, ?_⟩
  · intro txs leaves hleaves hamount hsize
    exact mergesUp_of_indexed mergeFeeSizeTotal_parent
      (map_index_of_mapM (fun _ _ _ => transactionLeaf_index) hleaves) hamount hsize
  · intro E coinbase leaves hleaves hamount hsize
    exact mergesUp_of_indexed mergeValueSizeTotal_parent
      (map_index_of_mapM (fun _ _ _ => outputLeaf_index) hleaves) hamount hsize

end

namespace Instance

def threeOutputs : Coinbase := ⟨[], [⟨7, .bitcoin 1, []⟩, ⟨7, .bitcoin 2, []⟩, ⟨8, .bitcoin 3, []⟩]⟩

def threeTxs : List FilledTransaction := List.replicate 3 ⟨mint, []⟩

theorem treeMerging_three :
    (∃ leaves, threeTxs.zipIdx.mapM
        (fun (tx, index) => Body.transactionLeaf threeTxs.length tx index) = .ok leaves ∧
      amountSum (leaves.map CbmtNode.totals) < 2 ^ 64 ∧
      sizeSum (leaves.map CbmtNode.totals) < 2 ^ 64 ∧
      MergesUp (E := ComputeMerkleRootError) mergeFeeSizeTotal leaves) ∧
    (∃ leaves, (threeOutputs.outputs.zipIdx.mapM fun (output, index) =>
        Coinbase.outputLeaf threeOutputs.outputs.length output index :
          Except (Failure Empty) (List CbmtNode)) = .ok leaves ∧
      amountSum (leaves.map CbmtNode.totals) < 2 ^ 64 ∧
      sizeSum (leaves.map CbmtNode.totals) < 2 ^ 64 ∧
      MergesUp (E := Empty) mergeValueSizeTotal leaves) := by
  refine ⟨⟨_, rfl, by decide +kernel, by decide +kernel, ?_⟩,
    ⟨_, rfl, by decide +kernel, by decide +kernel, ?_⟩⟩
  · exact treeMerging_total.1 threeTxs _ rfl (by decide +kernel) (by decide +kernel)
  · exact treeMerging_total.2 Empty threeOutputs _ rfl (by decide +kernel) (by decide +kernel)

end Instance

end PlainBitnames
