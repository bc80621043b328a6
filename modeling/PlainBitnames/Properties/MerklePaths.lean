import PlainBitnames.Lib.MerkleCompare
import PlainBitnames.Properties.MerkleRoot

/-!
The two paths to the root of the transactions. The levelized path, which is
taken from a thousand transactions on, gives the totals of the complete tree
over a power of two many leaves. Over any other number of leaves it counts the
last leaf more than once, so that already the sizes differ.
-/

namespace PlainBitnames

open Borsh Fallible MerkleTree

section

variable [Primitives]

/-- The leaves have the indices that `compute_merkle_root` gives them. -/
def Indexed (leaves : List CbmtNode) : Prop :=
  ∀ k < leaves.length, (leaves.getD k .default).index = k + leaves.length - 1

/-- The levelized path returns a root with the totals of a given one. -/
def LevelizedAgrees (leaves : List CbmtNode) (root : CbmtNode) : Prop :=
  ∃ node, Body.computeMerkleRootLevelized leaves = .ok node ∧
    node.commitment = root.commitment ∧ node.amount = root.amount ∧
      node.canonicalSize = root.canonicalSize

def amountSum (leaves : List Totals) : Nat := (leaves.map fun leaf => leaf.2.1.toNat).sum

/-- The sum of the canonical sizes of some leaves. -/
def sizeSum (leaves : List Totals) : Nat := (leaves.map fun leaf => leaf.2.2.toNat).sum

@[simp] theorem amountSum_append (l l' : List Totals) :
    amountSum (l ++ l') = amountSum l + amountSum l' := by
  simp [amountSum]

@[simp] theorem sizeSum_append (l l' : List Totals) :
    sizeSum (l ++ l') = sizeSum l + sizeSum l' := by
  simp [sizeSum]

def InRange (s : Shape Totals) : Prop :=
  amountSum s.leaves < 2 ^ 64 ∧ sizeSum s.leaves < 2 ^ 64

theorem inRange_parts (s t : Shape Totals) (h : InRange (.node s t)) : InRange s ∧ InRange t := by
  obtain ⟨hamount, hsize⟩ := h
  rw [Shape.leaves, amountSum_append] at hamount
  rw [Shape.leaves, sizeSum_append] at hsize
  exact ⟨⟨by omega, by omega⟩, ⟨by omega, by omega⟩⟩

omit [Primitives] in
theorem addOrPanic_eq_ok {E : Type} {a b c : UInt64} :
    (addOrPanic a b : Except (Failure E) UInt64) = .ok c ↔ a.toNat + b.toNat = c.toNat := by
  rw [addOrPanic, okOr_eq_ok, Checked.add?_eq_some]

theorem eval_totals {E : Type} {s : Shape Totals} {v : Totals}
    (h : s.eval (mergeTotals : Totals → Totals → Except (Failure E) Totals) = .ok v) :
    v.2.1.toNat = amountSum s.leaves ∧ v.2.2.toNat = sizeSum s.leaves := by
  induction s generalizing v with
  | leaf a =>
    cases h
    simp [Shape.leaves, amountSum, sizeSum]
  | node left right ihl ihr =>
    obtain ⟨a, ha, h⟩ := bind_eq_ok.mp h
    obtain ⟨b, hb, h⟩ := bind_eq_ok.mp h
    obtain ⟨amount, hamount, h⟩ := bind_eq_ok.mp h
    obtain ⟨size, hsize, h⟩ := bind_eq_ok.mp h
    cases h
    obtain ⟨hla, hls⟩ := ihl ha
    obtain ⟨hra, hrs⟩ := ihr hb
    rw [Shape.leaves, amountSum_append, sizeSum_append, ← hla, ← hls, ← hra, ← hrs]
    exact ⟨(addOrPanic_eq_ok.mp hamount).symm, (addOrPanic_eq_ok.mp hsize).symm⟩

/-- Two nodes have a parent if the totals below it are in range. -/
theorem exists_parent {E : Type} {a b : CbmtNode} {s t : Shape Totals} (index : Nat)
    (hrange : InRange (.node s t))
    (ha : s.eval (mergeTotals : Totals → Totals → Except (Failure E) Totals) = .ok a.totals)
    (hb : t.eval (mergeTotals : Totals → Totals → Except (Failure E) Totals) = .ok b.totals) :
    ∃ c, (a.parent b index : Except (Failure E) CbmtNode) = .ok c ∧ c.index = index ∧
      (Shape.node s t).eval (mergeTotals : Totals → Totals → Except (Failure E) Totals) =
        .ok c.totals := by
  obtain ⟨hla, hls⟩ := eval_totals ha
  obtain ⟨hra, hrs⟩ := eval_totals hb
  obtain ⟨hamount, hsize⟩ := hrange
  rw [Shape.leaves, amountSum_append, ← hla, ← hra] at hamount
  rw [Shape.leaves, sizeSum_append, ← hls, ← hrs] at hsize
  have hadd : (addOrPanic a.amount b.amount : Except (Failure E) UInt64) =
      .ok (a.amount + b.amount) := by
    rw [addOrPanic_eq_ok, UInt64.toNat_add]
    exact (Nat.mod_eq_of_lt hamount).symm
  have hadd' : (addOrPanic a.canonicalSize b.canonicalSize : Except (Failure E) UInt64) =
      .ok (a.canonicalSize + b.canonicalSize) := by
    rw [addOrPanic_eq_ok, UInt64.toNat_add]
    exact (Nat.mod_eq_of_lt hsize).symm
  have hparent : (a.parent b index : Except (Failure E) CbmtNode) =
      .ok ⟨hash (a.commitment, a.amount + b.amount, a.canonicalSize + b.canonicalSize,
        b.commitment), a.amount + b.amount, a.canonicalSize + b.canonicalSize, index⟩ := by
    rw [CbmtNode.parent, hadd, ok_bind, hadd', ok_bind]
  refine ⟨_, hparent, rfl, ?_⟩
  rw [Shape.eval, ha, ok_bind, hb, ok_bind]
  exact parent_totals hparent

theorem inRange_completeShape {leaves : List Totals} (hne : leaves ≠ [])
    (hamount : amountSum leaves < 2 ^ 64) (hsize : sizeSum leaves < 2 ^ 64) :
    InRange (completeShape CbmtNode.default.totals leaves) := by
  have hperm := completeShape_perm CbmtNode.default.totals hne
  refine ⟨?_, ?_⟩
  · rw [amountSum, (hperm.map _).sum_eq]
    exact hamount
  · rw [sizeSum, (hperm.map _).sum_eq]
    exact hsize

variable {leaves : List CbmtNode}

/-- The complete tree over indexed leaves with totals in range has a root. -/
theorem exists_completeRoot (hne : leaves ≠ []) (hindex : Indexed leaves)
    (hamount : amountSum (leaves.map CbmtNode.totals) < 2 ^ 64)
    (hsize : sizeSum (leaves.map CbmtNode.totals) < 2 ^ 64) :
    ∃ root, (completeRoot mergeFeeSizeTotal .default leaves :
        Except (Failure ComputeMerkleRootError) CbmtNode) = .ok root ∧
      (completeShape CbmtNode.default.totals (leaves.map CbmtNode.totals)).eval
        (mergeTotals : Totals → Totals → Except (Failure ComputeMerkleRootError) Totals) =
          .ok root.totals := by
  have hpos := List.length_pos_iff.mpr hne
  have hmap : leaves.map CbmtNode.totals ≠ [] := by simpa using hne
  have hrange := inRange_completeShape hmap hamount hsize
  rw [completeShape_eq, List.length_map] at hrange
  have hstart : leaves.length ≤ leaves.length + 0 + 1 := by omega
  obtain ⟨root, hroot, -, heval⟩ := completeNode_exists mergeFeeSizeTotal .default
    CbmtNode.totals (P := InRange)
    (R := fun i n s => n.index = i ∧ s.eval
      (mergeTotals : Totals → Totals → Except (Failure ComputeMerkleRootError) Totals) =
        .ok n.totals)
    (fun k hk => ⟨hindex k hk, rfl⟩) (by
      rintro i a b s t hnode ⟨hai, ha⟩ ⟨hbi, hb⟩
      obtain ⟨c, hc, hci, heval⟩ := exists_parent ((a.index - 1) / 2) hnode ha hb
      refine ⟨c, ?_, by omega, heval⟩
      rw [mergeFeeSizeTotal, hc, ok_bind, ensure_of (by omega)]
      rfl) inRange_parts hstart (by omega) hrange
  rw [completeShape_eq, List.length_map]
  exact ⟨root, hroot, heval⟩

/-- A root of the levelized path evaluates the levelized tree. -/
theorem levelized_eval (hne : leaves ≠ []) {node : CbmtNode}
    (h : Body.computeMerkleRootLevelized leaves = .ok node) :
    ∃ s, levelizedShapes (leaves.map CbmtNode.totals) = [s] ∧ s.eval
      (mergeTotals : Totals → Totals → Except (Failure ComputeMerkleRootError) Totals) =
        .ok node.totals := by
  obtain ⟨final, hfinal, hnode⟩ := bind_eq_ok.mp h
  have hlevel := levelize_eval mergeTotals CbmtNode.totals
    (fun _ _ _ _ hmerge => parent_totals hmerge) hfinal
  obtain ⟨d, s, hs, -, -⟩ := levelizedShapes_perfect (l := leaves.map CbmtNode.totals)
    (by simpa using hne)
  rw [hs] at hlevel
  refine ⟨s, hs, ?_⟩
  cases hlevel with
  | cons hhead htail =>
    cases htail
    cases okOr_eq_ok.mp hnode
    exact hhead

/-- Over a power of two many leaves the two paths build one tree. -/
theorem levelizedAgrees_of_pow {root : CbmtNode} {k : Nat} (hk : leaves.length = 2 ^ k)
    (hamount : amountSum (leaves.map CbmtNode.totals) < 2 ^ 64)
    (hsize : sizeSum (leaves.map CbmtNode.totals) < 2 ^ 64)
    (hroot : (completeShape CbmtNode.default.totals (leaves.map CbmtNode.totals)).eval
      (mergeTotals : Totals → Totals → Except (Failure ComputeMerkleRootError) Totals) =
        .ok root.totals) : LevelizedAgrees leaves root := by
  have hne : leaves.map CbmtNode.totals ≠ [] := by
    rintro h
    rw [List.map_eq_nil_iff] at h
    rw [h] at hk
    exact absurd hk.symm (Nat.pos_iff_ne_zero.mp (Nat.two_pow_pos k))
  have hshapes := levelizedShapes_of_pow CbmtNode.default.totals
    (l := leaves.map CbmtNode.totals) (k := k) (by rw [List.length_map, hk])
  have hleaves : List.Forall₂ (fun (n : CbmtNode) (s : Shape Totals) => s.eval
      (mergeTotals : Totals → Totals → Except (Failure ComputeMerkleRootError) Totals) =
        .ok n.totals) leaves ((leaves.map CbmtNode.totals).map .leaf) := by
    rw [List.map_map]
    exact List.forall₂_map_right_iff.mpr (List.forall₂_same.mpr fun _ _ => rfl)
  have hinRange : ∀ s ∈ levelShapes leaves.length ((leaves.map CbmtNode.totals).map .leaf),
      InRange s := by
    intro s hs
    rw [levelizedShapes_eq, List.length_map] at hshapes
    rw [hshapes, List.mem_singleton] at hs
    rw [hs]
    exact inRange_completeShape hne hamount hsize
  obtain ⟨final, hfinal, hR⟩ := levelize_exists (fun i a b s t hnode ha hb => by
      obtain ⟨c, hc, -, heval⟩ := exists_parent i hnode ha hb
      exact ⟨c, hc, heval⟩) inRange_parts hleaves hinRange
  rw [levelizedShapes_eq, List.length_map] at hshapes
  rw [hshapes] at hR
  cases hR with
  | @cons node _ _ _ hnode htail =>
    cases htail
    have htotals : node.totals = root.totals := Except.ok.inj (hnode.symm.trans hroot)
    refine ⟨node, ?_, congrArg Prod.fst htotals, congrArg (·.2.1) htotals,
      congrArg (·.2.2) htotals⟩
    rw [Body.computeMerkleRootLevelized, hfinal]
    rfl

/-- Over any other number of leaves the levelized path counts a leaf twice. -/
theorem pow_of_levelizedAgrees {root : CbmtNode} (hne : leaves ≠ [])
    (hpos : ∀ leaf ∈ leaves, 0 < leaf.canonicalSize)
    (hroot : (completeShape CbmtNode.default.totals (leaves.map CbmtNode.totals)).eval
      (mergeTotals : Totals → Totals → Except (Failure ComputeMerkleRootError) Totals) =
        .ok root.totals) (h : LevelizedAgrees leaves root) : ∃ k, leaves.length = 2 ^ k := by
  by_contra hpow
  obtain ⟨node, hnode, -, -, hsize⟩ := h
  obtain ⟨s, hs, heval⟩ := levelized_eval hne hnode
  have hne' : leaves.map CbmtNode.totals ≠ [] := by simpa using hne
  have hroot' : root.canonicalSize.toNat = sizeSum (leaves.map CbmtNode.totals) := by
    have hperm := completeShape_perm CbmtNode.default.totals hne'
    rw [sizeSum, ← (hperm.map _).sum_eq]
    exact (eval_totals hroot).2
  have hnode' : node.canonicalSize.toNat = sizeSum (completed (leaves.map CbmtNode.totals)) := by
    rw [completed, hs, List.flatMap_singleton]
    exact (eval_totals heval).2
  obtain ⟨more, hmore⟩ := prefix_completed (leaves.map CbmtNode.totals)
  have hlength := length_lt_completed hne' fun k hk => hpow ⟨k, by rwa [List.length_map] at hk⟩
  have hsum : sizeSum more = 0 := by
    rw [← hmore, sizeSum_append, hsize, hroot'] at hnode'
    omega
  -- a leaf of the longer list is one of the leaves, and none has size zero
  cases more with
  | nil =>
    rw [← hmore, List.append_nil] at hlength
    exact absurd hlength (lt_irrefl _)
  | cons leaf more =>
    have hmem : leaf ∈ leaves.map CbmtNode.totals := by
      refine mem_of_mem_completed ?_
      rw [← hmore]
      simp
    obtain ⟨n, hn, rfl⟩ := List.mem_map.mp hmem
    have hn := UInt64.lt_iff_toNat_lt.mp (hpos n hn)
    have hcons : sizeSum (n.totals :: more) = n.canonicalSize.toNat + sizeSum more := by
      rw [sizeSum, List.map_cons, List.sum_cons]
      rfl
    rw [UInt64.toNat_zero] at hn
    omega

/-- The complete tree has a root as soon as the totals are in range, and the
levelized path returns this root exactly over a power of two many leaves. -/
theorem levelizedAgrees_iff {leaves : List CbmtNode} (hne : leaves ≠ [])
    (hindex : Indexed leaves) :
    (amountSum (leaves.map CbmtNode.totals) < 2 ^ 64 →
      sizeSum (leaves.map CbmtNode.totals) < 2 ^ 64 →
        ∃ root, (completeRoot mergeFeeSizeTotal .default leaves :
          Except (Failure ComputeMerkleRootError) CbmtNode) = .ok root) ∧
    ∀ root, (completeRoot mergeFeeSizeTotal .default leaves :
        Except (Failure ComputeMerkleRootError) CbmtNode) = .ok root →
      ((∃ k, leaves.length = 2 ^ k) → LevelizedAgrees leaves root) ∧
        ((∀ leaf ∈ leaves, 0 < leaf.canonicalSize) →
          LevelizedAgrees leaves root → ∃ k, leaves.length = 2 ^ k) := by
  refine ⟨fun hamount hsize => ?_, fun root hroot => ?_⟩
  · obtain ⟨root, hroot, -⟩ := exists_completeRoot hne hindex hamount hsize
    exact ⟨root, hroot⟩
  · have heval := completeRoot_eval mergeFeeSizeTotal_totals hroot
    refine ⟨?_, fun hpos => pow_of_levelizedAgrees hne hpos heval⟩
    rintro ⟨k, hk⟩
    have hperm := completeShape_perm CbmtNode.default.totals
      (l := leaves.map CbmtNode.totals) (by simpa using hne)
    obtain ⟨hamount, hsize⟩ := eval_totals heval
    rw [amountSum, (hperm.map _).sum_eq] at hamount
    rw [sizeSum, (hperm.map _).sum_eq] at hsize
    refine levelizedAgrees_of_pow hk ?_ ?_ heval
    · rw [amountSum, ← hamount]
      exact UInt64.toNat_lt _
    · rw [sizeSum, ← hsize]
      exact UInt64.toNat_lt _

end

namespace Instance

def idleLeaf (index : Nat) : CbmtNode :=
  ⟨hash ((0 : UInt64), canonicalSize (ser idle.transaction), idle.transaction), 0,
    canonicalSize (ser idle.transaction), index⟩

/-- The leaves of a number of idle transactions. -/
def idleLeaves (n : Nat) : List CbmtNode := (List.range n).map fun i => idleLeaf (i + n - 1)

theorem mapM_transactionLeaf_idle (n : Nat) :
    (List.replicate n idle).zipIdx.mapM (fun (tx, index) =>
      Body.transactionLeaf (List.replicate n idle).length tx index) = .ok (idleLeaves n) := by
  rw [mapM_eq_ok, idleLeaves, List.forall₂_map_right_iff, List.forall₂_iff_get]
  refine ⟨by simp, fun i h h' => ?_⟩
  simp only [List.get_eq_getElem, List.getElem_zipIdx, List.getElem_replicate, List.getElem_range,
    List.length_replicate, Nat.zero_add]
  rfl

theorem indexed_idleLeaves (n : Nat) : Indexed (idleLeaves n) := by
  intro k hk
  rw [idleLeaves, List.length_map, List.length_range] at hk
  simp [idleLeaves, hk, idleLeaf]

theorem amountSum_idleLeaves (n : Nat) : amountSum ((idleLeaves n).map CbmtNode.totals) = 0 := by
  simp [amountSum, idleLeaves, idleLeaf, CbmtNode.totals, Function.comp_def]

theorem sizeSum_idleLeaves (n : Nat) : sizeSum ((idleLeaves n).map CbmtNode.totals) = 13 * n := by
  have hsize : (canonicalSize (ser idle.transaction)).toNat = 13 := by decide
  simp [sizeSum, idleLeaves, idleLeaf, CbmtNode.totals, Function.comp_def, hsize, mul_comm]

theorem idleLeaves_ne_nil {n : Nat} (hn : 0 < n) : idleLeaves n ≠ [] := by
  intro h
  have hlength := congrArg List.length h
  rw [idleLeaves, List.length_map, List.length_range, List.length_nil] at hlength
  omega

/-- Over the leaves of 1001 idle transactions the two paths differ. -/
theorem levelized_differs_idle :
    ∃ leaves root, (List.replicate 1001 idle).zipIdx.mapM (fun (tx, index) =>
        Body.transactionLeaf (List.replicate 1001 idle).length tx index) = .ok leaves ∧
      (completeRoot mergeFeeSizeTotal .default leaves :
        Except (Failure ComputeMerkleRootError) CbmtNode) = .ok root ∧
      ¬ LevelizedAgrees leaves root := by
  obtain ⟨root, hroot, heval⟩ := exists_completeRoot (idleLeaves_ne_nil (n := 1001) (by decide))
    (indexed_idleLeaves 1001) (by rw [amountSum_idleLeaves]; decide)
    (by rw [sizeSum_idleLeaves]; decide)
  refine ⟨idleLeaves 1001, root, mapM_transactionLeaf_idle 1001, hroot, fun h => ?_⟩
  obtain ⟨k, hk⟩ := pow_of_levelizedAgrees (idleLeaves_ne_nil (by decide)) (by
    intro leaf hleaf
    obtain ⟨i, -, rfl⟩ := List.mem_map.mp hleaf
    exact show 0 < canonicalSize (ser idle.transaction) by decide) heval h
  rw [idleLeaves, List.length_map, List.length_range] at hk
  -- 1001 lies between two powers of two
  have hlow : 9 < k := (Nat.pow_lt_pow_iff_right (a := 2) (by decide)).mp (by omega)
  have hhigh : k < 10 := (Nat.pow_lt_pow_iff_right (a := 2) (by decide)).mp (by omega)
  omega

/-- Over the leaves of 1024 idle transactions they do not. -/
theorem levelizedAgrees_idle :
    ∃ root, (completeRoot mergeFeeSizeTotal .default (idleLeaves 1024) :
        Except (Failure ComputeMerkleRootError) CbmtNode) = .ok root ∧
      LevelizedAgrees (idleLeaves 1024) root := by
  obtain ⟨hexists, hagrees⟩ := levelizedAgrees_iff (idleLeaves_ne_nil (n := 1024) (by decide))
    (indexed_idleLeaves 1024)
  obtain ⟨root, hroot⟩ := hexists (by rw [amountSum_idleLeaves]; decide)
    (by rw [sizeSum_idleLeaves]; decide)
  refine ⟨root, hroot, (hagrees root hroot).1 ⟨10, ?_⟩⟩
  rw [idleLeaves, List.length_map, List.length_range]
  decide

end Instance

end PlainBitnames
