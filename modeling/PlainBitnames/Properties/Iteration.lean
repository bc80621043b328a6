import PlainBitnames.Archive.Iter
import PlainBitnames.Properties.Ancestry
import PlainBitnames.Properties.TipRanking

/-!
The iterators over the ancestors of a block return exactly the ancestors from a height
on, oldest first, for every number of calls.
-/

namespace PlainBitnames

open Fallible Lineage

section

variable [Primitives]

open Archive Batches

/-- In a consistent archive, the iterators over the ancestors of a block return exactly
the ancestors from a height on with increasing heights, and then nothing, on the
mainchain if the heights in the header infos are those of the blocks. From above an
ancestor, the blocks without a body are those that are collected down to it. -/
theorem ancestors_rev_exact {m : Mainchain} {a : Archive} (h : Consistent m a) :
    (∀ b ∈ a.headers, ∀ start, ∃ chain : List (BlockHash × Header),
      (∀ n, (Iter.new b start).outputs a.ancestorsRev n =
        .ok ((List.range n).map (chain[·]?))) ∧
      (∀ x header, (x, header) ∈ chain ↔ a.headers[x]? = some header ∧
        Descends a.sideParent x b ∧ ∃ k, a.blockHashToHeight[x]? = some k ∧ start ≤ k) ∧
      chain.Pairwise fun x y => ∀ j k, a.blockHashToHeight[x.1]? = some j →
        a.blockHashToHeight[y.1]? = some k → j < k) ∧
    ((∀ (x : MainBlockHash) info, a.mainHeaderInfos[x]? = some info →
        a.mainBlockHashToHeight[x]? = some info.height) →
      ∀ b ∈ a.mainHeaderInfos, ∀ start, ∃ chain : List BlockHeaderInfo,
        (∀ n, (Iter.new b start).outputs a.mainchainAncestorsRev n =
          .ok ((List.range n).map (chain[·]?))) ∧
        (∀ info, info ∈ chain ↔ a.mainHeaderInfos[info.blockHash]? = some info ∧
          Descends a.mainParent info.blockHash b ∧ start ≤ info.height) ∧
        chain.Pairwise fun x y => x.height < y.height) ∧
    ∀ b ∈ a.headers, ∀ ancestor height, Descends a.sideParent ancestor b →
      a.getHeight ancestor = .ok height →
      ∃ missing, a.iterMissingBodies b (height + 1) = .ok missing ∧
        a.getMissingBodies b (some ancestor) = .ok missing := by
  obtain ⟨hside, hmain⟩ := h
  refine ⟨fun b hb start => ?_, fun hheights b hb start => ?_, fun b hb ancestor height hd hh => ?_⟩
  · obtain ⟨k, hk⟩ := hside.height_of_mem hb
    obtain ⟨chain, hup, -, houtputs, -⟩ := hside.exists_chain hk start
    refine ⟨chain, houtputs, fun x header => ?_, hup.sorted⟩
    rw [hup.mem, ancestorHeaders_eq_ok]
    rfl
  · obtain ⟨info, hinfo⟩ := (Db.mem_iff _ _).mp hb
    obtain ⟨chain, hup, houtputs⟩ := hmain.exists_chain hinfo (hheights b info hinfo) start
    have hmem : ∀ info, info ∈ chain ↔ a.mainHeaderInfos[info.blockHash]? = some info ∧
        Descends a.mainParent info.blockHash b ∧ start ≤ info.height := by
      intro info
      rw [hup.mem, mainAncestorHeaderInfos_eq_ok]
      refine and_congr_right fun hget => and_congr_right fun _ => ?_
      have hheight : a.mainIndex.height info.blockHash = some info.height := hheights _ _ hget
      rw [hheight]
      exact ⟨fun ⟨k, hk, hle⟩ => Option.some.inj hk ▸ hle, fun hle => ⟨_, rfl, hle⟩⟩
    refine ⟨chain, houtputs, hmem, hup.sorted.imp_of_mem fun hx hy hlt => ?_⟩
    exact hlt _ _ (hheights _ _ ((hmem _).mp hx).1) (hheights _ _ ((hmem _).mp hy).1)
  · obtain ⟨k, hk⟩ := hside.height_of_mem hb
    have hh := okOr_eq_ok.mp hh
    obtain ⟨chain, -, htake, -, hcollect⟩ := hside.exists_chain hk (height + 1)
    rw [Nat.add_sub_add_right] at htake
    have hlength : a.lineageLength b = k + 1 := by
      rw [lineageLength, show a.blockHashToHeight[b]? = some k from hk]
      rfl
    refine ⟨_, bind_eq_ok.mpr ⟨chain, hcollect _ (hlength ▸ Nat.lt_succ_self k), rfl⟩, ?_⟩
    refine bind_eq_ok.mpr ⟨_, missingUntil_eq hside hk hh hd (hlength ▸ Nat.lt_succ_self k) htake, ?_⟩
    rw [List.map_reverse, List.filter_reverse, List.reverse_reverse]

end

namespace Instance

theorem ancestors_rev_exact_line :
    lineNode.archive.Consistent lineMain ∧
      (∃ chain : List (BlockHash × Header), (headerB1.hash, headerB1) ∈ chain ∧
        ∀ n, (Batches.Iter.new headerB1.hash 1).outputs lineNode.archive.ancestorsRev n =
          .ok ((List.range n).map (chain[·]?))) ∧
      ∃ chain : List BlockHeaderInfo, lineMain.header 2 ∈ chain ∧
        ∀ n, (Batches.Iter.new 3 1).outputs lineNode.archive.mainchainAncestorsRev n =
          .ok ((List.range n).map (chain[·]?)) := by
  have hstored := lineNode_reaches.stored collisionFree
  have hconsistent : lineNode.archive.Consistent lineMain := ⟨hstored.side, hstored.main⟩
  have hinfos : ∀ entry ∈ lineNode.archive.mainHeaderInfos.toList,
      lineNode.archive.mainBlockHashToHeight[entry.1]? = some entry.2.height := by
    decide +kernel
  have hheights : ∀ (x : MainBlockHash) info, lineNode.archive.mainHeaderInfos[x]? = some info →
      lineNode.archive.mainBlockHashToHeight[x]? = some info.height := fun x info hinfo =>
    hinfos (x, info) (Db.mem_toList.mpr hinfo)
  obtain ⟨hside, hmain, -⟩ := ancestors_rev_exact hconsistent
  obtain ⟨chain, houtputs, hmem, -⟩ := hside headerB1.hash (by decide +kernel) 1
  obtain ⟨mainChain, hmainOutputs, hmainMem, -⟩ := hmain hheights 3 (by decide +kernel) 1
  refine ⟨hconsistent, ⟨chain, (hmem _ _).mpr ⟨?_, .refl _, 1, ?_, le_rfl⟩, houtputs⟩,
    mainChain, (hmainMem _).mpr ⟨?_, ⟨1, ?_⟩, ?_⟩, hmainOutputs⟩
  · decide +kernel
  · decide +kernel
  · decide +kernel
  · decide +kernel
  · decide +kernel

end Instance

end PlainBitnames
