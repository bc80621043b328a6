import PlainBitnames.Archive.BetterTip
import PlainBitnames.Properties.BmmResults

/-!
Fork choice. Two tips are never better than each other, and the tips on one
mainchain lineage are ordered by their height and then by how early they were
committed to. Across lineages the preference has cycles.
-/

namespace PlainBitnames

open Fallible Lineage

section

variable [Primitives]

namespace Archive

/-- The block of a tip is verified at its mainchain block. -/
def VerifiedTip (a : Archive) (tip : Tip) : Prop := a.Verified tip.blockHash tip.mainBlockHash

/-- A mainchain block that all stored mainchain blocks descend from. -/
def Genesis (a : Archive) (genesis : MainBlockHash) : Prop :=
  ∀ hash ∈ a.mainHeaderInfos, Descends a.mainParent genesis hash

variable {m : Mainchain} {a : Archive} {tip0 tip1 : Tip}

theorem Stored.main_mem (h : Stored m a) {tip : Tip} (htip : a.VerifiedTip tip) :
    tip.mainBlockHash ∈ a.mainHeaderInfos :=
  h.bmm.main_mem h.main _ _ htip

variable {genesis : MainBlockHash}

/-- The order in which two tips are given does not matter for the last common
mainchain ancestor. -/
theorem Stored.lastCommon_comm (h : Stored m a) (hgenesis : a.Genesis genesis)
    (htip0 : a.VerifiedTip tip0) (htip1 : a.VerifiedTip tip1) :
    a.lastCommonMainAncestor tip1.mainBlockHash tip0.mainBlockHash =
      a.lastCommonMainAncestor tip0.mainBlockHash tip1.mainBlockHash := by
  have hmem0 := h.main_mem htip0
  have hmem1 := h.main_mem htip1
  exact h.main.lastCommonMainAncestor_comm hmem0 hmem1
    ((h.main.descends_mainParent hmem0).mp (hgenesis _ hmem0))
    ((h.main.descends_mainParent hmem1).mp (hgenesis _ hmem1))

theorem Stored.ancestorHeight_comm (h : Stored m a) (hgenesis : a.Genesis genesis)
    (htip0 : a.VerifiedTip tip0) (htip1 : a.VerifiedTip tip1) (tip : Tip) :
    a.ancestorHeight tip1 tip0 tip = a.ancestorHeight tip0 tip1 tip := by
  rw [ancestorHeight, h.lastCommon_comm hgenesis htip0 htip1]
  rfl

/-- Neither reason to prefer a tip is a reason to prefer the other one as well. -/
theorem Stored.preferred_asymm (h : Stored m a) (hgenesis : a.Genesis genesis)
    (htip0 : a.VerifiedTip tip0) (htip1 : a.VerifiedTip tip1) (hne : tip0 ≠ tip1)
    {height0 height1 work0 work1 : Nat}
    (hpreferred : a.Preferred tip0 tip1 height0 height1 work0 work1) :
    ¬ a.Preferred tip1 tip0 height1 height0 work1 work0 := by
  have hshared := h.main.sharedMainchainLineage_comm (h.main_mem htip0) (h.main_mem htip1)
  have hancestor := h.ancestorHeight_comm hgenesis htip0 htip1
  intro hpreferred'
  cases hpreferred <;> cases hpreferred' <;> try omega
  case moreWork.lessWork => simp_all
  case lessWork.moreWork => simp_all
  case lower.higherBefore => simp_all
  case higherBefore.lower => simp_all
  case betterBefore.betterBefore hbetter _ _ _ hbetter' =>
    obtain ⟨z, k, x, y, hz, hk, hx, hy, hxy⟩ := betterAncestor_eq_ok hne hbetter
    obtain ⟨z', k', y', x', hz', hk', hy', hx', hyx⟩ := betterAncestor_eq_ok hne.symm hbetter'
    rw [h.lastCommon_comm hgenesis htip0 htip1] at hz'
    obtain rfl := Except.ok.inj (hz.symm.trans hz')
    obtain rfl := Except.ok.inj (hk.symm.trans hk')
    obtain rfl := Except.ok.inj (hx.symm.trans hx')
    obtain rfl := Except.ok.inj (hy.symm.trans hy')
    exact hxy.asymm hyx

theorem Stored.beaten_asymm (h : Stored m a) (hgenesis : a.Genesis genesis)
    (htip0 : a.VerifiedTip tip0) (htip1 : a.VerifiedTip tip1) (hbeaten : a.Beaten tip0 tip1) :
    ¬ a.Beaten tip1 tip0 := by
  intro hbeaten'
  obtain ⟨hne, h0, h1, hh0, hh1, hcases⟩ := hbeaten.cases
  obtain ⟨-, h1', h0', hh1', hh0', hcases'⟩ := hbeaten'.cases
  obtain rfl := Option.some.inj (hh0.symm.trans hh0')
  obtain rfl := Option.some.inj (hh1.symm.trans hh1')
  rcases hcases with hzero | ⟨hpos0, hpos1, w0, w1, hw0, hw1, hpreferred⟩
  · omega
  rcases hcases' with hzero | ⟨-, -, w1', w0', hw1', hw0', hpreferred'⟩
  · omega
  obtain rfl := Option.some.inj (hw0.symm.trans hw0')
  obtain rfl := Option.some.inj (hw1.symm.trans hw1')
  exact h.preferred_asymm hgenesis htip0 htip1 hne hpreferred hpreferred'

/-- Two blocks that are verified at one mainchain block are the block it commits
to. -/
theorem Stored.verified_unique (h : Stored m a) {b b' : BlockHash} {mainHash : MainBlockHash}
    (hmem : b ∈ a.headers) (hmem' : b' ∈ a.headers) (hb : a.Verified b mainHash)
    (hb' : a.Verified b' mainHash) : b = b' := by
  have hcommit : ∀ {b}, b ∈ a.headers → a.Verified b mainHash →
      (m.info mainHash).bmmCommitment = some b := by
    intro b hmem hb
    obtain ⟨header, hheader⟩ := (Db.mem_iff _ _).mp hmem
    rw [((h.bmm.rule hheader (h.bmm.info hb)).mp hb).1, h.side.hash_eq hheader]
  exact Option.some.inj ((hcommit hmem hb).symm.trans (hcommit hmem' hb'))

/-- A tip that is committed to first has its own height before the last common
mainchain ancestor, which is its mainchain block. -/
theorem Stored.ancestorHeight_first (h : Stored m a) (htip0 : a.VerifiedTip tip0)
    (htip1 : a.VerifiedTip tip1)
    (hdescends : Descends m.parent tip0.mainBlockHash tip1.mainBlockHash) {height : Nat}
    (hheight : a.blockHashToHeight[tip0.blockHash]? = some height) {before : Option Nat}
    (hbefore : a.ancestorHeight tip0 tip1 tip0 = .ok before) : before = some height := by
  obtain ⟨z, hz, hfound⟩ := bind_eq_ok.mp hbefore
  rw [h.main.lastCommonMainAncestor_eq (h.main_mem htip0) (h.main_mem htip1)
    (.of_descends hdescends)] at hz
  cases hz
  rcases findAncestor_eq_ok hfound with ⟨v, hv, rfl⟩ | ⟨hnone, -⟩
  · rcases heightBefore_eq_ok hv with ⟨-, hv⟩ | ⟨-, height', -, hheight', hv⟩
    · cases hv
    · rw [hv, ← hheight, hheight']
  · rcases heightBefore_eq_ok hnone with ⟨hnone, -⟩ | ⟨_, _, -, -, hv⟩
    · exact absurd hnone (h.headerBefore_verified htip0)
    · cases hv

/-- A tip that is committed to first is not worse before the last common
mainchain ancestor than a later tip of the same height. -/
theorem Stored.not_betterAncestor (h : Stored m a) (htip0 : a.VerifiedTip tip0)
    (htip1 : a.VerifiedTip tip1) (hne : tip0 ≠ tip1)
    (hdescends : Descends m.parent tip0.mainBlockHash tip1.mainBlockHash)
    (hmain : tip0.mainBlockHash ≠ tip1.mainBlockHash) {height : Nat}
    (hheight0 : a.blockHashToHeight[tip0.blockHash]? = some height)
    (hheight1 : a.blockHashToHeight[tip1.blockHash]? = some height) :
    a.betterAncestor tip0 tip1 ≠ .ok (some tip1) := by
  intro hbetter
  obtain ⟨z, k, x, y, hz, -, hx, hy, hxy⟩ := betterAncestor_eq_ok hne hbetter
  rw [h.main.lastCommonMainAncestor_eq (h.main_mem htip0) (h.main_mem htip1)
    (.of_descends hdescends)] at hz
  cases hz
  have hx : ∃ work, x = some (height, work) := by
    rcases findAncestor_eq_ok hx with ⟨v, hv, rfl⟩ | ⟨hnone, -⟩
    · rcases heightAndWorkBefore_eq_ok hv with ⟨-, hv⟩ | ⟨-, height', work, -, hheight', hv⟩
      · cases hv
      · rw [hheight0] at hheight'
        cases hheight'
        exact ⟨work, hv⟩
    · rcases heightAndWorkBefore_eq_ok hnone with ⟨hnone, -⟩ | ⟨_, _, _, -, -, hv⟩
      · exact absurd hnone (h.headerBefore_verified htip0)
      · cases hv
  have hy : ∀ v, y = some v → v.1 < height := by
    rintro v rfl
    obtain ⟨b, b', hb, hdescends', hv⟩ := findAncestor_eq_some hy
    cases hb
    rcases heightAndWorkBefore_eq_ok hv with ⟨-, hv⟩ | ⟨header, height', work, hheader, hheight', hv⟩
    · cases hv
    cases hv
    obtain ⟨hle, hancestor⟩ :=
      (h.side.describes.rooted.descends_iff hheight' hheight1).mp hdescends'
    refine lt_of_le_of_ne hle fun heq => ?_
    -- At the same height it is the tip itself, which lies above the ancestor.
    rw [show height' = height from heq, Nat.sub_self] at hancestor
    cases hancestor
    cases h.headerBefore_above htip1 hdescends hmain hheader
  obtain ⟨work, rfl⟩ := hx
  cases y with
  | none => rcases hxy with hxy | ⟨hxy, -⟩ <;> cases hxy
  | some v =>
    have hlt := hy v rfl
    have hgt : compare height v.1 = .gt := Nat.compare_eq_gt.mpr hlt
    rcases hxy with hxy | ⟨hxy, -⟩
    · cases hgt.symm.trans hxy
    · cases hgt.symm.trans hxy

/-- On one mainchain lineage a tip is beaten by one of greater height, or of equal
height that is committed to earlier. -/
theorem Stored.beaten_lineage (h : Stored m a) (htip0 : a.VerifiedTip tip0)
    (htip1 : a.VerifiedTip tip1)
    (hlineage : Descends m.parent tip0.mainBlockHash tip1.mainBlockHash ∨
      Descends m.parent tip1.mainBlockHash tip0.mainBlockHash)
    (hbeaten : a.Beaten tip0 tip1) :
    ∃ height0 height1, a.blockHashToHeight[tip0.blockHash]? = some height0 ∧
      a.blockHashToHeight[tip1.blockHash]? = some height1 ∧
      (height0 < height1 ∨ height0 = height1 ∧
        Descends m.parent tip1.mainBlockHash tip0.mainBlockHash ∧
        tip1.mainBlockHash ≠ tip0.mainBlockHash) := by
  obtain ⟨hne, height0, height1, hheight0, hheight1, hcases⟩ := hbeaten.cases
  refine ⟨height0, height1, hheight0, hheight1, ?_⟩
  rcases hcases with ⟨hzero, hpos⟩ | ⟨-, -, work0, work1, hwork0, hwork1, hpreferred⟩
  · exact .inl (by omega)
  cases hpreferred with
  | higher hheight | higherBefore hheight => exact .inl hheight
  | moreWork _ _ hshared =>
    obtain ⟨shared, hshared', hiff⟩ := h.main.exists_sharedMainchainLineage (h.main_mem htip0)
      (h.main_mem htip1)
    rw [hiff.mpr hlineage, hshared] at hshared'
    cases hshared'
  | lessWork hheight hwork =>
    refine .inr ⟨hheight, hlineage.resolve_left fun hdescends => ?_, fun heq => ?_⟩
    · have hle := h.main.work_le hdescends hwork0 hwork1
      omega
    · rw [heq, hwork0] at hwork1
      cases hwork1
      omega
  | lower hheight hwork before hbefore hlt =>
    have hdescends := hlineage.resolve_right fun hdescends => by
      have hle := h.main.work_le hdescends hwork1 hwork0
      omega
    rw [h.ancestorHeight_first htip0 htip1 hdescends hheight0 hbefore] at hlt
    have hlt : height0 < height1 := Nat.compare_eq_lt.mp hlt
    omega
  | betterBefore hheight hwork hblock hbetter =>
    have hmain : tip1.mainBlockHash ≠ tip0.mainBlockHash := by
      intro heq
      refine hblock (h.verified_unique (h.side.height.mp ⟨_, hheight0⟩)
        (h.side.height.mp ⟨_, hheight1⟩) htip0 ?_)
      rw [← heq]
      exact htip1
    refine .inr ⟨hheight, hlineage.resolve_left fun hdescends => ?_, hmain⟩
    exact h.not_betterAncestor htip0 htip1 hne hdescends hmain.symm hheight0
      (hheight ▸ hheight1) hbetter

/-- Tips on one lineage are ordered by height, and then by the height of the
mainchain block, lower first. -/
def rank (a : Archive) (tip : Tip) : Nat ×ₗ Natᵒᵈ :=
  toLex (a.blockHashToHeight[tip.blockHash]?.getD 0,
    OrderDual.toDual (a.mainBlockHashToHeight[tip.mainBlockHash]?.getD 0))

theorem Stored.rank_lt (h : Stored m a) (htip0 : a.VerifiedTip tip0) (htip1 : a.VerifiedTip tip1)
    (hlineage : Descends m.parent tip0.mainBlockHash tip1.mainBlockHash ∨
      Descends m.parent tip1.mainBlockHash tip0.mainBlockHash)
    (hbeaten : a.Beaten tip0 tip1) : a.rank tip0 < a.rank tip1 := by
  obtain ⟨height0, height1, hheight0, hheight1, hcases⟩ :=
    h.beaten_lineage htip0 htip1 hlineage hbeaten
  rw [rank, rank, hheight0, hheight1, Prod.Lex.toLex_lt_toLex]
  rcases hcases with hlt | ⟨heq, hdescends, hne⟩
  · exact .inl hlt
  · refine .inr ⟨heq, OrderDual.toDual_lt_toDual.mpr ?_⟩
    obtain ⟨k0, hk0⟩ := h.main.height_of_mem (h.main_mem htip0)
    obtain ⟨k1, hk1⟩ := h.main.height_of_mem (h.main_mem htip1)
    have hlt := h.main.describes.rooted.lt_of_descends hk1 hk0 hdescends hne
    change a.mainBlockHashToHeight[tip0.mainBlockHash]? = some k0 at hk0
    change a.mainBlockHashToHeight[tip1.mainBlockHash]? = some k1 at hk1
    rw [hk0, hk1]
    exact hlt

end Archive

/-- In an archive whose mainchain blocks share one genesis, two verified tips do
not beat each other, and verified tips whose mainchain blocks lie on one lineage
do not beat each other in a cycle. -/
theorem betterTip_acyclic_lineage (hcf : CollisionFree) {m : Mainchain} {ops : List ArchiveOp}
    {a : Archive} (hops : ∀ op ∈ ops, op.Reported m) (hbuild : Archive.new.build ops = .ok a)
    {genesis : MainBlockHash} (hgenesis : a.Genesis genesis) :
    (∀ tip0 tip1, a.VerifiedTip tip0 → a.VerifiedTip tip1 → a.Beaten tip0 tip1 →
      ¬ a.Beaten tip1 tip0) ∧
    (∀ tips : Set Tip, (∀ tip ∈ tips, a.VerifiedTip tip) →
      (∀ tip0 ∈ tips, ∀ tip1 ∈ tips,
        Descends a.mainParent tip0.mainBlockHash tip1.mainBlockHash ∨
        Descends a.mainParent tip1.mainBlockHash tip0.mainBlockHash) →
      ∀ tip, ¬ Relation.TransGen
        (fun tip0 tip1 => tip0 ∈ tips ∧ tip1 ∈ tips ∧ a.Beaten tip0 tip1) tip tip) := by
  have h := Archive.stored_of_build hcf hops hbuild
  refine ⟨fun tip0 tip1 htip0 htip1 => h.beaten_asymm hgenesis htip0 htip1, ?_⟩
  intro tips hverified hlineage tip hcycle
  have hrank : Relation.TransGen (· < ·) (a.rank tip) (a.rank tip) := by
    refine hcycle.lift a.rank fun tip0 tip1 ⟨hmem0, hmem1, hbeaten⟩ => ?_
    refine h.rank_lt (hverified tip0 hmem0) (hverified tip1 hmem1) ?_ hbeaten
    rw [← h.main.descends_mainParent (h.main_mem (hverified tip1 hmem1)),
      ← h.main.descends_mainParent (h.main_mem (hverified tip0 hmem0))]
    exact hlineage tip0 hmem0 tip1 hmem1
  rw [Relation.transGen_eq_self] at hrank
  exact lt_irrefl _ hrank

end

namespace Instance

def tipB2 : Tip := ⟨headerB2.hash, 7⟩
def tipC1 : Tip := ⟨headerC1.hash, 8⟩
def tipA2 : Tip := ⟨headerA2.hash, 5⟩
def tipC2 : Tip := ⟨headerC2.hash, 9⟩
def tipD1 : Tip := ⟨headerD1.hash, 10⟩

theorem rooted_verified_fork :
    (∀ entry ∈ forkArchive.mainHeaderInfos.toList, ∃ n ∈ List.range 6,
      ancestor forkArchive.mainParent n entry.1 = some 1) ∧
    ∀ tip ∈ [tipA3, tipB2, tipC1, tipA2, tipC2, tipD1],
      forkArchive.tryGetBmmResult tip.blockHash tip.mainBlockHash = some .verified := by
  decide +kernel

theorem genesis_fork : forkArchive.Genesis 1 := by
  intro hash hmem
  obtain ⟨info, hinfo⟩ := (Db.mem_iff _ _).mp hmem
  obtain ⟨n, -, hn⟩ := rooted_verified_fork.1 (hash, info)
    (Db.mem_toList.mpr hinfo)
  exact ⟨n, hn⟩

theorem verifiedTip_fork :
    ∀ tip ∈ [tipA3, tipB2, tipC1, tipA2, tipC2, tipD1], forkArchive.VerifiedTip tip :=
  rooted_verified_fork.2

/-- Verified tips beat each other in a cycle. In the first cycle no two of them
are on one mainchain lineage, in the second one two of them are. -/
theorem betterTip_cycles :
    (∀ op ∈ forkOps, op.Reported forkMainchain) ∧ Archive.new.build forkOps = .ok forkArchive ∧
      forkArchive.Genesis 1 ∧
      (∀ tip ∈ [tipA3, tipB2, tipC1, tipA2, tipC2, tipD1], forkArchive.VerifiedTip tip) ∧
      (forkArchive.Beaten tipB2 tipA3 ∧ forkArchive.Beaten tipA3 tipC1 ∧
        forkArchive.Beaten tipC1 tipB2) ∧
      (forkArchive.Beaten tipD1 tipA2 ∧ forkArchive.Beaten tipA2 tipC2 ∧
        forkArchive.Beaten tipC2 tipD1) :=
  ⟨reported_fork, build_fork, genesis_fork, verifiedTip_fork, by decide +kernel⟩

theorem betterTip_acyclic_fork :
    forkArchive.Beaten tipD1 tipA2 ∧ ¬ forkArchive.Beaten tipA2 tipD1 ∧
      ∀ tip, ¬ Relation.TransGen (fun tip0 tip1 => tip0 ∈ ({tipA2, tipD1} : Set Tip) ∧
        tip1 ∈ ({tipA2, tipD1} : Set Tip) ∧ forkArchive.Beaten tip0 tip1) tip tip := by
  obtain ⟨hasymm, hacyclic⟩ :=
    betterTip_acyclic_lineage collisionFree reported_fork build_fork genesis_fork
  obtain ⟨hbeaten, hfirst⟩ : forkArchive.Beaten tipD1 tipA2 ∧
      ancestor forkArchive.mainParent 1 tipD1.mainBlockHash = some tipA2.mainBlockHash := by
    decide +kernel
  have hA2 := verifiedTip_fork tipA2 (by simp)
  have hD1 := verifiedTip_fork tipD1 (by simp)
  have hdescends : Descends forkArchive.mainParent tipA2.mainBlockHash tipD1.mainBlockHash :=
    ⟨1, hfirst⟩
  refine ⟨hbeaten, hasymm _ _ hD1 hA2 hbeaten, hacyclic {tipA2, tipD1} ?_ ?_⟩
  · rintro tip (rfl | rfl)
    · exact hA2
    · exact hD1
  · rintro tip0 (rfl | rfl) tip1 (rfl | rfl)
    · exact .inl (.refl _)
    · exact .inl hdescends
    · exact .inr hdescends
    · exact .inl (.refl _)

end Instance

end PlainBitnames
