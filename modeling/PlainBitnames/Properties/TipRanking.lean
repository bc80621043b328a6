import PlainBitnames.Properties.TipArrival

/-!
The two rankings of the tips. The order of the tips goes by height, then by work,
then by the hash of the mainchain block; the comparison of tips on one mainchain
lineage goes by height, and then prefers less work. They agree on the best tip
exactly when no other tip has its height.
-/

namespace PlainBitnames

open Fallible Lineage

section

variable [Primitives]

omit [Primitives] in
/-- A tip that stands before another one is lower, or has no more work. -/
theorem SidechainTipInfo.of_compare_lt {info info' : SidechainTipInfo}
    (h : compare info info' = .lt) :
    info.sidechainHeight < info'.sidechainHeight ∨
      info.sidechainHeight = info'.sidechainHeight ∧ info.work ≤ info'.work := by
  change compareLex (compareOn sidechainHeight)
    (compareLex (compareOn work) (compareOn fun info => Borsh.ser info.mainBlockHash)) _ _ = _ at h
  simp only [compareLex, compareOn, Ordering.then_eq_lt, Nat.compare_eq_lt, Nat.compare_eq_eq] at h
  omega

namespace Archive

variable {m : Mainchain} {a : Archive} {tip0 tip1 : Tip}

/-- No tip is better than the given one, and it is better than every other tip. Both
have to be stored for that. -/
def RankedBest (a : Archive) (best : Tip) : Prop :=
  ∀ (b : BlockHash) info, a.sideTips.sidechainTips[b]? = some info →
    ¬ a.Beaten best ⟨b, info.mainBlockHash⟩ ∧
      (b ∈ a.headers → best.blockHash ∈ a.headers → b ≠ best.blockHash →
        a.Beaten ⟨b, info.mainBlockHash⟩ best)

/-- No other tip has the height of the given one. -/
def AloneAtHeight (a : Archive) (best : Tip) : Prop :=
  ∀ (b : BlockHash), b ∈ a.sideTips.sidechainTips → b ∈ a.headers → best.blockHash ∈ a.headers →
    a.blockHashToHeight[b]? = a.blockHashToHeight[best.blockHash]? → b = best.blockHash

/-- The total work of a proper ancestor is less, if every block has some work. -/
theorem MainStored.work_lt (h : MainStored m a) (hpos : ∀ hash, 0 < (m.header hash).work)
    {old new : MainBlockHash} {w w' : Nat} (hdescends : Descends m.parent old new)
    (hne : old ≠ new) (hw : a.totalWork[old]? = some w) (hw' : a.totalWork[new]? = some w') :
    w < w' := by
  obtain ⟨p, hp, hdescends⟩ := (descends_iff_upTo_parent.mp hdescends).resolve_left hne
  obtain ⟨w'', hw'', rfl⟩ := h.work_step hw' hp
  have hle := h.work_le hdescends hw hw''
  have hnew := hpos new
  omega

/-- A verified block with a parent lies before its mainchain block. -/
theorem Stored.headerBefore_eq (h : Stored m a) {b p : BlockHash} {header : Header}
    {mainHash : MainBlockHash} (hheader : a.headers[b]? = some header)
    (hp : header.prevSideHash = some p) (hverified : a.Verified b mainHash) :
    a.headerBefore mainHash b = .ok (some header) := by
  obtain ⟨-, -, hmem, -⟩ := h.verified_parent hheader hp hverified
  have hmain := h.bmm.info hverified
  have hstored := h.main.info_header hmain
  obtain ⟨-, hprev, -⟩ := (h.bmm.rule hheader hmain).mp hverified
  have hparent : m.parent mainHash = some header.prevMainHash :=
    Mainchain.parent_eq_some.mpr ⟨hprev, h.main.ne_zeros hmem⟩
  have hdescendant : a.isMainDescendant header.prevMainHash mainHash = .ok true :=
    (h.main.isMainDescendant_eq_true hmem hstored).mpr (.of_parent hparent)
  have hne : header.prevMainHash ≠ mainHash := fun heq =>
    h.main.ne_parent hstored (heq ▸ hparent)
  rw [headerBefore, getHeader, hheader, okOr_some, ok_bind, hdescendant, ok_bind, Bool.not_true,
    if_neg Bool.false_ne_true, if_neg hne]

/-- A tip with a parent has its own height before its mainchain block. -/
theorem Stored.ancestorHeight_self (h : Stored m a) (htip0 : a.VerifiedTip tip0)
    (htip1 : a.VerifiedTip tip1)
    (hdescends : Descends m.parent tip1.mainBlockHash tip0.mainBlockHash) {height : Nat}
    (hheight : a.blockHashToHeight[tip1.blockHash]? = some (height + 1)) :
    a.ancestorHeight tip0 tip1 tip1 = .ok (some (height + 1)) := by
  have hlast : a.lastCommonMainAncestor tip0.mainBlockHash tip1.mainBlockHash =
      .ok tip1.mainBlockHash :=
    h.main.lastCommonMainAncestor_eq (h.main_mem htip0) (h.main_mem htip1)
      (Index.LastCommon.of_descends hdescends).symm
  obtain ⟨header, hheader⟩ := (Db.mem_iff _ _).mp (h.side.height.mp ⟨_, hheight⟩)
  obtain ⟨p, hp, -⟩ := h.side.describes.rooted.step hheight
  rw [SideStored.sideParent_eq hheader] at hp
  have hfound : a.heightBefore tip1.mainBlockHash tip1.blockHash = .ok (some (height + 1)) := by
    rw [heightBefore, h.headerBefore_eq hheader hp htip1, ok_bind]
    dsimp only
    rw [getHeight, hheight, okOr_some, ok_bind]
  rw [ancestorHeight, hlast, ok_bind, lineageLength, hheight]
  change a.findAncestor _ (height + 1 + 1) _ = _
  rw [findAncestor, getHeader, hheader, okOr_some, ok_bind, hfound, ok_bind]

/-- On one mainchain lineage a higher tip is better. -/
theorem Stored.beaten_of_height_lt (h : Stored m a) (htip0 : a.VerifiedTip tip0)
    (htip1 : a.VerifiedTip tip1)
    (hlineage : Descends m.parent tip0.mainBlockHash tip1.mainBlockHash ∨
      Descends m.parent tip1.mainBlockHash tip0.mainBlockHash) {height0 height1 : Nat}
    (hheight0 : a.blockHashToHeight[tip0.blockHash]? = some height0)
    (hheight1 : a.blockHashToHeight[tip1.blockHash]? = some height1) (hlt : height0 < height1) :
    a.Beaten tip0 tip1 := by
  have hne : tip0 ≠ tip1 := by
    rintro rfl
    cases hheight0.symm.trans hheight1
    exact lt_irrefl _ hlt
  rw [Beaten, betterTip, if_neg hne, getHeight, hheight0, okOr_some, ok_bind, getHeight, hheight1,
    okOr_some, ok_bind]
  match height0, height1 with
  | 0, height1 + 1 => rfl
  | height0 + 1, height1 + 1 =>
    obtain ⟨work0, hwork0⟩ := h.main.work (h.main_mem htip0)
    obtain ⟨work1, hwork1⟩ := h.main.work (h.main_mem htip1)
    have hcompare : compare (height0 + 1) (height1 + 1) = .lt := Nat.compare_eq_lt.mpr hlt
    change a.betterByWork tip0 tip1 (height0 + 1) (height1 + 1) = _
    rw [betterByWork, getTotalWork, hwork0, okOr_some, ok_bind, getTotalWork, hwork1, okOr_some,
      ok_bind, hcompare]
    cases hwork : compare work0 work1 with
    | lt => rfl
    | eq => rfl
    | gt =>
      have hdescends := hlineage.resolve_left fun hdescends =>
        (Nat.compare_eq_gt.mp hwork).not_ge (h.main.work_le hdescends hwork0 hwork1)
      have hge : ¬ (compare (some (height1 + 1)) (some (height0 + 1))).isLT = true := by
        change ¬ (compare (height1 + 1) (height0 + 1)).isLT = true
        rw [Nat.compare_eq_gt.mpr hlt]
        exact Bool.false_ne_true
      dsimp only
      rw [h.ancestorHeight_self htip0 htip1 hdescends hheight1, ok_bind, if_neg hge]

theorem TipsStored.height_eq (hcf : CollisionFree) (hstored : Stored m a) (h : TipsStored m a)
    {b : BlockHash} {info : SidechainTipInfo} {height : Nat}
    (hb : a.sideTips.sidechainTips[b]? = some info)
    (hheight : a.blockHashToHeight[b]? = some height) : height = info.sidechainHeight :=
  (hstored.side.heightOf hheight).unique hcf (h.height hb)

/-- The best tip is recorded as a tip, and every other tip stands before it. -/
theorem TipsStored.bestSideTip_cases (h : TipsStored m a) (hranked : a.Ranked) {best : Tip}
    (hbest : a.sideTips.bestSideTip = some best) :
    ∃ info, a.sideTips.sidechainTips[best.blockHash]? = some info ∧
      best.mainBlockHash = info.mainBlockHash ∧
      ∀ (b : BlockHash) info', a.sideTips.sidechainTips[b]? = some info' →
        b = best.blockHash ∨ compare info' info = .lt := by
  obtain ⟨⟨info, b0⟩, hlast, rfl⟩ := Option.map_eq_some_iff.mp hbest
  refine ⟨info, h.ordered (Db.get_of_last hlast), rfl, fun b info' hb => ?_⟩
  have hordered := hranked hb
  by_cases heq : info' = info
  · rw [heq, Db.get_of_last hlast] at hordered
    exact .inl (Option.some.inj hordered).symm
  · exact .inr (Db.lt_of_last hlast (Db.mem_of_get hordered) heq)

end Archive

/-- In every run in which mainchain blocks are disconnected only when no tip is
recorded with them, the tip that the order of the tips puts last is the best one
for the comparison of tips, if no other tip has its height. If every mainchain block
has some work, it is the best one only then. -/
theorem bestSideTip_rankedBest (hcf : CollisionFree) {m : Mainchain} {node : Node}
    (hreach : node.Reaches m (Node.Guarded .noTips)) {best : Tip}
    (hbest : node.archive.sideTips.bestSideTip = some best) :
    (node.archive.AloneAtHeight best → node.archive.RankedBest best) ∧
      ((∀ hash, 0 < (m.header hash).work) → node.archive.RankedBest best →
        node.archive.AloneAtHeight best) := by
  have hstored := hreach.stored hcf
  obtain ⟨htips, hranked⟩ := Archive.Ranked.calls hcf (fun _ _ h => h) (.new m) (.new m) .new
    (hreach.calls hcf)
  obtain ⟨info, hinfo, hmain, hlast⟩ := htips.bestSideTip_cases hranked hbest
  have hverified : node.archive.VerifiedTip best := by
    rw [Archive.VerifiedTip, hmain]
    exact htips.verified hinfo
  have hlineage : ∀ {b : BlockHash} {info'}, node.archive.sideTips.sidechainTips[b]? = some info' →
      Descends m.parent info'.mainBlockHash best.mainBlockHash ∨
        Descends m.parent best.mainBlockHash info'.mainBlockHash := by
    intro b info' hb
    obtain ⟨tip, htip, hdescends⟩ := htips.active (hranked hb)
    have hbestUp := htips.active (hranked hinfo)
    rw [htip, ← hmain, upTo_some] at hbestUp
    exact hdescends.total hbestUp
  constructor
  · intro halone b info' hb
    have htip : node.archive.VerifiedTip ⟨b, info'.mainBlockHash⟩ := htips.verified hb
    have hbefore : ∀ {height0 height1}, b ≠ best.blockHash →
        node.archive.blockHashToHeight[best.blockHash]? = some height0 →
        node.archive.blockHashToHeight[b]? = some height1 → height1 < height0 := by
      intro height0 height1 hne hheight0 hheight1
      have hlt := SidechainTipInfo.of_compare_lt ((hlast b info' hb).resolve_left hne)
      have heq : height1 ≠ height0 := fun heq => hne (halone b (Db.mem_of_get hb)
        (hstored.side.height.mp ⟨_, hheight1⟩) (hstored.side.height.mp ⟨_, hheight0⟩)
        (by rw [hheight0, hheight1, heq]))
      rw [htips.height_eq hcf hstored hinfo hheight0, htips.height_eq hcf hstored hb hheight1] at *
      omega
    refine ⟨fun hbeaten => ?_, fun hmem hbestMem hne => ?_⟩
    · obtain ⟨height0, height1, hheight0, hheight1, hcases⟩ :=
        hstored.beaten_lineage hverified htip (hlineage hb).symm hbeaten
      by_cases heq : b = best.blockHash
      · subst heq
        cases hinfo.symm.trans hb
        exact hbeaten.cases.1 (congrArg (Tip.mk best.blockHash) hmain)
      · have hlt := hbefore heq hheight0 hheight1
        omega
    · obtain ⟨height1, hheight1⟩ := hstored.side.height_of_mem hmem
      obtain ⟨height0, hheight0⟩ := hstored.side.height_of_mem hbestMem
      exact hstored.beaten_of_height_lt htip hverified (hlineage hb) hheight1 hheight0
        (hbefore hne hheight0 hheight1)
  · intro hpos hbest' b hb hmem hbestMem hheight
    by_contra hne
    obtain ⟨info', hb⟩ := (Db.mem_iff _ _).mp hb
    have htip : node.archive.VerifiedTip ⟨b, info'.mainBlockHash⟩ := htips.verified hb
    have hbeaten := (hbest' b info' hb).2 hmem hbestMem hne
    obtain ⟨height1, height0, hheight1, hheight0, hcases⟩ :=
      hstored.beaten_lineage htip hverified (hlineage hb) hbeaten
    have heq : height1 = height0 := Option.some.inj (hheight1.symm.trans (hheight.trans hheight0))
    have hlt := SidechainTipInfo.of_compare_lt ((hlast b info' hb).resolve_left hne)
    rw [← htips.height_eq hcf hstored hb hheight1, ← htips.height_eq hcf hstored hinfo hheight0]
      at hlt
    -- the other tip is committed to later, so it has more work
    obtain ⟨-, hdescends, hother⟩ := hcases.resolve_left (by omega)
    rw [hmain] at hdescends hother
    have hwork := hstored.main.work_lt hpos hdescends hother (htips.work hinfo) (htips.work hb)
    omega

end

namespace Instance

/-- The mainchain commits to a block, and then to a sibling of it. -/
def siblingMain : Mainchain :=
  lineMainchain [none, none, some headerG, some headerB1, some headerA1]

def siblingOps : List NodeOp :=
  [connectMain siblingMain 1, connectMain siblingMain 2, connectMain siblingMain 3,
    connectMain siblingMain 4] ++ storeEmpty headerG ++ storeEmpty headerB1 ++ storeEmpty headerA1

def siblingNode : Node := Node.new.run siblingOps

/-- The later one of two siblings is the best tip, and the earlier one is better. -/
theorem later_sibling_best :
    siblingNode.Reaches siblingMain (Node.Guarded .noTips) ∧
      siblingNode.archive.sideTips.bestSideTip = some ⟨headerA1.hash, 4⟩ ∧
      siblingNode.archive.sideTips.sidechainTips[headerB1.hash]? = some ⟨1, 3, 3⟩ ∧
      siblingNode.archive.Beaten ⟨headerA1.hash, 4⟩ ⟨headerB1.hash, 3⟩ := by
  have hreported : ∀ op ∈ siblingOps, op.Reported siblingMain := by decide +kernel
  have hallowed : ∀ op ∈ siblingOps, ∀ node, Node.Guarded .noTips node op := by
    simp [siblingOps, storeEmpty, connectMain, Node.Guarded, Guard.Allows, Guard.noTips, Guard.any]
  exact ⟨.run .new hreported (Node.permits_of hallowed _), by decide +kernel, by decide +kernel,
    by decide +kernel⟩

theorem bestSideTip_rankedBest_line :
    lineNode.archive.sideTips.bestSideTip = some lineTip ∧ lineNode.archive.RankedBest lineTip ∧
      lineNode.archive.AloneAtHeight lineTip := by
  have hbest : lineNode.archive.sideTips.bestSideTip = some lineTip := by decide +kernel
  have hothers : ∀ b ∈ lineNode.archive.sideTips.sidechainTips.keys,
      lineNode.archive.blockHashToHeight[b]? =
        lineNode.archive.blockHashToHeight[lineTip.blockHash]? → b = lineTip.blockHash := by
    decide +kernel
  have halone : lineNode.archive.AloneAtHeight lineTip := fun b hb _ _ hheight =>
    hothers b (Std.ExtTreeMap.mem_keys.mpr hb) hheight
  have hpos : ∀ hash, 0 < (lineMain.header hash).work := fun _ => Nat.one_pos
  obtain ⟨hranked, halone'⟩ := bestSideTip_rankedBest collisionFree lineNode_reaches hbest
  exact ⟨hbest, hranked halone, halone' hpos (hranked halone)⟩

end Instance

end PlainBitnames
