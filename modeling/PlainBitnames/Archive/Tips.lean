import PlainBitnames.Archive.Steps

/-!
The invariants of the sidechain tips along the steps of an archive. Every tip is
recorded with its height, with a mainchain block at which it is verified, and with
the total work of that block. The tips in the order of the tips are recorded with
blocks up to the recorded mainchain tip. Every tip has its place in the order as
long as no mainchain block is disconnected at which a tip is recorded.
-/

namespace PlainBitnames

open Fallible Lineage Relation

variable [Primitives]

/-- The number of blocks below a block, which its hash determines. -/
inductive HeightOf : BlockHash → Nat → Prop
  | root {header : Header} (h : header.prevSideHash = none) : HeightOf header.hash 0
  | step {header : Header} {p : BlockHash} {k : Nat} (h : header.prevSideHash = some p)
      (hp : HeightOf p k) : HeightOf header.hash (k + 1)

theorem HeightOf.of_header (hcf : CollisionFree) {header : Header} {k : Nat}
    (h : HeightOf header.hash k) :
    header.prevSideHash = none ∧ k = 0 ∨
      ∃ p j, header.prevSideHash = some p ∧ HeightOf p j ∧ k = j + 1 := by
  generalize hb : header.hash = b at h
  cases h with
  | root h => exact .inl ⟨Header.hash_injective hcf hb ▸ h, rfl⟩
  | step h hp => exact .inr ⟨_, _, Header.hash_injective hcf hb ▸ h, hp, rfl⟩

theorem HeightOf.unique (hcf : CollisionFree) {b : BlockHash} {k k' : Nat} (h : HeightOf b k)
    (h' : HeightOf b k') : k = k' := by
  induction h generalizing k' with
  | root hroot =>
    rcases h'.of_header hcf with ⟨-, rfl⟩ | ⟨p, j, hp, -, -⟩
    · rfl
    · cases hroot.symm.trans hp
  | step hstep _ ih =>
    rcases h'.of_header hcf with ⟨hroot, -⟩ | ⟨p, j, hp, hj, rfl⟩
    · cases hroot.symm.trans hstep
    · cases hstep.symm.trans hp
      rw [ih hj]

namespace Archive

variable {m : Mainchain} {a a' : Archive} {b : BlockHash}

theorem SideStored.heightOf (h : SideStored a) {k : Nat} (hk : a.blockHashToHeight[b]? = some k) :
    HeightOf b k := by
  induction k generalizing b with
  | zero =>
    obtain ⟨header, hheader⟩ := (Db.mem_iff _ _).mp (h.height.mp ⟨0, hk⟩)
    have hroot : a.sideParent b = none := h.describes.rooted.root hk
    rw [sideParent_eq hheader] at hroot
    exact h.hash_eq hheader ▸ .root hroot
  | succ k ih =>
    obtain ⟨header, hheader⟩ := (Db.mem_iff _ _).mp (h.height.mp ⟨_, hk⟩)
    obtain ⟨p, hp, hpk⟩ := h.describes.rooted.step hk
    rw [sideParent_eq hheader] at hp
    exact h.hash_eq hheader ▸ .step hp (ih hpk)

/-- What is recorded about the tips. -/
structure TipsStored (m : Mainchain) (a : Archive) : Prop where
  tip : ∀ {info}, a.sideTips.mainchainTip.tipInfo = some info →
    a.mainHeaderInfos[info.blockHash]? = some info
  total : ∀ {info}, a.sideTips.mainchainTip.tipInfo = some info →
    a.totalWork[info.blockHash]? = some a.sideTips.mainchainTip.cumulativeWork
  noTip : a.sideTips.mainchainTip.tipInfo = none → a.sideTips.mainchainTip.cumulativeWork = 0
  verified : ∀ {b : BlockHash} {info}, a.sideTips.sidechainTips[b]? = some info →
    a.Verified b info.mainBlockHash
  work : ∀ {b : BlockHash} {info}, a.sideTips.sidechainTips[b]? = some info →
    a.totalWork[info.mainBlockHash]? = some info.work
  height : ∀ {b : BlockHash} {info}, a.sideTips.sidechainTips[b]? = some info →
    HeightOf b info.sidechainHeight
  ordered : ∀ {info : SidechainTipInfo} {b}, a.sideTips.orderedSidechainTips[info]? = some b →
    a.sideTips.sidechainTips[b]? = some info
  active : ∀ {info : SidechainTipInfo} {b}, a.sideTips.orderedSidechainTips[info]? = some b →
    UpTo m.parent a.mainTip info.mainBlockHash

/-- Every tip has its place in the order of the tips. -/
def Ranked (a : Archive) : Prop :=
  ∀ ⦃b : BlockHash⦄ ⦃info⦄, a.sideTips.sidechainTips[b]? = some info →
    a.sideTips.orderedSidechainTips[info]? = some b

/-- No tip is recorded with the mainchain block that is the recorded tip. -/
def NoTipAtMainTip (a : Archive) : Prop :=
  ∀ (b : BlockHash) info, a.sideTips.sidechainTips[b]? = some info →
    a.mainTip ≠ some info.mainBlockHash

theorem TipsStored.new (m : Mainchain) : TipsStored m .new where
  tip h := nomatch h
  total h := nomatch h
  noTip _ := rfl
  verified h := by cases (Db.get_empty _).symm.trans h
  work h := by cases (Db.get_empty _).symm.trans h
  height h := by cases (Db.get_empty _).symm.trans h
  ordered h := by cases (Db.get_empty _).symm.trans h
  active h := by cases (Db.get_empty _).symm.trans h

theorem Ranked.new : Archive.new.Ranked :=
  fun _ _ h => by cases (Db.get_empty _).symm.trans h

def withTip (a : Archive) (b : BlockHash) (info : SidechainTipInfo) : Archive :=
  { a with sideTips := { a.sideTips with
      sidechainTips := a.sideTips.sidechainTips.insert b info
      orderedSidechainTips := a.sideTips.orderedSidechainTips.insert info b } }

theorem TipsStored.withTip (h : TipsStored m a) {info : SidechainTipInfo}
    (hb : b ∉ a.sideTips.sidechainTips) (hverified : a.Verified b info.mainBlockHash)
    (hwork : a.totalWork[info.mainBlockHash]? = some info.work)
    (hheight : HeightOf b info.sidechainHeight)
    (hactive : UpTo m.parent a.mainTip info.mainBlockHash) : TipsStored m (a.withTip b info) := by
  have hcases : ∀ {c : BlockHash} {i}, (a.sideTips.sidechainTips.insert b info)[c]? = some i →
      b = c ∧ info = i ∨ a.sideTips.sidechainTips[c]? = some i := by
    intro c i hc
    exact (Db.get_insert_cases hc).imp_right And.right
  refine ⟨h.tip, h.total, h.noTip, ?_, ?_, ?_, ?_, ?_⟩
  · intro c i hc
    rcases hcases hc with ⟨rfl, rfl⟩ | hc
    · exact hverified
    · exact h.verified hc
  · intro c i hc
    rcases hcases hc with ⟨rfl, rfl⟩ | hc
    · exact hwork
    · exact h.work hc
  · intro c i hc
    rcases hcases hc with ⟨rfl, rfl⟩ | hc
    · exact hheight
    · exact h.height hc
  · intro i c hc
    rcases Db.get_insert_cases hc with ⟨rfl, rfl⟩ | ⟨-, hc⟩
    · exact Db.get_insert_self _ _ _
    · have hold := h.ordered hc
      refine (Db.get_insert_ne _ _ ?_).trans hold
      rintro rfl
      exact hb (Db.mem_of_get hold)
  · intro i c hc
    rcases Db.get_insert_cases hc with ⟨rfl, rfl⟩ | ⟨-, hc⟩
    · exact hactive
    · exact h.active hc

/-- Only one block is verified at a mainchain block, so no place in the order is
taken twice. -/
theorem Ranked.withTip (hstored : Stored m a) (h : TipsStored m a) (hranked : a.Ranked)
    {info : SidechainTipInfo} (hb : b ∉ a.sideTips.sidechainTips)
    (hverified : a.Verified b info.mainBlockHash) : (a.withTip b info).Ranked := by
  intro c i hc
  rcases Db.get_insert_cases hc with ⟨rfl, rfl⟩ | ⟨-, hc⟩
  · exact Db.get_insert_self _ _ _
  · refine (Db.get_insert_ne _ _ ?_).trans (hranked hc)
    rintro rfl
    have hcommit := hstored.bmm.commit hverified
    have hcommit' := hstored.bmm.commit (h.verified hc)
    exact hb (Option.some.inj (hcommit.symm.trans hcommit') ▸ Db.mem_of_get hc)

/-- The archive with another recorded mainchain tip. -/
def withMainTip (a : Archive) (work : Nat) (info : Option BlockHeaderInfo) : Archive :=
  { a with sideTips := { a.sideTips with mainchainTip := ⟨work, info⟩ } }

variable {info : BlockHeaderInfo}

/-- The parent of the recorded mainchain tip. -/
theorem TipsStored.parent_eq (hmain : MainStored m a) (h : TipsStored m a)
    (hinfo : a.sideTips.mainchainTip.tipInfo = some info) :
    m.parent info.blockHash =
      if info.prevBlockHash = .allZeros then none else some info.prevBlockHash := by
  rw [Mainchain.parent, ← hmain.header_eq (h.tip hinfo)]

theorem TipsStored.upTo_mainTip (hstored : Stored m a) (h : TipsStored m a)
    {mainHash : MainBlockHash} (hmem : mainHash ∈ a.mainHeaderInfos)
    (hactive : a.isMainDescendant mainHash a.sideTips.mainchainTip.blockHash = .ok true) :
    UpTo m.parent a.mainTip mainHash := by
  cases htip : a.sideTips.mainchainTip.tipInfo with
  | none =>
    -- the zero hash has no height
    rw [MainchainTip.blockHash, htip] at hactive
    obtain ⟨-, hzeros⟩ := Index.heights_of_isDescendant hactive (hstored.main.ne_zeros hmem)
    exact absurd rfl (hstored.main.ne_zeros (hstored.main.height.mp hzeros))
  | some info =>
    rw [MainchainTip.blockHash, htip] at hactive
    rw [mainTip, htip]
    exact upTo_some.mpr ((hstored.main.isMainDescendant_eq_true hmem
      (Db.mem_of_get (h.tip htip))).mp hactive)

/-- A child of the recorded mainchain tip. -/
theorem TipsStored.mainTip_eq (hstored : Stored m a) (h : TipsStored m a)
    (hinfo : a.mainHeaderInfos[info.blockHash]? = some info)
    (hprev : info.prevBlockHash = a.sideTips.mainchainTip.blockHash) :
    m.parent info.blockHash = a.mainTip := by
  cases htip : a.sideTips.mainchainTip.tipInfo with
  | none =>
    rw [MainchainTip.blockHash, htip] at hprev
    rw [mainTip, htip, Mainchain.parent, ← hstored.main.header_eq hinfo, if_pos hprev]
    rfl
  | some old =>
    rw [MainchainTip.blockHash, htip] at hprev
    rw [mainTip, htip, Option.map_some, Mainchain.parent_eq_some,
      ← hstored.main.header_eq hinfo]
    exact ⟨hprev, hstored.main.ne_zeros (Db.mem_of_get (h.tip htip))⟩

/-- The recorded mainchain tip moves to a child. -/
theorem TipsStored.advance (hstored : Stored m a) (h : TipsStored m a)
    (hinfo : a.mainHeaderInfos[info.blockHash]? = some info)
    (hprev : info.prevBlockHash = a.sideTips.mainchainTip.blockHash) :
    TipsStored m (a.withMainTip (a.sideTips.mainchainTip.cumulativeWork + info.work)
      (some info)) := by
  have hparent := h.mainTip_eq hstored hinfo hprev
  obtain ⟨w, hw⟩ := hstored.main.work (Db.mem_of_get hinfo)
  have hwork : w = a.sideTips.mainchainTip.cumulativeWork + info.work := by
    rw [hstored.main.header_eq hinfo]
    cases htip : a.sideTips.mainchainTip.tipInfo with
    | none =>
      rw [mainTip, htip] at hparent
      rw [h.noTip htip, Nat.zero_add]
      exact hstored.main.work_root hw hparent
    | some old =>
      rw [mainTip, htip] at hparent
      obtain ⟨w', hw', rfl⟩ := hstored.main.work_step hw hparent
      rw [h.total htip] at hw'
      rw [Option.some.inj hw']
  refine ⟨fun hnew => Option.some.inj hnew ▸ hinfo, fun hnew => ?_, nofun, h.verified, h.work,
    h.height, h.ordered, fun hc => ?_⟩
  · cases hnew
    exact hwork ▸ hw
  · obtain ⟨old, hold, hx⟩ := h.active hc
    exact upTo_some.mpr (hx.trans (.of_parent (hparent.trans hold)))

theorem TipsStored.tipHeight_ok (hcf : CollisionFree) (hstored : Stored m a) (h : TipsStored m a)
    {header : Header} {height : Nat} (hheader : a.headers[b]? = some header)
    (hheight : a.sideTips.tipHeight header.prevSideHash = .ok height) : HeightOf b height := by
  obtain ⟨k, hk⟩ := hstored.side.height_of_mem (Db.mem_of_get hheader)
  have hof := hstored.side.heightOf hk
  have hbound := hstored.side.bound hk
  have hhash := hstored.side.hash_eq hheader
  rw [← hhash] at hof
  rcases hof.of_header hcf with ⟨hnone, rfl⟩ | ⟨p, j, hp, hj, rfl⟩
  · rw [hnone] at hheight
    cases hheight
    exact hhash ▸ hof
  · rw [hp] at hheight
    obtain ⟨info, hinfo, hheight⟩ := bind_eq_ok.mp hheight
    rw [(h.height (okOr_eq_ok.mp hinfo)).unique hcf hj, min_eq_left (by omega)] at hheight
    cases hheight
    exact hhash ▸ hof

variable {sideTips : SideTips}

/-- Connecting a tip changes nothing, or records a new one. -/
theorem TipsStored.connect_cases (hcf : CollisionFree) (hstored : Stored m a) (h : TipsStored m a)
    {header : Header} {mainHash : MainBlockHash} {work : Nat}
    (hheader : a.headers[b]? = some header)
    (hconnect : a.sideTips.connectSidechainTip mainHash work b header.prevSideHash =
      .ok sideTips) :
    sideTips = a.sideTips ∨ b ∉ a.sideTips.sidechainTips ∧ ∃ info : SidechainTipInfo,
      info.mainBlockHash = mainHash ∧ info.work = work ∧ HeightOf b info.sidechainHeight ∧
        sideTips = (a.withTip b info).sideTips := by
  rcases SideTips.connectSidechainTip_ok hconnect with ⟨-, rfl⟩ | ⟨hb, height, hheight, rfl⟩
  · exact .inl rfl
  · exact .inr ⟨hb, ⟨height, work, mainHash⟩, rfl, rfl,
      h.tipHeight_ok hcf hstored hheader hheight, rfl⟩

/-- The recorded mainchain tip moves to a child, which may commit to a new tip. -/
theorem TipsStored.connectMainchainTip_cases (hcf : CollisionFree) (hstored : Stored m a)
    (h : TipsStored m a) {commitment : Option (BlockHash × Option BlockHash)}
    (hinfo : a.mainHeaderInfos[info.blockHash]? = some info)
    (hcommitment : a.VerifiedCommitment info.blockHash commitment)
    (hconnect : a.sideTips.connectMainchainTip info commitment = .ok sideTips) :
    ∃ work, TipsStored m (a.withMainTip work (some info)) ∧
      ({ a with sideTips } = a.withMainTip work (some info) ∨
        ∃ b tipInfo, b ∉ a.sideTips.sidechainTips ∧ a.Verified b info.blockHash ∧
          tipInfo.mainBlockHash = info.blockHash ∧
          a.totalWork[info.blockHash]? = some tipInfo.work ∧ HeightOf b tipInfo.sidechainHeight ∧
          { a with sideTips } = (a.withMainTip work (some info)).withTip b tipInfo) := by
  obtain ⟨hprev, -, connected, hconnected, rfl⟩ := SideTips.connectMainchainTip_ok hconnect
  have hadvance := h.advance hstored hinfo hprev
  refine ⟨_, hadvance, ?_⟩
  cases commitment with
  | none =>
    cases hconnected
    exact .inl rfl
  | some commitment =>
    obtain ⟨b, prev⟩ := commitment
    obtain ⟨hverified, header, hheader, rfl⟩ := hcommitment
    rcases h.connect_cases hcf hstored hheader hconnected with
      rfl | ⟨hb, tipInfo, hmain, hwork, hheight, rfl⟩
    · exact .inl rfl
    · exact .inr ⟨b, tipInfo, hb, hverified, hmain, hwork ▸ hadvance.total rfl, hheight, rfl⟩

theorem TipsStored.connectMainchainTip (hcf : CollisionFree) (hstored : Stored m a)
    (h : TipsStored m a) {commitment : Option (BlockHash × Option BlockHash)}
    (hinfo : a.mainHeaderInfos[info.blockHash]? = some info)
    (hcommitment : a.VerifiedCommitment info.blockHash commitment)
    (hconnect : a.sideTips.connectMainchainTip info commitment = .ok sideTips) :
    TipsStored m { a with sideTips } ∧ (a.Ranked → { a with sideTips }.Ranked) := by
  obtain ⟨work, hadvance, heq | ⟨b, tipInfo, hb, hverified, hmain, hwork, hheight, heq⟩⟩ :=
    h.connectMainchainTip_cases hcf hstored hinfo hcommitment hconnect
  · rw [heq]
    exact ⟨hadvance, fun hranked => hranked⟩
  · have hverified' : (a.withMainTip work (some info)).Verified b tipInfo.mainBlockHash :=
      hmain ▸ hverified
    rw [heq]
    refine ⟨hadvance.withTip hb hverified' (hmain ▸ hwork) hheight ?_, fun hranked => ?_⟩
    · rw [hmain]
      exact upTo_some.mpr (.refl _)
    · exact Ranked.withTip (hstored.withTips a.bodies _) hadvance hranked hb hverified'

/-- The block below the recorded mainchain tip, with its total work. -/
theorem TipsStored.below (hstored : Stored m a) (h : TipsStored m a) {tipInfo : BlockHeaderInfo}
    (htipInfo : a.sideTips.mainchainTip.tipInfo = some tipInfo) {prev newTip : Option BlockHeaderInfo}
    (hprev : ∀ info, prev = some info → a.mainHeaderInfos[info.blockHash]? = some info)
    (hnewTip : SideTips.prevTip tipInfo prev = .ok newTip) :
    newTip.map BlockHeaderInfo.blockHash = m.parent tipInfo.blockHash ∧
      (∀ info, newTip = some info → a.mainHeaderInfos[info.blockHash]? = some info ∧
        a.totalWork[info.blockHash]? =
          some (a.sideTips.mainchainTip.cumulativeWork - tipInfo.work)) ∧
      (newTip = none → a.sideTips.mainchainTip.cumulativeWork - tipInfo.work = 0) := by
  have hparent := h.parent_eq hstored.main htipInfo
  have htotal := h.total htipInfo
  have hheader := hstored.main.header_eq (h.tip htipInfo)
  rcases SideTips.prevTip_ok hnewTip with ⟨rfl, hzeros⟩ | ⟨info, rfl, rfl, hhash, hne⟩
  · rw [if_pos hzeros] at hparent
    have hwork := hstored.main.work_root htotal hparent
    rw [← hheader] at hwork
    exact ⟨hparent.symm, nofun, fun _ => by omega⟩
  · rw [if_neg hne, ← hhash] at hparent
    obtain ⟨w, hw, hwork⟩ := hstored.main.work_step htotal hparent
    rw [← hheader] at hwork
    refine ⟨hparent.symm, fun info' hinfo' => ?_, nofun⟩
    cases hinfo'
    refine ⟨hprev info rfl, hw.trans (congrArg some ?_)⟩
    omega

/-- The recorded mainchain tip moves to its parent. No tip in the order is recorded
with the block that was the tip. -/
theorem TipsStored.disconnectMainchainTip (hstored : Stored m a) (h : TipsStored m a)
    {prev : Option BlockHeaderInfo} {hash : MainBlockHash} {blockInfo : MainBlockInfo}
    (hprev : ∀ info, prev = some info → a.mainHeaderInfos[info.blockHash]? = some info)
    (hinfo : a.mainBlockInfos[hash]? = some blockInfo)
    (htip : a.mainTip = some hash ∨ a.NoTipAtMainTip)
    (hdisconnect : a.sideTips.disconnectMainchainTip prev blockInfo.bmmCommitment =
      .ok sideTips) :
    TipsStored m { a with sideTips } ∧
      (a.NoTipAtMainTip → a.Ranked → { a with sideTips }.Ranked) := by
  obtain ⟨tipInfo, newTip, disconnected, htipInfo, hnewTip, hdisconnected, -, rfl⟩ :=
    SideTips.disconnectMainchainTip_ok hdisconnect
  have hmainTip : a.mainTip = some tipInfo.blockHash := by rw [mainTip, htipInfo]; rfl
  obtain ⟨hnew, hsome, hnone⟩ := h.below hstored htipInfo hprev hnewTip
  have hsame : disconnected.sidechainTips = a.sideTips.sidechainTips ∧
      disconnected.mainchainTip = a.sideTips.mainchainTip ∧
      (∀ {i : SidechainTipInfo} {c}, disconnected.orderedSidechainTips[i]? = some c →
        a.sideTips.orderedSidechainTips[i]? = some c ∧ i.mainBlockHash ≠ tipInfo.blockHash) ∧
      (a.NoTipAtMainTip → disconnected = a.sideTips) := by
    rcases SideTips.disconnectCommitment_ok hdisconnected with
      ⟨rfl, hother⟩ | ⟨b, info, hcommit, hb, hmain, rfl⟩
    · refine ⟨rfl, rfl, fun {i c} hc => ⟨hc, fun hmain => ?_⟩, fun _ => rfl⟩
      have htips := h.ordered hc
      rcases htip with htip | hnoTip
      · cases hmainTip.symm.trans htip
        have hcommit := hstored.bmm.commit (h.verified htips)
        rw [hmain, ← hstored.main.info_eq hinfo] at hcommit
        obtain ⟨i', hi', hne⟩ := hother c hcommit
        cases htips.symm.trans hi'
        exact hne hmain
      · exact hnoTip c i htips (hmainTip.trans (congrArg some hmain.symm))
    · refine ⟨rfl, rfl, fun {i c} hc => ?_, fun hnoTip => ?_⟩
      · rw [Db.get_erase] at hc
        split at hc
        case isTrue => cases hc
        case isFalse hne =>
          refine ⟨hc, fun hmain' => hne ?_⟩
          have htips := h.ordered hc
          have hcommit' := hstored.bmm.commit (h.verified htips)
          rw [hmain', ← hmain, hstored.bmm.commit (h.verified hb)] at hcommit'
          cases hcommit'
          exact Option.some.inj (hb.symm.trans htips)
      · exact absurd (hmainTip.trans (congrArg some hmain.symm)) (hnoTip b info hb)
  obtain ⟨htips, htip', hordered, hunchanged⟩ := hsame
  rw [htip'] at *
  refine ⟨⟨fun hi => (hsome _ hi).1, fun hi => (hsome _ hi).2, hnone, fun hc => h.verified (htips ▸ hc),
    fun hc => h.work (htips ▸ hc), fun hc => h.height (htips ▸ hc),
    fun hc => (congrArg (fun d => d[_]?) htips).trans (h.ordered (hordered hc).1),
    fun {i c} hc => ?_⟩, fun hnoTip hranked => ?_⟩
  · obtain ⟨hc, hne⟩ := hordered hc
    have hactive := h.active hc
    rw [hmainTip, upTo_some, descends_iff_upTo_parent, ← hnew] at hactive
    exact hactive.resolve_left hne
  · rw [hunchanged hnoTip]
    exact hranked

theorem TipsStored.disconnectSidechainTip (h : TipsStored m a) (b : BlockHash) :
    TipsStored m { a with sideTips := a.sideTips.disconnectSidechainTip b } ∧
      (a.Ranked → { a with sideTips := a.sideTips.disconnectSidechainTip b }.Ranked) := by
  unfold SideTips.disconnectSidechainTip
  split
  case h_1 => exact ⟨{ h with tip := h.tip }, fun hranked => hranked⟩
  case h_2 info hinfo =>
    have herase : ∀ {c : BlockHash} {i}, (a.sideTips.sidechainTips.erase b)[c]? = some i →
        b ≠ c ∧ a.sideTips.sidechainTips[c]? = some i := by
      intro c i hc
      rw [Db.get_erase] at hc
      split at hc
      case isTrue => cases hc
      case isFalse hne => exact ⟨hne, hc⟩
    have herase' : ∀ {i : SidechainTipInfo} {c},
        (a.sideTips.orderedSidechainTips.erase info)[i]? = some c →
        info ≠ i ∧ a.sideTips.orderedSidechainTips[i]? = some c := by
      intro i c hc
      rw [Db.get_erase] at hc
      split at hc
      case isTrue => cases hc
      case isFalse hne => exact ⟨hne, hc⟩
    refine ⟨⟨h.tip, h.total, h.noTip, fun hc => h.verified (herase hc).2,
      fun hc => h.work (herase hc).2, fun hc => h.height (herase hc).2, fun {i c} hc => ?_,
      fun hc => h.active (herase' hc).2⟩, fun hranked c i hc => ?_⟩
    · obtain ⟨hne, hc⟩ := herase' hc
      have hold := h.ordered hc
      refine (Db.get_erase_ne _ ?_).trans hold
      rintro rfl
      exact hne (Option.some.inj (hinfo.symm.trans hold))
    · obtain ⟨hne, hc⟩ := herase hc
      refine (Db.get_erase_ne _ ?_).trans (hranked hc)
      rintro rfl
      exact hne (Option.some.inj ((hranked hinfo).symm.trans (hranked hc)))

theorem MainStored.work_op (h : MainStored m a) {op : ArchiveOp} (hop : op.Reported m)
    (hput : a.op op = .ok a') {hash : MainBlockHash} {w : Nat} (hw : a.totalWork[hash]? = some w) :
    a'.totalWork[hash]? = some w := by
  cases op with
  | header header =>
    obtain ⟨_, _, _, _, -, -, -, -, rfl⟩ := putHeader_ok hput
    exact hw
  | mainHeaderInfo info =>
    obtain ⟨_, height, work, pred, skips, hheight, hwork, hpred, hskips, rfl⟩ :=
      putMainHeaderInfo_ok hput
    exact Db.get_insert_again (h.work_again hop.1 hwork) hw
  | mainBlockInfo hash info =>
    obtain ⟨_, -, -, ⟨rfl, -⟩ | ⟨_, _, _, -, -, -, rfl⟩⟩ := putMainBlockInfo_ok hput <;> exact hw

theorem TipsStored.op (hstored : Stored m a) (h : TipsStored m a) {op : ArchiveOp}
    (hop : op.Reported m) (hput : a.op op = .ok a') :
    TipsStored m a' ∧ (a.Ranked → a'.Ranked) := by
  have htips := (op_frame hput).1
  constructor
  · refine ⟨?_, ?_, ?_, ?_, ?_, ?_, ?_, ?_⟩ <;> rw [htips]
    · exact fun hinfo => hstored.main.header_op hop hput (h.tip hinfo)
    · exact fun hinfo => hstored.main.work_op hop hput (h.total hinfo)
    · exact h.noTip
    · exact fun hb => hstored.verified_op hop hput (h.verified hb)
    · exact fun hb => hstored.main.work_op hop hput (h.work hb)
    · exact h.height
    · exact h.ordered
    · rw [mainTip, htips]
      exact h.active
  · rw [Ranked, Ranked, htips]
    exact fun hranked => hranked

variable {disconnects : Archive → MainBlockHash → Prop}

/-- What is recorded about the tips stays right along every step. Every tip keeps its
place in the order, if mainchain blocks are disconnected only when no tip is recorded
with them. -/
theorem TipsStored.step (hcf : CollisionFree)
    (hdisconnects : ∀ a hash, disconnects a hash → a.mainTip = some hash ∨ a.NoTipAtMainTip)
    (hstored : Stored m a) (h : TipsStored m a) (hstep : Step m disconnects a a') :
    TipsStored m a' ∧
      ((∀ a hash, disconnects a hash → a.NoTipAtMainTip) → a.Ranked → a'.Ranked) := by
  cases hstep with
  | op hop hput => exact (h.op hstored hop hput).imp_right fun hkeeps _ => hkeeps
  | bodies bodies => exact ⟨{ h with tip := h.tip }, fun _ hranked => hranked⟩
  | connectSidechainTip hheader hverified hactive hwork hconnect =>
    rcases h.connect_cases hcf hstored hheader hconnect with
      rfl | ⟨hb, info, hmain, hinfoWork, hheight, rfl⟩
    · exact ⟨h, fun _ hranked => hranked⟩
    · refine ⟨h.withTip hb (hmain ▸ hverified) (by rw [hmain, hinfoWork, hwork]) hheight ?_,
        fun _ hranked => Ranked.withTip hstored h hranked hb (hmain ▸ hverified)⟩
      rw [hmain]
      exact h.upTo_mainTip hstored (hstored.bmm.main_mem hstored.main _ _ hverified) hactive
  | disconnectSidechainTip b => exact (h.disconnectSidechainTip b).imp_right fun hkeeps _ => hkeeps
  | connectMainchainTip hinfo hcommitment hconnect =>
    exact (h.connectMainchainTip hcf hstored hinfo hcommitment hconnect).imp_right
      fun hkeeps _ => hkeeps
  | disconnectMainchainTip hguard hprev hinfo hdisconnect =>
    exact (h.disconnectMainchainTip hstored hprev hinfo (hdisconnects _ _ hguard)
      hdisconnect).imp_right fun hkeeps hnoTip => hkeeps (hnoTip _ _ hguard)
  | invalidateBlock hb =>
    obtain ⟨gone, hgone⟩ := exists_invalidating hstored.side hb
    generalize a.invalidateBlock _ = a' at hgone
    rw [hgone.pruned.rest]
    exact ⟨{ h with tip := h.tip }, fun _ hranked => hranked⟩

theorem TipsStored.steps (hcf : CollisionFree)
    (hdisconnects : ∀ a hash, disconnects a hash → a.mainTip = some hash ∨ a.NoTipAtMainTip)
    (hstored : Stored m a) (h : TipsStored m a) (hsteps : Steps m disconnects a a') :
    TipsStored m a' := by
  induction hsteps with
  | refl => exact h
  | tail hsteps hstep ih => exact (ih.step hcf hdisconnects (hstored.steps hcf hsteps).1 hstep).1

theorem Ranked.steps (hcf : CollisionFree)
    (hdisconnects : ∀ a hash, disconnects a hash → a.NoTipAtMainTip) (hstored : Stored m a)
    (h : TipsStored m a) (hranked : a.Ranked) (hsteps : Steps m disconnects a a') : a'.Ranked := by
  have hdisconnects' : ∀ a hash, disconnects a hash → a.mainTip = some hash ∨ a.NoTipAtMainTip :=
    fun a hash hd => .inr (hdisconnects a hash hd)
  induction hsteps with
  | refl => exact hranked
  | tail hsteps hstep ih =>
    exact ((h.steps hcf hdisconnects' hstored hsteps).step hcf hdisconnects'
      (hstored.steps hcf hsteps).1 hstep).2 hdisconnects ih

end Archive

end PlainBitnames
