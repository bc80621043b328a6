import PlainBitnames.Archive.Build
import PlainBitnames.Lib.Segment

/-!
The results of blind merged mining in a built archive. Two operations maintain
the table from opposite sides, a header when it is stored and a mainchain block
when its info is stored. Whichever comes last, the result of a stored header at
a stored block is the one the rule gives: the block commits to the header and
has the parent that the header names, and the parent of the header is verified
at an ancestor of the block.
-/

namespace PlainBitnames

open Fallible Lineage

variable [Primitives]

namespace Archive

/-- The result of a block at a mainchain block is recorded as verified. -/
def Verified (a : Archive) (b : BlockHash) (mainHash : MainBlockHash) : Prop :=
  a.tryGetBmmResult b mainHash = some .verified

/-- The rule for the result of a header at a mainchain block. -/
def BmmRule (m : Mainchain) (a : Archive) (header : Header) (mainHash : MainBlockHash) : Prop :=
  (m.info mainHash).bmmCommitment = some header.hash ∧
    (m.header mainHash).prevBlockHash = header.prevMainHash ∧
    ∀ p, header.prevSideHash = some p →
      ∃ earlier, Descends m.parent earlier mainHash ∧ a.Verified p earlier

variable {m : Mainchain} {a a' : Archive} {header : Header} {mainHash : MainBlockHash}

/-- The rule reads the results of the parent at the ancestors. -/
theorem BmmRule.congr (hparent : (m.info mainHash).bmmCommitment = some header.hash →
      ∀ p earlier, header.prevSideHash = some p → Descends m.parent earlier mainHash →
        (a.Verified p earlier ↔ a'.Verified p earlier)) :
    BmmRule m a header mainHash ↔ BmmRule m a' header mainHash := by
  refine and_congr_right fun hcommit => and_congr_right fun _ => ?_
  refine forall_congr' fun p => forall_congr' fun hp => exists_congr fun earlier => ?_
  exact and_congr_right fun hdescends => hparent hcommit p earlier hp hdescends

theorem BmmRule.mono (hgrow : ∀ p earlier, a.Verified p earlier → a'.Verified p earlier)
    (h : BmmRule m a header mainHash) : BmmRule m a' header mainHash := by
  obtain ⟨hcommit, hprev, hparent⟩ := h
  refine ⟨hcommit, hprev, fun p hp => ?_⟩
  obtain ⟨earlier, hdescends, hverified⟩ := hparent p hp
  exact ⟨earlier, hdescends, hgrow p earlier hverified⟩

/-- The table of results of a built archive. -/
structure BmmStored (m : Mainchain) (a : Archive) : Prop where
  info : ∀ {b mainHash}, a.Verified b mainHash → mainHash ∈ a.mainBlockInfos
  commit : ∀ {b mainHash}, a.Verified b mainHash → (m.info mainHash).bmmCommitment = some b
  /-- Results are kept when a block is invalidated. -/
  sound : ∀ {header : Header} {mainHash}, a.Verified header.hash mainHash →
    BmmRule m a header mainHash
  rule : ∀ {b : BlockHash} {header mainHash}, a.headers[b]? = some header →
    mainHash ∈ a.mainBlockInfos → (a.Verified b mainHash ↔ BmmRule m a header mainHash)

theorem anyVerifiedBefore_eq_ok (h : MainStored m a) (hmain : mainHash ∈ a.mainHeaderInfos)
    {results : List (MainBlockHash × BmmResult)}
    (hresults : ∀ earlier, (earlier, BmmResult.verified) ∈ results →
      earlier ∈ a.mainHeaderInfos) :
    ∃ found, a.anyVerifiedBefore mainHash results = .ok found ∧
      (found = true ↔ ∃ earlier, Descends m.parent earlier mainHash ∧
        (earlier, BmmResult.verified) ∈ results) := by
  induction results with
  | nil => exact ⟨false, rfl, by simp⟩
  | cons entry results ih =>
    obtain ⟨earlier, result⟩ := entry
    obtain ⟨found, hfound, hspec⟩ := ih fun x hx => hresults x (List.mem_cons_of_mem _ hx)
    cases result with
    | failed =>
      refine ⟨found, hfound, ?_⟩
      rw [hspec]
      simp
    | verified =>
      obtain ⟨isAncestor, hdescendant, hdescends⟩ := h.exists_isMainDescendant
        (hresults earlier (List.mem_cons_self)) hmain
      rw [anyVerifiedBefore, if_pos rfl, hdescendant, ok_bind]
      cases isAncestor with
      | true =>
        exact ⟨true, rfl, fun _ => ⟨earlier, hdescends.mp rfl, List.mem_cons_self⟩,
          fun _ => rfl⟩
      | false =>
        refine ⟨found, hfound, ?_⟩
        rw [hspec]
        refine exists_congr fun x => and_congr_right fun hx => ?_
        rw [List.mem_cons, Prod.mk.injEq]
        refine ⟨.inr, fun hor => hor.resolve_left ?_⟩
        rintro ⟨rfl, -⟩
        exact absurd (hdescends.mpr hx) Bool.false_ne_true

theorem parentVerified_eq_ok (h : MainStored m a) (hmain : mainHash ∈ a.mainHeaderInfos)
    (parent : Option BlockHash)
    (hresults : ∀ p earlier, a.Verified p earlier → earlier ∈ a.mainHeaderInfos) :
    ∃ verified, a.parentVerified parent mainHash = .ok verified ∧
      (verified = true ↔ ∀ p, parent = some p →
        ∃ earlier, Descends m.parent earlier mainHash ∧ a.Verified p earlier) := by
  cases parent with
  | none => exact ⟨true, rfl, by simp⟩
  | some p =>
    have hmem : ∀ earlier, (earlier, BmmResult.verified) ∈ (a.getBmmResults p).toList ↔
        a.Verified p earlier := fun earlier =>
      Db.mem_toList
    have hknown : ∀ earlier, (earlier, BmmResult.verified) ∈ (a.getBmmResults p).toList →
        earlier ∈ a.mainHeaderInfos := fun earlier hearlier =>
      hresults p earlier ((hmem earlier).mp hearlier)
    obtain ⟨found, hfound, hspec⟩ := anyVerifiedBefore_eq_ok h hmain hknown
    refine ⟨found, hfound, ?_⟩
    simp only [hspec, hmem, Option.some.injEq, forall_eq']

omit [Primitives] in
/-- A loop that puts a computed value under every key of a list. -/
theorem foldlM_insert {K V W : Type} [DecidableEq K] [Ord K] [Std.TransOrd K] [Std.LawfulEqOrd K]
    {E : Type} {f : K → Except E V} {l : List (K × W)} {d d' : Db K V}
    (h : l.foldlM (fun d entry => do
      let v ← f entry.1
      .ok (d.insert entry.1 v)) d = .ok d') (k : K) :
    (k ∈ l.map Prod.fst → ∃ v, f k = .ok v ∧ d'[k]? = some v) ∧
      (k ∉ l.map Prod.fst → d'[k]? = d[k]?) := by
  induction l generalizing d with
  | nil =>
    obtain rfl := foldlM_nil_eq_ok.mp h
    exact ⟨fun hk => absurd hk List.not_mem_nil, fun _ => rfl⟩
  | cons entry l ih =>
    obtain ⟨mid, hmid, h⟩ := foldlM_cons_eq_ok.mp h
    obtain ⟨v, hv, hmid⟩ := bind_eq_ok.mp hmid
    cases hmid
    obtain ⟨hin, hout⟩ := ih h
    rw [List.map_cons, List.mem_cons, not_or]
    by_cases hk : k ∈ l.map Prod.fst
    · exact ⟨fun _ => hin hk, fun hnot => absurd hk hnot.2⟩
    · rw [hout hk, Db.get_insert]
      refine ⟨?_, fun hnot => by rw [if_neg (Ne.symm hnot.1)]⟩
      rintro (rfl | hk')
      · exact ⟨v, hv, if_pos rfl⟩
      · exact absurd hk' hk

theorem commitmentBmmResult_ok (h : MainStored m a)
    (hresults : ∀ p earlier, a.Verified p earlier → earlier ∈ a.mainHeaderInfos)
    {mainHeader : BlockHeaderInfo} {result : BmmResult}
    (hcommit : (m.info mainHash).bmmCommitment = some header.hash)
    (hheader : a.mainHeaderInfos[mainHash]? = some mainHeader)
    (hresult : a.commitmentBmmResult header mainHash mainHeader = .ok result) :
    result = .verified ↔ BmmRule m a header mainHash := by
  rw [BmmRule, ← h.header_eq hheader]
  unfold commitmentBmmResult at hresult
  split at hresult
  case isTrue hne =>
    cases hresult
    exact ⟨fun h => (nomatch h), fun h => absurd h.2.1.symm hne⟩
  case isFalse hprev =>
    rw [not_not] at hprev
    obtain ⟨verified, hverified, hspec⟩ := parentVerified_eq_ok h (Db.mem_of_get hheader)
      header.prevSideHash hresults
    rw [hverified, ok_bind] at hresult
    cases hresult
    cases verified with
    | true => exact ⟨fun _ => ⟨hcommit, hprev.symm, hspec.mp rfl⟩, fun _ => rfl⟩
    | false =>
      exact ⟨fun h => (nomatch h), fun h => absurd (hspec.mpr h.2.2) Bool.false_ne_true⟩

/-- The result of a header at a stored mainchain block. -/
theorem headerBmmResult_ok (h : MainStored m a)
    (hresults : ∀ p earlier, a.Verified p earlier → earlier ∈ a.mainHeaderInfos)
    {result : BmmResult} (hresult : a.headerBmmResult header mainHash = .ok result) :
    mainHash ∈ a.mainBlockInfos ∧ (result = .verified ↔ BmmRule m a header mainHash) := by
  obtain ⟨info, hinfo, hresult⟩ := bind_eq_ok.mp hresult
  have hinfo := okOr_eq_ok.mp hinfo
  refine ⟨Db.mem_of_get hinfo, ?_⟩
  split at hresult
  case isTrue hne =>
    cases hresult
    rw [BmmRule, ← h.info_eq hinfo]
    exact ⟨fun h => (nomatch h), fun h => absurd h.1 hne⟩
  case isFalse hcommit =>
    rw [not_not, h.info_eq hinfo] at hcommit
    obtain ⟨mainHeader, hheader, hresult⟩ := bind_eq_ok.mp hresult
    exact commitmentBmmResult_ok h hresults hcommit (okOr_eq_ok.mp hheader) hresult

/-- The results of a table in which one row was replaced. -/
theorem verified_insert {b : BlockHash} {row : Db MainBlockHash BmmResult}
    (ha' : a'.bmmResults = a.bmmResults.insert b row) (c : BlockHash) (mainHash : MainBlockHash) :
    a'.Verified c mainHash ↔
      if b = c then row[mainHash]? = some .verified else a.Verified c mainHash := by
  unfold Verified tryGetBmmResult getBmmResults
  rw [ha', Db.get_insert]
  by_cases heq : b = c
  · rw [if_pos heq, if_pos heq]
    rfl
  · rw [if_neg heq, if_neg heq]

namespace BmmStored

variable {m : Mainchain} {a : Archive}

theorem not_verified_new (b : BlockHash) (mainHash : MainBlockHash) :
    ¬ Archive.new.Verified b mainHash := by
  have hnone : Archive.new.tryGetBmmResult b mainHash = none := by
    rw [tryGetBmmResult, getBmmResults, show Archive.new.bmmResults[b]? = none from
      Db.get_empty _, Option.getD_none, Db.get_empty]
  rw [Verified, hnone]
  nofun

theorem new (m : Mainchain) : BmmStored m .new where
  info h := absurd h (not_verified_new _ _)
  commit h := absurd h (not_verified_new _ _)
  sound h := absurd h (not_verified_new _ _)
  rule h := by cases (Db.get_empty _).symm.trans h

theorem main_mem (h : BmmStored m a) (hmain : MainStored m a) (p : BlockHash)
    (earlier : MainBlockHash) (hverified : a.Verified p earlier) :
    earlier ∈ a.mainHeaderInfos :=
  hmain.info_header (h.info hverified)

variable {a' : Archive}

theorem putMainHeaderInfo (h : BmmStored m a) {info : BlockHeaderInfo}
    (hput : a.putMainHeaderInfo info = .ok a') : BmmStored m a' := by
  obtain ⟨-, _, _, _, _, -, -, -, -, rfl⟩ := putMainHeaderInfo_ok hput
  exact ⟨h.info, h.commit, h.sound, h.rule⟩

variable {header : Header}

/-- The results after a header is stored: its own are those of the rule. -/
theorem verified_putHeader (hmain : MainStored m a) (h : BmmStored m a)
    (hput : a.putHeader header = .ok a') (c : BlockHash) (mainHash : MainBlockHash) :
    a'.Verified c mainHash ↔ if header.hash = c then
      mainHash ∈ a.mainBlockInfos ∧ BmmRule m a header mainHash else a.Verified c mainHash := by
  obtain ⟨height, pred, skips, results, hheight, hpred, hskips, hresults, rfl⟩ := putHeader_ok hput
  obtain ⟨blocks, hblocks, hresults⟩ := bind_eq_ok.mp hresults
  have hblocks : a.mainSuccessors[header.prevMainHash]? = some blocks := okOr_eq_ok.mp hblocks
  have hmem : mainHash ∈ blocks.toList.map Prod.fst ↔
      mainHash ∈ a.mainHeaderInfos ∧ (m.header mainHash).prevBlockHash = header.prevMainHash := by
    rw [← hmain.successors hblocks, Db.mem_iff, List.mem_map]
    constructor
    · rintro ⟨⟨key, u⟩, hentry, rfl⟩
      exact ⟨u, Db.mem_toList.mp hentry⟩
    · rintro ⟨u, hu⟩
      exact ⟨(mainHash, u), Db.mem_toList.mpr hu, rfl⟩
  refine (verified_insert (a := a) rfl c mainHash).trans ?_
  refine iff_of_eq (if_congr Iff.rfl (propext ?_) rfl)
  obtain ⟨hin, hout⟩ := foldlM_insert hresults mainHash
  by_cases hblock : mainHash ∈ blocks.toList.map Prod.fst
  · obtain ⟨result, hresult, hget⟩ := hin hblock
    obtain ⟨hinfo, hrule⟩ := headerBmmResult_ok (m := m)
      (a := { a.withHeader header height pred with
        exponentialAncestors := a.exponentialAncestors.insert header.hash skips })
      { hmain with describes := hmain.describes } (h.main_mem hmain) hresult
    rw [hget, Option.some.injEq, hrule]
    exact ⟨fun hrule => ⟨hinfo, hrule⟩, fun hrule => hrule.2⟩
  · -- at another block there was a result only if the header was stored before
    rw [hout hblock]
    constructor
    · exact fun hverified => ⟨h.info hverified, h.sound hverified⟩
    · rintro ⟨hinfo, -, hprev, -⟩
      exact absurd (hmem.mpr ⟨hmain.info_header hinfo, hprev⟩) hblock

variable {mainHash : MainBlockHash}

theorem verified_putHeader_mono (hmain : MainStored m a) (h : BmmStored m a)
    (hput : a.putHeader header = .ok a') {c : BlockHash} (hverified : a.Verified c mainHash) :
    a'.Verified c mainHash := by
  rw [verified_putHeader hmain h hput]
  split
  case isTrue heq =>
    subst heq
    exact ⟨h.info hverified, h.sound hverified⟩
  case isFalse => exact hverified

/-- Nothing changes for headers that were stored before. -/
theorem verified_putHeader_of_mem (hcf : CollisionFree) (hmain : MainStored m a)
    (hside : SideStored a) (h : BmmStored m a) (hput : a.putHeader header = .ok a') {c : BlockHash}
    (hc : c ∈ a.headers) (mainHash : MainBlockHash) :
    a.Verified c mainHash ↔ a'.Verified c mainHash := by
  rw [verified_putHeader hmain h hput]
  split
  case isFalse => rfl
  case isTrue heq =>
    subst heq
    obtain ⟨old, hold⟩ := (Db.mem_iff _ _).mp hc
    obtain rfl := hside.header_again hcf hold
    constructor
    · intro hverified
      have hinfo := h.info hverified
      exact ⟨hinfo, (h.rule hold hinfo).mp hverified⟩
    · exact fun hrule => (h.rule hold hrule.1).mpr hrule.2

theorem putHeader (hcf : CollisionFree) (hmain : MainStored m a) (hside : SideStored a)
    (h : BmmStored m a) (hput : a.putHeader header = .ok a') : BmmStored m a' := by
  have hnew := verified_putHeader hmain h hput
  have hgrow : ∀ c x, a.Verified c x → a'.Verified c x := fun _ _ =>
    verified_putHeader_mono hmain h hput
  have hkeep := fun c hc => verified_putHeader_of_mem hcf hmain hside h hput (c := c) hc
  obtain ⟨height, pred, skips, results, hheight, hpred, hskips, hresults, rfl⟩ := putHeader_ok hput
  have hparent : ∀ p, header.prevSideHash = some p → p ∈ a.headers := by
    intro p hp
    rcases newHeight_eq_ok hheight with ⟨hnone, -⟩ | ⟨q, k, hsome, hk, -⟩
    · rw [hnone] at hp
      cases hp
    · rw [← Option.some.inj (hsome.symm.trans hp)]
      exact hside.height.mp ⟨k, hk⟩
  refine ⟨fun {b mainHash} hverified => ?_, fun {b mainHash} hverified => ?_,
    fun {old mainHash} hverified => ?_, fun {b old mainHash} hold hinfo => ?_⟩
  · rw [hnew] at hverified
    split at hverified
    case isTrue => exact hverified.1
    case isFalse => exact h.info hverified
  · rw [hnew] at hverified
    split at hverified
    case isTrue heq => exact heq ▸ hverified.2.1
    case isFalse => exact h.commit hverified
  · refine BmmRule.mono hgrow ?_
    rw [hnew] at hverified
    split at hverified
    case isTrue heq => exact Header.hash_injective hcf heq ▸ hverified.2
    case isFalse => exact h.sound hverified
  · rcases Db.get_insert_cases hold with ⟨rfl, rfl⟩ | ⟨-, hold⟩
    · rw [hnew, if_pos rfl]
      refine (and_iff_right hinfo).trans ?_
      exact BmmRule.congr fun _ p earlier hp _ => hkeep p (hparent p hp) earlier
    · rw [← hkeep b (Db.mem_of_get hold) mainHash, h.rule hold hinfo]
      exact BmmRule.congr fun _ p earlier hp _ => hkeep p (hside.parent_mem hold hp) earlier

/-- The results after the info of a block is stored: only that of a stored header
it commits to is new, and it is the one of the rule. -/
theorem verified_putMainBlockInfo (hmain : MainStored m a) (hside : SideStored a)
    (h : BmmStored m a) {info : MainBlockInfo} (hinfo : info = m.info mainHash)
    (hput : a.putMainBlockInfo mainHash info = .ok a') :
    (∀ c x, ¬ ((m.info mainHash).bmmCommitment = some c ∧ c ∈ a.headers ∧ mainHash = x) →
      (a.Verified c x ↔ a'.Verified c x)) ∧
    ∀ {c : BlockHash} {header}, a.headers[c]? = some header →
      (m.info mainHash).bmmCommitment = some c →
      (a'.Verified c mainHash ↔ BmmRule m a header mainHash) := by
  obtain ⟨mainHeader, hmainHeader, hparent, hcases⟩ := putMainBlockInfo_ok hput
  subst hinfo
  rcases hcases with ⟨rfl, hnone⟩ | ⟨b, header, result, hcommit, hheader, hresult, rfl⟩
  · refine ⟨fun c x _ => Iff.rfl, fun {c header} hheader hcommit => ?_⟩
    cases (hnone c hcommit).symm.trans hheader
  obtain rfl := hside.hash_eq hheader
  have hrule := commitmentBmmResult_ok (hmain.withInfo hmainHeader hparent)
    (h.main_mem hmain) hcommit hmainHeader hresult
  refine ⟨fun c x hne => ?_, fun {c old} hold hcommit' => ?_⟩
  · refine Iff.trans ?_ (verified_insert (a := a) rfl c x).symm
    split
    case isFalse => rfl
    case isTrue heq =>
      subst heq
      rw [Db.get_insert_ne _ _ fun heq => hne ⟨hcommit, Db.mem_of_get hheader, heq⟩]
      rfl
  · obtain rfl := Option.some.inj (hcommit.symm.trans hcommit')
    cases hold.symm.trans hheader
    refine (verified_insert (a := a) rfl _ _).trans ?_
    rw [if_pos rfl, Db.get_insert_self, Option.some.injEq, hrule]
    rfl

/-- Nothing changes at blocks whose info was stored before. -/
theorem verified_putMainBlockInfo_of_mem (hmain : MainStored m a) (hside : SideStored a)
    (h : BmmStored m a) {info : MainBlockInfo} (hinfo : info = m.info mainHash)
    (hput : a.putMainBlockInfo mainHash info = .ok a') {x : MainBlockHash}
    (hx : x ∈ a.mainBlockInfos) (c : BlockHash) : a.Verified c x ↔ a'.Verified c x := by
  obtain ⟨hother, hself⟩ := verified_putMainBlockInfo hmain hside h hinfo hput
  by_cases heq : (m.info mainHash).bmmCommitment = some c ∧ c ∈ a.headers ∧ mainHash = x
  · obtain ⟨hcommit, hc, rfl⟩ := heq
    obtain ⟨header, hheader⟩ := (Db.mem_iff _ _).mp hc
    rw [hself hheader hcommit, h.rule hheader hx]
  · exact hother c x heq

theorem putMainBlockInfo (hcf : CollisionFree) (hmain : MainStored m a) (hside : SideStored a)
    (h : BmmStored m a) {info : MainBlockInfo} (hinfo : info = m.info mainHash)
    (hput : a.putMainBlockInfo mainHash info = .ok a') : BmmStored m a' := by
  obtain ⟨hother, hself⟩ := verified_putMainBlockInfo hmain hside h hinfo hput
  have hkeep := fun x hx => verified_putMainBlockInfo_of_mem hmain hside h hinfo hput (x := x) hx
  obtain ⟨hheaders, hinfos⟩ : a'.headers = a.headers ∧
      ∀ x, x ∈ a'.mainBlockInfos ↔ mainHash = x ∨ x ∈ a.mainBlockInfos := by
    obtain ⟨_, -, -, ⟨rfl, -⟩ | ⟨_, _, _, -, -, -, rfl⟩⟩ := putMainBlockInfo_ok hput
    · exact ⟨rfl, fun x => Db.mem_insert _ _ _ _⟩
    · exact ⟨rfl, fun x => Db.mem_insert _ _ _ _⟩
  have hgrow : ∀ c x, a.Verified c x → a'.Verified c x :=
    fun c x hverified => (hkeep x (h.info hverified) c).mp hverified
  -- the rule for a block reads results at blocks that were stored before it
  have hrules : ∀ {c : BlockHash} {old x}, a.headers[c]? = some old → x ∈ a'.mainBlockInfos →
      (BmmRule m a old x ↔ BmmRule m a' old x) := by
    intro c old x hold hx
    refine BmmRule.congr fun hcommit' p earlier hp hdescends => ?_
    by_cases hstored : earlier ∈ a.mainBlockInfos
    · exact hkeep earlier hstored p
    · refine hother p earlier ?_
      rintro ⟨hcommit, -, rfl⟩
      rcases (hinfos x).mp hx with rfl | hx
      · have hhash := Option.some.inj (hcommit'.symm.trans hcommit)
        rw [hside.hash_eq hold] at hhash
        exact hside.ne_parent hold (hhash ▸ hp)
      · exact hstored (hmain.info_of_descends hx hdescends)
  refine ⟨fun {c x} hverified => ?_, fun {c x} hverified => ?_, fun {old x} hverified => ?_,
    fun {c old x} hold hx => ?_⟩
  · rw [hinfos]
    by_cases heq : (m.info mainHash).bmmCommitment = some c ∧ c ∈ a.headers ∧ mainHash = x
    · exact .inl heq.2.2
    · exact .inr (h.info ((hother c x heq).mpr hverified))
  · by_cases heq : (m.info mainHash).bmmCommitment = some c ∧ c ∈ a.headers ∧ mainHash = x
    · exact heq.2.2 ▸ heq.1
    · exact h.commit ((hother c x heq).mpr hverified)
  · refine BmmRule.mono hgrow ?_
    by_cases heq : (m.info mainHash).bmmCommitment = some old.hash ∧ old.hash ∈ a.headers ∧
        mainHash = x
    · obtain ⟨hcommit, hmem, rfl⟩ := heq
      obtain ⟨header, hheader⟩ := (Db.mem_iff _ _).mp hmem
      obtain rfl := hside.header_again hcf hheader
      exact (hself hheader hcommit).mp hverified
    · exact h.sound ((hother old.hash x heq).mpr hverified)
  · rw [hheaders] at hold
    rw [← hrules hold hx]
    by_cases hstored : x ∈ a.mainBlockInfos
    · rw [← hkeep x hstored c, h.rule hold hstored]
    · obtain rfl := ((hinfos x).mp hx).resolve_right hstored
      by_cases hcommit : (m.info mainHash).bmmCommitment = some c
      · exact hself hold hcommit
      · rw [← hother c mainHash fun heq => hcommit heq.1]
        refine ⟨fun hverified => absurd (h.info hverified) hstored, fun hrule => ?_⟩
        exact absurd (hrule.1.trans (congrArg some (hside.hash_eq hold))) hcommit

end BmmStored

/-- The tables of a built archive. -/
structure Stored (m : Mainchain) (a : Archive) : Prop where
  main : MainStored m a
  side : SideStored a
  bmm : BmmStored m a

theorem Stored.verified_ancestor (h : Stored m a) {b b' : BlockHash}
    (hverified : a.Verified b mainHash) (hdescends : Descends a.sideParent b' b) :
    ∃ earlier, Descends m.parent earlier mainHash ∧ a.Verified b' earlier := by
  obtain ⟨n, hn⟩ := hdescends
  induction n generalizing b mainHash with
  | zero =>
    cases hn
    exact ⟨mainHash, .refl mainHash, hverified⟩
  | succ n ih =>
    obtain ⟨p, hp, hn⟩ := Option.bind_eq_some_iff.mp hn
    obtain ⟨header, hheader, hp⟩ := Option.bind_eq_some_iff.mp hp
    have hmain := h.bmm.info hverified
    obtain ⟨-, -, hparent⟩ := (h.bmm.rule hheader hmain).mp hverified
    obtain ⟨earlier, hearlier, hverified'⟩ := hparent p hp
    obtain ⟨first, hfirst, hverified''⟩ := ih hverified' hn
    exact ⟨first, hfirst.trans hearlier, hverified''⟩

/-- Below a verified block with a parent, the parent is verified at an ancestor of
the mainchain block that it builds on. -/
theorem Stored.verified_parent (h : Stored m a) {b p : BlockHash}
    (hheader : a.headers[b]? = some header) (hp : header.prevSideHash = some p)
    (hverified : a.Verified b mainHash) :
    ∃ earlier, a.Verified p earlier ∧ header.prevMainHash ∈ a.mainHeaderInfos ∧
      Descends m.parent earlier header.prevMainHash := by
  have hmain := h.bmm.info hverified
  obtain ⟨hcommit, hprev, hparent⟩ := (h.bmm.rule hheader hmain).mp hverified
  obtain ⟨earlier, hearlier, hverified'⟩ := hparent p hp
  obtain ⟨parentHeader, hparentHeader⟩ := (Db.mem_iff _ _).mp (h.side.parent_mem hheader hp)
  -- the mainchain block commits to one block only
  have hne : earlier ≠ mainHash := by
    rintro rfl
    obtain ⟨hcommit', -⟩ := (h.bmm.rule hparentHeader hmain).mp hverified'
    have heq := Option.some.inj (hcommit.symm.trans hcommit')
    rw [h.side.hash_eq hheader, h.side.hash_eq hparentHeader] at heq
    exact h.side.ne_parent hheader (heq ▸ hp)
  rcases descends_iff_upTo_parent.mp hearlier with heq | ⟨q, hq, hdescends⟩
  · exact absurd heq hne
  · have hmem := h.main.parent_mem (h.main.info_header hmain) hq
    rw [Mainchain.parent_eq_some, hprev] at hq
    rw [hq.1]
    exact ⟨earlier, hverified', hmem, hdescends⟩

theorem Stored.op (hcf : CollisionFree) (h : Stored m a) {op : ArchiveOp} (hop : op.Reported m)
    (hput : a.op op = .ok a') : Stored m a' := by
  cases op with
  | header header =>
    exact ⟨h.main.putHeader hput, h.side.putHeader hcf hput,
      h.bmm.putHeader hcf h.main h.side hput⟩
  | mainHeaderInfo info =>
    exact ⟨h.main.putMainHeaderInfo hop.1 hop.2 hput, h.side.putMainHeaderInfo hput,
      h.bmm.putMainHeaderInfo hput⟩
  | mainBlockInfo hash info =>
    exact ⟨h.main.putMainBlockInfo hop hput, h.side.putMainBlockInfo hput,
      h.bmm.putMainBlockInfo hcf h.main h.side hop hput⟩

theorem Stored.verified_op (h : Stored m a) {op : ArchiveOp} (hop : op.Reported m)
    (hput : a.op op = .ok a') {b : BlockHash} (hverified : a.Verified b mainHash) :
    a'.Verified b mainHash := by
  cases op with
  | header header => exact BmmStored.verified_putHeader_mono h.main h.bmm hput hverified
  | mainHeaderInfo info =>
    obtain ⟨-, _, _, _, _, -, -, -, -, rfl⟩ := putMainHeaderInfo_ok hput
    exact hverified
  | mainBlockInfo hash info =>
    exact (BmmStored.verified_putMainBlockInfo_of_mem h.main h.side h.bmm hop hput
      (h.bmm.info hverified) b).mp hverified

theorem Stored.new (m : Mainchain) : Stored m .new := ⟨.new m, .new, .new m⟩

theorem stored_of_build (hcf : CollisionFree) {ops : List ArchiveOp}
    (hops : ∀ op ∈ ops, op.Reported m) (h : Archive.new.build ops = .ok a) : Stored m a :=
  build_invariant (P := Stored m) (.new m) hops
    (fun _ _ _ hop hstored hput => hstored.op hcf hop hput) h

end Archive

end PlainBitnames
