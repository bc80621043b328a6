import PlainBitnames.Archive.BetterTip
import PlainBitnames.Archive.Settled
import PlainBitnames.Archive.Storable

/-!
Lookups that find what they need. In the archive of a node the records about a verified
block and its ancestors are there, so that two of them can be compared, a chain of them
can be applied, and bodies can be stored and deleted without an error.
-/

namespace PlainBitnames

open Fallible Lineage

variable [Primitives]

/-- All blocks of the mainchain are on top of one first block, which commits to no block
of the sidechain. -/
structure Mainchain.OneGenesis (m : Mainchain) : Prop where
  unique : ∀ {x y}, m.parent x = none → m.parent y = none → x = y
  commitment : ∀ {x}, m.parent x = none → (m.info x).bmmCommitment = none

namespace Archive

variable {m : Mainchain} {a : Archive}

theorem Stored.prevMain_mem (hgenesis : m.OneGenesis) (h : Stored m a) {b : BlockHash}
    {header : Header} {mainHash : MainBlockHash} (hheader : a.headers[b]? = some header)
    (hverified : a.Verified b mainHash) : header.prevMainHash ∈ a.mainHeaderInfos := by
  have hmain := h.bmm.info hverified
  obtain ⟨hcommit, hprev, -⟩ := (h.bmm.rule hheader hmain).mp hverified
  cases hparent : m.parent mainHash with
  | none => cases (hgenesis.commitment hparent).symm.trans hcommit
  | some p =>
    have hmem := h.main.parent_mem (h.main.info_header hmain) hparent
    rw [Mainchain.parent_eq_some, hprev] at hparent
    rwa [hparent.1]

theorem MainStored.exists_common (hgenesis : m.OneGenesis) (h : MainStored m a)
    {x y : MainBlockHash} (hx : x ∈ a.mainHeaderInfos) (hy : y ∈ a.mainHeaderInfos) :
    ∃ w, Descends m.parent w x ∧ Descends m.parent w y := by
  obtain ⟨k, hk⟩ := h.height_of_mem hx
  obtain ⟨j, hj⟩ := h.height_of_mem hy
  obtain ⟨w, hwx, hw⟩ := h.describes.rooted.exists_root hk
  obtain ⟨w', hwy, hw'⟩ := h.describes.rooted.exists_root hj
  cases hgenesis.unique hw hw'
  exact ⟨w, hwx, hwy⟩

section Compare

/-- A block that is stored and verified. -/
structure Held (a : Archive) (tip : Tip) : Prop where
  header : tip.blockHash ∈ a.headers
  verified : a.Verified tip.blockHash tip.mainBlockHash

theorem Held.main (h : Stored m a) {tip : Tip} (htip : a.Held tip) :
    tip.mainBlockHash ∈ a.mainHeaderInfos :=
  h.main.info_header (h.bmm.info htip.verified)

variable {b : BlockHash}

theorem exists_getHeader (hb : b ∈ a.headers) : ∃ header, a.getHeader b = .ok header := by
  obtain ⟨header, hheader⟩ := (Db.mem_iff _ _).mp hb
  exact ⟨header, okOr_eq_ok.mpr hheader⟩

theorem exists_getTotalWork (h : MainStored m a) {x : MainBlockHash} (hx : x ∈ a.mainHeaderInfos) :
    ∃ work, a.getTotalWork x = .ok work := by
  obtain ⟨work, hwork⟩ := h.work hx
  exact ⟨work, okOr_eq_ok.mpr hwork⟩

theorem exists_getHeight (h : SideStored a) (hb : b ∈ a.headers) :
    ∃ height, a.getHeight b = .ok height := by
  obtain ⟨height, hheight⟩ := h.height.mpr hb
  exact ⟨height, okOr_eq_ok.mpr hheight⟩

theorem exists_lastCommonMainAncestor (hgenesis : m.OneGenesis) (h : MainStored m a)
    {x y : MainBlockHash} (hx : x ∈ a.mainHeaderInfos) (hy : y ∈ a.mainHeaderInfos) :
    ∃ z, a.lastCommonMainAncestor x y = .ok z ∧ z ∈ a.mainHeaderInfos := by
  obtain ⟨w, hwx, hwy⟩ := h.exists_common hgenesis hx hy
  obtain ⟨z, hz, hlast⟩ := Index.lastCommon_eq_ok h.describes (h.height_of_mem hx)
    (h.height_of_mem hy) hwx hwy
  exact ⟨z, hz, h.mem_of_descends hx ((hlast z).mp (.refl z)).1⟩

variable {mainAncestor mainHash : MainBlockHash}

theorem exists_headerBefore (hgenesis : m.OneGenesis) (h : Stored m a)
    (hmem : mainAncestor ∈ a.mainHeaderInfos) (hb : b ∈ a.headers)
    (hverified : a.Verified b mainHash) :
    ∃ header, a.headerBefore mainAncestor b = .ok header ∧ ∀ found, header = some found →
      found.prevMainHash ∈ a.mainHeaderInfos ∧
        Descends m.parent found.prevMainHash mainAncestor ∧ found.prevMainHash ≠ mainAncestor := by
  obtain ⟨header, hheader⟩ := exists_getHeader hb
  have hprev := h.prevMain_mem hgenesis (okOr_eq_ok.mp hheader) hverified
  obtain ⟨isAncestor, hisAncestor, hspec⟩ := h.main.exists_isMainDescendant hprev hmem
  rw [headerBefore, hheader, ok_bind, hisAncestor, ok_bind]
  cases isAncestor with
  | false => exact ⟨none, rfl, nofun⟩
  | true =>
    rw [Bool.not_true, if_neg Bool.false_ne_true]
    split
    case isTrue => exact ⟨none, rfl, nofun⟩
    case isFalse hne =>
      refine ⟨some header, rfl, fun found hfound => ?_⟩
      cases hfound
      exact ⟨hprev, hspec.mp rfl, hne⟩

theorem heightPlusOne_avoids (height : Nat) : Avoids Failure.IsError (heightPlusOne height) :=
  .bind (.ensure fun _ => id) fun _ _ => .ok _

theorem heightBefore_avoids (hgenesis : m.OneGenesis) (h : Stored m a)
    (hmem : mainAncestor ∈ a.mainHeaderInfos) (hb : b ∈ a.headers)
    (hverified : a.Verified b mainHash) :
    Avoids Failure.IsError (a.heightBefore mainAncestor b) := by
  obtain ⟨header, hheader, -⟩ := exists_headerBefore hgenesis h hmem hb hverified
  refine .bind (.of_ok ⟨header, hheader⟩) fun header _ => ?_
  cases header with
  | none => exact .ok none
  | some header => exact .bind (.of_ok (exists_getHeight h.side hb)) fun _ _ => .ok _

theorem heightAndWorkBefore_avoids (hgenesis : m.OneGenesis) (h : Stored m a) {mainHeight : Nat}
    (hheight : a.mainBlockHashToHeight[mainAncestor]? = some mainHeight) (hb : b ∈ a.headers)
    (hverified : a.Verified b mainHash) :
    Avoids Failure.IsError (a.heightAndWorkBefore mainAncestor mainHeight b) := by
  have hmem := h.main.height.mp ⟨_, hheight⟩
  obtain ⟨header, hheader, hfound⟩ := exists_headerBefore hgenesis h hmem hb hverified
  refine .bind (.of_ok ⟨header, hheader⟩) fun header' hheader' => ?_
  cases hheader.symm.trans hheader'
  cases header with
  | none => exact .ok none
  | some header =>
    obtain ⟨hprev, -, -⟩ := hfound header rfl
    obtain ⟨prevHeight, hprevHeight⟩ := h.main.height.mpr hprev
    refine .bind (.of_ok (exists_getHeight h.side hb)) fun _ _ => ?_
    refine .bind (.of_ok ⟨prevHeight, okOr_eq_ok.mpr hprevHeight⟩) fun _ _ => ?_
    refine .bind (heightPlusOne_avoids _) fun height _ => ?_
    refine .bind (.ensure fun _ => id) fun _ hle => ?_
    -- the mainchain block at the height is an ancestor
    obtain ⟨y, hy, hancestor, -⟩ := Index.exists_nthAncestor h.main.describes hheight
      (Nat.sub_le mainHeight height)
    refine .bind (.of_ok ⟨y, hy⟩) fun y' hy' => ?_
    cases hy.symm.trans hy'
    exact .bind (.of_ok (exists_getTotalWork h.main (h.main.mem_of_descends hmem ⟨_, hancestor⟩)))
      fun _ _ => .ok _

/-- A search along the ancestors of a stored block. -/
theorem findAncestor_avoids (h : SideStored a) {β : Type} {f : BlockHash → ArchiveResult (Option β)}
    (tip : BlockHash) (hf : ∀ b, Descends a.sideParent b tip → Avoids Failure.IsError (f b))
    {fuel : Nat} {b : Option BlockHash} (hb : ∀ c, b = some c → c ∈ a.headers ∧
      Descends a.sideParent c tip) : Avoids Failure.IsError (a.findAncestor f fuel b) := by
  induction fuel generalizing b with
  | zero => exact .ok none
  | succ fuel ih =>
    cases b with
    | none => exact .ok none
    | some b =>
      obtain ⟨hmem, hdescends⟩ := hb b rfl
      refine .bind (.of_ok (exists_getHeader hmem)) fun header hheader => ?_
      refine .bind (hf b hdescends) fun found _ => ?_
      cases found with
      | some found => exact .ok _
      | none =>
        have hheader := okOr_eq_ok.mp hheader
        refine ih fun p hp => ⟨h.parent_mem hheader hp, ?_⟩
        exact (Descends.of_parent ((SideStored.sideParent_eq hheader).trans hp)).trans hdescends

/-- A search along the ancestors of a tip for what is before a mainchain block. -/
theorem Held.findAncestor_avoids (h : Stored m a) {tip : Tip} (htip : a.Held tip) {β : Type}
    {f : BlockHash → ArchiveResult (Option β)}
    (hf : ∀ b mainHash, b ∈ a.headers → a.Verified b mainHash → Avoids Failure.IsError (f b))
    (fuel : Nat) : Avoids Failure.IsError (a.findAncestor f fuel (some tip.blockHash)) := by
  refine Archive.findAncestor_avoids h.side tip.blockHash (fun b hb => ?_) fun c hc => ?_
  · obtain ⟨earlier, -, hverified⟩ := h.verified_ancestor htip.verified hb
    obtain ⟨k, hk⟩ := h.side.height_of_mem htip.header
    obtain ⟨j, -, hj⟩ := h.side.describes.rooted.exists_height hk hb
    exact hf b earlier (h.side.height.mp ⟨j, hj⟩) hverified
  · cases hc
    exact ⟨htip.header, .refl _⟩

variable {tip0 tip1 : Tip}

theorem ancestorHeight_avoids (hgenesis : m.OneGenesis) (h : Stored m a) (h0 : a.Held tip0)
    (h1 : a.Held tip1) {tip : Tip} (htip : a.Held tip) :
    Avoids Failure.IsError (a.ancestorHeight tip0 tip1 tip) := by
  obtain ⟨z, hz, hmem⟩ := exists_lastCommonMainAncestor hgenesis h.main (h0.main h) (h1.main h)
  refine .bind (.of_ok ⟨z, hz⟩) fun z' hz' => ?_
  cases hz.symm.trans hz'
  exact htip.findAncestor_avoids h
    (fun b mainHash hb hverified => heightBefore_avoids hgenesis h hmem hb hverified) _

theorem betterAncestor_avoids (hgenesis : m.OneGenesis) (h : Stored m a) (h0 : a.Held tip0)
    (h1 : a.Held tip1) : Avoids Failure.IsError (a.betterAncestor tip0 tip1) := by
  obtain ⟨z, hz, hmem⟩ := exists_lastCommonMainAncestor hgenesis h.main (h0.main h) (h1.main h)
  obtain ⟨height, hheight⟩ := h.main.height.mpr hmem
  refine .bind (.of_ok ⟨z, hz⟩) fun z' hz' => ?_
  cases hz.symm.trans hz'
  refine .bind (.of_ok ⟨height, okOr_eq_ok.mpr hheight⟩) fun height' hheight' => ?_
  cases (okOr_eq_ok.mp hheight').symm.trans hheight
  have hsearch : ∀ tip, a.Held tip → Avoids Failure.IsError (a.findAncestor
      (a.heightAndWorkBefore z height) (a.lineageLength tip.blockHash) (some tip.blockHash)) :=
    fun tip htip => htip.findAncestor_avoids h
      (fun b mainHash hb hverified => heightAndWorkBefore_avoids hgenesis h hheight hb hverified) _
  refine .bind (hsearch tip0 h0) fun _ _ => .bind (hsearch tip1 h1) fun _ _ => ?_
  split <;> exact .ok _

theorem sharedMainchainLineage_avoids (h : MainStored m a) {x y : MainBlockHash}
    (hx : x ∈ a.mainHeaderInfos) (hy : y ∈ a.mainHeaderInfos) :
    Avoids Failure.IsError (a.sharedMainchainLineage x y) := by
  obtain ⟨x', y', k, hlevel, -⟩ := Index.level_eq_ok h.describes (h.height_of_mem hx)
    (h.height_of_mem hy)
  exact .bind (.of_ok ⟨_, hlevel⟩) fun _ _ => .ok _

theorem betterTip_avoids (hgenesis : m.OneGenesis) (h : Stored m a) (h0 : a.Held tip0)
    (h1 : a.Held tip1) : Avoids Failure.IsError (a.betterTip tip0 tip1) := by
  have hshared := sharedMainchainLineage_avoids h.main (h0.main h) (h1.main h)
  have hwork : ∀ height0 height1,
      Avoids Failure.IsError (a.betterByWork tip0 tip1 height0 height1) := by
    intro height0 height1
    refine .bind (.of_ok (exists_getTotalWork h.main (h0.main h))) fun work0 _ => ?_
    refine .bind (.of_ok (exists_getTotalWork h.main (h1.main h))) fun work1 _ => ?_
    split
    case h_1 | h_2 | h_3 | h_4 => exact .ok _
    case h_5 | h_6 => exact .bind hshared fun _ _ => .ok _
    case h_7 =>
      exact .bind (ancestorHeight_avoids hgenesis h h0 h1 h0) fun _ _ => .ok _
    case h_8 =>
      exact .bind (ancestorHeight_avoids hgenesis h h0 h1 h1) fun _ _ => .ok _
    case h_9 =>
      split
      · exact .ok _
      · exact betterAncestor_avoids hgenesis h h0 h1
  unfold betterTip
  split
  case isTrue => exact .ok none
  case isFalse =>
    refine .bind (.of_ok (exists_getHeight h.side h0.header)) fun height0 _ => ?_
    refine .bind (.of_ok (exists_getHeight h.side h1.header)) fun height1 _ => ?_
    split
    case h_1 | h_2 | h_3 => exact .ok _
    case h_4 => exact hwork _ _

/-- The best one of the verifications that were read. -/
def IsBest (a : Archive) (done : List (MainBlockHash × BmmResult)) :
    Option (Nat × MainBlockHash) → Prop
  | none => ∀ x, (x, BmmResult.verified) ∉ done
  | some (work, best) => (best, .verified) ∈ done ∧ a.totalWork[best]? = some work ∧
      ∀ (x : MainBlockHash) (w : Nat), (x, .verified) ∈ done → a.totalWork[x]? = some w → w ≤ work

theorem IsBest.step {done : List (MainBlockHash × BmmResult)} {best best' : Option (Nat × MainBlockHash)}
    {result : MainBlockHash × BmmResult} (h : a.IsBest done best)
    (hstep : a.betterVerification best result = .ok best') : a.IsBest (done ++ [result]) best' := by
  obtain ⟨x, result⟩ := result
  cases result with
  | failed =>
    cases hstep
    cases best with
    | none =>
      intro y hy
      exact h y (by simpa using hy)
    | some best =>
      obtain ⟨hmem, hwork, hle⟩ := h
      exact ⟨List.mem_append_left _ hmem, hwork, fun y w hy => hle y w (by simpa using hy)⟩
  | verified =>
    obtain ⟨work, hwork, hstep⟩ := bind_eq_ok.mp hstep
    have hwork : a.totalWork[x]? = some work := okOr_eq_ok.mp hwork
    have hself : ∀ w, a.totalWork[x]? = some w → w ≤ work := by
      intro w hw
      exact (Option.some.inj (hw.symm.trans hwork)).le
    cases best with
    | none =>
      cases hstep
      refine ⟨List.mem_concat_self, hwork, fun y w hy hw => ?_⟩
      rcases List.mem_append.mp hy with hy | hy
      · exact absurd hy (h y)
      · cases List.mem_singleton.mp hy
        exact hself w hw
    | some best =>
      obtain ⟨hmem, hbest, hle⟩ := h
      cases hstep
      split
      case isTrue hlt =>
        refine ⟨List.mem_append_left _ hmem, hbest, fun y w hy hw => ?_⟩
        rcases List.mem_append.mp hy with hy | hy
        · exact hle y w hy hw
        · cases List.mem_singleton.mp hy
          exact (hself w hw).trans hlt.le
      case isFalse hge =>
        refine ⟨List.mem_concat_self, hwork, fun y w hy hw => ?_⟩
        rcases List.mem_append.mp hy with hy | hy
        · exact (hle y w hy hw).trans (Nat.not_lt.mp hge)
        · cases List.mem_singleton.mp hy
          exact hself w hw

theorem exists_isBest {results : List (MainBlockHash × BmmResult)}
    (hknown : ∀ y, (y, .verified) ∈ results → ∃ w, a.totalWork[y]? = some w) :
    ∃ best, results.foldlM a.betterVerification none = .ok best ∧ a.IsBest results best := by
  have hstep : ∀ entry ∈ results, ∀ best, ∃ best', a.betterVerification best entry = .ok best' := by
    rintro ⟨y, result⟩ hentry best
    cases result with
    | failed => exact ⟨best, rfl⟩
    | verified =>
      obtain ⟨w, hw⟩ := hknown y hentry
      rw [betterVerification, if_neg BmmResult.noConfusion, getTotalWork, hw, okOr_some, ok_bind]
      split <;> exact ⟨_, rfl⟩
  obtain ⟨best, hbest⟩ := exists_foldlM hstep none
  have hnil : a.IsBest [] none := fun _ => List.not_mem_nil
  exact ⟨best, hbest, foldlM_history hnil (fun _ _ _ _ _ h hstep => h.step hstep) hbest⟩

theorem exists_bestMainVerification (h : Stored m a) (hverified : a.Verified b mainHash) :
    ∃ best, a.getBestMainVerification b = .ok best ∧ a.Verified b best := by
  have hget : ∀ x, (x, BmmResult.verified) ∈ (a.getBmmResults b).toList ↔ a.Verified b x := fun x =>
    Db.mem_toList
  have hknown : ∀ x, (x, BmmResult.verified) ∈ (a.getBmmResults b).toList →
      ∃ w, a.totalWork[x]? = some w :=
    fun x hx => h.main.work (h.bmm.main_mem h.main b x ((hget x).mp hx))
  obtain ⟨best, hbest, hisBest⟩ := exists_isBest hknown
  cases best with
  | none => exact absurd ((hget mainHash).mpr hverified) (hisBest mainHash)
  | some best => exact ⟨best.2, bind_eq_ok.mpr ⟨_, hbest, rfl⟩, (hget best.2).mp hisBest.1⟩

end Compare

section Chains

theorem exists_blocksUntil (hsettled : Settled a) {stop : Option BlockHash} {fuel : Nat}
    {b : Option BlockHash} (hb : ∀ c, b = some c → c ∈ a.sideTips.sidechainTips) :
    ∃ blocks, a.blocksUntil stop fuel b = .ok blocks := by
  induction fuel generalizing b with
  | zero => exact ⟨[], rfl⟩
  | succ fuel ih =>
    cases b with
    | none => exact ⟨[], rfl⟩
    | some b =>
      obtain ⟨hbody, header, hheader, hparent⟩ := hsettled.grounded b (hb b rfl)
      obtain ⟨body, hbody⟩ := (Db.mem_iff _ _).mp hbody
      obtain ⟨rest, hrest⟩ := ih hparent
      rw [blocksUntil, getHeader, hheader, okOr_some, ok_bind]
      split
      case isTrue => exact ⟨[], rfl⟩
      case isFalse =>
        rw [getBody, hbody, okOr_some, ok_bind, hrest, ok_bind]
        exact ⟨_, rfl⟩

/-- The mainchain blocks below a stored one are there with their infos. -/
theorem exists_mainInfosUntil (h : MainStored m a) (hcomplete : Complete a)
    {stop : Option MainBlockHash} {fuel : Nat} {x : MainBlockHash}
    (hx : x = .allZeros ∨ x ∈ a.mainHeaderInfos) :
    ∃ infos, a.mainInfosUntil stop fuel x = .ok infos := by
  induction fuel generalizing x with
  | zero => exact ⟨[], rfl⟩
  | succ fuel ih =>
    unfold mainInfosUntil
    split
    case isTrue => exact ⟨[], rfl⟩
    case isFalse hne =>
      have hmem := hx.resolve_left hne
      obtain ⟨headerInfo, hheaderInfo⟩ := (Db.mem_iff _ _).mp hmem
      have hheader := h.header_eq hheaderInfo
      rw [getMainHeaderInfo, hheaderInfo, okOr_some, ok_bind]
      split
      case isTrue => exact ⟨[], rfl⟩
      case isFalse =>
        have hhash : headerInfo.blockHash = x := by rw [hheader, h.blockHash_eq hmem]
        obtain ⟨info, hinfo⟩ := (Db.mem_iff _ _).mp (hcomplete.info hmem)
        have hprev : headerInfo.prevBlockHash = .allZeros ∨
            headerInfo.prevBlockHash ∈ a.mainHeaderInfos := by
          rw [hheader]
          by_cases hzeros : (m.header x).prevBlockHash = .allZeros
          · exact .inl hzeros
          · exact .inr (h.parent_mem hmem (Mainchain.parent_eq_some.mpr ⟨rfl, hzeros⟩))
        obtain ⟨rest, hrest⟩ := ih hprev
        rw [hhash, getMainBlockInfo, hinfo, okOr_some, ok_bind, hrest, ok_bind]
        exact ⟨_, rfl⟩

end Chains

section Bodies

variable {a' : Archive}

/-- A header of a verified block can be stored again. -/
theorem exists_putHeader_again (hcf : CollisionFree) (hgenesis : m.OneGenesis) (h : Stored m a)
    (hcomplete : Complete a) {header : Header} (hheader : a.headers[header.hash]? = some header)
    {mainHash : MainBlockHash} (hverified : a.Verified header.hash mainHash) :
    ∃ a', a.putHeader header = .ok a' := by
  refine (h.exists_putHeader hcf hcomplete).mpr ⟨?_, .inr (h.prevMain_mem hgenesis hheader hverified)⟩
  obtain ⟨k, hk⟩ := h.side.height.mpr (Db.mem_of_get hheader)
  have hparent := SideStored.sideParent_eq hheader
  cases k with
  | zero =>
    rw [newHeight, ← hparent, h.side.describes.rooted.root hk]
    exact ⟨0, rfl⟩
  | succ k =>
    obtain ⟨p, hp, hheight⟩ := h.side.describes.rooted.step hk
    rw [newHeight, ← hparent, hp]
    exact ⟨k + 1, bind_eq_ok.mpr ⟨k, okOr_eq_ok.mpr hheight,
      ensure_bind_eq_ok.mpr ⟨h.side.bound hk, rfl⟩⟩⟩

theorem connectVerification_avoids (h : MainStored m a)
    (hmainTip : a.sideTips.mainchainTip.blockHash ∈ a.mainHeaderInfos) {b : BlockHash}
    {header : Header} {connected : Bool} {result : MainBlockHash × BmmResult}
    (hresult : result.2 = .verified → result.1 ∈ a.mainHeaderInfos) :
    Avoids Failure.IsError (connectVerification b header (a, connected) result) := by
  obtain ⟨mainHash, result⟩ := result
  unfold connectVerification
  dsimp only
  split
  case isTrue => exact .ok _
  case isFalse hfailed =>
  have hmem : mainHash ∈ a.mainHeaderInfos := hresult (by
    cases result with
    | failed => exact absurd rfl hfailed
    | verified => rfl)
  split
  case isTrue => exact .ok _
  case isFalse hparent =>
  obtain ⟨active, hactive, -⟩ := h.exists_isMainDescendant hmem hmainTip
  refine .bind (.of_ok ⟨active, hactive⟩) fun active _ => ?_
  split
  case isTrue => exact .ok _
  case isFalse =>
  refine .bind (.of_ok (exists_getTotalWork h hmem)) fun work _ => .bind ?_ fun _ _ => .ok _
  refine .bind ?_ fun height _ => ?_
  · unfold SideTips.tipHeight
    split
    case h_1 => exact .ok _
    case h_2 p hp =>
      have hp : p ∈ a.sideTips.sidechainTips := by
        rw [Bool.not_eq_true', Bool.not_eq_false, parentIsTip_iff] at hparent
        exact hparent p hp
      obtain ⟨info, hinfo⟩ := (Db.mem_iff _ _).mp hp
      exact .bind (.of_ok ⟨info, okOr_eq_ok.mpr hinfo⟩) fun _ _ => .ok _
  · split <;> exact .ok _

theorem updateSideTips_avoids (h : Stored m a)
    (hmainTip : a.sideTips.mainchainTip.blockHash ∈ a.mainHeaderInfos) {b : BlockHash}
    (hb : b ∈ a.headers) (header : Header) :
    Avoids Failure.IsError (a.updateSideTips b header) := by
  refine .bind (.foldlM (P := fun acc : Archive × Bool => TipsChange a acc.1) (.refl a) ?_) ?_
  · rintro ⟨next, connected⟩ hnext ⟨x, result⟩ hentry
    refine ⟨?_, fun acc' hacc' => hnext.trans (connectVerification_tips hacc')⟩
    obtain ⟨sideTips, rfl, htip⟩ := hnext
    refine connectVerification_avoids (h.withTips a.bodies sideTips).main ?_ ?_
    · rw [show ({ a with sideTips } : Archive).sideTips.mainchainTip = _ from htip]
      exact hmainTip
    · rintro rfl
      exact h.bmm.main_mem h.main b x (Db.mem_toList.mp hentry)
  · rintro ⟨next, connected⟩ hfold
    have hnext : TipsChange a next :=
      foldlM_invariant (P := fun acc : Archive × Bool => TipsChange a acc.1) (.refl a)
        (fun _ _ _ _ hacc hstep => hacc.trans (connectVerification_tips hstep)) hfold
    obtain ⟨sideTips, rfl, -⟩ := hnext
    cases connected with
    | false => exact .ok _
    | true =>
      obtain ⟨successors, hsuccessors⟩ := h.side.known hb
      exact .bind (.of_ok ⟨successors, okOr_eq_ok.mpr hsuccessors⟩) fun _ _ => .ok _

theorem updateQueue_avoids (h : Stored m a)
    (hmainTip : a.sideTips.mainchainTip.blockHash ∈ a.mainHeaderInfos)
    (hbodies : ∀ b ∈ a.bodies, b ∈ a.headers) {fuel : Nat} {queue : List BlockHash} :
    Avoids Failure.IsError (updateQueue fuel a queue) := by
  induction fuel generalizing a queue with
  | zero => exact .ok a
  | succ fuel ih =>
    cases queue with
    | nil => exact .ok a
    | cons c queue =>
      unfold updateQueue
      split
      case isTrue => exact ih h hmainTip hbodies
      case isFalse hbody =>
        have hbody : c ∈ a.bodies := by
          rw [Std.ExtTreeMap.mem_iff_contains]
          simpa [containsBody] using hbody
        have hc := hbodies c hbody
        refine .bind (.of_ok (exists_getHeader hc)) fun header _ => ?_
        refine .bind (updateSideTips_avoids h hmainTip hc header) ?_
        rintro ⟨next, successors⟩ hnext
        obtain ⟨sideTips, rfl, htip⟩ := updateSideTips_tips hnext
        refine ih (h.withTips a.bodies sideTips) ?_ hbodies
        rw [show ({ a with sideTips } : Archive).sideTips.mainchainTip = _ from htip]
        exact hmainTip

/-- A body of a stored block can be stored when there is a mainchain tip. -/
theorem putBody_avoids (h : Stored m a)
    (hmainTip : a.sideTips.mainchainTip.blockHash ∈ a.mainHeaderInfos) (hsettled : Settled a)
    {b : BlockHash} (hb : b ∈ a.headers) (body : Body) :
    Avoids Failure.IsError (a.putBody b body) := by
  refine .bind (.of_ok (exists_getHeader hb)) fun header hheader => ?_
  let stored : Archive := { a with
    bodies := a.bodies.insert b body
    txidToInclusions := a.txidToInclusions.insertBody b body }
  have hstored : Stored m stored := h.withTips _ a.sideTips
  refine .bind (updateSideTips_avoids (a := stored) hstored hmainTip hb header) ?_
  rintro ⟨next, queue⟩ hnext
  obtain ⟨sideTips, rfl, htip⟩ := updateSideTips_tips hnext
  refine updateQueue_avoids (hstored.withTips _ sideTips) ?_ fun x hx => ?_
  · rw [show ({ stored with sideTips } : Archive).sideTips.mainchainTip = _ from htip]
    exact hmainTip
  · rcases (Db.mem_insert _ _ _ _).mp hx with rfl | hx
    · exact hb
    · exact hsettled.bodies x hx

theorem exists_disconnectQueue {fuel : Nat} {queue : List BlockHash} (hside : SideStored a)
    (htips : ∀ x ∈ a.sideTips.sidechainTips, x ∈ a.headers) :
    ∃ a', disconnectQueue fuel a queue = .ok a' := by
  induction fuel generalizing a queue with
  | zero => exact ⟨a, rfl⟩
  | succ fuel ih =>
    cases queue with
    | nil => exact ⟨a, rfl⟩
    | cons c queue =>
      unfold disconnectQueue
      split
      case isTrue => exact ih hside htips
      case isFalse hc =>
        obtain ⟨successors, hsuccessors⟩ := hside.known (htips c (not_not.mp hc))
        let removed : Archive := { a with sideTips := a.sideTips.disconnectSidechainTip c }
        have hrest : ∃ a', disconnectQueue fuel removed (queue ++ successors.keys) = .ok a' :=
          ih { hside with describes := hside.describes } fun x hx =>
            htips x ((mem_disconnectSidechainTip _ _ _).mp hx).1
        obtain ⟨a', ha'⟩ := hrest
        exact ⟨a', bind_eq_ok.mpr ⟨successors, okOr_eq_ok.mpr hsuccessors, ha'⟩⟩

theorem exists_deleteBody (hside : SideStored a) (hsettled : Settled a) (b : BlockHash)
    (body : Body) : ∃ a', a.deleteBody b body = .ok a' :=
  exists_disconnectQueue { hside with describes := hside.describes } fun x hx =>
    (hsettled.grounded x hx).header_mem

end Bodies

end Archive

end PlainBitnames
