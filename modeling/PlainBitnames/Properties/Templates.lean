import PlainBitnames.Node.Template
import PlainBitnames.Properties.TipRanking

/-!
Block templates that are worth mining: the parent is verified up to the mainchain
tip that the template builds on, so that a mainchain block on top that commits to
the template verifies it.
-/

namespace PlainBitnames

open Fallible Lineage

section

variable [Primitives]

namespace Archive

variable {m : Mainchain} {a : Archive}

theorem minableBefore_eq_some {mainAncestor : MainBlockHash} {b c : BlockHash}
    (h : a.minableBefore mainAncestor b = .ok (some c)) :
    c = b ∧ ∃ header, a.headers[b]? = some header ∧ header.prevMainHash ≠ mainAncestor ∧
      a.isMainDescendant header.prevMainHash mainAncestor = .ok true := by
  obtain ⟨header, hheader, h⟩ := bind_eq_ok.mp h
  split at h
  case isTrue => cases h
  case isFalse hne =>
    obtain ⟨isAncestor, hisAncestor, h⟩ := bind_eq_ok.mp h
    cases isAncestor with
    | false => cases h
    | true =>
      cases h
      exact ⟨rfl, header, okOr_eq_ok.mp hheader, hne, hisAncestor⟩

variable {mainHash : MainBlockHash}

/-- The parent of a mainchain block that verifies a block is the one that the block
builds on. -/
theorem Stored.parent_of_verified (h : Stored m a) {b : BlockHash} {header : Header}
    (hheader : a.headers[b]? = some header) (hverified : a.Verified b mainHash)
    (hmem : header.prevMainHash ∈ a.mainHeaderInfos) :
    m.parent mainHash = some header.prevMainHash := by
  have hmain := h.bmm.info hverified
  obtain ⟨-, hprev, -⟩ := (h.bmm.rule hheader hmain).mp hverified
  exact Mainchain.parent_eq_some.mpr ⟨hprev, h.main.ne_zeros hmem⟩

/-- An ancestor of the tip that builds on a block before a mainchain block is
verified up to that mainchain block, if the tip is verified above it. -/
theorem Stored.verified_before (h : Stored m a) {b : BlockHash} {header : Header}
    {last tipMain : MainBlockHash} (hheader : a.headers[b]? = some header)
    (hverified : a.Verified b mainHash) (hdescends : Descends m.parent mainHash tipMain)
    (hlast : Descends m.parent last tipMain) (hne : header.prevMainHash ≠ last)
    (hbefore : Descends m.parent header.prevMainHash last) (hmem : last ∈ a.mainHeaderInfos) :
    Descends m.parent mainHash last := by
  have hprev := h.main.mem_of_descends hmem hbefore
  have hparent := h.parent_of_verified hheader hverified hprev
  rcases hdescends.total hlast with hle | hle
  · exact hle
  rcases descends_iff_upTo_parent.mp hle with rfl | hup
  · exact .refl _
  · rw [hparent, upTo_some] at hup
    exact absurd (h.main.describes.rooted.descends_antisymm (h.main.height_of_mem hprev)
      (h.main.height_of_mem hmem) hbefore hup) hne

/-- The block to mine on is verified up to the mainchain tip, if that is so for the
tip of the state whenever the mainchain tip descends from what the tip builds on. -/
theorem Stored.templateParent_iff (h : Stored m a) {tip : BlockHash} {header : Header}
    {prevMainHash : MainBlockHash} {prevSideHash : Option BlockHash}
    (hheader : a.headers[tip]? = some header) (hverified : a.Verified tip mainHash)
    (hmem : prevMainHash ∈ a.mainHeaderInfos)
    (hparent : a.templateParent (some tip) prevMainHash = .ok prevSideHash) :
    (∀ b, prevSideHash = some b →
        ∃ earlier, Descends m.parent earlier prevMainHash ∧ a.Verified b earlier) ↔
      (Descends m.parent header.prevMainHash prevMainHash →
        ∃ earlier, Descends m.parent earlier prevMainHash ∧ a.Verified tip earlier) := by
  obtain ⟨tipHeader, htipHeader, hparent⟩ := bind_eq_ok.mp hparent
  cases hheader.symm.trans (okOr_eq_ok.mp htipHeader)
  obtain ⟨last, hlast, hparent⟩ := bind_eq_ok.mp hparent
  have hlastDescends : Descends m.parent last prevMainHash :=
    Index.lastCommon_descends h.main.describes hlast
  have hlastMem := h.main.mem_of_descends hmem hlastDescends
  have hlastEq : Descends m.parent header.prevMainHash prevMainHash →
      last = header.prevMainHash := by
    intro hdescends
    have heq := h.main.lastCommonMainAncestor_eq hmem (h.main.mem_of_descends hmem hdescends)
      (Index.LastCommon.of_descends hdescends).symm
    exact Except.ok.inj (hlast.symm.trans heq)
  split at hparent
  case isTrue heq =>
    cases hparent
    constructor
    · exact fun hworth _ => hworth tip rfl
    · intro hworth b hb
      cases hb
      exact hworth (heq ▸ hlastDescends)
  case isFalse hne =>
    refine ⟨fun _ hdescends => absurd (hlastEq hdescends) hne, fun _ b hb => ?_⟩
    subst hb
    obtain ⟨_, c, hstart, hdescends, hfound⟩ := findAncestor_eq_some hparent
    cases hstart
    obtain ⟨rfl, header', hheader', hne', hbefore⟩ := minableBefore_eq_some hfound
    have hprevMem : header'.prevMainHash ∈ a.mainHeaderInfos :=
      h.main.height.mp (Index.height_of_isDescendant hbefore (h.main.height_of_mem hlastMem))
    have hbefore := (h.main.isMainDescendant_eq_true hprevMem hlastMem).mp hbefore
    rcases descends_iff_upTo_parent.mp hdescends with rfl | ⟨p, hp, hdescends⟩
    · cases hheader.symm.trans hheader'
      exact absurd (hlastEq (hbefore.trans hlastDescends)) hne
    · -- a proper ancestor of the tip is verified up to the block that the tip builds on
      rw [SideStored.sideParent_eq hheader] at hp
      obtain ⟨first, hfirst, htipMem, hfirstDescends⟩ := h.verified_parent hheader hp hverified
      obtain ⟨earlier, hearlier, hverified'⟩ := h.verified_ancestor hfirst hdescends
      have hearlier := hearlier.trans hfirstDescends
      have hprevParent := h.parent_of_verified hheader' hverified' hprevMem
      have hcommon : Descends m.parent header'.prevMainHash header.prevMainHash :=
        (Descends.of_parent hprevParent).trans hearlier
      obtain ⟨z, hz, hlastCommon⟩ := Index.lastCommon_eq_ok h.main.describes
        (h.main.height_of_mem hmem) (h.main.height_of_mem htipMem)
        (hbefore.trans hlastDescends) hcommon
      cases hlast.symm.trans hz
      obtain ⟨-, hlastTip⟩ := (hlastCommon last).mp (.refl last)
      exact ⟨earlier, (h.verified_before hheader' hverified' hearlier hlastTip hne' hbefore
        hlastMem).trans hlastDescends, hverified'⟩

end Archive

/-- The header made for a template is worth mining: its parent is verified up to the
mainchain block that it builds on, and wherever the archive goes from here, a child
of that mainchain block that commits to the template verifies it. -/
def Archive.WorthMining (m : Mainchain) (a : Archive) (header : Header) : Prop :=
  (∀ b, header.prevSideHash = some b →
    ∃ earlier, Descends m.parent earlier header.prevMainHash ∧ a.Verified b earlier) ∧
  ∀ a' child, a.Calls m .any a' → a'.headers[header.hash]? = some header →
    child ∈ a'.mainBlockInfos → m.parent child = some header.prevMainHash →
    (m.info child).bmmCommitment = some header.hash → a'.Verified header.hash child

/-- A header whose parent is verified up to the mainchain block that it builds on is
worth mining. -/
theorem Archive.Stored.worthMining_iff (hcf : CollisionFree) {m : Mainchain} {a : Archive}
    (h : Stored m a) {header : Header} : a.WorthMining m header ↔
      ∀ b, header.prevSideHash = some b →
        ∃ earlier, Descends m.parent earlier header.prevMainHash ∧ a.Verified b earlier := by
  refine ⟨And.left, fun hworth => ⟨hworth, ?_⟩⟩
  intro a' child hcalls hheader hinfo hparent hcommit
  obtain ⟨h', hsteps⟩ := h.calls hcf hcalls
  refine (h'.bmm.rule hheader hinfo).mpr
    ⟨hcommit, (Mainchain.parent_eq_some.mp hparent).1, fun p hp => ?_⟩
  obtain ⟨earlier, hdescends, hverified⟩ := hworth p hp
  exact ⟨earlier, hdescends.trans (.of_parent hparent), h.verified_steps hcf hsteps hverified⟩

/-- A template on a known mainchain tip is worth mining exactly when the tip of the
state is verified up to that mainchain tip, or builds on a mainchain block that is
not an ancestor of it. -/
theorem buildBlockTemplate_worthMining (hcf : CollisionFree) {m : Mainchain} {node : Node}
    {Allowed : Node → NodeOp → Prop} (hreach : node.Reaches m Allowed)
    (htip : ∀ tip, node.state.tip = some tip → ∃ mainHash, node.archive.Verified tip mainHash)
    {prevMainHash : MainBlockHash} (hmem : prevMainHash ∈ node.archive.mainHeaderInfos)
    {transactions : List (Authorized FilledTransaction) × Amount} {receiveAddress : Address}
    {fee : Option Amount} {template : BlockTemplate}
    (htemplate : node.buildBlockTemplate prevMainHash transactions receiveAddress fee =
      .ok template) :
    node.archive.WorthMining m template.header ↔
      ∀ (tip : BlockHash) header, node.state.tip = some tip →
        node.archive.headers[tip]? = some header →
        Descends m.parent header.prevMainHash prevMainHash →
        ∃ earlier, Descends m.parent earlier prevMainHash ∧ node.archive.Verified tip earlier := by
  have h := hreach.stored hcf
  obtain ⟨hparent, rfl⟩ := Node.buildBlockTemplate_ok htemplate
  rw [h.worthMining_iff hcf]
  cases htipHash : node.state.tip with
  | none =>
    rw [htipHash] at hparent
    have hnone : template.header.prevSideHash = none := (Except.ok.inj hparent).symm
    refine ⟨fun _ _ _ => nofun, fun _ b hb => ?_⟩
    cases hnone.symm.trans hb
  | some tip =>
    rw [htipHash] at hparent
    obtain ⟨mainHash, hverified⟩ := htip tip htipHash
    obtain ⟨header, hheader, -⟩ := bind_eq_ok.mp hparent
    have hheader := okOr_eq_ok.mp hheader
    rw [h.templateParent_iff hheader hverified hmem hparent]
    constructor
    · intro hworth tip' header' htip' hheader'
      cases htip'
      cases hheader.symm.trans hheader'
      exact hworth
    · exact fun hworth => hworth tip header rfl hheader

end

namespace Instance

/-- The header of an empty block. -/
def minedHeader (prev : Option Header) (prevMain : Nat) : Header :=
  ⟨(Body.computeMerkleRoot ⟨[], []⟩ []).toOption.getD [], prev.map Header.hash,
    BitVec.ofNat 256 prevMain⟩

def headerM : Header := minedHeader none 2

/-- The third and the fourth block of this mainchain are both on top of the second
one, and the third one commits to a block. -/
def branchMain : Mainchain where
  header hash := if hash = 4 then ⟨4, 2, 2, 1⟩ else ⟨hash, hash - 1, hash.toNat - 1, 1⟩
  info hash := ⟨⟨[]⟩, if hash = 3 then some headerM.hash else none⟩

def branchOps : List NodeOp :=
  [connectMain branchMain 1, connectMain branchMain 2, connectMain branchMain 3] ++
    storeEmpty headerM ++
    [.reorg 0 ⟨headerM.hash, 3⟩, .ancestorInfo (branchMain.header 4) (branchMain.info 4)]

def branchNode : Node := Node.new.run branchOps

def branchTemplate (n : MainBlockHash) : BlockTemplate :=
  (branchNode.buildBlockTemplate n ([], 0) 0 none).toOption.getD ⟨0, headerM, 0, emptyBody, 0⟩

theorem branchNode_reaches : branchNode.Reaches branchMain fun _ _ => True := by
  have hreported : ∀ op ∈ branchOps, op.Reported branchMain := by decide +kernel
  exact .run .new hreported (Node.permits_true .new branchOps)

/-- A template on the other branch is built on a block that only the first branch
verifies. -/
theorem template_on_other_branch :
    branchNode.Reaches branchMain (fun _ _ => True) ∧
      branchNode.state.tip = some headerM.hash ∧ branchNode.archive.Verified headerM.hash 3 ∧
      (4 : MainBlockHash) ∈ branchNode.archive.mainHeaderInfos ∧
      branchNode.buildBlockTemplate 4 ([], 0) 0 none = .ok (branchTemplate 4) ∧
      ¬ branchNode.archive.WorthMining branchMain (branchTemplate 4).header := by
  have hverified : branchNode.archive.Verified headerM.hash 3 := by
    unfold Archive.Verified
    decide +kernel
  have hmem : (4 : MainBlockHash) ∈ branchNode.archive.mainHeaderInfos := by decide +kernel
  have htemplate : branchNode.buildBlockTemplate 4 ([], 0) 0 none = .ok (branchTemplate 4) := by
    rw [branchTemplate]
    exact eq_ok_getD _ (by decide +kernel)
  refine ⟨branchNode_reaches, by decide +kernel, hverified, hmem, htemplate, fun hworth => ?_⟩
  have hprev : (branchTemplate 4).header.prevSideHash = some headerM.hash := by decide +kernel
  have hprevMain : (branchTemplate 4).header.prevMainHash = 4 := by decide +kernel
  obtain ⟨earlier, hdescends, hearlier⟩ := hworth.1 _ hprev
  have hstored := branchNode_reaches.stored collisionFree
  have hthird : earlier = 3 := by
    have hcommit := hstored.bmm.commit hearlier
    by_contra hne
    cases (if_neg hne : (branchMain.info earlier).bmmCommitment = none).symm.trans hcommit
  rw [hthird, hprevMain] at hdescends
  have hdescendant := (hstored.main.isMainDescendant_eq_true
    (hstored.bmm.main_mem hstored.main _ _ hverified) hmem).mpr hdescends
  exact absurd hdescendant (by decide +kernel)

theorem template_on_same_branch :
    branchNode.buildBlockTemplate 3 ([], 0) 0 none = .ok (branchTemplate 3) ∧
      branchNode.archive.WorthMining branchMain (branchTemplate 3).header := by
  have hverified : branchNode.archive.Verified headerM.hash 3 := by
    unfold Archive.Verified
    decide +kernel
  have htip : branchNode.state.tip = some headerM.hash := by decide +kernel
  have htemplate : branchNode.buildBlockTemplate 3 ([], 0) 0 none = .ok (branchTemplate 3) := by
    rw [branchTemplate]
    exact eq_ok_getD _ (by decide +kernel)
  refine ⟨htemplate, (buildBlockTemplate_worthMining collisionFree branchNode_reaches
    (fun tip h => ?_) (by decide +kernel) htemplate).mpr fun tip header h _ _ => ?_⟩
  · cases htip.symm.trans h
    exact ⟨3, hverified⟩
  · cases htip.symm.trans h
    exact ⟨3, .refl 3, hverified⟩

end Instance

end PlainBitnames
