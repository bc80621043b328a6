import PlainBitnames.Archive.Bmm
import PlainBitnames.Instance

/-!
Results of blind merged mining do not depend on the order in which headers and
mainchain blocks arrive, and they are closed under ancestors. So the lookup of
a requested ancestor of a verified tip always finds a mainchain block.
-/

namespace PlainBitnames

open Fallible Lineage

section

variable [Primitives]

namespace Archive

/-- The first verification at a block that is an ancestor of the given one. -/
def findVerification (a : Archive) (descendant : MainBlockHash) :
    List (MainBlockHash × BmmResult) → ArchiveResult (Option MainBlockHash)
  | [] => .ok none
  | (_, .failed) :: rest => findVerification a descendant rest
  | (mainBlockHash, .verified) :: rest => do
      let isAncestor ← a.isMainDescendant mainBlockHash descendant
      if isAncestor then .ok (some mainBlockHash) else findVerification a descendant rest

/-- The mainchain block of a requested block, as `handle_response` looks it up:
the verification that is an ancestor of the mainchain block of the tip. -/
def requestedMainBlock (a : Archive) (blockHash : BlockHash) (descendantTip : Tip) :
    ArchiveResult MainBlockHash := do
  let found ← a.findVerification descendantTip.mainBlockHash (a.getBmmResults blockHash).toList
  okOr found (.panic "called `Option::unwrap()` on a `None` value")

theorem exists_findVerification {m : Mainchain} {a : Archive} (h : MainStored m a)
    {descendant earlier : MainBlockHash} (hdescendant : descendant ∈ a.mainHeaderInfos)
    {results : List (MainBlockHash × BmmResult)}
    (hresults : ∀ x, (x, BmmResult.verified) ∈ results → x ∈ a.mainHeaderInfos)
    (hmem : (earlier, BmmResult.verified) ∈ results)
    (hearlier : Descends m.parent earlier descendant) :
    ∃ found, a.findVerification descendant results = .ok (some found) := by
  induction results with
  | nil => cases hmem
  | cons entry results ih =>
    obtain ⟨x, result⟩ := entry
    have ih := ih fun y hy => hresults y (List.mem_cons_of_mem _ hy)
    cases result with
    | failed =>
      rcases List.mem_cons.mp hmem with heq | hmem
      · cases heq
      · exact ih hmem
    | verified =>
      obtain ⟨isAncestor, hx, hspec⟩ := h.exists_isMainDescendant
        (hresults x List.mem_cons_self) hdescendant
      rw [findVerification, hx, ok_bind]
      cases isAncestor with
      | true => exact ⟨x, rfl⟩
      | false =>
        refine ih ?_
        rcases List.mem_cons.mp hmem with heq | hmem
        · cases heq
          exact absurd (hspec.mpr hearlier) Bool.false_ne_true
        · exact hmem

theorem Stored.verified_iff {m : Mainchain} {a : Archive} (h : Stored m a) {header : Header}
    {mainHash : MainBlockHash} (hheader : a.headers[header.hash]? = some header)
    (hmain : mainHash ∈ a.mainBlockInfos) :
    a.Verified header.hash mainHash ↔
      (∃ info, a.mainBlockInfos[mainHash]? = some info ∧
        info.bmmCommitment = some header.hash) ∧
      (∃ info, a.mainHeaderInfos[mainHash]? = some info ∧
        info.prevBlockHash = header.prevMainHash) ∧
      (header.prevSideHash = none ∨ ∃ p earlier, header.prevSideHash = some p ∧
        Descends a.mainParent earlier mainHash ∧ a.Verified p earlier) := by
  have hstored := h.main.info_header hmain
  obtain ⟨info, hinfo⟩ := (Db.mem_iff _ _).mp hmain
  obtain ⟨mainHeader, hmainHeader⟩ := (Db.mem_iff _ _).mp hstored
  rw [h.bmm.rule hheader hmain, BmmRule, ← h.main.info_eq hinfo, ← h.main.header_eq hmainHeader]
  simp only [h.main.descends_mainParent hstored, hinfo, hmainHeader, Option.some.injEq,
    exists_eq_left']
  refine and_congr_right fun _ => and_congr_right fun _ => ?_
  cases header.prevSideHash <;> simp

end Archive

/-- In an archive that is built in any order, a stored header is verified at a
stored mainchain block exactly if the block commits to it and has the parent it
names, and the parent of the header is verified at an ancestor of the block.
So the ancestors of a verified block are verified at ancestors, and the
mainchain block of a requested ancestor is found. -/
theorem bmmResults_orderIndependent (hcf : CollisionFree) {m : Mainchain} {ops : List ArchiveOp}
    {a : Archive} (hops : ∀ op ∈ ops, op.Reported m) (hbuild : Archive.new.build ops = .ok a) :
    (∀ (header : Header) (mainHash : MainBlockHash), a.headers[header.hash]? = some header →
      mainHash ∈ a.mainBlockInfos →
      (a.tryGetBmmResult header.hash mainHash = some .verified ↔
        (∃ info, a.mainBlockInfos[mainHash]? = some info ∧
          info.bmmCommitment = some header.hash) ∧
        (∃ info, a.mainHeaderInfos[mainHash]? = some info ∧
          info.prevBlockHash = header.prevMainHash) ∧
        (header.prevSideHash = none ∨ ∃ p earlier, header.prevSideHash = some p ∧
          Descends a.mainParent earlier mainHash ∧
          a.tryGetBmmResult p earlier = some .verified))) ∧
    (∀ b b' mainHash, a.tryGetBmmResult b mainHash = some .verified →
      Descends a.sideParent b' b → ∃ earlier, Descends a.mainParent earlier mainHash ∧
        a.tryGetBmmResult b' earlier = some .verified) ∧
    (∀ (tip : Tip) b, a.tryGetBmmResult tip.blockHash tip.mainBlockHash = some .verified →
      Descends a.sideParent b tip.blockHash →
        ∃ mainHash, a.requestedMainBlock b tip = .ok mainHash) := by
  have h := Archive.stored_of_build hcf hops hbuild
  refine ⟨fun header mainHash => h.verified_iff, ?_, ?_⟩
  · intro b b' mainHash hverified hdescends
    obtain ⟨earlier, hearlier, hverified'⟩ := h.verified_ancestor hverified hdescends
    exact ⟨earlier, (h.main.descends_mainParent (h.bmm.main_mem h.main _ _ hverified)).mpr hearlier,
      hverified'⟩
  · intro tip b hverified hdescends
    obtain ⟨earlier, hearlier, hverified'⟩ := h.verified_ancestor hverified hdescends
    have hresults : ∀ x, (x, BmmResult.verified) ∈ (a.getBmmResults b).toList →
        x ∈ a.mainHeaderInfos := fun x hx =>
      h.bmm.main_mem h.main b x (Db.mem_toList.mp hx)
    obtain ⟨found, hfound⟩ := Archive.exists_findVerification h.main
      (h.bmm.main_mem h.main _ _ hverified) hresults
      (Db.mem_toList.mpr hverified') hearlier
    exact ⟨found, by rw [Archive.requestedMainBlock, hfound]; rfl⟩

end

namespace Instance

/-- A mainchain with forks: blocks 1 to 5 are a lineage with the children 6, 7
and 10 of block 5, and block 8 is a child of block 3 and the parent of block 9. -/
def forkPrev : List Nat := [0, 0, 1, 2, 3, 4, 5, 5, 3, 8, 5]

def forkWork : List Nat := [0, 1, 1, 1, 1, 1, 1, 2, 10, 1, 20]

/-- A header on top of a block, told apart by a byte in place of the root. -/
def sideHeader (mark : UInt8) (prev : Option Header) (prevMain : Nat) : Header :=
  ⟨[mark], prev.map Header.hash, BitVec.ofNat 256 prevMain⟩

def headerG : Header := sideHeader 0 none 1
def headerB1 : Header := sideHeader 1 (some headerG) 2
def headerA1 : Header := sideHeader 2 (some headerG) 3
def headerA2 : Header := sideHeader 3 (some headerA1) 4
def headerA3 : Header := sideHeader 4 (some headerA2) 5
def headerB2 : Header := sideHeader 5 (some headerB1) 5
def headerC1 : Header := sideHeader 6 (some headerG) 3
def headerC2 : Header := sideHeader 7 (some headerC1) 8
def headerD1 : Header := sideHeader 8 (some headerG) 5

def forkCommitment : List (Option Header) :=
  [none, none, some headerG, some headerB1, some headerA1, some headerA2, some headerA3,
    some headerB2, some headerC1, some headerC2, some headerD1]

def forkMainchain : Mainchain where
  header hash := ⟨hash, BitVec.ofNat 256 (forkPrev.getD hash.toNat 0), 0,
    forkWork.getD hash.toNat 0⟩
  info hash := ⟨⟨[]⟩, (forkCommitment.getD hash.toNat none).map Header.hash⟩

/-- A mainchain block is stored: its header, and then its info. -/
def forkMain (n : Nat) : List ArchiveOp :=
  [.mainHeaderInfo (forkMainchain.header (BitVec.ofNat 256 n)),
    .mainBlockInfo (BitVec.ofNat 256 n) (forkMainchain.info (BitVec.ofNat 256 n))]

/-- Some headers are stored before and some after the mainchain blocks that
commit to them. -/
def forkOps : List ArchiveOp :=
  forkMain 1 ++ [ArchiveOp.header headerG] ++ forkMain 2 ++ forkMain 3 ++
    [ArchiveOp.header headerB1] ++ [ArchiveOp.header headerA1] ++ forkMain 4 ++ forkMain 5 ++
    [ArchiveOp.header headerA2, ArchiveOp.header headerA3] ++ forkMain 6 ++ forkMain 7 ++
    [ArchiveOp.header headerB2] ++ forkMain 8 ++ [ArchiveOp.header headerC1] ++
    [ArchiveOp.header headerC2] ++ forkMain 9 ++ [ArchiveOp.header headerD1] ++ forkMain 10

def forkArchive : Archive := (Archive.new.build forkOps).toOption.getD .new

theorem build_fork : Archive.new.build forkOps = .ok forkArchive := by
  rw [forkArchive]
  exact eq_ok_getD _ (by decide +kernel)

theorem reported_fork : ∀ op ∈ forkOps, op.Reported forkMainchain := by
  decide +kernel

def tipA3 : Tip := ⟨headerA3.hash, 6⟩

/-- The block that commits to the tip commits to its ancestors only through its
own ancestors, and the mainchain block of the first one is found there. -/
theorem requestedMainBlock_fork :
    forkArchive.tryGetBmmResult headerA3.hash 6 = some .verified ∧
      forkArchive.tryGetBmmResult headerG.hash 6 = none ∧
      ∃ mainHash, forkArchive.requestedMainBlock headerG.hash tipA3 = .ok mainHash := by
  obtain ⟨hverified, hnone, hthird⟩ :
      forkArchive.tryGetBmmResult headerA3.hash 6 = some .verified ∧
        forkArchive.tryGetBmmResult headerG.hash 6 = none ∧
        ancestor forkArchive.sideParent 3 headerA3.hash = some headerG.hash := by
    decide +kernel
  obtain ⟨-, -, hfound⟩ := bmmResults_orderIndependent collisionFree reported_fork build_fork
  exact ⟨hverified, hnone, hfound tipA3 _ hverified ⟨3, hthird⟩⟩

end Instance

end PlainBitnames
