import PlainBitnames.Archive.Lookups
import PlainBitnames.Properties.Segments

/-!
The verification that the node uses for its tip: the one with the most total work among all
mainchain blocks at which the block is verified, whether they are on the active mainchain or
not. Hash maps are read in any order, and the last one with the most work counts.
-/

namespace PlainBitnames

open Fallible Lineage

section

variable [Primitives]

namespace Archive

/-- The best mainchain verification of a block, with its results read in some order. -/
def getBestMainVerificationIn (a : Archive) (blockHash : BlockHash)
    (results : List (MainBlockHash × BmmResult)) : ArchiveResult MainBlockHash := do
  let best ← results.foldlM a.betterVerification none
  okOr (best.map Prod.snd) (.error (.noBmmResult blockHash))

variable {a : Archive}

theorem betterVerification_verified {best : Option (Nat × MainBlockHash)} {x : MainBlockHash}
    {work : Nat} (hwork : a.totalWork[x]? = some work)
    (hle : ∀ w y, best = some (w, y) → w ≤ work) :
    a.betterVerification best (x, .verified) = .ok (some (work, x)) := by
  rw [betterVerification, if_neg BmmResult.noConfusion, getTotalWork, hwork, okOr_some, ok_bind]
  cases best with
  | none => rfl
  | some best =>
    dsimp only
    rw [if_neg (Nat.not_lt.mpr (hle _ _ rfl))]

/-- A verification with the most work is the best one if it is read last. -/
theorem getBestMainVerificationIn_last {results : List (MainBlockHash × BmmResult)} {b : BlockHash}
    {x : MainBlockHash} {work : Nat} (hwork : a.totalWork[x]? = some work)
    (hknown : ∀ y, (y, .verified) ∈ results → ∃ w, a.totalWork[y]? = some w)
    (hmost : ∀ (y : MainBlockHash) (w : Nat), (y, .verified) ∈ results →
      a.totalWork[y]? = some w → w ≤ work) :
    a.getBestMainVerificationIn b (results ++ [(x, .verified)]) = .ok x := by
  obtain ⟨best, hbest, hisBest⟩ := exists_isBest hknown
  have hle : ∀ w y, best = some (w, y) → w ≤ work := by
    rintro w y rfl
    exact hmost y w hisBest.1 hisBest.2.1
  refine bind_eq_ok.mpr ⟨some (work, x), ?_, rfl⟩
  refine foldlM_append_eq_ok.mpr ⟨best, hbest, foldlM_cons_eq_ok.mpr ⟨_, ?_, foldlM_nil_eq_ok.mpr rfl⟩⟩
  exact betterVerification_verified hwork hle

/-- The best verification lies in a set in every order of the results, if each one outside
has less work than one in the set. -/
theorem best_mem_iff {results : List (MainBlockHash × BmmResult)} {b : BlockHash}
    {S : Set MainBlockHash} {x : MainBlockHash} (hx : (x, .verified) ∈ results)
    (hknown : ∀ y, (y, .verified) ∈ results → ∃ w, a.totalWork[y]? = some w) :
    (∀ order, order.Perm results → ∃ best ∈ S, a.getBestMainVerificationIn b order = .ok best) ↔
      ∀ (y : MainBlockHash) (w : Nat), (y, .verified) ∈ results → y ∉ S → a.totalWork[y]? = some w →
        ∃ z ∈ S, (z, .verified) ∈ results ∧ ∃ w', a.totalWork[z]? = some w' ∧ w < w' := by
  -- what is best in any order
  have hbest : ∀ order : List (MainBlockHash × BmmResult), order.Perm results →
      ∃ work best, a.getBestMainVerificationIn b order = .ok best ∧
        a.IsBest results (some (work, best)) := by
    intro order hperm
    have hknown' : ∀ y, (y, .verified) ∈ order → ∃ w, a.totalWork[y]? = some w :=
      fun y hy => hknown y (hperm.mem_iff.mp hy)
    obtain ⟨best, hfold, hisBest⟩ := exists_isBest hknown'
    cases best with
    | none => exact absurd (hperm.mem_iff.mpr hx) (hisBest x)
    | some best =>
      obtain ⟨hmem, hwork, hle⟩ := hisBest
      exact ⟨best.1, best.2, bind_eq_ok.mpr ⟨_, hfold, rfl⟩, hperm.mem_iff.mp hmem, hwork,
        fun y w hy => hle y w (hperm.mem_iff.mpr hy)⟩
  constructor
  · intro h y w hy hyS hw
    obtain ⟨work, best, hget, hmem, hwork, hle⟩ := hbest results (.refl _)
    obtain ⟨best', hbestS, hget'⟩ := h results (.refl _)
    cases hget.symm.trans hget'
    refine ⟨best, hbestS, hmem, work, hwork, lt_of_le_of_ne (hle y w hy hw) ?_⟩
    rintro rfl
    -- with the most work, `y` is the best one when it is read last
    obtain ⟨front, back, rfl⟩ := List.append_of_mem hy
    have hperm : (front ++ back ++ [(y, BmmResult.verified)]).Perm
        (front ++ (y, BmmResult.verified) :: back) :=
      (List.perm_append_singleton _ _).trans List.perm_middle.symm
    have hsub : ∀ z, (z, BmmResult.verified) ∈ front ++ back →
        (z, BmmResult.verified) ∈ front ++ (y, BmmResult.verified) :: back :=
      fun z hz => hperm.mem_iff.mp (List.mem_append_left _ hz)
    have hlast : a.getBestMainVerificationIn b (front ++ back ++ [(y, .verified)]) = .ok y :=
      getBestMainVerificationIn_last hw (fun z hz => hknown z (hsub z hz))
        fun z wz hz => hle z wz (hsub z hz)
    obtain ⟨best'', hbestS', hget''⟩ := h _ hperm
    cases hlast.symm.trans hget''
    exact hyS hbestS'
  · intro h order hperm
    obtain ⟨work, best, hget, hmem, hwork, hle⟩ := hbest order hperm
    refine ⟨best, ?_, hget⟩
    by_contra hnot
    obtain ⟨z, -, hz, w', hw', hlt⟩ := h best work hmem hnot hwork
    exact absurd (hle z w' hz hw') (Nat.not_le.mpr hlt)

end Archive

/-- The best verification of a verified block is on the active mainchain, in whatever order
the results are read, if every verification off the active mainchain has less total work
than one on it. -/
theorem best_verification_active_iff (hcf : CollisionFree) {m : Mainchain}
    {Allowed : Node → NodeOp → Prop} {node : Node} (hreaches : node.Reaches m Allowed)
    {tip x : MainBlockHash} {b : BlockHash} (hx : node.archive.Verified b x) :
    (∀ results, results.Perm (node.archive.getBmmResults b).toList →
      ∃ best, Descends node.archive.mainParent best tip ∧
        node.archive.getBestMainVerificationIn b results = .ok best) ↔
    ∀ (y : MainBlockHash) (w : Nat), node.archive.Verified b y →
      ¬ Descends node.archive.mainParent y tip → node.archive.totalWork[y]? = some w →
      ∃ z, Descends node.archive.mainParent z tip ∧ node.archive.Verified b z ∧
        ∃ w', node.archive.totalWork[z]? = some w' ∧ w < w' := by
  have hstored := hreaches.stored hcf
  have hget : ∀ y, (y, BmmResult.verified) ∈ (node.archive.getBmmResults b).toList ↔
      node.archive.Verified b y := fun y => Db.mem_toList
  have hknown : ∀ y, (y, BmmResult.verified) ∈ (node.archive.getBmmResults b).toList →
      ∃ w, node.archive.totalWork[y]? = some w :=
    fun y hy => hstored.main.work (hstored.bmm.main_mem hstored.main b y ((hget y).mp hy))
  have hiff := Archive.best_mem_iff (b := b) (S := {y | Descends node.archive.mainParent y tip})
    ((hget x).mpr hx) hknown
  simp only [hget, Set.mem_ofPred_eq] at hiff
  exact hiff

end

namespace Instance

/-- Blocks 2 and 3 are children of block 1, and block 4 is a child of block 2. Both 2 and 3
commit to one block. -/
def sisterMain : Mainchain where
  header hash := ⟨hash, BitVec.ofNat 256 ([0, 0, 1, 1, 2].getD hash.toNat 0),
    [0, 0, 1, 1, 2].getD hash.toNat 0, [0, 1, 1, 2, 5].getD hash.toNat 0⟩
  info hash := ⟨⟨[]⟩, ([none, none, some headerG, some headerG].getD hash.toNat none).map Header.hash⟩

/-- The active mainchain is 1, 2, 4. -/
def sisterNode : Node := Node.new.run
  [connectMain sisterMain 1, connectMain sisterMain 2,
    .ancestorInfo (sisterMain.header 3) (sisterMain.info 3), connectMain sisterMain 4,
    .header headerG]

/-- No mainchain block has more work than the recorded tip, and the block is verified at
its parent, but its best verification is the sibling of that. -/
theorem best_verification_off_chain :
    sisterNode.Reaches sisterMain (fun _ _ => True) ∧
      sisterNode.archive.mainTip = some 4 ∧
      (∀ entry ∈ sisterNode.archive.totalWork.toList, entry.2 ≤ 7) ∧
      sisterNode.archive.totalWork[(4 : MainBlockHash)]? = some 7 ∧
      sisterNode.archive.isMainDescendant 2 4 = .ok true ∧
      sisterNode.archive.Verified headerG.hash 2 ∧
      sisterNode.archive.getBestMainVerification headerG.hash = .ok 3 ∧
      sisterNode.archive.isMainDescendant 3 4 = .ok false := by
  refine ⟨.run .new (by decide +kernel) (Node.permits_true .new _), ?_⟩
  unfold Archive.Verified
  decide +kernel

/-- The same block before the sibling is known. -/
def onlyNode : Node := Node.new.run
  [connectMain sisterMain 1, connectMain sisterMain 2, .header headerG]

theorem best_verification_active_only :
    onlyNode.archive.Verified headerG.hash 2 ∧
      ∃ best, Descends onlyNode.archive.mainParent best 2 ∧
        onlyNode.archive.getBestMainVerification headerG.hash = .ok best := by
  have hreaches : onlyNode.Reaches sisterMain fun _ _ => True :=
    .run .new (by decide +kernel) (Node.permits_true .new _)
  have hverified : onlyNode.archive.Verified headerG.hash 2 := by
    unfold Archive.Verified
    decide +kernel
  have honly : ∀ result ∈ (onlyNode.archive.getBmmResults headerG.hash).toList, result.1 = 2 := by
    decide +kernel
  refine ⟨hverified, (best_verification_active_iff collisionFree hreaches hverified).mpr ?_ _ (.refl _)⟩
  intro y w hy hnot
  obtain rfl : y = 2 := honly (y, .verified) (Db.mem_toList.mpr hy)
  exact absurd (Descends.refl _) hnot

end Instance

end PlainBitnames
