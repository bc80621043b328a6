import PlainBitnames.Archive.BetterTip
import PlainBitnames.Archive.Invalidate
import PlainBitnames.Properties.BmmResults

/-!
Lookups along the ancestors of a block. Jumps by powers of two reach the same blocks
as the walk from parent to parent, and the binary search for a common ancestor finds
the highest one.
-/

namespace PlainBitnames

open Fallible Lineage

section

variable [Primitives]

namespace Archive

/-- The archives that are built by storing headers and reports about a mainchain, and
by invalidating blocks. -/
inductive Built (m : Mainchain) : Archive → Prop
  | new : Built m .new
  | op {a a' : Archive} {op : ArchiveOp} (h : Built m a) (hop : op.Reported m)
      (hput : a.op op = .ok a') : Built m a'
  | invalidateBlock {a : Archive} (h : Built m a) (b : BlockHash) : Built m (a.invalidateBlock b)

/-- The blocks of an archive and of its mainchain each form a forest, with heights and
jumps. -/
structure Consistent (m : Mainchain) (a : Archive) : Prop where
  side : SideStored a
  main : MainStored m a

variable {m : Mainchain} {a : Archive}

theorem MainStored.invalidateBlock (hside : SideStored a) (h : MainStored m a) (b : BlockHash) :
    MainStored m (a.invalidateBlock b) := by
  by_cases hb : b ∈ a.headers
  · obtain ⟨gone, hgone⟩ := exists_invalidating hside hb
    rw [hgone.pruned.rest]
    exact { h with describes := h.describes }
  · rw [invalidateBlock_of_not_mem hside hb]
    exact { h with describes := h.describes }

theorem Built.consistent (hcf : CollisionFree) (h : Built m a) : Consistent m a := by
  induction h with
  | new => exact ⟨.new, .new m⟩
  | @op a a' op h hop hput ih =>
    cases op with
    | header header => exact ⟨ih.side.putHeader hcf hput, ih.main.putHeader hput⟩
    | mainHeaderInfo info =>
      exact ⟨ih.side.putMainHeaderInfo hput, ih.main.putMainHeaderInfo hop.1 hop.2 hput⟩
    | mainBlockInfo hash info =>
      exact ⟨ih.side.putMainBlockInfo hput, ih.main.putMainBlockInfo hop hput⟩
  | invalidateBlock h b ih => exact ⟨ih.side.invalidateBlock b, ih.main.invalidateBlock ih.side b⟩

end Archive

open Archive

/-- In every archive that is built by storing headers and by invalidating blocks, the
lookup of an ancestor returns the block that is reached from parent to parent, or the
error that there is none, and the jumps of a block are its ancestors at the powers of
two. -/
theorem nthAncestor_walks (hcf : CollisionFree) {m : Mainchain} {a : Archive} (h : Built m a) :
    (∀ b ∈ a.headers, ∃ height skips, a.blockHashToHeight[b]? = some height ∧
      a.exponentialAncestors[b]? = some skips ∧
      (∀ n ≤ height, ∃ x, ancestor a.sideParent n b = some x ∧ a.getNthAncestor b n = .ok x) ∧
      (∀ n, height < n → a.getNthAncestor b n = .error (.error (.noAncestor b n))) ∧
      ∀ i, 2 ^ (i + 1) ≤ height →
        ∃ x, ancestor a.sideParent (2 ^ (i + 1)) b = some x ∧ skips[i]? = some x) ∧
    ∀ b ∈ a.mainHeaderInfos, ∃ height skips, a.mainBlockHashToHeight[b]? = some height ∧
      a.exponentialMainAncestors[b]? = some skips ∧
      (∀ n ≤ height, ∃ x, ancestor a.mainParent n b = some x ∧ a.getNthMainAncestor b n = .ok x) ∧
      (∀ n, height < n → a.getNthMainAncestor b n = .error (.error (.noMainAncestor b n))) ∧
      ∀ i, 2 ^ (i + 1) ≤ height →
        ∃ x, ancestor a.mainParent (2 ^ (i + 1)) b = some x ∧ skips[i]? = some x := by
  obtain ⟨hside, hmain⟩ := h.consistent hcf
  refine ⟨fun b hb => ?_, fun b hb => ?_⟩
  · exact hside.describes.walks (hside.height_of_mem hb)
  · exact hmain.describes_mainParent.walks (hmain.height_of_mem hb)

/-- A common ancestor of two blocks such that no common ancestor is higher. -/
def HighestCommon {K : Type} (parent : K → Option K) (height : K → Option Nat) (z x y : K) : Prop :=
  Descends parent z x ∧ Descends parent z y ∧ ∀ w, Descends parent w x → Descends parent w y →
    ∃ j k, height w = some j ∧ height z = some k ∧ j ≤ k

omit [Primitives] in
theorem HighestCommon.of_lastCommon {K E : Type} {ix : Index K E} {parent : K → Option K} {x y z : K}
    (hr : Rooted parent ix.height) (hx : ∃ h, ix.height x = some h)
    (hz : Index.LastCommon parent z x y) : HighestCommon parent ix.height z x y := by
  obtain ⟨h, hx⟩ := hx
  obtain ⟨hzx, hzy⟩ := (hz z).mp (.refl z)
  refine ⟨hzx, hzy, fun w hwx hwy => ?_⟩
  obtain ⟨j, -, hj⟩ := hr.exists_height hx hwx
  obtain ⟨k, -, hk⟩ := hr.exists_height hx hzx
  exact ⟨j, k, hj, hk, hz.height_le hr hk hj hwx hwy⟩

/-- In a consistent archive, the last common ancestor of two blocks is the highest one,
and there is none exactly when the blocks have different roots. On the mainchain it is
the highest one if the roots are the same. The tests for descendants and for a shared
lineage are exact. -/
theorem common_ancestor_highest {m : Mainchain} {a : Archive} (h : Consistent m a) :
    (∀ x ∈ a.headers, ∀ y ∈ a.headers,
      (∃ z? root root', a.lastCommonAncestor x y = .ok z? ∧ RootOf a.sideParent root x ∧
        RootOf a.sideParent root' y ∧ (z? = none ↔ root ≠ root') ∧
        ∀ z, z? = some z → HighestCommon a.sideParent (a.blockHashToHeight[·]?) z x y) ∧
      ∃ answer, a.isDescendant x y = .ok answer ∧
        (answer = true ↔ Descends a.sideParent x y)) ∧
    ∀ x ∈ a.mainHeaderInfos, ∀ y ∈ a.mainHeaderInfos,
      ((∃ root, RootOf a.mainParent root x ∧ RootOf a.mainParent root y) →
        ∃ z, a.lastCommonMainAncestor x y = .ok z ∧
          HighestCommon a.mainParent (a.mainBlockHashToHeight[·]?) z x y) ∧
      (∃ answer, a.isMainDescendant x y = .ok answer ∧
        (answer = true ↔ Descends a.mainParent x y)) ∧
      ∃ answer, a.sharedMainchainLineage x y = .ok answer ∧
        (answer = true ↔ Descends a.mainParent x y ∨ Descends a.mainParent y x) := by
  obtain ⟨hside, hmain⟩ := h
  refine ⟨fun x hx y hy => ⟨?_, ?_⟩, fun x hx y hy => ⟨?_, ?_, ?_⟩⟩
  · have hr := hside.describes.rooted
    obtain ⟨j, hj⟩ := hside.height_of_mem hx
    obtain ⟨k, hk⟩ := hside.height_of_mem hy
    obtain ⟨root, hroot⟩ := hr.exists_root hj
    obtain ⟨root', hroot'⟩ := hr.exists_root hk
    obtain ⟨z?, hz?, hlast, hnone⟩ := Index.lastCommon?_eq_ok hside.describes ⟨j, hj⟩ ⟨k, hk⟩
    refine ⟨z?, root, root', hz?, hroot, hroot', ⟨fun heq => ?_, fun hne => ?_⟩, fun z hz =>
      .of_lastCommon hr ⟨j, hj⟩ (hlast z hz)⟩
    · rintro rfl
      exact hnone heq root ⟨hroot.1, hroot'.1⟩
    · -- the root of a common ancestor would be the root of both blocks
      cases hcommon : z? with
      | none => rfl
      | some z =>
        obtain ⟨hzx, hzy⟩ := (hlast z hcommon z).mp (.refl z)
        obtain ⟨i, -, hi⟩ := hr.exists_height hj hzx
        obtain ⟨common, hcommon⟩ := hr.exists_root hi
        exact absurd ((hroot.unique (hcommon.of_descends hzx)).trans
          ((hcommon.of_descends hzy).unique hroot')) hne
  · exact Index.isDescendant_eq_ok hside.describes (hside.height_of_mem hx) (hside.height_of_mem hy)
  · rintro ⟨root, hroot, hroot'⟩
    obtain ⟨z, hz, hlast⟩ := Index.lastCommon_eq_ok hmain.describes_mainParent (hmain.height_of_mem hx)
      (hmain.height_of_mem hy) hroot.1 hroot'.1
    exact ⟨z, hz, .of_lastCommon hmain.describes_mainParent.rooted (hmain.height_of_mem hx) hlast⟩
  · exact Index.isDescendant_eq_ok hmain.describes_mainParent (hmain.height_of_mem hx)
      (hmain.height_of_mem hy)
  · obtain ⟨answer, hanswer, hiff⟩ := hmain.exists_sharedMainchainLineage hx hy
    exact ⟨answer, hanswer, by
      rw [hiff, hmain.descends_mainParent hy, hmain.descends_mainParent hx]⟩

end

namespace Instance

theorem forkArchive_built : forkArchive.Built forkMainchain :=
  foldlM_invariant .new (fun op _ _ hmem ha hop => .op ha (reported_fork op hmem) hop) build_fork

/-- The archive with forks after a branch was invalidated. -/
def prunedFork : Archive := forkArchive.invalidateBlock headerA2.hash

theorem nthAncestor_walks_prunedFork :
    prunedFork.Built forkMainchain ∧ prunedFork.blockHashToHeight[headerB2.hash]? = some 2 ∧
      prunedFork.getNthAncestor headerB2.hash 3 =
        .error (.error (.noAncestor headerB2.hash 3)) ∧
      ∃ x, ancestor prunedFork.sideParent 2 headerB2.hash = some x ∧
        prunedFork.getNthAncestor headerB2.hash 2 = .ok x := by
  have hbuilt : prunedFork.Built forkMainchain := .invalidateBlock forkArchive_built _
  obtain ⟨hmem, htwo⟩ : headerB2.hash ∈ prunedFork.headers ∧
      prunedFork.blockHashToHeight[headerB2.hash]? = some 2 := by
    decide +kernel
  obtain ⟨height, _, hheight, -, hfound, hmissing, -⟩ :=
    (nthAncestor_walks collisionFree hbuilt).1 _ hmem
  cases hheight.symm.trans htwo
  exact ⟨hbuilt, htwo, hmissing 3 (by decide), hfound 2 (by decide)⟩

theorem common_ancestor_highest_fork :
    forkArchive.Consistent forkMainchain ∧
      forkArchive.lastCommonAncestor headerA3.hash headerB2.hash = .ok (some headerG.hash) ∧
      HighestCommon forkArchive.sideParent (forkArchive.blockHashToHeight[·]?) headerG.hash
        headerA3.hash headerB2.hash := by
  have hconsistent := forkArchive_built.consistent collisionFree
  obtain ⟨hcommon, hA3, hB2⟩ :
      forkArchive.lastCommonAncestor headerA3.hash headerB2.hash = .ok (some headerG.hash) ∧
        headerA3.hash ∈ forkArchive.headers ∧ headerB2.hash ∈ forkArchive.headers := by
    decide +kernel
  obtain ⟨⟨z?, _, _, hz?, -, -, -, hhighest⟩, -⟩ := (common_ancestor_highest hconsistent).1
    headerA3.hash hA3 headerB2.hash hB2
  cases hcommon.symm.trans hz?
  exact ⟨hconsistent, hcommon, hhighest _ rfl⟩

end Instance

end PlainBitnames
