import PlainBitnames.Lib.Avoids

/-!
Lineages in a forest of blocks. Every block has at most one parent and a height
above its root. An index of the forest also keeps, for every block, the
ancestors at the distances 2, 4, 8, and so on; with it the ancestor at a given
distance is found by jumps along the binary digits of the distance. The lemmas
say what the computations on an index return when it describes the forest.
-/

namespace Lineage

open Fallible

variable {K : Type}

/-- The ancestor at a distance. -/
def ancestor (parent : K → Option K) : Nat → K → Option K
  | 0, x => some x
  | n + 1, x => (parent x).bind (ancestor parent n)

/-- A block is a descendant of another, or the block itself. -/
def Descends (parent : K → Option K) (old new : K) : Prop := ∃ n, ancestor parent n new = some old

section Ancestors

variable {parent : K → Option K} {x y z : K} {m n : Nat}

theorem ancestor_add (m n : Nat) (x : K) :
    ancestor parent (m + n) x = (ancestor parent m x).bind (ancestor parent n) := by
  induction m generalizing x with
  | zero => rw [Nat.zero_add]; rfl
  | succ m ih =>
    rw [Nat.succ_add, ancestor, ancestor, Option.bind_assoc]
    exact congrArg _ (funext ih)

theorem ancestor_trans (hm : ancestor parent m x = some y) (hn : ancestor parent n y = some z) :
    ancestor parent (m + n) x = some z := by
  rw [ancestor_add, hm, Option.bind_some, hn]

theorem ancestor_sub (hm : ancestor parent m x = some y) (hn : ancestor parent n x = some z)
    (hle : m ≤ n) : ancestor parent (n - m) y = some z := by
  have hadd : ancestor parent (m + (n - m)) x = _ := ancestor_add m (n - m) x
  rw [Nat.add_sub_cancel' hle, hn, hm, Option.bind_some] at hadd
  exact hadd.symm

theorem ancestor_one (x : K) : ancestor parent 1 x = parent x := by
  rw [ancestor]
  cases parent x with
  | none => rfl
  | some p => rfl

theorem Descends.refl (x : K) : Descends parent x x := ⟨0, rfl⟩

theorem Descends.trans (hxy : Descends parent x y) (hyz : Descends parent y z) :
    Descends parent x z := by
  obtain ⟨n, hn⟩ := hxy
  obtain ⟨m, hm⟩ := hyz
  exact ⟨m + n, ancestor_trans hm hn⟩

theorem Descends.of_parent (h : parent x = some y) : Descends parent y x :=
  ⟨1, by rw [ancestor_one, h]⟩

theorem Descends.of_ne (hxz : Descends parent x z) (hz : parent z = some y) (hne : x ≠ z) :
    Descends parent x y := by
  obtain ⟨n, hn⟩ := hxz
  cases n with
  | zero => exact absurd (Option.some.inj hn).symm hne
  | succ n => exact ⟨n, by rwa [ancestor, hz, Option.bind_some] at hn⟩

theorem Descends.total (hx : Descends parent x z) (hy : Descends parent y z) :
    Descends parent x y ∨ Descends parent y x := by
  obtain ⟨n, hn⟩ := hx
  obtain ⟨m, hm⟩ := hy
  rcases Nat.le_total m n with hle | hle
  · exact .inl ⟨n - m, ancestor_sub hm hn hle⟩
  · exact .inr ⟨m - n, ancestor_sub hn hm hle⟩

/-- A block is the root of the lineage of another one. -/
def RootOf (parent : K → Option K) (root x : K) : Prop := Descends parent root x ∧ parent root = none

theorem RootOf.of_descends (h : RootOf parent x y) (hz : Descends parent y z) :
    RootOf parent x z :=
  ⟨h.1.trans hz, h.2⟩

theorem RootOf.unique (hx : RootOf parent x z) (hy : RootOf parent y z) : x = y := by
  have hsame : ∀ {x y}, Descends parent x y → parent y = none → x = y := by
    rintro x y ⟨n, hn⟩ hnone
    cases n with
    | zero => exact (Option.some.inj hn).symm
    | succ n =>
      rw [ancestor, hnone] at hn
      cases hn
  rcases hx.1.total hy.1 with hxy | hyx
  · exact hsame hxy hy.2
  · exact (hsame hyx hx.2).symm

end Ancestors

/-- Heights above the roots of a forest. -/
structure Rooted (parent : K → Option K) (height : K → Option Nat) : Prop where
  root : ∀ {x}, height x = some 0 → parent x = none
  step : ∀ {x h}, height x = some (h + 1) → ∃ p, parent x = some p ∧ height p = some h

/-- The height of a block that has a given parent, or none. -/
def StandsAt (height : K → Option Nat) (parent : Option K) (h : Nat) : Prop :=
  parent = none ∧ h = 0 ∨ ∃ p k, parent = some p ∧ height p = some k ∧ h = k + 1

namespace Rooted

variable {parent : K → Option K} {height : K → Option Nat} {x y : K} {h n : Nat}

theorem exists_ancestor (hr : Rooted parent height) (hx : height x = some h) (hn : n ≤ h) :
    ∃ y, ancestor parent n x = some y ∧ height y = some (h - n) := by
  induction n generalizing x h with
  | zero => exact ⟨x, rfl, hx⟩
  | succ n ih =>
    obtain ⟨h, rfl⟩ : ∃ k, h = k + 1 := ⟨h - 1, by omega⟩
    obtain ⟨p, hp, hheight⟩ := hr.step hx
    obtain ⟨y, hy, hyheight⟩ := ih hheight (by omega)
    refine ⟨y, by rw [ancestor, hp, Option.bind_some, hy], ?_⟩
    rw [hyheight, Nat.add_sub_add_right]

theorem exists_root (hr : Rooted parent height) (hx : height x = some h) :
    ∃ root, RootOf parent root x := by
  obtain ⟨root, hroot, hheight⟩ := hr.exists_ancestor hx (Nat.le_refl h)
  rw [Nat.sub_self] at hheight
  exact ⟨root, ⟨h, hroot⟩, hr.root hheight⟩

theorem height_ancestor (hr : Rooted parent height) (hx : height x = some h)
    (hy : ancestor parent n x = some y) : n ≤ h ∧ height y = some (h - n) := by
  induction n generalizing x h with
  | zero =>
    cases hy
    exact ⟨Nat.zero_le h, hx⟩
  | succ n ih =>
    obtain ⟨p, hp, hy⟩ := Option.bind_eq_some_iff.mp hy
    cases h with
    | zero =>
      rw [hr.root hx] at hp
      cases hp
    | succ h =>
      obtain ⟨q, hq, hheight⟩ := hr.step hx
      obtain rfl := Option.some.inj (hp.symm.trans hq)
      obtain ⟨hle, hyheight⟩ := ih hheight hy
      exact ⟨by omega, by rw [hyheight, Nat.add_sub_add_right]⟩

theorem height_parent (hr : Rooted parent height) (hx : height x = some h)
    (hp : parent x = some y) : ∃ k, height y = some k ∧ h = k + 1 := by
  obtain ⟨hle, hy⟩ := hr.height_ancestor (n := 1) hx (by rw [ancestor_one, hp])
  exact ⟨_, hy, by omega⟩

theorem ne_parent (hr : Rooted parent height) (hx : height x = some h) : parent x ≠ some x := by
  intro hp
  obtain ⟨k, hk, heq⟩ := hr.height_parent hx hp
  have := Option.some.inj (hx.symm.trans hk)
  omega

/-- The height of a block is the one that follows from its parent. -/
theorem height_eq (hr : Rooted parent height) {k : Nat} (hx : height x = some k)
    (hstands : StandsAt height (parent x) h) : k = h := by
  rcases hstands with ⟨hnone, rfl⟩ | ⟨p, j, hp, hj, rfl⟩
  · cases k with
    | zero => rfl
    | succ k =>
      obtain ⟨p, hp, -⟩ := hr.step hx
      rw [hnone] at hp
      cases hp
  · obtain ⟨k, hk, rfl⟩ := hr.height_parent hx hp
    rw [Option.some.inj (hj.symm.trans hk)]

theorem descends_iff (hr : Rooted parent height) {hx hy : Nat} (hheight : height x = some hx)
    (hheight' : height y = some hy) :
    Descends parent x y ↔ hx ≤ hy ∧ ancestor parent (hy - hx) y = some x := by
  constructor
  · rintro ⟨n, hn⟩
    obtain ⟨hle, hx'⟩ := hr.height_ancestor hheight' hn
    have heq : hx = hy - n := Option.some.inj (hheight.symm.trans hx')
    exact ⟨by omega, by rw [heq, Nat.sub_sub_self hle, hn]⟩
  · rintro ⟨-, hancestor⟩
    exact ⟨_, hancestor⟩

theorem eq_of_descends (hr : Rooted parent height) {z : K} {h : Nat} (hx : height x = some h)
    (hy : height y = some h) (hxz : Descends parent x z) (hyz : Descends parent y z) : x = y := by
  have hzero : ∀ {a b}, height a = some h → height b = some h → Descends parent a b → a = b := by
    intro a b ha hb hab
    obtain ⟨-, hab⟩ := (hr.descends_iff ha hb).mp hab
    rw [Nat.sub_self] at hab
    exact (Option.some.inj hab).symm
  rcases hxz.total hyz with hxy | hyx
  · exact hzero hx hy hxy
  · exact (hzero hy hx hyx).symm

theorem exists_height (hr : Rooted parent height) (hy : height y = some h)
    (hxy : Descends parent x y) : ∃ k ≤ h, height x = some k := by
  obtain ⟨n, hn⟩ := hxy
  exact ⟨h - n, Nat.sub_le h n, (hr.height_ancestor hy hn).2⟩

theorem descends_of_le (hr : Rooted parent height) {z : K} {hx hy : Nat}
    (hheight : height x = some hx) (hheight' : height y = some hy) (hle : hx ≤ hy)
    (hxz : Descends parent x z) (hyz : Descends parent y z) : Descends parent x y := by
  rcases hxz.total hyz with hxy | hyx
  · exact hxy
  · obtain ⟨hle', hancestor⟩ := (hr.descends_iff hheight' hheight).mp hyx
    obtain rfl : hx = hy := by omega
    rw [Nat.sub_self] at hancestor
    cases hancestor
    exact .refl x

theorem descends_antisymm (hr : Rooted parent height) (hx : ∃ h, height x = some h)
    (hy : ∃ h, height y = some h) (hxy : Descends parent x y) (hyx : Descends parent y x) :
    x = y := by
  obtain ⟨h, hx⟩ := hx
  obtain ⟨k, hy⟩ := hy
  obtain ⟨hle, hancestor⟩ := (hr.descends_iff hx hy).mp hxy
  obtain ⟨hle', -⟩ := (hr.descends_iff hy hx).mp hyx
  obtain rfl : h = k := by omega
  rw [Nat.sub_self] at hancestor
  exact (Option.some.inj hancestor).symm

theorem lt_of_descends (hr : Rooted parent height) {hx hy : Nat} (hheight : height x = some hx)
    (hheight' : height y = some hy) (hxy : Descends parent x y) (hne : x ≠ y) : hx < hy := by
  obtain ⟨hle, hancestor⟩ := (hr.descends_iff hheight hheight').mp hxy
  refine lt_of_le_of_ne hle fun heq => hne ?_
  rw [heq, Nat.sub_self] at hancestor
  exact (Option.some.inj hancestor).symm

theorem ancestor_congr (hr : Rooted parent height) {parent' : K → Option K}
    (hparent : ∀ x h, height x = some h → parent' x = parent x) (hx : height x = some h) :
    ancestor parent' n x = ancestor parent n x := by
  induction n generalizing x h with
  | zero => rfl
  | succ n ih =>
    rw [ancestor, ancestor, hparent x h hx]
    cases h with
    | zero => rw [hr.root hx, Option.bind_none, Option.bind_none]
    | succ h =>
      obtain ⟨p, hp, hheight⟩ := hr.step hx
      rw [hp, Option.bind_some, Option.bind_some, ih hheight]

end Rooted

/-- What an index of a forest offers: heights, parents, and the ancestors at the
distances 2, 4, 8, and so on, with the errors for what is missing. -/
structure Index (K E : Type) where
  height : K → Option Nat
  parent : K → Except (Failure E) K
  skips : K → Option (List K)
  noHeight : K → E
  noAncestor : K → Nat → E
  noSkips : K → E

namespace Index

variable {E : Type}

def getHeight (ix : Index K E) (x : K) : Except (Failure E) Nat :=
  okOr (ix.height x) (.error (ix.noHeight x))

/-- One jump after the other, each to the largest power of two in what is left
of the distance. The distance bounds the number of jumps. -/
def jump (ix : Index K E) (noAncestor : E) : Nat → K → Nat → Except (Failure E) K
  | 0, x, _ => .ok x
  | fuel + 1, x, n =>
    if n = 0 then .ok x
    else do
      let height ← ix.getHeight x
      ensure (n ≤ height) (.error noAncestor)
      if n = 1 then ix.parent x
      else do
        let i := Nat.log2 n - 1
        let skips ← okOr (ix.skips x) (.error (ix.noSkips x))
        let next ← okOr skips[i]? (.panic "index out of bounds")
        jump ix noAncestor fuel next (n - 2 * 2 ^ i)

/-- The ancestor at a distance. -/
def nthAncestor (ix : Index K E) (x : K) (n : Nat) : Except (Failure E) K :=
  ix.jump (ix.noAncestor x n) n x n

/-- The jumps of a new block from those of its ancestors, each by two of the
previous ones. The height bounds their number. -/
def moreSkips (ix : Index K E) (height : Nat) :
    Nat → Nat → K → List K → Except (Failure E) (List K)
  | 0, _, _, skips => .ok skips
  | fuel + 1, depth, last, skips =>
    if depth ≤ height then do
      let next ← ix.nthAncestor last (depth / 2)
      moreSkips ix height fuel (depth * 2) next (skips ++ [next])
    else .ok skips

/-- The jumps of a new block with a given parent and height. -/
def newSkips (ix : Index K E) (parent : Except (Failure E) K) (height : Nat) :
    Except (Failure E) (List K) :=
  if 2 ≤ height then do
    let parent ← parent
    let grandparent ← ix.nthAncestor parent 1
    ix.moreSkips height height 4 grandparent [grandparent]
  else .ok []

def isDescendant [DecidableEq K] (ix : Index K E) (old new : K) : Except (Failure E) Bool :=
  if old = new then .ok true
  else do
    let oldHeight ← ix.getHeight old
    let newHeight ← ix.getHeight new
    if newHeight < oldHeight then .ok false
    else do
      let x ← ix.nthAncestor new (newHeight - oldHeight)
      .ok (decide (old = x))

/-- Two blocks, the higher one replaced by its ancestor at the height of the
other, and this height. -/
def level (ix : Index K E) (x y : K) : Except (Failure E) (K × K × Nat) := do
  let hx ← ix.getHeight x
  let hy ← ix.getHeight y
  if hx = hy then .ok (x, y, hx)
  else if hx < hy then do
    let y ← ix.nthAncestor y (hy - hx)
    .ok (x, y, hx)
  else do
    let x ← ix.nthAncestor x (hx - hy)
    .ok (x, y, hy)

/-- The least distance at which two blocks have the same ancestor, by binary
search. The upper bound of the search bounds the number of its steps. -/
def searchCommon [DecidableEq K] (ix : Index K E) (x y : K) :
    Nat → Nat → Nat → Except (Failure E) Nat
  | 0, _, hi => .ok hi
  | fuel + 1, lo, hi =>
    if lo < hi then do
      let mid := (lo + hi) / 2
      let a ← ix.nthAncestor x mid
      let b ← ix.nthAncestor y mid
      if a = b then searchCommon ix x y fuel lo mid else searchCommon ix x y fuel (mid + 1) hi
    else .ok hi

/-- The last common ancestor of two blocks with the same root. -/
def lastCommon [DecidableEq K] (ix : Index K E) (x y : K) : Except (Failure E) K := do
  let (x, y, height) ← ix.level x y
  if x = y then .ok x
  else do
    let depth ← ix.searchCommon x y height 1 height
    ix.nthAncestor x depth

/-- The last common ancestor of two blocks, if they have the same root. -/
def lastCommon? [DecidableEq K] (ix : Index K E) (x y : K) : Except (Failure E) (Option K) := do
  let (x, y, height) ← ix.level x y
  if x = y then .ok (some x)
  else do
    let oldest ← ix.nthAncestor x height
    let oldest' ← ix.nthAncestor y height
    if oldest ≠ oldest' then .ok none
    else do
      let depth ← ix.searchCommon x y height 1 height
      let z ← ix.nthAncestor x depth
      .ok (some z)

/-- The jumps of a block are its ancestors at the powers of two up to its
height. -/
def Skips (parent : K → Option K) (x : K) (height : Nat) (skips : List K) : Prop :=
  ∀ i, skips[i]? = if 2 ^ (i + 1) ≤ height then ancestor parent (2 ^ (i + 1)) x else none

/-- An index describes a forest. -/
structure Describes (ix : Index K E) (parent : K → Option K) : Prop where
  rooted : Rooted parent ix.height
  parent_eq : ∀ {x p h}, parent x = some p → ix.height x = some h → ix.parent x = .ok p
  skips : ∀ {x h}, ix.height x = some h → ∃ skips, ix.skips x = some skips ∧
    Skips parent x h skips

variable {ix : Index K E} {parent : K → Option K} {x : K} {h n : Nat} {fuel : Nat}

theorem Describes.of_none (h : ∀ x, ix.height x = none) : ix.Describes parent where
  rooted := ⟨fun hx => (nomatch (h _).symm.trans hx), fun hx => (nomatch (h _).symm.trans hx)⟩
  parent_eq _ hx := nomatch (h _).symm.trans hx
  skips hx := nomatch (h _).symm.trans hx

theorem jump_eq_ok (hix : ix.Describes parent) {e : E} (hx : ix.height x = some h) (hn : n ≤ h)
    (hfuel : n ≤ fuel) : ∃ y, ancestor parent n x = some y ∧ ix.jump e fuel x n = .ok y := by
  induction fuel generalizing x h n with
  | zero =>
    obtain rfl : n = 0 := by omega
    exact ⟨x, rfl, rfl⟩
  | succ fuel ih =>
    rw [jump]
    split
    case isTrue hzero =>
      subst hzero
      exact ⟨x, rfl, rfl⟩
    case isFalse hzero =>
      rw [getHeight, hx, okOr_some, ok_bind, ensure_of hn, ok_bind]
      split
      case isTrue hone =>
        subst hone
        obtain ⟨h, rfl⟩ : ∃ k, h = k + 1 := ⟨h - 1, by omega⟩
        obtain ⟨p, hp, -⟩ := hix.rooted.step hx
        exact ⟨p, by rw [ancestor_one, hp], hix.parent_eq hp hx⟩
      case isFalse hone =>
        -- the jump is by the largest power of two up to `n`
        have hlog : 0 < Nat.log2 n := by
          rw [Nat.pos_iff_ne_zero]
          intro hlog
          have hlt := Nat.lt_log2_self (n := n)
          rw [hlog] at hlt
          omega
        have hpow : 2 * 2 ^ (Nat.log2 n - 1) = 2 ^ (Nat.log2 n - 1 + 1) := by
          rw [pow_succ, mul_comm]
        have hpow' : Nat.log2 n - 1 + 1 = Nat.log2 n := by omega
        have hle : 2 ^ (Nat.log2 n - 1 + 1) ≤ n := by
          rw [hpow']
          exact Nat.log2_self_le hzero
        have hpos : 0 < 2 ^ (Nat.log2 n - 1 + 1) := Nat.two_pow_pos _
        obtain ⟨skips, hskips, hspec⟩ := hix.skips hx
        obtain ⟨y, hy, hyheight⟩ := hix.rooted.exists_ancestor hx (hle.trans hn)
        have hget : skips[Nat.log2 n - 1]? = some y := by
          rw [hspec, if_pos (hle.trans hn), hy]
        obtain ⟨z, hz, hjump⟩ := ih (n := n - 2 * 2 ^ (Nat.log2 n - 1)) hyheight
          (by omega) (by omega)
        refine ⟨z, ?_, ?_⟩
        · have htrans := ancestor_trans hy hz
          rwa [hpow, Nat.add_sub_cancel' hle] at htrans
        · rw [hskips, okOr_some, ok_bind, hget, okOr_some, ok_bind, hjump]

theorem nthAncestor_of_lt (hx : ix.height x = some h) (hn : h < n) :
    ix.nthAncestor x n = .error (.error (ix.noAncestor x n)) := by
  obtain ⟨n, rfl⟩ : ∃ k, n = k + 1 := ⟨n - 1, by omega⟩
  rw [nthAncestor, jump, if_neg (Nat.succ_ne_zero n), getHeight, hx, okOr_some, ok_bind, ensure,
    if_neg (Nat.not_le.mpr hn)]
  rfl

variable {y : K}

theorem nthAncestor_eq_ok (hix : ix.Describes parent) (hx : ix.height x = some h) :
    ix.nthAncestor x n = .ok y ↔ ancestor parent n x = some y := by
  by_cases hn : n ≤ h
  · obtain ⟨z, hz, hjump⟩ := jump_eq_ok (e := ix.noAncestor x n) hix hx hn le_rfl
    rw [nthAncestor, hjump, hz, Except.ok.injEq, Option.some.injEq]
  · have hnone : ∀ z, ancestor parent n x ≠ some z :=
      fun z hz => hn (hix.rooted.height_ancestor hx hz).1
    rw [nthAncestor_of_lt hx (Nat.not_le.mp hn)]
    exact ⟨fun h => (nomatch h), fun h => absurd h (hnone y)⟩

theorem exists_nthAncestor (hix : ix.Describes parent) (hx : ix.height x = some h) (hn : n ≤ h) :
    ∃ y, ix.nthAncestor x n = .ok y ∧ ancestor parent n x = some y ∧
      ix.height y = some (h - n) := by
  obtain ⟨y, hy, hheight⟩ := hix.rooted.exists_ancestor hx hn
  exact ⟨y, (nthAncestor_eq_ok hix hx).mpr hy, hy, hheight⟩

/-- What lookups of ancestors return in a forest that an index describes. -/
theorem Describes.walks (hix : ix.Describes parent) (hx : ∃ h, ix.height x = some h) :
    ∃ height skips, ix.height x = some height ∧ ix.skips x = some skips ∧
      (∀ n ≤ height, ∃ y, ancestor parent n x = some y ∧ ix.nthAncestor x n = .ok y) ∧
      (∀ n, height < n → ix.nthAncestor x n = .error (.error (ix.noAncestor x n))) ∧
      ∀ i, 2 ^ (i + 1) ≤ height →
        ∃ y, ancestor parent (2 ^ (i + 1)) x = some y ∧ skips[i]? = some y := by
  obtain ⟨height, hheight⟩ := hx
  obtain ⟨skips, hskips, hspec⟩ := hix.skips hheight
  refine ⟨height, skips, hheight, hskips, fun n hn => ?_, fun n hn => ?_, fun i hi => ?_⟩
  · obtain ⟨y, hy, hancestor, -⟩ := exists_nthAncestor hix hheight hn
    exact ⟨y, hancestor, hy⟩
  · exact nthAncestor_of_lt hheight hn
  · obtain ⟨y, hy, -⟩ := hix.rooted.exists_ancestor hheight hi
    exact ⟨y, hy, (hspec i).trans ((if_pos hi).trans hy)⟩

theorem isDescendant_eq_ok [DecidableEq K] (hix : ix.Describes parent) {old new : K}
    (hold : ∃ h, ix.height old = some h) (hnew : ∃ h, ix.height new = some h) :
    ∃ b, ix.isDescendant old new = .ok b ∧ (b = true ↔ Descends parent old new) := by
  obtain ⟨ho, hold⟩ := hold
  obtain ⟨hn, hnew⟩ := hnew
  rw [hix.rooted.descends_iff hold hnew, isDescendant]
  split
  case isTrue heq =>
    subst heq
    obtain rfl := Option.some.inj (hold.symm.trans hnew)
    exact ⟨true, rfl, by simp [ancestor]⟩
  case isFalse hne =>
    rw [getHeight, getHeight, hold, hnew, okOr_some, okOr_some, ok_bind, ok_bind]
    split
    case isTrue hlt => exact ⟨false, rfl, by simp; omega⟩
    case isFalse hle =>
      obtain ⟨y, hy, hancestor, -⟩ := exists_nthAncestor (n := hn - ho) hix hnew (by omega)
      rw [hy, ok_bind]
      refine ⟨_, rfl, ?_⟩
      rw [decide_eq_true_iff, hancestor, Option.some.injEq, eq_comm]
      exact ⟨fun heq => ⟨by omega, heq⟩, fun heq => heq.2⟩

theorem isDescendant_eq_true [DecidableEq K] (hix : ix.Describes parent) {old new : K}
    (hold : ∃ h, ix.height old = some h) (hnew : ∃ h, ix.height new = some h) :
    ix.isDescendant old new = .ok true ↔ Descends parent old new := by
  obtain ⟨b, hb, hspec⟩ := isDescendant_eq_ok hix hold hnew
  rw [hb, Except.ok.injEq, hspec]

theorem isDescendant_meets [DecidableEq K] (hix : ix.Describes parent) (old new : K) :
    Meets (fun _ => True) (ix.isDescendant old new) := by
  by_cases heights : (∃ h, ix.height old = some h) ∧ ∃ h, ix.height new = some h
  · obtain ⟨b, hb, -⟩ := isDescendant_eq_ok hix heights.1 heights.2
    rw [hb]
    exact .ok trivial
  · rw [isDescendant]
    split
    · exact .ok trivial
    · refine Meets.bind (.okOr fun ho hold => hold) fun ho hold => ?_
      refine Meets.bind (.okOr fun hn hnew => hnew) fun hn hnew => ?_
      exact absurd ⟨⟨ho, hold⟩, hn, hnew⟩ heights

theorem heights_of_isDescendant [DecidableEq K] {old new : K} {b : Bool}
    (h : ix.isDescendant old new = .ok b) (hne : old ≠ new) :
    (∃ k, ix.height old = some k) ∧ ∃ k, ix.height new = some k := by
  rw [isDescendant, if_neg hne] at h
  obtain ⟨k, hk, h⟩ := bind_eq_ok.mp h
  obtain ⟨j, hj, -⟩ := bind_eq_ok.mp h
  exact ⟨⟨k, okOr_eq_ok.mp hk⟩, j, okOr_eq_ok.mp hj⟩

theorem height_of_isDescendant [DecidableEq K] {old new : K} {b : Bool}
    (h : ix.isDescendant old new = .ok b) (hnew : ∃ k, ix.height new = some k) :
    ∃ k, ix.height old = some k := by
  by_cases heq : old = new
  · exact heq ▸ hnew
  · exact (heights_of_isDescendant h heq).1

/-- The last common ancestor: every common ancestor is an ancestor of it. -/
def LastCommon (parent : K → Option K) (z x y : K) : Prop :=
  ∀ w, Descends parent w z ↔ Descends parent w x ∧ Descends parent w y

theorem LastCommon.symm {z : K} (hz : LastCommon parent z x y) : LastCommon parent z y x :=
  fun w => (hz w).trans and_comm

theorem LastCommon.of_descends (h : Descends parent x y) : LastCommon parent x x y :=
  fun _ => ⟨fun hw => ⟨hw, hw.trans h⟩, fun hw => hw.1⟩

theorem LastCommon.height_le (hr : Rooted parent ix.height) {z w : K} {j k : Nat}
    (hz : LastCommon parent z x y) (hk : ix.height z = some k) (hj : ix.height w = some j)
    (hwx : Descends parent w x) (hwy : Descends parent w y) : j ≤ k := by
  obtain ⟨i, hi, hw⟩ := hr.exists_height hk ((hz w).mpr ⟨hwx, hwy⟩)
  cases hj.symm.trans hw
  exact hi

theorem LastCommon.unique (hr : Rooted parent ix.height) {z z' : K} (hx : ix.height x = some h)
    (hz : LastCommon parent z x y) (hz' : LastCommon parent z' x y) : z = z' := by
  have hzz' : Descends parent z z' := (hz' z).mpr ((hz z).mp (.refl z))
  have hz'z : Descends parent z' z := (hz z').mpr ((hz' z').mp (.refl z'))
  obtain ⟨k, -, hk⟩ := hr.exists_height hx ((hz z).mp (.refl z)).1
  obtain ⟨k', -, hk'⟩ := hr.exists_height hx ((hz' z').mp (.refl z')).1
  exact hr.descends_antisymm ⟨k, hk⟩ ⟨k', hk'⟩ hzz' hz'z

/-- An ancestor replaces a block in questions about lower common ancestors. -/
theorem descends_level (hr : Rooted parent ix.height) {y' : K} {hx hy : Nat}
    (hheight : ix.height x = some hx) (hheight' : ix.height y = some hy) (hle : hx ≤ hy)
    (hy' : ancestor parent (hy - hx) y = some y') (w : K) :
    Descends parent w x ∧ Descends parent w y' ↔ Descends parent w x ∧ Descends parent w y := by
  have hdescends : Descends parent y' y := ⟨_, hy'⟩
  refine and_congr_right fun hwx => ⟨fun hwy' => hwy'.trans hdescends, fun hwy => ?_⟩
  obtain ⟨k, hk, hw⟩ := hr.exists_height hheight hwx
  obtain ⟨-, hyheight⟩ := hr.height_ancestor hheight' hy'
  exact hr.descends_of_le hw hyheight (by omega) hwy hdescends

theorem level_eq_ok (hix : ix.Describes parent) (hx : ∃ h, ix.height x = some h)
    (hy : ∃ h, ix.height y = some h) :
    ∃ x' y' h, ix.level x y = .ok (x', y', h) ∧ ix.height x' = some h ∧
      ix.height y' = some h ∧ ∀ w, Descends parent w x' ∧ Descends parent w y' ↔
        Descends parent w x ∧ Descends parent w y := by
  obtain ⟨hx, hheight⟩ := hx
  obtain ⟨hy, hheight'⟩ := hy
  rw [level, getHeight, getHeight, hheight, hheight', okOr_some, okOr_some, ok_bind, ok_bind]
  rcases Nat.lt_trichotomy hx hy with hlt | heq | hgt
  · obtain ⟨y', hnth, hancestor, hyheight⟩ := exists_nthAncestor (n := hy - hx) hix hheight'
      (by omega)
    rw [if_neg (by omega), if_pos hlt, hnth, ok_bind]
    rw [Nat.sub_sub_self hlt.le] at hyheight
    exact ⟨x, y', hx, rfl, hheight, hyheight,
      descends_level hix.rooted hheight hheight' hlt.le hancestor⟩
  · rw [if_pos heq]
    exact ⟨x, y, hx, rfl, hheight, heq ▸ hheight', fun w => Iff.rfl⟩
  · obtain ⟨x', hnth, hancestor, hxheight⟩ := exists_nthAncestor (n := hx - hy) hix hheight
      (by omega)
    rw [if_neg (by omega), if_neg (by omega), hnth, ok_bind]
    rw [Nat.sub_sub_self hgt.le] at hxheight
    refine ⟨x', y, hy, rfl, hxheight, hheight', fun w => ?_⟩
    rw [and_comm, descends_level hix.rooted hheight' hheight hgt.le hancestor, and_comm]

theorem level_descends (hix : ix.Describes parent) {x' y' : K} {k : Nat}
    (h : ix.level x y = .ok (x', y', k)) :
    Descends parent x' x ∧ Descends parent y' y ∧ (x' = x ∨ y' = y) := by
  obtain ⟨hx, hheight, h⟩ := bind_eq_ok.mp h
  obtain ⟨hy, hheight', h⟩ := bind_eq_ok.mp h
  rw [getHeight, okOr_eq_ok] at hheight hheight'
  split at h
  case isTrue =>
    cases h
    exact ⟨.refl x, .refl y, .inl rfl⟩
  case isFalse =>
    split at h
    case isTrue =>
      obtain ⟨z, hz, h⟩ := bind_eq_ok.mp h
      cases h
      exact ⟨.refl x, ⟨_, (nthAncestor_eq_ok hix hheight').mp hz⟩, .inl rfl⟩
    case isFalse =>
      obtain ⟨z, hz, h⟩ := bind_eq_ok.mp h
      cases h
      exact ⟨⟨_, (nthAncestor_eq_ok hix hheight).mp hz⟩, .refl y, .inr rfl⟩

/-- Two blocks on one lineage are level at the lower one. -/
theorem exists_level_eq_iff (hix : ix.Describes parent) (hx : ∃ h, ix.height x = some h)
    (hy : ∃ h, ix.height y = some h) :
    ∃ x' y' h, ix.level x y = .ok (x', y', h) ∧
      (x' = y' ↔ Descends parent x y ∨ Descends parent y x) := by
  obtain ⟨x', y', h, hlevel, hx', hy', hsame⟩ := level_eq_ok hix hx hy
  obtain ⟨hxx', hyy', hone⟩ := level_descends hix hlevel
  refine ⟨x', y', h, hlevel, ?_, ?_⟩
  · rintro rfl
    rcases hone with rfl | rfl
    · exact .inl hyy'
    · exact .inr hxx'
  · -- The lower block is an ancestor of both levelled blocks, so they have its height.
    rintro (hxy | hyx)
    · obtain ⟨hxx, hxy'⟩ := (hsame x).mpr ⟨.refl x, hxy⟩
      obtain rfl := hix.rooted.descends_antisymm ⟨h, hx'⟩ hx hxx' hxx
      exact hix.rooted.eq_of_descends hx' hy' hxy' (.refl y')
    · obtain ⟨hyx', hyy⟩ := (hsame y).mpr ⟨hyx, .refl y⟩
      obtain rfl := hix.rooted.descends_antisymm ⟨h, hy'⟩ hy hyy' hyy
      exact hix.rooted.eq_of_descends hx' hy' (.refl x') hyx'

/-- Two blocks of one height have the same ancestor at a distance. -/
def Meet (parent : K → Option K) (x y : K) (n : Nat) : Prop :=
  ∃ z, ancestor parent n x = some z ∧ ancestor parent n y = some z

theorem searchCommon_eq_ok [DecidableEq K] (hix : ix.Describes parent) {lo hi : Nat}
    (hx : ix.height x = some h) (hy : ix.height y = some h) (hhi : hi ≤ h) (hlo : lo ≤ hi)
    (hfuel : hi ≤ fuel + lo) (hapart : ∀ n < lo, ¬ Meet parent x y n) (hmeet : Meet parent x y hi) :
    ∃ d ≤ hi, ix.searchCommon x y fuel lo hi = .ok d ∧ Meet parent x y d ∧
      ∀ n < d, ¬ Meet parent x y n := by
  induction fuel generalizing lo hi with
  | zero =>
    obtain rfl : lo = hi := by omega
    exact ⟨lo, le_rfl, rfl, hmeet, hapart⟩
  | succ fuel ih =>
    rw [searchCommon]
    split
    case isFalse hnot =>
      obtain rfl : lo = hi := by omega
      exact ⟨lo, le_rfl, rfl, hmeet, hapart⟩
    case isTrue hlt =>
      obtain ⟨a, ha, hancestor, -⟩ := exists_nthAncestor (n := (lo + hi) / 2) hix hx (by omega)
      obtain ⟨b, hb, hancestor', -⟩ := exists_nthAncestor (n := (lo + hi) / 2) hix hy
        (by omega)
      simp only [ha, ok_bind, hb]
      split
      case isTrue heq =>
        subst heq
        obtain ⟨d, hd, hrest⟩ := ih (show (lo + hi) / 2 ≤ h by omega)
          (show lo ≤ (lo + hi) / 2 by omega) (by omega) hapart ⟨a, hancestor, hancestor'⟩
        exact ⟨d, by omega, hrest⟩
      case isFalse hne =>
        refine ih (by omega) (by omega) (by omega) (fun n hn hmeets => ?_) hmeet
        -- further back than a common ancestor all ancestors are common
        obtain ⟨z, hz, hz'⟩ := hmeets
        have hle : n ≤ (lo + hi) / 2 := by omega
        have hxa := ancestor_sub hz hancestor hle
        have hyb := ancestor_sub hz' hancestor' hle
        exact hne (Option.some.inj (hxa.symm.trans hyb))

/-- The least distance at which two blocks meet leads to their last common
ancestor. -/
theorem lastCommon_of_meet (hr : Rooted parent ix.height) {z : K} {d : Nat}
    (hx : ix.height x = some h) (hy : ix.height y = some h) (hz : ancestor parent d x = some z)
    (hz' : ancestor parent d y = some z) (hapart : ∀ n < d, ¬ Meet parent x y n) :
    LastCommon parent z x y := by
  intro w
  refine ⟨fun hw => ⟨hw.trans ⟨d, hz⟩, hw.trans ⟨d, hz'⟩⟩, ?_⟩
  rintro ⟨⟨n, hn⟩, ⟨m, hm⟩⟩
  obtain ⟨hle, hheight⟩ := hr.height_ancestor hx hn
  obtain ⟨hle', hheight'⟩ := hr.height_ancestor hy hm
  obtain rfl : n = m := by
    have heq := Option.some.inj (hheight.symm.trans hheight')
    omega
  have hdn : d ≤ n := by
    by_contra hlt
    exact hapart n (by omega) ⟨w, hn, hm⟩
  exact ⟨n - d, ancestor_sub hz hn hdn⟩

theorem meet_of_common (hr : Rooted parent ix.height) {w : K} (hx : ix.height x = some h)
    (hy : ix.height y = some h) (hwx : Descends parent w x) (hwy : Descends parent w y) :
    Meet parent x y h := by
  obtain ⟨root, hroot, hzero⟩ := hr.exists_ancestor hx le_rfl
  obtain ⟨root', hroot', hzero'⟩ := hr.exists_ancestor hy le_rfl
  rw [Nat.sub_self] at hzero hzero'
  obtain ⟨k, -, hw⟩ := hr.exists_height hx hwx
  have hrw := hr.descends_of_le hzero hw (Nat.zero_le k) ⟨h, hroot⟩ hwx
  have hrw' := hr.descends_of_le hzero' hw (Nat.zero_le k) ⟨h, hroot'⟩ hwy
  obtain rfl := hr.eq_of_descends hzero hzero' hrw hrw'
  exact ⟨root, hroot, hroot'⟩

/-- The search from distance one to the root. -/
theorem searchCommon_from_one [DecidableEq K] (hix : ix.Describes parent)
    (hx : ix.height x = some h) (hy : ix.height y = some h) (hne : x ≠ y)
    (hmeet : Meet parent x y h) :
    ∃ d z, ix.searchCommon x y h 1 h = .ok d ∧ ix.nthAncestor x d = .ok z ∧
      LastCommon parent z x y := by
  have hapart : ¬ Meet parent x y 0 := by
    rintro ⟨z, hz, hz'⟩
    exact hne (Option.some.inj (hz.trans hz'.symm))
  have hpos : 0 < h := by
    rw [Nat.pos_iff_ne_zero]
    rintro rfl
    exact hapart hmeet
  obtain ⟨d, -, hsearch, ⟨z, hz, hz'⟩, hbefore⟩ := searchCommon_eq_ok hix hx hy
    (le_refl h) (show 1 ≤ h from hpos) (show h ≤ h + 1 by omega) (by
      intro n hn
      obtain rfl : n = 0 := by omega
      exact hapart) hmeet
  exact ⟨d, z, hsearch, (nthAncestor_eq_ok hix hx).mpr hz,
    lastCommon_of_meet hix.rooted hx hy hz hz' hbefore⟩

theorem lastCommon_eq_ok [DecidableEq K] (hix : ix.Describes parent) {w : K}
    (hx : ∃ h, ix.height x = some h) (hy : ∃ h, ix.height y = some h) (hwx : Descends parent w x)
    (hwy : Descends parent w y) : ∃ z, ix.lastCommon x y = .ok z ∧ LastCommon parent z x y := by
  obtain ⟨x', y', h, hlevel, hx', hy', hsame⟩ := level_eq_ok hix hx hy
  have hlast : ∀ z, LastCommon parent z x' y' → LastCommon parent z x y :=
    fun z hz w => (hz w).trans (hsame w)
  rw [lastCommon, hlevel, ok_bind]
  simp only
  split
  case isTrue heq =>
    subst heq
    exact ⟨x', rfl, hlast x' fun w => (and_self_iff).symm⟩
  case isFalse hne =>
    obtain ⟨hwx, hwy⟩ := (hsame w).mpr ⟨hwx, hwy⟩
    obtain ⟨d, z, hsearch, hz, hcommon⟩ := searchCommon_from_one hix hx' hy' hne
      (meet_of_common hix.rooted hx' hy' hwx hwy)
    rw [hsearch, ok_bind]
    exact ⟨z, hz, hlast z hcommon⟩

/-- What is found is an ancestor of the first block, also when there is no common
ancestor. -/
theorem lastCommon_descends [DecidableEq K] (hix : ix.Describes parent) {z : K}
    (h : ix.lastCommon x y = .ok z) : Descends parent z x := by
  obtain ⟨⟨x', y', k⟩, hlevel, h⟩ := bind_eq_ok.mp h
  obtain ⟨hx', -, -⟩ := level_descends hix hlevel
  dsimp only at h
  split at h
  case isTrue =>
    cases h
    exact hx'
  case isFalse =>
    obtain ⟨d, -, h⟩ := bind_eq_ok.mp h
    obtain ⟨hx, hheight, -⟩ := bind_eq_ok.mp hlevel
    obtain ⟨j, -, hj⟩ := hix.rooted.exists_height (okOr_eq_ok.mp hheight) hx'
    have hz : Descends parent z x' := ⟨d, (nthAncestor_eq_ok hix hj).mp h⟩
    exact hz.trans hx'

/-- The last common ancestor is found if there is a common one. -/
theorem lastCommon?_eq_ok [DecidableEq K] (hix : ix.Describes parent)
    (hx : ∃ h, ix.height x = some h) (hy : ∃ h, ix.height y = some h) :
    ∃ z?, ix.lastCommon? x y = .ok z? ∧ (∀ z, z? = some z → LastCommon parent z x y) ∧
      (z? = none → ∀ w, ¬ (Descends parent w x ∧ Descends parent w y)) := by
  obtain ⟨x', y', h, hlevel, hx', hy', hsame⟩ := level_eq_ok hix hx hy
  have hlast : ∀ z, LastCommon parent z x' y' → LastCommon parent z x y :=
    fun z hz w => (hz w).trans (hsame w)
  rw [lastCommon?, hlevel, ok_bind]
  simp only
  split
  case isTrue heq =>
    subst heq
    refine ⟨some x', rfl, fun z hz => ?_, fun h => nomatch h⟩
    cases hz
    exact hlast x' fun w => (and_self_iff).symm
  case isFalse hne =>
    obtain ⟨root, hnth, hroot, -⟩ := exists_nthAncestor (n := h) hix hx' le_rfl
    obtain ⟨root', hnth', hroot', -⟩ := exists_nthAncestor (n := h) hix hy' le_rfl
    rw [hnth, ok_bind, hnth', ok_bind]
    split
    case isTrue hapart =>
      refine ⟨none, rfl, fun z hz => (nomatch hz), fun _ w hw => ?_⟩
      obtain ⟨hwx, hwy⟩ := (hsame w).mpr hw
      obtain ⟨z, hz, hz'⟩ := meet_of_common hix.rooted hx' hy' hwx hwy
      exact hapart ((Option.some.inj (hroot.symm.trans hz)).trans
        (Option.some.inj (hroot'.symm.trans hz')).symm)
    case isFalse hroots =>
      rw [not_not] at hroots
      subst hroots
      obtain ⟨d, z, hsearch, hz, hcommon⟩ := searchCommon_from_one hix hx' hy' hne
        ⟨root, hroot, hroot'⟩
      rw [hsearch, ok_bind, hz, ok_bind]
      refine ⟨some z, rfl, fun z' hz' => ?_, fun h => nomatch h⟩
      cases hz'
      exact hlast z hcommon

/-- The jumps that have been found so far. -/
structure SkipsSoFar (parent : K → Option K) (p : K) (k : Nat) (last : K) (skips : List K) :
    Prop where
  length : skips.length = k
  get : ∀ i < k, skips[i]? = ancestor parent (2 ^ (i + 1) - 1) p
  last : ancestor parent (2 ^ k - 1) p = some last

variable {skips : List K}

theorem SkipsSoFar.done {p last : K} {k : Nat} (hs : SkipsSoFar parent p k last skips)
    (hh : 2 ^ k ≤ h) (hlt : h < 2 ^ (k + 1)) (i : Nat) :
    skips[i]? = if 2 ^ (i + 1) ≤ h then ancestor parent (2 ^ (i + 1) - 1) p else none := by
  by_cases hi : i < k
  · have hle : 2 ^ (i + 1) ≤ 2 ^ k := Nat.pow_le_pow_right (by decide) hi
    rw [if_pos (hle.trans hh), hs.get i hi]
  · have hle : 2 ^ (k + 1) ≤ 2 ^ (i + 1) := Nat.pow_le_pow_right (by decide) (by omega)
    rw [if_neg (by omega)]
    exact List.getElem?_eq_none (by rw [hs.length]; omega)

theorem SkipsSoFar.push {p last next : K} {k : Nat} (hs : SkipsSoFar parent p k last skips)
    (hnext : ancestor parent (2 ^ (k + 1) - 1) p = some next) :
    SkipsSoFar parent p (k + 1) next (skips ++ [next]) := by
  refine ⟨by rw [List.length_append, hs.length, List.length_singleton], ?_, hnext⟩
  intro i hi
  by_cases hik : i < k
  · rw [List.getElem?_append_left (by rw [hs.length]; exact hik), hs.get i hik]
  · obtain rfl : i = k := by omega
    rw [hnext, ← hs.length, List.getElem?_concat_length]

theorem moreSkips_eq_ok (hix : ix.Describes parent) {p last : K} {k : Nat}
    (hp : ix.height p = some (h - 1)) (hh : 2 ^ k ≤ h) (hfuel : h + 1 ≤ fuel + k)
    (hs : SkipsSoFar parent p k last skips) :
    ∃ all, ix.moreSkips h fuel (2 ^ (k + 1)) last skips = .ok all ∧
      ∀ i, all[i]? = if 2 ^ (i + 1) ≤ h then ancestor parent (2 ^ (i + 1) - 1) p else none := by
  induction fuel generalizing k last skips with
  | zero =>
    have hlt : k + 1 < 2 ^ (k + 1) := Nat.lt_two_pow_self
    exact ⟨skips, rfl, hs.done hh (by omega)⟩
  | succ fuel ih =>
    rw [moreSkips]
    split
    case isFalse hgt => exact ⟨skips, rfl, hs.done hh (by omega)⟩
    case isTrue hle =>
      have hpow : 2 ^ (k + 1) = 2 ^ k * 2 := pow_succ 2 k
      have hpos : 0 < 2 ^ k := Nat.two_pow_pos k
      obtain ⟨-, hlast⟩ := hix.rooted.height_ancestor hp hs.last
      obtain ⟨next, hnext, hancestor, -⟩ := exists_nthAncestor (n := 2 ^ k) hix hlast
        (by omega)
      have htrans := ancestor_trans hs.last hancestor
      rw [show 2 ^ k - 1 + 2 ^ k = 2 ^ (k + 1) - 1 by omega] at htrans
      rw [show 2 ^ (k + 1) / 2 = 2 ^ k by omega, hnext, ok_bind, ← pow_succ 2 (k + 1)]
      exact ih hle (by omega) (hs.push htrans)

/-- The jumps of a new block, seen from its parent. -/
theorem newSkips_eq_ok (hix : ix.Describes parent) {p : Except (Failure E) K}
    (hp : 0 < h → ∃ q, p = .ok q ∧ ix.height q = some (h - 1)) :
    ∃ skips, ix.newSkips p h = .ok skips ∧ ∀ i, skips[i]? =
      if 2 ^ (i + 1) ≤ h then p.toOption.bind (ancestor parent (2 ^ (i + 1) - 1)) else none := by
  rw [newSkips]
  split
  case isTrue hh =>
    obtain ⟨q, rfl, hq⟩ := hp (by omega)
    obtain ⟨grandparent, hnth, hancestor, -⟩ := exists_nthAncestor (n := 1) hix hq (by omega)
    rw [ok_bind, hnth, ok_bind]
    refine moreSkips_eq_ok (k := 1) hix hq (by omega) le_rfl ⟨rfl, fun i hi => ?_, hancestor⟩
    obtain rfl : i = 0 := by omega
    exact hancestor.symm
  case isFalse hh =>
    refine ⟨[], rfl, fun i => ?_⟩
    have hpos : 0 < 2 ^ i := Nat.two_pow_pos i
    rw [if_neg (by rw [pow_succ]; omega)]
    rfl

/-- An index with further blocks, whose entries may be incomplete. -/
structure Extends (ix' ix : Index K E) : Prop where
  height : ∀ {x h}, ix.height x = some h → ix'.height x = some h
  parent : ∀ {x h}, ix.height x = some h → ix'.parent x = ix.parent x
  skips : ∀ {x h}, ix.height x = some h → ix'.skips x = ix.skips x
  noAncestor : ix'.noAncestor = ix.noAncestor

variable {ix' : Index K E}

theorem Extends.jump (hext : ix'.Extends ix) (hix : ix.Describes parent) {e : E}
    (hx : ix.height x = some h) : ix'.jump e fuel x n = ix.jump e fuel x n := by
  induction fuel generalizing x h n with
  | zero => rfl
  | succ fuel ih =>
    obtain ⟨skips, hskips, hspec⟩ := hix.skips hx
    rw [Index.jump, Index.jump, getHeight, getHeight, hext.height hx, hx, hext.parent hx,
      hext.skips hx, hskips]
    simp only [okOr_some, ok_bind]
    cases hnext : skips[Nat.log2 n - 1]? with
    | none => rfl
    | some next =>
      rw [hspec] at hnext
      split at hnext
      case isTrue =>
        obtain ⟨-, hheight⟩ := hix.rooted.height_ancestor hx hnext
        rw [okOr_some, ok_bind, ok_bind, ih hheight]
      case isFalse => cases hnext

theorem Extends.nthAncestor (hext : ix'.Extends ix) (hix : ix.Describes parent)
    (hx : ix.height x = some h) (n : Nat) : ix'.nthAncestor x n = ix.nthAncestor x n := by
  rw [Index.nthAncestor, Index.nthAncestor, hext.noAncestor, hext.jump hix hx]

theorem Extends.moreSkips (hext : ix'.Extends ix) (hix : ix.Describes parent) {depth k : Nat}
    {last : K} (hlast : ix.height last = some k) :
    ix'.moreSkips h fuel depth last skips = ix.moreSkips h fuel depth last skips := by
  induction fuel generalizing depth last skips k with
  | zero => rfl
  | succ fuel ih =>
    rw [Index.moreSkips, Index.moreSkips, hext.nthAncestor hix hlast]
    cases hnext : ix.nthAncestor last (depth / 2) with
    | error e => rfl
    | ok next =>
      obtain ⟨-, hheight⟩ := hix.rooted.height_ancestor hlast
        ((nthAncestor_eq_ok hix hlast).mp hnext)
      rw [ok_bind, ok_bind, ih hheight]

theorem Extends.newSkips (hext : ix'.Extends ix) (hix : ix.Describes parent)
    {p : Except (Failure E) K} (hp : 2 ≤ h → ∃ q k, p = .ok q ∧ ix.height q = some k) :
    ix'.newSkips p h = ix.newSkips p h := by
  rw [Index.newSkips, Index.newSkips]
  split
  case isFalse => rfl
  case isTrue hh =>
    obtain ⟨q, k, rfl, hq⟩ := hp hh
    rw [ok_bind, ok_bind, hext.nthAncestor hix hq]
    cases hnext : ix.nthAncestor q 1 with
    | error e => rfl
    | ok grandparent =>
      obtain ⟨-, hheight⟩ := hix.rooted.height_ancestor hq ((nthAncestor_eq_ok hix hq).mp hnext)
      rw [ok_bind, ok_bind, hext.moreSkips hix hheight]

theorem Extends.exists_newSkips (hext : ix'.Extends ix) (hix : ix.Describes parent) {q : Option K}
    {p : Except (Failure E) K} (hstands : StandsAt ix.height q h)
    (hp : ∀ y, q = some y → p = .ok y) : ∃ skips, ix'.newSkips p h = .ok skips ∧
      ∀ i, skips[i]? = if 2 ^ (i + 1) ≤ h then q.bind (ancestor parent (2 ^ (i + 1) - 1))
        else none := by
  rcases hstands with ⟨rfl, rfl⟩ | ⟨y, k, rfl, hk, rfl⟩
  · refine ⟨[], by rw [Index.newSkips, if_neg (by omega)], fun i => ?_⟩
    rw [if_neg (Nat.not_le.mpr (Nat.two_pow_pos _))]
    rfl
  · obtain rfl := hp y rfl
    rw [hext.newSkips hix fun _ => ⟨y, k, rfl, hk⟩]
    exact newSkips_eq_ok hix fun _ => ⟨y, rfl, hk⟩

/-- A block can be added to an index: nothing changes for the others, and the
block gets the height and the jumps that follow from its parent. -/
theorem Describes.put (hix : ix.Describes parent) {parent' : K → Option K} {mid : Index K E}
    {q : Except (Failure E) K} (hext : mid.Extends ix) (hnew : mid.newSkips q h = .ok skips)
    (hstands : StandsAt ix.height (parent' x) h)
    (hparent : ∀ p, parent' x = some p → q = .ok p ∧ ix'.parent x = .ok p)
    (hheight : ix'.height x = some h) (hskips : ix'.skips x = some skips)
    (hother : ∀ y, y ≠ x → ix'.height y = ix.height y ∧ ix'.skips y = ix.skips y ∧
      parent' y = parent y ∧ ix'.parent y = ix.parent y)
    (hagain : ∀ k, ix.height x = some k → parent' x = parent x) : ix'.Describes parent' := by
  obtain ⟨_, hnew', hspec⟩ := hext.exists_newSkips hix hstands fun p hp => (hparent p hp).1
  cases hnew.symm.trans hnew'
  have hkeeps : ∀ y k, ix.height y = some k → ix'.height y = some k := by
    intro y k hy
    by_cases hyx : y = x
    · subst hyx
      rw [hagain k hy] at hstands
      rw [hheight, hix.rooted.height_eq hy hstands]
    · rw [(hother y hyx).1, hy]
  have hsame : ∀ y k, ix.height y = some k → parent' y = parent y := by
    intro y k hy
    by_cases hyx : y = x
    · subst hyx
      exact hagain k hy
    · exact (hother y hyx).2.2.1
  have hancestor : ∀ {y k} (n : Nat), ix.height y = some k →
      ancestor parent' n y = ancestor parent n y :=
    fun n hy => hix.rooted.ancestor_congr hsame hy
  refine ⟨⟨fun {y} hy => ?_, fun {y k} hy => ?_⟩, fun {y p k} hp hy => ?_, fun {y k} hy => ?_⟩
  · by_cases hyx : y = x
    · subst hyx
      rcases hstands with ⟨hnone, -⟩ | ⟨p, k, -, -, rfl⟩
      · exact hnone
      · cases hheight.symm.trans hy
    · rw [(hother y hyx).1] at hy
      rw [(hother y hyx).2.2.1, hix.rooted.root hy]
  · by_cases hyx : y = x
    · subst hyx
      obtain rfl : h = k + 1 := Option.some.inj (hheight.symm.trans hy)
      rcases hstands with ⟨-, hzero⟩ | ⟨p, j, hp, hpheight, hj⟩
      · cases hzero
      · cases hj
        exact ⟨p, hp, hkeeps p k hpheight⟩
    · rw [(hother y hyx).1] at hy
      obtain ⟨p, hp, hpheight⟩ := hix.rooted.step hy
      exact ⟨p, by rw [(hother y hyx).2.2.1, hp], hkeeps p k hpheight⟩
  · by_cases hyx : y = x
    · subst hyx
      exact (hparent p hp).2
    · obtain ⟨hheight', -, hparent', hget⟩ := hother y hyx
      rw [hparent'] at hp
      rw [hheight'] at hy
      rw [hget, hix.parent_eq hp hy]
  · by_cases hyx : y = x
    · subst hyx
      obtain rfl : h = k := Option.some.inj (hheight.symm.trans hy)
      refine ⟨skips, hskips, fun i => ?_⟩
      rw [hspec]
      split
      case isFalse => rfl
      case isTrue hle =>
        have hpos : 0 < 2 ^ (i + 1) := Nat.two_pow_pos _
        obtain ⟨m, hm⟩ : ∃ m, 2 ^ (i + 1) = m + 1 := ⟨2 ^ (i + 1) - 1, by omega⟩
        rcases hstands with ⟨-, rfl⟩ | ⟨p, j, hp, hpheight, -⟩
        · omega
        · rw [hm, ancestor, Nat.add_sub_cancel, hp, Option.bind_some, Option.bind_some,
            hancestor m hpheight]
    · obtain ⟨hheight', hskips', -, -⟩ := hother y hyx
      rw [hheight'] at hy
      obtain ⟨old, hold, hspec'⟩ := hix.skips hy
      refine ⟨old, by rw [hskips', hold], fun i => ?_⟩
      rw [hspec' i, hancestor _ hy]

end Index

end Lineage
