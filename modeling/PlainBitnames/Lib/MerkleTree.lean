import Mathlib.Data.List.Basic
import PlainBitnames.Lib.Fallible

/-!
Binary hash trees over a list of leaves, built in two ways. The complete tree
stores node `i` above nodes `2 i + 1` and `2 i + 2` and its `n` leaves at
positions `n - 1` to `2 n - 2`. The levelized tree merges neighbours level by
level and repeats the last node of a level of odd length.

Both constructions run in any monad. Run over `Shape` they give the tree
itself, and a root computed by a fallible merge is the evaluation of that tree.
What a root commits to is then a statement about trees: evaluation is injective
when a merge determines its two sides and no leaf looks like a merge, the
complete tree determines its leaves, and the levelized tree determines its
leaves up to the repetitions.
-/

namespace MerkleTree

open Fallible

/-- A binary tree with the values at its leaves. -/
inductive Shape (α : Type) where
  | leaf (a : α)
  | node (left right : Shape α)
deriving DecidableEq

namespace Shape

variable {α β ε : Type}

def map (f : α → β) : Shape α → Shape β
  | .leaf a => .leaf (f a)
  | .node left right => .node (left.map f) (right.map f)

def leaves : Shape α → List α
  | .leaf a => [a]
  | .node left right => left.leaves ++ right.leaves

/-- Merge the leaves up to the root. -/
def eval (merge : α → α → Except ε α) : Shape α → Except ε α
  | .leaf a => .ok a
  | .node left right => do
      let a ← left.eval merge
      let b ← right.eval merge
      merge a b

/-- The number of steps to the right until a leaf is reached. -/
def rightDepth : Shape α → Nat
  | .leaf _ => 0
  | .node _ right => right.rightDepth + 1

/-- All leaves stand at depth `d`. -/
def Perfect : Nat → Shape α → Prop
  | 0, .leaf _ => True
  | d + 1, .node left right => left.Perfect d ∧ right.Perfect d
  | _, _ => False

end Shape

section Build

variable {m : Type → Type} [Monad m] {N : Type}

/-- Node `i` of the complete tree. The fuel bounds the height; the tree over
`n` leaves needs at most `n - i`. -/
def completeNode (merge : N → N → m N) (default : N) (leaves : List N) : Nat → Nat → m N
  | 0, i => pure (leaves.getD (i + 1 - leaves.length) default)
  | fuel + 1, i =>
    if i + 1 < leaves.length then do
      let left ← completeNode merge default leaves fuel (2 * i + 1)
      let right ← completeNode merge default leaves fuel (2 * i + 2)
      merge left right
    else pure (leaves.getD (i + 1 - leaves.length) default)

/-- The root of the complete tree; the default node if there are no leaves. -/
def completeRoot (merge : N → N → m N) (default : N) (leaves : List N) : m N :=
  completeNode merge default leaves leaves.length 0

/-- Repeat the last node of a level of odd length. -/
def padLast (level : List N) : List N :=
  if level.length % 2 = 1 then level ++ level.getLast?.toList else level

/-- Merge neighbours; the merge is told the position of the parent. -/
def mergePairs (merge : Nat → N → N → m N) : Nat → List N → m (List N)
  | index, left :: right :: rest => do
      let parent ← merge index left right
      let parents ← mergePairs merge (index + 1) rest
      pure (parent :: parents)
  | _, _ => pure []

/-- Merge level by level until at most one node is left. -/
def levelize (merge : Nat → N → N → m N) : Nat → List N → m (List N)
  | 0, level => pure level
  | fuel + 1, level =>
    if 1 < level.length then do
      let parents ← mergePairs merge 0 (padLast level)
      levelize merge fuel parents
    else pure level

end Build

/-- The complete tree over a list. -/
def completeShape {α : Type} (default : α) (l : List α) : Shape α :=
  completeRoot (m := Id) (fun left right => .node left right) (.leaf default) (l.map .leaf)

/-- The levelized trees over a list: one tree, or none over the empty list. -/
def levelizedShapes {α : Type} (l : List α) : List (Shape α) :=
  levelize (m := Id) (fun _ left right => .node left right) l.length (l.map .leaf)

/-- The leaves of the levelized tree from left to right, with the repetitions. -/
def completed {α : Type} (l : List α) : List α :=
  (levelizedShapes l).flatMap Shape.leaves

example : completed [1, 2, 3, 4, 5] = [1, 2, 3, 4, 5, 5, 5, 5] := by decide

section Evaluation

variable {α β ε N : Type}

/-- If a merge determines what its two sides commit to and no leaf commits to
the same as a merge, a root determines the whole tree of commitments. -/
theorem Shape.eval_injective {merge : α → α → Except ε α} {commit : α → β}
    (hmerge : ∀ a b c a' b' c', merge a b = .ok c → merge a' b' = .ok c' →
      commit c = commit c' → commit a = commit a' ∧ commit b = commit b')
    {s t : Shape α}
    (hs : ∀ x ∈ s.leaves, ∀ a b c, merge a b = .ok c → commit x ≠ commit c)
    (ht : ∀ x ∈ t.leaves, ∀ a b c, merge a b = .ok c → commit x ≠ commit c)
    {x y : α} (hx : s.eval merge = .ok x) (hy : t.eval merge = .ok y)
    (hcommit : commit x = commit y) : s.map commit = t.map commit := by
  induction s generalizing t x y with
  | leaf a =>
    obtain rfl : a = x := by simpa [eval] using hx
    cases t with
    | leaf b =>
      obtain rfl : b = y := by simpa [eval] using hy
      simp [map, hcommit]
    | node left right =>
      obtain ⟨p, _, hy⟩ := bind_eq_ok.mp hy
      obtain ⟨q, _, hy⟩ := bind_eq_ok.mp hy
      exact absurd hcommit (hs a (by simp [leaves]) p q y hy)
  | node left right ihl ihr =>
    obtain ⟨p, hp, hx⟩ := bind_eq_ok.mp hx
    obtain ⟨q, hq, hx⟩ := bind_eq_ok.mp hx
    cases t with
    | leaf b =>
      obtain rfl : b = y := by simpa [eval] using hy
      exact absurd hcommit.symm (ht b (by simp [leaves]) p q x hx)
    | node left' right' =>
      obtain ⟨p', hp', hy⟩ := bind_eq_ok.mp hy
      obtain ⟨q', hq', hy⟩ := bind_eq_ok.mp hy
      obtain ⟨hleft, hright⟩ := hmerge p q x p' q' y hx hy hcommit
      simp only [leaves, List.mem_append] at hs ht
      rw [map, map, ihl (fun z hz => hs z (.inl hz)) (fun z hz => ht z (.inl hz))
          hp hp' hleft,
        ihr (fun z hz => hs z (.inr hz)) (fun z hz => ht z (.inr hz)) hq hq' hright]

section Roots

variable {merge : N → N → Except ε N} {step : Nat → N → N → Except ε N}
  {value : α → α → Except ε α} {payload : N → α}

theorem getD_map_leaf (payload : N → α) (leaves : List N) (default : N) (k : Nat) :
    ((leaves.map payload).map Shape.leaf).getD k (.leaf (payload default)) =
      .leaf (payload (leaves.getD k default)) := by
  rw [List.map_map, List.getD_eq_getElem?_getD, List.getD_eq_getElem?_getD,
    List.getElem?_map]
  cases leaves[k]? <;> rfl

theorem completeNode_eval
    (hmerge : ∀ a b c, merge a b = .ok c → value (payload a) (payload b) = .ok (payload c))
    {default : N} {leaves : List N} {fuel i : Nat} {n : N}
    (h : completeNode merge default leaves fuel i = .ok n) :
    Shape.eval value (completeNode (m := Id) (fun left right => .node left right)
      (.leaf (payload default)) ((leaves.map payload).map .leaf) fuel i) =
      .ok (payload n) := by
  induction fuel generalizing i n with
  | zero =>
    obtain rfl := pure_eq_ok.mp h
    simp only [completeNode, List.length_map]
    rw [getD_map_leaf payload leaves default]
    rfl
  | succ fuel ih =>
    unfold completeNode at h ⊢
    simp only [List.length_map]
    split at h
    · next hi =>
        obtain ⟨left, hleft, h⟩ := bind_eq_ok.mp h
        obtain ⟨right, hright, h⟩ := bind_eq_ok.mp h
        rw [if_pos hi]
        exact bind_eq_ok.mpr ⟨_, ih hleft, bind_eq_ok.mpr ⟨_, ih hright,
          hmerge _ _ _ h⟩⟩
    · next hi =>
        obtain rfl := pure_eq_ok.mp h
        rw [if_neg hi, getD_map_leaf payload leaves default]
        rfl

/-- A computed root of the complete tree is the evaluation of the tree. -/
theorem completeRoot_eval
    (hmerge : ∀ a b c, merge a b = .ok c → value (payload a) (payload b) = .ok (payload c))
    {default : N} {leaves : List N} {n : N} (h : completeRoot merge default leaves = .ok n) :
    (completeShape (payload default) (leaves.map payload)).eval value = .ok (payload n) := by
  have heval := completeNode_eval hmerge h
  simpa only [completeShape, completeRoot, List.length_map] using heval

/-- The nodes of a level evaluate to the trees below them. -/
def Level (value : α → α → Except ε α) (payload : N → α) : List N → List (Shape α) → Prop :=
  List.Forall₂ fun n s => s.eval value = .ok (payload n)

theorem forall₂_padLast {R : N → α → Prop} {level : List N} {level' : List α}
    (h : List.Forall₂ R level level') : List.Forall₂ R (padLast level) (padLast level') := by
  unfold padLast
  rw [← h.length_eq]
  split
  · refine List.rel_append h ?_
    rw [List.getLast?_eq_head?_reverse, List.getLast?_eq_head?_reverse]
    have hrev := List.rel_reverse h
    generalize level.reverse = r at hrev ⊢
    generalize level'.reverse = r' at hrev ⊢
    cases hrev with
    | nil => exact .nil
    | cons hhead _ => exact .cons hhead .nil
  · exact h

theorem Level.mergePairs
    (hstep : ∀ i a b c, step i a b = .ok c → value (payload a) (payload b) = .ok (payload c))
    {level : List N} {shapes : List (Shape α)} (hlevel : Level value payload level shapes)
    {index index' : Nat} {parents : List N}
    (h : mergePairs step index level = .ok parents) :
    Level value payload parents (MerkleTree.mergePairs (m := Id)
      (fun _ left right => .node left right) index' shapes) := by
  induction index, level using MerkleTree.mergePairs.induct generalizing shapes parents index' with
  | case1 index a b rest ih =>
    obtain ⟨c, hc, h⟩ := bind_eq_ok.mp h
    obtain ⟨cs, hcs, h⟩ := bind_eq_ok.mp h
    obtain rfl := pure_eq_ok.mp h
    rcases hlevel with _ | ⟨ha, _ | ⟨hb, hrest⟩⟩
    refine .cons ?_ (ih hrest hcs)
    exact bind_eq_ok.mpr ⟨_, ha, bind_eq_ok.mpr ⟨_, hb, hstep _ _ _ _ hc⟩⟩
  | case2 level index hshort =>
    cases hlevel with
    | nil =>
      obtain rfl := pure_eq_ok.mp h
      exact .nil
    | cons ha hrest =>
      cases hrest with
      | nil =>
        obtain rfl := pure_eq_ok.mp h
        exact .nil
      | cons hb hrest => exact absurd rfl (hshort _ _ _)

/-- The levels of the two runs stay related until one node is left. -/
theorem Level.levelize
    (hstep : ∀ i a b c, step i a b = .ok c → value (payload a) (payload b) = .ok (payload c))
    {fuel : Nat} {level : List N} {shapes : List (Shape α)}
    (hlevel : Level value payload level shapes) {final : List N}
    (h : levelize step fuel level = .ok final) :
    Level value payload final (MerkleTree.levelize (m := Id)
      (fun _ left right => .node left right) fuel shapes) := by
  induction fuel generalizing level shapes with
  | zero =>
    obtain rfl := pure_eq_ok.mp h
    exact hlevel
  | succ fuel ih =>
    unfold MerkleTree.levelize at h ⊢
    rw [← hlevel.length_eq]
    split at h
    · next hlong =>
        obtain ⟨parents, hparents, h⟩ := bind_eq_ok.mp h
        rw [if_pos hlong]
        exact ih (Level.mergePairs hstep (forall₂_padLast hlevel) hparents) h
    · next hlong =>
        obtain rfl := pure_eq_ok.mp h
        rw [if_neg hlong]
        exact hlevel

/-- A computed root of the levelized tree is the evaluation of the tree. -/
theorem levelize_eval (value : α → α → Except ε α) (payload : N → α)
    (hstep : ∀ i a b c, step i a b = .ok c → value (payload a) (payload b) = .ok (payload c))
    {leaves : List N} {final : List N}
    (h : MerkleTree.levelize step leaves.length leaves = .ok final) :
    Level value payload final (levelizedShapes (leaves.map payload)) := by
  have hleaves : Level value payload leaves ((leaves.map payload).map .leaf) := by
    rw [List.map_map]
    exact List.forall₂_map_right_iff.mpr (List.forall₂_same.mpr fun _ _ => rfl)
  simpa only [levelizedShapes, List.length_map] using hleaves.levelize hstep h

end Roots

end Evaluation

section CompleteTree

variable {α β : Type}

/-- Node `i` of the complete tree over a list, as a tree. -/
def completeAt (default : α) (l : List α) (fuel i : Nat) : Shape α :=
  completeNode (m := Id) (fun left right => .node left right) (.leaf default)
    (l.map .leaf) fuel i

theorem completeShape_eq (default : α) (l : List α) :
    completeShape default l = completeAt default l l.length 0 := by
  simp only [completeShape, completeRoot, completeAt, List.length_map]

theorem completeAt_zero (default : α) (l : List α) (i : Nat) :
    completeAt default l 0 i = .leaf (l.getD (i + 1 - l.length) default) := by
  have hleaf := getD_map_leaf id l default (i + 1 - l.length)
  rw [List.map_id] at hleaf
  simp only [completeAt, completeNode, List.length_map]
  exact hleaf

theorem completeAt_leaf (default : α) (l : List α) (fuel : Nat) {i : Nat}
    (hi : l.length ≤ i + 1) :
    completeAt default l fuel i = .leaf (l.getD (i + 1 - l.length) default) := by
  rw [← completeAt_zero]
  cases fuel with
  | zero => rfl
  | succ fuel =>
    simp only [completeAt, completeNode, List.length_map]
    rw [if_neg (by omega)]

theorem completeAt_node (default : α) (l : List α) (fuel : Nat) {i : Nat}
    (hi : i + 1 < l.length) :
    completeAt default l (fuel + 1) i =
      .node (completeAt default l fuel (2 * i + 1)) (completeAt default l fuel (2 * i + 2)) := by
  rw [completeAt, completeNode, List.length_map, if_pos hi]
  rfl

variable {default : α} {l : List α}

/-- If two roots agree, so do all nodes at the positions of the smaller tree.
The fuels differ between the trees; both stay sufficient on the way down. -/
private theorem completeAt_agree {l' : List α} (hle : l.length ≤ l'.length)
    (hroot : completeShape default l = completeShape default l') (j : Nat)
    (hj : j + 1 < 2 * l.length) :
    ∃ f f', l.length ≤ f + j ∧ l'.length ≤ f' + j ∧
      completeAt default l f j = completeAt default l' f' j := by
  induction j using Nat.strong_induction_on with
  | _ j ih =>
    rcases Nat.eq_zero_or_pos j with rfl | hpos
    · refine ⟨l.length, l'.length, by omega, by omega, ?_⟩
      rwa [← completeShape_eq, ← completeShape_eq]
    · -- the parent is internal in both trees
      obtain ⟨f, f', hf, hf', hparent⟩ := ih ((j - 1) / 2) (by omega) (by omega)
      obtain ⟨g, rfl⟩ : ∃ g, f = g + 1 := ⟨f - 1, by omega⟩
      obtain ⟨g', rfl⟩ : ∃ g', f' = g' + 1 := ⟨f' - 1, by omega⟩
      rw [completeAt_node default l g (by omega),
        completeAt_node default l' g' (by omega), Shape.node.injEq] at hparent
      refine ⟨g, g', by omega, by omega, ?_⟩
      rcases Nat.even_or_odd' j with ⟨k, hk | hk⟩
      · have hright : 2 * ((j - 1) / 2) + 2 = j := by omega
        rw [hright] at hparent
        exact hparent.2
      · have hleft : 2 * ((j - 1) / 2) + 1 = j := by omega
        rw [hleft] at hparent
        exact hparent.1

private theorem completeShape_inj_of_le {l' : List α} (hle : l.length ≤ l'.length)
    (hdefault : default ∉ l') (hroot : completeShape default l = completeShape default l') :
    l = l' := by
  rcases Nat.eq_zero_or_pos l.length with hzero | hpos
  · obtain rfl := List.length_eq_zero_iff.mp hzero
    cases l' with
    | nil => rfl
    | cons x rest =>
      exfalso
      rcases rest with _ | ⟨y, rest⟩
      · have hx : Shape.leaf default = Shape.leaf x := hroot
        simp at hdefault hx
        exact hdefault hx
      · rw [completeShape_eq default (x :: y :: rest), List.length_cons,
          completeAt_node default (x :: y :: rest) _ (by simp)] at hroot
        cases hroot
  · have hlength : l.length = l'.length := by
      by_contra hne
      obtain ⟨f, f', hf, hf', heq⟩ :=
        completeAt_agree hle hroot (l.length - 1) (by omega)
      obtain ⟨g', rfl⟩ : ∃ g', f' = g' + 1 := ⟨f' - 1, by omega⟩
      rw [completeAt_leaf default l f (by omega),
        completeAt_node default l' g' (by omega)] at heq
      cases heq
    apply List.ext_getElem hlength
    intro k hk hk'
    obtain ⟨f, f', _, _, heq⟩ :=
      completeAt_agree hle hroot (l.length - 1 + k) (by omega)
    rw [completeAt_leaf default l f (by omega),
      completeAt_leaf default l' f' (by omega), Shape.leaf.injEq] at heq
    have hindex : l.length - 1 + k + 1 - l.length = k := by omega
    have hindex' : l.length - 1 + k + 1 - l'.length = k := by omega
    rw [hindex, hindex'] at heq
    simpa [List.getD_eq_getElem?_getD, hk, hk'] using heq

theorem completeShape_injective {l' : List α} (hdefault : default ∉ l) (hdefault' : default ∉ l')
    (h : completeShape default l = completeShape default l') : l = l' := by
  rcases Nat.le_total l.length l'.length with hle | hle
  · exact completeShape_inj_of_le hle hdefault' h
  · exact (completeShape_inj_of_le hle hdefault h.symm).symm

theorem completeAt_map (f : α → β) (default : α) (l : List α) (fuel i : Nat) :
    (completeAt default l fuel i).map f = completeAt (f default) (l.map f) fuel i := by
  have hleaf : ∀ k, f (l.getD k default) = (l.map f).getD k (f default) := by
    intro k
    rw [List.getD_eq_getElem?_getD, List.getD_eq_getElem?_getD, List.getElem?_map]
    cases l[k]? <;> rfl
  induction fuel generalizing i with
  | zero =>
    rw [completeAt_zero, completeAt_zero, Shape.map, hleaf, List.length_map]
  | succ fuel ih =>
    rcases Nat.lt_or_ge (i + 1) l.length with hi | hi
    · rw [completeAt_node default l fuel hi,
        completeAt_node (f default) (l.map f) fuel (by simpa using hi), Shape.map,
        ih, ih]
    · rw [completeAt_leaf default l _ hi,
        completeAt_leaf (f default) (l.map f) _ (by simpa using hi), Shape.map,
        hleaf, List.length_map]

theorem completeShape_map (f : α → β) (default : α) (l : List α) :
    (completeShape default l).map f = completeShape (f default) (l.map f) := by
  rw [completeShape_eq, completeShape_eq, completeAt_map, List.length_map]

/-- A complete tree with fewer than `2 ^ (k + 1)` leaves reaches a leaf after
at most `k` steps to the right. -/
theorem completeAt_rightDepth (default : α) (l : List α) (fuel k : Nat) {i : Nat}
    (hk : l.length + 1 ≤ (i + 2) * 2 ^ k) :
    (completeAt default l fuel i).rightDepth ≤ k := by
  induction k generalizing fuel i with
  | zero =>
    rw [completeAt_leaf default l fuel (by omega)]
    exact Nat.le_refl 0
  | succ k ih =>
    rcases Nat.lt_or_ge (i + 1) l.length with hi | hi
    · cases fuel with
      | zero =>
        rw [completeAt_zero]
        exact Nat.zero_le _
      | succ fuel =>
        rw [completeAt_node default l fuel hi, Shape.rightDepth]
        have hbelow : l.length + 1 ≤ (2 * i + 2 + 2) * 2 ^ k := by
          calc l.length + 1 ≤ (i + 2) * 2 ^ (k + 1) := hk
            _ = (2 * i + 2 + 2) * 2 ^ k := by ring
        have := ih fuel hbelow
        omega
    · rw [completeAt_leaf default l fuel hi]
      exact Nat.zero_le _

/-- A complete tree with fewer than `2 ^ (k + 1)` leaves reaches a leaf after
at most `k` steps to the right. -/
theorem completeShape_rightDepth (default : α) {k : Nat} (hk : l.length < 2 ^ (k + 1)) :
    (completeShape default l).rightDepth ≤ k := by
  rw [completeShape_eq]
  apply completeAt_rightDepth
  rw [pow_succ] at hk
  omega

theorem mem_of_mem_completeShape {a : α} (h : a ∈ (completeShape default l).leaves) :
    a = default ∨ a ∈ l := by
  have hleaf : ∀ k, l.getD k default = default ∨ l.getD k default ∈ l := by
    intro k
    rw [List.getD_eq_getElem?_getD]
    cases hk : l[k]? with
    | none => exact .inl rfl
    | some b => exact .inr (List.mem_of_getElem? hk)
  have hnode : ∀ (fuel i : Nat), a ∈ (completeAt default l fuel i).leaves →
      a = default ∨ a ∈ l := by
    intro fuel
    induction fuel with
    | zero =>
      intro i hi
      rw [completeAt_zero, Shape.leaves, List.mem_singleton] at hi
      exact hi ▸ hleaf _
    | succ fuel ih =>
      intro i hi
      rcases Nat.lt_or_ge (i + 1) l.length with hlt | hge
      · rw [completeAt_node default l fuel hlt, Shape.leaves, List.mem_append] at hi
        rcases hi with hi | hi
        · exact ih _ hi
        · exact ih _ hi
      · rw [completeAt_leaf default l _ hge, Shape.leaves, List.mem_singleton] at hi
        exact hi ▸ hleaf _
  rw [completeShape_eq] at h
  exact hnode l.length 0 h

end CompleteTree

section LevelizedTree

variable {α β : Type}

theorem Shape.Perfect.rightDepth_eq {d : Nat} {s : Shape α} (h : s.Perfect d) :
    s.rightDepth = d := by
  induction s generalizing d with
  | leaf a =>
    cases d with
    | zero => rfl
    | succ d => exact h.elim
  | node left right _ ihr =>
    cases d with
    | zero => exact h.elim
    | succ d => rw [Shape.rightDepth, ihr h.2]

theorem Shape.Perfect.length_leaves {d : Nat} {s : Shape α} (h : s.Perfect d) :
    s.leaves.length = 2 ^ d := by
  induction s generalizing d with
  | leaf a =>
    cases d with
    | zero => rfl
    | succ d => exact h.elim
  | node left right ihl ihr =>
    cases d with
    | zero => exact h.elim
    | succ d =>
      rw [Shape.leaves, List.length_append, ihl h.1, ihr h.2, pow_succ]
      omega

theorem Shape.Perfect.eq_of_leaves {d e : Nat} {s t : Shape α} (hs : s.Perfect d)
    (ht : t.Perfect e) (h : s.leaves = t.leaves) : s = t := by
  have hdepth : d = e := by
    have hlength := congrArg List.length h
    rw [hs.length_leaves, ht.length_leaves] at hlength
    exact Nat.pow_right_injective (Nat.le_refl 2) hlength
  subst hdepth
  induction d generalizing s t with
  | zero =>
    cases s with
    | node _ _ => exact hs.elim
    | leaf a =>
      cases t with
      | node _ _ => exact ht.elim
      | leaf b =>
        rw [(List.cons.inj h).1]
  | succ d ih =>
    cases s with
    | leaf _ => exact hs.elim
    | node left right =>
      cases t with
      | leaf _ => exact ht.elim
      | node left' right' =>
        obtain ⟨hleft, hright⟩ := List.append_inj h
          (by rw [hs.1.length_leaves, ht.1.length_leaves])
        rw [ih hs.1 hleft ht.1, ih hs.2 hright ht.2]

theorem length_padLast (level : List α) :
    (padLast level).length = 2 * ((level.length + 1) / 2) := by
  unfold padLast
  split
  · next hodd =>
      have hne : level ≠ [] := by
        rintro rfl
        cases hodd
      rw [List.getLast?_eq_some_getLast hne, List.length_append]
      simp
      omega
  · omega

theorem mem_padLast {level : List α} {a : α} (h : a ∈ padLast level) : a ∈ level := by
  unfold padLast at h
  split at h
  · rcases List.mem_append.mp h with h | h
    · exact h
    · exact List.mem_of_getLast? (Option.mem_toList.mp h)
  · exact h

/-- Neighbouring trees under common parents. -/
def pairShapes (index : Nat) (level : List (Shape α)) : List (Shape α) :=
  mergePairs (m := Id) (fun _ left right => .node left right) index level

theorem pairShapes_cons (index : Nat) (a b : Shape α) (rest : List (Shape α)) :
    pairShapes index (a :: b :: rest) = .node a b :: pairShapes (index + 1) rest := rfl

variable {level : List (Shape α)}

theorem pairShapes_nil (index : Nat) : pairShapes index ([] : List (Shape α)) = [] := rfl

theorem pairShapes_singleton (index : Nat) (a : Shape α) : pairShapes index [a] = [] := rfl

theorem pairShapes_perfect (index : Nat) {d : Nat} (hperfect : ∀ s ∈ level, s.Perfect d) :
    ∀ s ∈ pairShapes index level, s.Perfect (d + 1) := by
  induction index, level using mergePairs.induct with
  | case1 index a b rest ih =>
    have hrest := ih (fun s hs => hperfect s (by simp [hs]))
    intro s hs
    rw [pairShapes_cons] at hs
    rcases List.mem_cons.mp hs with rfl | hs
    · exact ⟨hperfect a (by simp), hperfect b (by simp)⟩
    · exact hrest s hs
  | case2 level index hshort =>
    rcases level with _ | ⟨a, _ | ⟨b, rest⟩⟩
    · simp [pairShapes_nil]
    · simp [pairShapes_singleton]
    · exact absurd rfl (hshort a b rest)

theorem length_pairShapes (index : Nat) (level : List (Shape α)) :
    (pairShapes index level).length = level.length / 2 := by
  induction index, level using mergePairs.induct with
  | case1 index a b rest ih =>
    rw [pairShapes_cons, List.length_cons, ih]
    simp only [List.length_cons]
    omega
  | case2 level index hshort =>
    rcases level with _ | ⟨a, _ | ⟨b, rest⟩⟩
    · simp [pairShapes_nil]
    · simp [pairShapes_singleton]
    · exact absurd rfl (hshort a b rest)

/-- The trees left after merging level by level. -/
def levelShapes (fuel : Nat) (level : List (Shape α)) : List (Shape α) :=
  levelize (m := Id) (fun _ left right => .node left right) fuel level

theorem levelShapes_succ (fuel : Nat) (level : List (Shape α)) :
    levelShapes (fuel + 1) level =
      if 1 < level.length then levelShapes fuel (pairShapes 0 (padLast level)) else level := by
  unfold levelShapes
  rw [levelize]
  split <;> rfl

theorem levelizedShapes_eq (l : List α) :
    levelizedShapes l = levelShapes l.length (l.map .leaf) := rfl

/-- Trees of one depth over a level that is not empty end in one tree, which
has at least as many leaves as the level has nodes. -/
theorem levelShapes_perfect {fuel d : Nat} (hperfect : ∀ s ∈ level, s.Perfect d) (hne : level ≠ [])
    (hfuel : level.length ≤ fuel) :
    ∃ e s, levelShapes fuel level = [s] ∧ s.Perfect e ∧ level.length * 2 ^ d ≤ 2 ^ e := by
  induction fuel generalizing d level with
  | zero => exact absurd (List.length_eq_zero_iff.mp (by omega)) hne
  | succ fuel ih =>
    have hpos := List.length_pos_iff.mpr hne
    rcases Nat.lt_or_ge 1 level.length with hlong | hshort
    · have hpad : ∀ s ∈ padLast level, s.Perfect d :=
        fun s hs => hperfect s (mem_padLast hs)
      have hparents := pairShapes_perfect 0 hpad
      have hlength := length_pairShapes 0 (padLast level)
      rw [length_padLast] at hlength
      obtain ⟨e, s, hlevel, hs, hbound⟩ := ih hparents
        (List.ne_nil_of_length_pos (by omega)) (by omega)
      refine ⟨e, s, ?_, hs, ?_⟩
      · rw [levelShapes_succ, if_pos hlong]
        exact hlevel
      · calc level.length * 2 ^ d ≤ (pairShapes 0 (padLast level)).length * 2 * 2 ^ d := by
              apply Nat.mul_le_mul_right
              omega
          _ = (pairShapes 0 (padLast level)).length * 2 ^ (d + 1) := by ring
          _ ≤ 2 ^ e := hbound
    · obtain ⟨s, rfl⟩ := List.length_eq_one_iff.mp (show level.length = 1 by omega)
      refine ⟨d, s, ?_, hperfect s (by simp), by simp⟩
      rw [levelShapes_succ, if_neg (by simp)]

theorem levelizedShapes_perfect {l : List α} (hne : l ≠ []) :
    ∃ d s, levelizedShapes l = [s] ∧ s.Perfect d ∧ l.length ≤ 2 ^ d := by
  have hleaves : ∀ s ∈ l.map Shape.leaf, s.Perfect 0 := by
    intro s hs
    obtain ⟨a, _, rfl⟩ := List.mem_map.mp hs
    trivial
  obtain ⟨d, s, hlevel, hs, hbound⟩ := levelShapes_perfect hleaves
    (by simpa using hne) (Nat.le_of_eq (List.length_map _))
  exact ⟨d, s, hlevel, hs, by simpa using hbound⟩

theorem levelizedShapes_eq_iff {l l' : List α} (hne : l ≠ []) (hne' : l' ≠ []) :
    levelizedShapes l = levelizedShapes l' ↔ completed l = completed l' := by
  obtain ⟨d, s, hs, hperfect, _⟩ := levelizedShapes_perfect hne
  obtain ⟨d', s', hs', hperfect', _⟩ := levelizedShapes_perfect hne'
  unfold completed
  rw [hs, hs']
  constructor
  · intro h
    rw [h]
  · intro h
    rw [hperfect.eq_of_leaves hperfect' (by simpa using h)]

theorem Shape.leaves_map (f : α → β) (s : Shape α) :
    (s.map f).leaves = s.leaves.map f := by
  induction s with
  | leaf a => rfl
  | node left right ihl ihr =>
    rw [Shape.map, Shape.leaves, Shape.leaves, List.map_append, ihl, ihr]

theorem padLast_map (f : α → β) (level : List α) :
    padLast (level.map f) = (padLast level).map f := by
  unfold padLast
  rw [List.length_map]
  split
  · rw [List.getLast?_map, List.map_append]
    cases level.getLast? <;> rfl
  · rfl

theorem pairShapes_map (f : α → β) (index : Nat) (level : List (Shape α)) :
    pairShapes index (level.map (Shape.map f)) = (pairShapes index level).map (Shape.map f) := by
  induction index, level using mergePairs.induct with
  | case1 index a b rest ih =>
    simp only [List.map_cons, pairShapes_cons, ih, Shape.map]
  | case2 level index hshort =>
    rcases level with _ | ⟨a, _ | ⟨b, rest⟩⟩
    · rfl
    · rfl
    · exact absurd rfl (hshort a b rest)

theorem levelShapes_map (f : α → β) (fuel : Nat) (level : List (Shape α)) :
    levelShapes fuel (level.map (Shape.map f)) =
      (levelShapes fuel level).map (Shape.map f) := by
  induction fuel generalizing level with
  | zero => rfl
  | succ fuel ih =>
    rw [levelShapes_succ, levelShapes_succ, List.length_map]
    split
    · rw [padLast_map, pairShapes_map, ih]
    · rfl

theorem levelizedShapes_map (f : α → β) (l : List α) :
    levelizedShapes (l.map f) = (levelizedShapes l).map (Shape.map f) := by
  rw [levelizedShapes_eq, levelizedShapes_eq, List.length_map, List.map_map]
  have hleaf : l.map (Shape.leaf ∘ f) = (l.map Shape.leaf).map (Shape.map f) := by
    rw [List.map_map]
    rfl
  rw [hleaf, levelShapes_map]

theorem completed_map (f : α → β) (l : List α) :
    completed (l.map f) = (completed l).map f := by
  unfold completed
  rw [levelizedShapes_map, List.flatMap_map, List.map_flatMap]
  exact List.flatMap_congr fun s _ => Shape.leaves_map f s

theorem length_le_length_completed (l : List α) : l.length ≤ (completed l).length := by
  cases l with
  | nil => exact Nat.zero_le _
  | cons a l =>
    obtain ⟨d, s, hs, hperfect, hbound⟩ := levelizedShapes_perfect (List.cons_ne_nil a l)
    rw [completed, hs]
    simpa [hperfect.length_leaves] using hbound

theorem pairShapes_leaves {P : α → Prop} {index : Nat} (h : ∀ s ∈ level, ∀ a ∈ s.leaves, P a) :
    ∀ s ∈ pairShapes index level, ∀ a ∈ s.leaves, P a := by
  induction index, level using mergePairs.induct with
  | case1 index a b rest ih =>
    intro s hs x hx
    rw [pairShapes_cons] at hs
    rcases List.mem_cons.mp hs with rfl | hs
    · rcases List.mem_append.mp hx with hx | hx
      · exact h a (by simp) x hx
      · exact h b (by simp) x hx
    · exact ih (fun t ht => h t (by simp [ht])) s hs x hx
  | case2 level index hshort =>
    rcases level with _ | ⟨a, _ | ⟨b, rest⟩⟩
    · simp [pairShapes_nil]
    · simp [pairShapes_singleton]
    · exact absurd rfl (hshort a b rest)

theorem levelShapes_leaves {P : α → Prop} {fuel : Nat} (h : ∀ s ∈ level, ∀ a ∈ s.leaves, P a) :
    ∀ s ∈ levelShapes fuel level, ∀ a ∈ s.leaves, P a := by
  induction fuel generalizing level with
  | zero => exact h
  | succ fuel ih =>
    rw [levelShapes_succ]
    split
    · exact ih (pairShapes_leaves fun s hs => h s (mem_padLast hs))
    · exact h

theorem mem_of_mem_completed {l : List α} {a : α} (h : a ∈ completed l) : a ∈ l := by
  obtain ⟨s, hs, ha⟩ := List.mem_flatMap.mp h
  refine levelShapes_leaves (P := (· ∈ l)) ?_ s hs a ha
  intro t ht b hb
  obtain ⟨c, hc, rfl⟩ := List.mem_map.mp ht
  obtain rfl : b = c := by simpa [Shape.leaves] using hb
  exact hc

end LevelizedTree

/-! When the merges of a levelized tree succeed: what a merge needs of its two
sides holds at every level. -/

section Success

variable {N ε : Type} {step : Nat → N → N → Except ε N} {P : Nat → N → Prop}

theorem mergePairs_succeeds {k : Nat}
    (hstep : ∀ i a b, P k a → P k b → ∃ c, step i a b = .ok c ∧ P (k + 1) c)
    (index : Nat) {level : List N} (hlevel : ∀ n ∈ level, P k n) :
    ∃ parents, mergePairs step index level = .ok parents ∧
      parents.length = level.length / 2 ∧ ∀ n ∈ parents, P (k + 1) n := by
  induction index, level using mergePairs.induct with
  | case1 index a b rest ih =>
    obtain ⟨c, hc, hP⟩ := hstep index a b (hlevel a (by simp)) (hlevel b (by simp))
    obtain ⟨parents, hparents, hlength, hrest⟩ := ih (fun n hn => hlevel n (by simp [hn]))
    refine ⟨c :: parents, ?_, ?_, List.forall_mem_cons.mpr ⟨hP, hrest⟩⟩
    · rw [mergePairs, hc, hparents]
      rfl
    · simp only [List.length_cons, hlength]
      omega
  | case2 level index hshort =>
    rcases level with _ | ⟨a, _ | ⟨b, rest⟩⟩
    · exact ⟨[], rfl, by simp, by simp⟩
    · exact ⟨[], rfl, by simp, by simp⟩
    · exact absurd rfl (hshort a b rest)

theorem levelize_succeeds {K : Nat}
    (hstep : ∀ k i a b, k < K → P k a → P k b → ∃ c, step i a b = .ok c ∧ P (k + 1) c)
    (fuel : Nat) {k : Nat} {level : List N} (hlevel : ∀ n ∈ level, P k n)
    (hlength : level.length * 2 ^ k ≤ 2 ^ K) : ∃ final, levelize step fuel level = .ok final := by
  induction fuel generalizing k level with
  | zero => exact ⟨level, rfl⟩
  | succ fuel ih =>
    rw [levelize]
    split
    · next hlong =>
        have hk : k < K := by
          by_contra hge
          have hpow : 2 ^ K ≤ 2 ^ k := Nat.pow_le_pow_right (by decide) (by omega)
          have htwo : 2 * 2 ^ k ≤ level.length * 2 ^ k := Nat.mul_le_mul_right _ hlong
          have hpos : 0 < 2 ^ k := by positivity
          omega
        obtain ⟨parents, hparents, hcount, hP⟩ := mergePairs_succeeds
          (fun i a b => hstep k i a b hk) 0 (fun n hn => hlevel n (mem_padLast hn))
        -- the level is at least half as long and the bound a power of two
        have hhalf : parents.length * 2 ^ (k + 1) ≤ 2 ^ K := by
          rw [hcount, length_padLast]
          obtain ⟨j, rfl⟩ : ∃ j, K = k + 1 + j := ⟨K - (k + 1), by omega⟩
          have hbound : level.length ≤ 2 * 2 ^ j := by
            have hpos : 0 < 2 ^ k := by positivity
            refine Nat.le_of_mul_le_mul_right (c := 2 ^ k) ?_ hpos
            calc level.length * 2 ^ k ≤ 2 ^ (k + 1 + j) := hlength
              _ = 2 * 2 ^ j * 2 ^ k := by ring
          have hcount' : 2 * ((level.length + 1) / 2) / 2 ≤ 2 ^ j := by omega
          calc 2 * ((level.length + 1) / 2) / 2 * 2 ^ (k + 1) ≤ 2 ^ j * 2 ^ (k + 1) :=
                Nat.mul_le_mul_right _ hcount'
            _ = 2 ^ (k + 1 + j) := by ring
        obtain ⟨final, hfinal⟩ := ih hP hhalf
        refine ⟨final, ?_⟩
        rw [hparents]
        exact hfinal
    · exact ⟨level, rfl⟩

end Success

/-! A tree that is complete below a threshold and levelized from it on. -/

section Threshold

variable {α β : Type} {threshold : Nat}

/-- The tree over a list. -/
def TreeOf (threshold : Nat) (default : α) (l : List α) (s : Shape α) : Prop :=
  if threshold ≤ l.length then levelizedShapes l = [s] else s = completeShape default l

/-- The leaves the tree over a list stands for. -/
def padded (threshold : Nat) (l : List α) : List α :=
  if threshold ≤ l.length then completed l else l

theorem padded_map (f : α → β) (l : List α) :
    padded threshold (l.map f) = (padded threshold l).map f := by
  unfold padded
  rw [List.length_map, completed_map]
  split <;> rfl

variable {default : α} {l : List α} {s : Shape α}

theorem TreeOf.map (f : α → β) (h : TreeOf threshold default l s) :
    TreeOf threshold (f default) (l.map f) (s.map f) := by
  unfold TreeOf at h ⊢
  rw [List.length_map]
  split
  · next hlong =>
      rw [if_pos hlong] at h
      rw [levelizedShapes_map, h]
      rfl
  · next hshort =>
      rw [if_neg hshort] at h
      rw [h, completeShape_map]

theorem TreeOf.mem_leaves (h : TreeOf threshold default l s) {a : α} (ha : a ∈ s.leaves) :
    a = default ∨ a ∈ l := by
  unfold TreeOf at h
  split at h
  · refine .inr (mem_of_mem_completed ?_)
    rw [completed, h]
    simpa using ha
  · rw [h] at ha
    exact mem_of_mem_completeShape ha

/-- A complete tree below the threshold is less deep to the right than a
levelized tree from the threshold on. -/
theorem TreeOf.ne_of_lt {k : Nat} (hlow : 2 ^ k < threshold) (hhigh : threshold ≤ 2 ^ (k + 1))
    {l' : List α} {t : Shape α} (hs : TreeOf threshold default l s)
    (ht : TreeOf threshold default l' t) (hl : l.length < threshold) (hl' : threshold ≤ l'.length) :
    s ≠ t := by
  rintro rfl
  rw [TreeOf, if_neg (by omega)] at hs
  rw [TreeOf, if_pos hl'] at ht
  have hshallow : s.rightDepth ≤ k := by
    rw [hs]
    exact completeShape_rightDepth default (by omega)
  have hne : l' ≠ [] := by
    rintro rfl
    simp at hl'
    omega
  obtain ⟨d, t, ht', hperfect, hbound⟩ := levelizedShapes_perfect hne
  obtain rfl : s = t := by
    rw [ht] at ht'
    exact (List.cons.inj ht').1
  rw [hperfect.rightDepth_eq] at hshallow
  have hpow : 2 ^ d ≤ 2 ^ k := Nat.pow_le_pow_right (by decide) hshallow
  omega

/-- The tree determines the leaves it stands for. -/
theorem TreeOf.padded_eq {k : Nat} (hlow : 2 ^ k < threshold) (hhigh : threshold ≤ 2 ^ (k + 1))
    {l' : List α} (hdefault : default ∉ l) (hdefault' : default ∉ l')
    (hs : TreeOf threshold default l s) (hs' : TreeOf threshold default l' s) :
    padded threshold l = padded threshold l' := by
  rcases Nat.lt_or_ge l.length threshold with hlt | hge
  · rcases Nat.lt_or_ge l'.length threshold with hlt' | hge'
    · rw [TreeOf, if_neg (by omega)] at hs hs'
      rw [padded, padded, if_neg (by omega), if_neg (by omega)]
      exact completeShape_injective hdefault hdefault' (hs.symm.trans hs')
    · exact absurd rfl (hs.ne_of_lt hlow hhigh hs' hlt hge')
  · rcases Nat.lt_or_ge l'.length threshold with hlt' | hge'
    · exact absurd rfl (hs'.ne_of_lt hlow hhigh hs hlt' hge)
    · rw [TreeOf, if_pos (by omega)] at hs hs'
      rw [padded, padded, if_pos hge, if_pos hge', completed, completed, hs, hs']

theorem TreeOf.eq_of_padded {l' : List α} {t : Shape α} (hs : TreeOf threshold default l s)
    (ht : TreeOf threshold default l' t) (h : padded threshold l = padded threshold l') :
    s = t := by
  have hlength := length_le_length_completed l
  have hlength' := length_le_length_completed l'
  unfold padded at h
  unfold TreeOf at hs ht
  split at h
  · next hge =>
      rw [if_pos hge] at hs
      split at h
      · next hge' =>
          rw [if_pos hge'] at ht
          by_cases hne : l = []
          · subst hne
            rw [levelizedShapes_eq] at hs
            cases hs
          · by_cases hne' : l' = []
            · subst hne'
              rw [levelizedShapes_eq] at ht
              cases ht
            · rw [(levelizedShapes_eq_iff hne hne').mpr h, ht] at hs
              exact (List.cons.inj hs).1.symm
      · next hlt' =>
          rw [h] at hlength
          omega
  · next hlt =>
      split at h
      · next hge' =>
          rw [← h] at hlength'
          omega
      · next hlt' =>
          rw [if_neg hlt] at hs
          rw [if_neg hlt'] at ht
          rw [hs, ht, h]

end Threshold

end MerkleTree
