import PlainBitnames.Lib.MerkleTree

/-!
The complete and the levelized tree over one list. The complete tree has every
element of the list as a leaf once. The levelized tree has the list as its first
leaves, and then repetitions. Over a power of two many elements the two trees
are the same.
-/

namespace MerkleTree

section Shapes

variable {α : Type}

theorem completeAt_fuel (default : α) (l : List α) {f g i : Nat} (hf : l.length ≤ f + i + 1)
    (hg : l.length ≤ g + i + 1) : completeAt default l f i = completeAt default l g i := by
  induction f generalizing g i with
  | zero => rw [completeAt_leaf default l 0 (by omega), completeAt_leaf default l g (by omega)]
  | succ f ih =>
    rcases Nat.lt_or_ge (i + 1) l.length with hi | hi
    · obtain ⟨g, rfl⟩ : ∃ g', g = g' + 1 := ⟨g - 1, by omega⟩
      rw [completeAt_node default l f hi, completeAt_node default l g hi,
        ih (g := g) (by omega) (by omega), ih (g := g) (by omega) (by omega)]
    · rw [completeAt_leaf default l _ hi, completeAt_leaf default l _ hi]

variable {l : List α}

theorem completeShape_perm (default : α) (hne : l ≠ []) :
    (completeShape default l).leaves.Perm l := by
  have hpos := List.length_pos_iff.mpr hne
  let leavesAt := fun i => (completeAt default l l.length i).leaves
  -- the nodes from `m` to `2 m` cut the tree, as long as `m` is not past the first leaf
  have hcut : ∀ m, m < l.length →
      (leavesAt 0).Perm ((List.range' m (m + 1)).flatMap leavesAt) := by
    intro m
    induction m with
    | zero =>
      intro _
      simp [List.range', leavesAt]
    | succ m ih =>
      intro hm
      have hsplit : leavesAt m = leavesAt (2 * m + 1) ++ leavesAt (2 * m + 2) := by
        have hnode : completeAt default l l.length m =
            .node (completeAt default l l.length (2 * m + 1))
              (completeAt default l l.length (2 * m + 2)) := by
          rw [completeAt_fuel default l (f := l.length) (g := l.length + 1) (by omega) (by omega),
            completeAt_node default l _ hm]
        simp only [leavesAt, hnode, Shape.leaves]
      have hrange : List.range' (m + 1) (m + 2) =
          List.range' (m + 1) m ++ [2 * m + 1, 2 * m + 2] := by
        rw [List.range'_concat, List.range'_concat, List.append_assoc]
        simp only [List.singleton_append, List.append_cancel_left_eq, List.cons.injEq, and_true]
        omega
      refine (ih (by omega)).trans ?_
      rw [hrange, List.range'_succ, List.flatMap_cons, hsplit, List.flatMap_append]
      simp only [List.flatMap_cons, List.flatMap_nil, List.append_nil]
      exact List.perm_append_comm
  have hleaves : (List.range' (l.length - 1) l.length).flatMap leavesAt = l := by
    have hsingle : ∀ i ∈ List.range' (l.length - 1) l.length,
        leavesAt i = [l.getD (i + 1 - l.length) default] := by
      intro i hi
      rw [List.mem_range'_1] at hi
      simp only [leavesAt, completeAt_leaf default l l.length (i := i) (by omega), Shape.leaves]
    rw [List.flatMap_congr hsingle, ← List.map_eq_flatMap]
    apply List.ext_getElem (by simp)
    intro k hk hk'
    have hindex : l.length - 1 + k + 1 - l.length = k := by omega
    simp [hindex, hk']
  have hlast := hcut (l.length - 1) (by omega)
  rw [show l.length - 1 + 1 = l.length by omega, hleaves] at hlast
  rw [completeShape_eq]
  exact hlast

/-- Below a node that has its leaves `k` levels down, the complete tree is
perfect and its leaves stand in order. -/
theorem completeAt_perfect (default : α) (l : List α) {fuel k i : Nat}
    (hfuel : l.length ≤ fuel + i + 1) (hleft : l.length ≤ (i + 1) * 2 ^ k)
    (hright : (i + 2) * 2 ^ k ≤ 2 * l.length) :
    (completeAt default l fuel i).Perfect k ∧ (completeAt default l fuel i).leaves =
      (List.range' ((i + 1) * 2 ^ k - l.length) (2 ^ k)).map fun j => l.getD j default := by
  induction k generalizing fuel i with
  | zero =>
    rw [pow_zero, Nat.mul_one] at hleft
    rw [completeAt_leaf default l fuel hleft]
    simp [Shape.Perfect, Shape.leaves]
  | succ k ih =>
    have hpow : 0 < 2 ^ k := Nat.two_pow_pos k
    have hdouble : (i + 2) * 2 ^ (k + 1) = 2 * ((i + 2) * 2 ^ k) := by ring
    have hinner : i + 1 < l.length := by
      have hle : i + 2 ≤ (i + 2) * 2 ^ k := Nat.le_mul_of_pos_right _ hpow
      omega
    obtain ⟨fuel, rfl⟩ : ∃ f, fuel = f + 1 := ⟨fuel - 1, by omega⟩
    have hstart : (2 * i + 1 + 1) * 2 ^ k = (i + 1) * 2 ^ (k + 1) := by ring
    have hmiddle : (2 * i + 2 + 1) * 2 ^ k = (i + 1) * 2 ^ (k + 1) + 2 ^ k := by ring
    have hmiddle' : (2 * i + 1 + 2) * 2 ^ k = (2 * i + 2 + 1) * 2 ^ k := by ring
    have hend : (2 * i + 2 + 2) * 2 ^ k = (i + 2) * 2 ^ (k + 1) := by ring
    have hend' : (i + 2) * 2 ^ (k + 1) = (i + 1) * 2 ^ (k + 1) + 2 ^ (k + 1) := by ring
    have htwo : 2 ^ (k + 1) = 2 ^ k + 2 ^ k := by ring
    obtain ⟨hl, hlleaves⟩ := ih (i := 2 * i + 1)
      (show l.length ≤ fuel + (2 * i + 1) + 1 by omega) (by omega) (by omega)
    obtain ⟨hr, hrleaves⟩ := ih (i := 2 * i + 2)
      (show l.length ≤ fuel + (2 * i + 2) + 1 by omega) (by omega) (by omega)
    rw [completeAt_node default l fuel hinner]
    refine ⟨⟨hl, hr⟩, ?_⟩
    rw [Shape.leaves, hlleaves, hrleaves, hstart, hmiddle, htwo, ← List.map_append,
      show (i + 1) * (2 ^ k + 2 ^ k) + 2 ^ k - l.length =
        (i + 1) * (2 ^ k + 2 ^ k) - l.length + 2 ^ k by
          rw [htwo] at hleft; omega,
      List.range'_append_1]

/-- The complete tree over a power of two many elements is perfect, and its
leaves are the list. -/
theorem completeShape_perfect (default : α) {k : Nat} (hk : l.length = 2 ^ k) :
    (completeShape default l).Perfect k ∧ (completeShape default l).leaves = l := by
  obtain ⟨hperfect, hleaves⟩ := completeAt_perfect default l (k := k) (i := 0)
    (show l.length ≤ l.length + 0 + 1 by omega) (by omega) (by omega)
  rw [completeShape_eq]
  refine ⟨hperfect, hleaves.trans ?_⟩
  rw [show (0 + 1) * 2 ^ k - l.length = 0 by omega, ← hk]
  apply List.ext_getElem (by simp)
  intro j hj hj'
  simp [hj']

theorem pairShapes_leaves_eq (index : Nat) {level : List (Shape α)} (heven : level.length % 2 = 0) :
    (pairShapes index level).flatMap Shape.leaves = level.flatMap Shape.leaves := by
  induction index, level using mergePairs.induct with
  | case1 index a b rest ih =>
    have hrest := ih (by simp only [List.length_cons] at heven; omega)
    rw [pairShapes_cons, List.flatMap_cons, List.flatMap_cons, List.flatMap_cons, hrest,
      Shape.leaves, List.append_assoc]
  | case2 level index hshort =>
    rcases level with _ | ⟨a, _ | ⟨b, rest⟩⟩
    · rfl
    · cases heven
    · exact absurd rfl (hshort a b rest)

theorem isPrefix_padLast (level : List α) : level <+: padLast level := by
  unfold padLast
  split
  · exact List.prefix_append _ _
  · exact List.prefix_rfl

theorem levelShapes_prefix (fuel : Nat) (level : List (Shape α)) :
    level.flatMap Shape.leaves <+: (levelShapes fuel level).flatMap Shape.leaves := by
  induction fuel generalizing level with
  | zero => exact List.prefix_rfl
  | succ fuel ih =>
    rw [levelShapes_succ]
    split
    · have heven : (padLast level).length % 2 = 0 := by
        rw [length_padLast]
        omega
      have hpairs := pairShapes_leaves_eq 0 heven
      obtain ⟨rest, hrest⟩ := isPrefix_padLast level
      refine List.IsPrefix.trans ?_ (ih _)
      rw [hpairs, ← hrest, List.flatMap_append]
      exact List.prefix_append _ _
    · exact List.prefix_rfl

theorem levelShapes_of_pow {fuel k : Nat} {level : List (Shape α)} (hk : level.length = 2 ^ k)
    (hfuel : level.length ≤ fuel) :
    (levelShapes fuel level).flatMap Shape.leaves = level.flatMap Shape.leaves := by
  induction k generalizing fuel level with
  | zero =>
    cases fuel with
    | zero => rfl
    | succ fuel => rw [levelShapes_succ, if_neg (by omega)]
  | succ k ih =>
    have htwo : 2 ^ (k + 1) = 2 ^ k + 2 ^ k := by ring
    have hpow : 0 < 2 ^ k := Nat.two_pow_pos k
    obtain ⟨fuel, rfl⟩ : ∃ f, fuel = f + 1 := ⟨fuel - 1, by omega⟩
    have hpad : padLast level = level := if_neg (by omega)
    have hlength : (pairShapes 0 level).length = 2 ^ k := by
      rw [length_pairShapes]
      omega
    rw [levelShapes_succ, if_pos (by omega), hpad, ih hlength (by omega),
      pairShapes_leaves_eq 0 (by omega)]

theorem prefix_completed (l : List α) : l <+: completed l := by
  have hstart := levelShapes_prefix l.length (l.map Shape.leaf)
  have hleaves : l.flatMap (fun a => (Shape.leaf a).leaves) = l := List.flatMap_singleton' l
  rwa [← levelizedShapes_eq, List.flatMap_map, hleaves] at hstart

theorem completed_of_pow {k : Nat} (hk : l.length = 2 ^ k) : completed l = l := by
  have hlength : (l.map Shape.leaf).length = 2 ^ k := by rw [List.length_map, hk]
  have hleaves := levelShapes_of_pow hlength (List.length_map _).le
  rw [completed, levelizedShapes_eq, hleaves, List.flatMap_map]
  exact List.flatMap_singleton' l

theorem levelizedShapes_of_pow (default : α) {k : Nat} (hk : l.length = 2 ^ k) :
    levelizedShapes l = [completeShape default l] := by
  have hne : l ≠ [] := by
    rintro rfl
    exact absurd hk.symm (Nat.two_pow_pos k).ne'
  obtain ⟨d, s, hs, hperfect, -⟩ := levelizedShapes_perfect hne
  obtain ⟨hcomplete, hleaves⟩ := completeShape_perfect default hk
  have hcompleted := completed_of_pow hk
  rw [completed, hs, List.flatMap_singleton] at hcompleted
  rw [hs, hperfect.eq_of_leaves hcomplete (hcompleted.trans hleaves.symm)]

theorem length_lt_completed (hne : l ≠ []) (hpow : ∀ k, l.length ≠ 2 ^ k) :
    l.length < (completed l).length := by
  obtain ⟨d, s, hs, hperfect, -⟩ := levelizedShapes_perfect hne
  have hlength : (completed l).length = 2 ^ d := by
    rw [completed, hs, List.flatMap_singleton, hperfect.length_leaves]
  have hle := (prefix_completed l).length_le
  have hne := hpow d
  omega

end Shapes

/-! When the merges of a tree succeed: a property of the whole tree that its
parts inherit makes every merge succeed. -/

section Success

variable {N α ε : Type} {P : Shape α → Prop}

theorem completeNode_exists (merge : N → N → Except ε N) (default : N) {leaves : List N}
    (payload : N → α) {R : Nat → N → Shape α → Prop}
    (hleaf : ∀ k < leaves.length, R (k + leaves.length - 1) (leaves.getD k default)
      (.leaf (payload (leaves.getD k default))))
    (hnode : ∀ i a b s t, P (.node s t) → R (2 * i + 1) a s → R (2 * i + 2) b t →
      ∃ c, merge a b = .ok c ∧ R i c (.node s t))
    (hsub : ∀ s t, P (.node s t) → P s ∧ P t) {fuel i : Nat}
    (hfuel : leaves.length ≤ fuel + i + 1) (hi : i + 1 < 2 * leaves.length)
    (hP : P (completeAt (payload default) (leaves.map payload) fuel i)) :
    ∃ c, completeNode merge default leaves fuel i = .ok c ∧
      R i c (completeAt (payload default) (leaves.map payload) fuel i) := by
  have hlast : ∀ {fuel i}, leaves.length ≤ i + 1 → i + 1 < 2 * leaves.length →
      R i (leaves.getD (i + 1 - leaves.length) default)
        (completeAt (payload default) (leaves.map payload) fuel i) := by
    intro fuel i hle hi
    have hget := hleaf (i + 1 - leaves.length) (by omega)
    rw [show i + 1 - leaves.length + leaves.length - 1 = i by omega] at hget
    have hmap : (leaves.map payload).getD (i + 1 - leaves.length) (payload default) =
        payload (leaves.getD (i + 1 - leaves.length) default) := by
      rw [List.getD_eq_getElem?_getD, List.getD_eq_getElem?_getD, List.getElem?_map,
        Option.getD_map]
    rwa [completeAt_leaf _ _ _ (by simpa using hle), List.length_map, hmap]
  induction fuel generalizing i with
  | zero => exact ⟨_, rfl, hlast (by omega) hi⟩
  | succ fuel ih =>
    rw [completeNode]
    split
    case isTrue hinner =>
      rw [completeAt_node _ _ _ (by simpa using hinner)] at hP ⊢
      obtain ⟨hleft, hright⟩ := hsub _ _ hP
      obtain ⟨a, ha, hRa⟩ := ih (by omega) (by omega) hleft
      obtain ⟨b, hb, hRb⟩ := ih (by omega) (by omega) hright
      obtain ⟨c, hc, hRc⟩ := hnode i a b _ _ hP hRa hRb
      refine ⟨c, ?_, hRc⟩
      rw [ha, hb]
      exact hc
    case isFalse hinner => exact ⟨_, rfl, hlast (by omega) hi⟩

theorem mem_of_pairShapes (hsub : ∀ s t, P (.node s t) → P s ∧ P t) (index : Nat)
    {level : List (Shape α)} (heven : level.length % 2 = 0)
    (hP : ∀ s ∈ pairShapes index level, P s) : ∀ s ∈ level, P s := by
  induction index, level using mergePairs.induct with
  | case1 index a b rest ih =>
    rw [pairShapes_cons] at hP
    obtain ⟨hhead, htail⟩ := List.forall_mem_cons.mp hP
    obtain ⟨ha, hb⟩ := hsub a b hhead
    have hrest := ih (by simp only [List.length_cons] at heven; omega) htail
    exact List.forall_mem_cons.mpr ⟨ha, List.forall_mem_cons.mpr ⟨hb, hrest⟩⟩
  | case2 level index hshort =>
    rcases level with _ | ⟨a, _ | ⟨b, rest⟩⟩
    · simp
    · cases heven
    · exact absurd rfl (hshort a b rest)

theorem mem_of_levelShapes (hsub : ∀ s t, P (.node s t) → P s ∧ P t) {fuel : Nat}
    {level : List (Shape α)} (hP : ∀ s ∈ levelShapes fuel level, P s) : ∀ s ∈ level, P s := by
  induction fuel generalizing level with
  | zero => exact hP
  | succ fuel ih =>
    rw [levelShapes_succ] at hP
    split at hP
    · have hpad := mem_of_pairShapes hsub 0 (by rw [length_padLast]; omega) (ih hP)
      exact fun s hs => hpad s ((isPrefix_padLast level).mem hs)
    · exact hP

variable {step : Nat → N → N → Except ε N} {R : N → Shape α → Prop}

theorem mergePairs_exists
    (hnode : ∀ i a b s t, P (.node s t) → R a s → R b t → ∃ c, step i a b = .ok c ∧ R c (.node s t))
    (index : Nat) {level : List N} {shapes : List (Shape α)} (h : List.Forall₂ R level shapes)
    (hP : ∀ s ∈ pairShapes index shapes, P s) :
    ∃ parents, mergePairs step index level = .ok parents ∧
      List.Forall₂ R parents (pairShapes index shapes) := by
  induction index, level using mergePairs.induct generalizing shapes with
  | case1 index a b rest ih =>
    rcases h with _ | ⟨ha, _ | ⟨hb, hrest⟩⟩
    rw [pairShapes_cons] at hP ⊢
    obtain ⟨hhead, htail⟩ := List.forall_mem_cons.mp hP
    obtain ⟨c, hc, hRc⟩ := hnode index _ _ _ _ hhead ha hb
    obtain ⟨parents, hparents, hR⟩ := ih hrest htail
    refine ⟨c :: parents, ?_, .cons hRc hR⟩
    rw [mergePairs, hc, hparents]
    rfl
  | case2 level index hshort =>
    rcases h with _ | ⟨ha, _ | ⟨hb, hrest⟩⟩
    · exact ⟨[], rfl, .nil⟩
    · exact ⟨[], rfl, .nil⟩
    · exact absurd rfl (hshort _ _ _)

theorem levelize_exists
    (hnode : ∀ i a b s t, P (.node s t) → R a s → R b t → ∃ c, step i a b = .ok c ∧ R c (.node s t))
    (hsub : ∀ s t, P (.node s t) → P s ∧ P t) {fuel : Nat} {level : List N}
    {shapes : List (Shape α)} (h : List.Forall₂ R level shapes)
    (hP : ∀ s ∈ levelShapes fuel shapes, P s) :
    ∃ final, levelize step fuel level = .ok final ∧
      List.Forall₂ R final (levelShapes fuel shapes) := by
  induction fuel generalizing level shapes with
  | zero => exact ⟨level, rfl, h⟩
  | succ fuel ih =>
    rw [levelShapes_succ, ← h.length_eq] at hP ⊢
    rw [levelize]
    split at hP
    case isTrue hlong =>
      obtain ⟨parents, hparents, hR⟩ := mergePairs_exists hnode 0 (forall₂_padLast h)
        (mem_of_levelShapes hsub hP)
      obtain ⟨final, hfinal, hRfinal⟩ := ih hR hP
      rw [if_pos hlong, if_pos hlong, hparents]
      exact ⟨final, hfinal, hRfinal⟩
    case isFalse hshort =>
      rw [if_neg hshort, if_neg hshort]
      exact ⟨level, rfl, h⟩

end Success

end MerkleTree
