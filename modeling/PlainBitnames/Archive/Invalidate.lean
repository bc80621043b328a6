import PlainBitnames.Archive.Bmm
import PlainBitnames.Archive.SideTips

/-!
Invalidation of a block with its descendants. The loop removes one block after
the other from the tables; when its stack is empty the removed blocks are closed
under children, so that what remains is again a forest.
-/

namespace PlainBitnames

open Fallible Lineage

variable [Primitives]

namespace Archive

variable {a : Archive}

theorem get_withoutSuccessor {x : BlockHash} {header : Header}
    (hheader : a.headers[x]? = some header) (p : Option BlockHash) :
    (a.withoutSuccessor x)[p]? = if header.prevSideHash = p then
      a.successors[p]?.map fun s => s.erase x else a.successors[p]? := by
  unfold withoutSuccessor
  simp only [hheader]
  by_cases heq : header.prevSideHash = p
  · subst heq
    rw [if_pos rfl]
    cases hs : a.successors[header.prevSideHash]? with
    | none => simp only [hs, Option.map_none]
    | some s => simp only [Db.get_insert_self, Option.map_some]
  · rw [if_neg heq]
    cases hs : a.successors[header.prevSideHash]? with
    | none => rfl
    | some s => simp only [Db.get_insert_ne _ _ heq]

/-- What remains of an archive when some blocks are removed. -/
structure Pruned (a : Archive) (gone : List BlockHash) (a' : Archive) : Prop where
  rest : a' = { a with
    blockHashToHeight := a'.blockHashToHeight
    bodies := a'.bodies
    exponentialAncestors := a'.exponentialAncestors
    headers := a'.headers
    invalidBlocks := a'.invalidBlocks
    successors := a'.successors
    txidToInclusions := a'.txidToInclusions }
  height : ∀ x : BlockHash,
    a'.blockHashToHeight[x]? = if x ∈ gone then none else a.blockHashToHeight[x]?
  skips : ∀ x : BlockHash,
    a'.exponentialAncestors[x]? = if x ∈ gone then none else a.exponentialAncestors[x]?
  headers : ∀ x : BlockHash, a'.headers[x]? = if x ∈ gone then none else a.headers[x]?
  bodies : ∀ x : BlockHash, a'.bodies[x]? = if x ∈ gone then none else a.bodies[x]?
  invalid : ∀ x, x ∈ a'.invalidBlocks ↔ x ∈ gone ∨ x ∈ a.invalidBlocks
  successors : ∀ {p s'}, a'.successors[p]? = some s' → (∀ x, p = some x → x ∉ gone) ∧
    ∃ s, a.successors[p]? = some s ∧ ∀ x, x ∈ s' ↔ x ∈ s ∧ x ∉ gone
  known : ∀ {p s}, (∀ x, p = some x → x ∉ gone) → a.successors[p]? = some s →
    ∃ s', a'.successors[p]? = some s'

namespace Pruned

variable {a a' : Archive} {gone : List BlockHash}

theorem nil (a : Archive) : Pruned a [] a where
  rest := rfl
  height x := by simp
  skips x := by simp
  headers x := by simp
  bodies x := by simp
  invalid x := by simp
  successors {p s'} h := ⟨fun _ _ => List.not_mem_nil, s', h, fun x => by simp⟩
  known _ h := ⟨_, h⟩

theorem sideParent (h : Pruned a gone a') {x : BlockHash} (hx : x ∉ gone) :
    a'.sideParent x = a.sideParent x := by
  rw [Archive.sideParent, Archive.sideParent, h.headers, if_neg hx]

theorem invalidate (hside : SideStored a) (h : Pruned a gone a') {x : BlockHash} {header : Header}
    (hx : x ∉ gone) (hheader : a.headers[x]? = some header) :
    Pruned a (x :: gone) (a'.invalidate x).1 := by
  have hheader' : a'.headers[x]? = some header := by rw [h.headers, if_neg hx, hheader]
  have herase : ∀ {V : Type} (d d' : Db BlockHash V),
      (∀ y : BlockHash, d'[y]? = if y ∈ gone then none else d[y]?) →
      ∀ y : BlockHash, (d'.erase x)[y]? = if y ∈ x :: gone then none else d[y]? := by
    intro V d d' hd y
    rw [Db.get_erase, hd]
    by_cases heq : x = y
    · rw [if_pos heq, if_pos (heq ▸ List.mem_cons_self)]
    · rw [if_neg heq]
      simp only [List.mem_cons, Ne.symm heq, false_or]
  have hget : ∀ p, (a'.invalidate x).1.successors[p]? =
      if some x = p then none else if header.prevSideHash = p then
        a'.successors[p]?.map fun s => s.erase x else a'.successors[p]? := by
    intro p
    rw [← get_withoutSuccessor hheader', ← Db.get_erase]
    rfl
  -- the block is a successor of its parent only
  have honly : ∀ {p s}, a.successors[p]? = some s → header.prevSideHash ≠ p → x ∉ s := by
    intro p s hs hne hmem
    obtain ⟨header', hheader'', hp⟩ := (hside.successors hs x).mp hmem
    rw [hheader] at hheader''
    cases hheader''
    exact hne hp
  exact {
    rest := by
      rw [h.rest]
      rfl
    height := herase _ _ h.height
    skips := herase _ _ h.skips
    headers := herase _ _ h.headers
    bodies := herase _ _ h.bodies
    invalid := fun y => by
      refine (Db.mem_insert _ _ _ _).trans ?_
      rw [h.invalid, List.mem_cons, or_assoc, eq_comm]
    successors := fun {p s'} hs' => by
      rw [hget] at hs'
      split at hs'
      case isTrue => cases hs'
      case isFalse hne =>
        have hgone : (∀ y, p = some y → y ∉ gone) → ∀ y, p = some y → y ∉ x :: gone := by
          rintro hgone y rfl hmem
          rcases List.mem_cons.mp hmem with rfl | hmem
          · exact hne rfl
          · exact hgone y rfl hmem
        split at hs'
        case isTrue heq =>
          obtain ⟨s'', hs'', rfl⟩ := Option.map_eq_some_iff.mp hs'
          obtain ⟨hp, s, hs, hmem⟩ := h.successors hs''
          refine ⟨hgone hp, s, hs, fun y => ?_⟩
          rw [Db.mem_erase, hmem, List.mem_cons, not_or]
          constructor
          · rintro ⟨hne, hy, hgone⟩
            exact ⟨hy, Ne.symm hne, hgone⟩
          · rintro ⟨hy, hne, hgone⟩
            exact ⟨Ne.symm hne, hy, hgone⟩
        case isFalse hother =>
          obtain ⟨hp, s, hs, hmem⟩ := h.successors hs'
          refine ⟨hgone hp, s, hs, fun y => ?_⟩
          rw [hmem, List.mem_cons, not_or]
          refine and_congr_right fun hy => ⟨fun hgone => ⟨?_, hgone⟩, fun hgone => hgone.2⟩
          rintro rfl
          exact honly hs hother hy
    known := fun {p s} hp hs => by
      obtain ⟨s', hs'⟩ := h.known (fun y hy hmem => hp y hy (List.mem_cons_of_mem _ hmem)) hs
      rw [hget, if_neg fun heq => hp x heq.symm List.mem_cons_self]
      split
      case isTrue => exact ⟨s'.erase x, by rw [hs', Option.map_some]⟩
      case isFalse => exact ⟨s', hs'⟩ }

/-- The blocks that follow a removed block are its children that remain. -/
theorem mem_invalidate (hside : SideStored a) (h : Pruned a gone a') {x : BlockHash}
    {header : Header} (hx : x ∉ gone) (hheader : a.headers[x]? = some header) :
    (a'.invalidate x).2.Nodup ∧
      ∀ y, y ∈ (a'.invalidate x).2 ↔ a.sideParent y = some x ∧ y ∉ gone := by
  have hheader' : a'.headers[x]? = some header := by rw [h.headers, if_neg hx, hheader]
  obtain ⟨s, hs⟩ := hside.known (Db.mem_of_get hheader)
  obtain ⟨s', hs'⟩ := h.known (p := some x) (fun y hy => Option.some.inj hy ▸ hx) hs
  have hnext : (a'.invalidate x).2 = s'.keys := by
    change ((a'.withoutSuccessor x)[some x]?.map _).getD [] = _
    rw [get_withoutSuccessor hheader', if_neg (hside.ne_parent hheader), hs', Option.map_some,
      Option.getD_some]
  obtain ⟨-, s'', hs'', hmem⟩ := h.successors hs'
  cases hs.symm.trans hs''
  rw [hnext]
  refine ⟨Std.ExtTreeMap.nodup_keys, fun y => ?_⟩
  rw [Std.ExtTreeMap.mem_keys, hmem, hside.successors hs]
  refine and_congr_left fun _ => ?_
  rw [Archive.sideParent, Option.bind_eq_some_iff]

end Pruned

/-- The invariant of the loop that invalidates a block with its descendants. -/
structure Invalidating (a : Archive) (b : BlockHash) (gone stack : List BlockHash)
    (a' : Archive) : Prop where
  pruned : Pruned a gone a'
  first : b ∈ gone
  descends : ∀ x ∈ gone, Descends a.sideParent b x
  parents : ∀ x ∈ gone, x = b ∨ ∃ p ∈ gone, a.sideParent x = some p
  nodup : stack.Nodup
  pending : ∀ x ∈ stack, x ∉ gone ∧ ∃ p ∈ gone, a.sideParent x = some p
  closed : ∀ {x p}, a.sideParent x = some p → p ∈ gone → x ∈ gone ∨ x ∈ stack

theorem header_of_sideParent {x p : BlockHash} (h : a.sideParent x = some p) :
    ∃ header, a.headers[x]? = some header ∧ header.prevSideHash = some p :=
  Option.bind_eq_some_iff.mp h

variable {b : BlockHash}

theorem Invalidating.start (hside : SideStored a) {header : Header}
    (hheader : a.headers[b]? = some header) :
    Invalidating a b [b] (a.invalidate b).2.reverse (a.invalidate b).1 := by
  obtain ⟨hnodup, hmem⟩ := (Pruned.nil a).mem_invalidate hside List.not_mem_nil hheader
  refine {
    pruned := (Pruned.nil a).invalidate hside List.not_mem_nil hheader
    first := List.mem_cons_self
    descends := fun x hx => ?_
    parents := fun x hx => .inl (List.mem_singleton.mp hx)
    nodup := List.nodup_reverse.mpr hnodup
    pending := fun x hx => ?_
    closed := fun {x p} hx hp => ?_ }
  · rw [List.mem_singleton.mp hx]
    exact .refl b
  · obtain ⟨hparent, -⟩ := (hmem x).mp (List.mem_reverse.mp hx)
    refine ⟨fun heq => ?_, b, List.mem_cons_self, hparent⟩
    rw [List.mem_singleton.mp heq, SideStored.sideParent_eq hheader] at hparent
    exact hside.ne_parent hheader hparent
  · rw [List.mem_singleton.mp hp] at hx
    exact .inr (List.mem_reverse.mpr ((hmem x).mpr ⟨hx, List.not_mem_nil⟩))

variable {gone stack : List BlockHash}

theorem Invalidating.step {a' : Archive} (hside : SideStored a) {x : BlockHash}
    (h : Invalidating a b gone (x :: stack) a') :
    Invalidating a b (x :: gone) ((a'.invalidate x).2.reverse ++ stack) (a'.invalidate x).1 := by
  obtain ⟨hx, p, hp, hparent⟩ := h.pending x List.mem_cons_self
  obtain ⟨header, hheader, -⟩ := header_of_sideParent hparent
  obtain ⟨hnotin, hnodup⟩ := List.nodup_cons.mp h.nodup
  obtain ⟨hnodup', hmem⟩ := h.pruned.mem_invalidate hside hx hheader
  have hdescends : Descends a.sideParent b x := (h.descends p hp).trans (.of_parent hparent)
  have hxheight := hside.height_of_mem (Db.mem_of_get hheader)
  refine {
    pruned := h.pruned.invalidate hside hx hheader
    first := List.mem_cons_of_mem _ h.first
    descends := fun y hy => ?_
    parents := fun y hy => ?_
    nodup := List.nodup_append.mpr ⟨List.nodup_reverse.mpr hnodup', hnodup, ?_⟩
    pending := fun y hy => ?_
    closed := fun {y q} hy hq => ?_ }
  · rcases List.mem_cons.mp hy with rfl | hy
    · exact hdescends
    · exact h.descends y hy
  · rcases List.mem_cons.mp hy with rfl | hy
    · exact .inr ⟨p, List.mem_cons_of_mem _ hp, hparent⟩
    · exact (h.parents y hy).imp_right fun ⟨q, hq, hy⟩ => ⟨q, List.mem_cons_of_mem _ hq, hy⟩
  · -- a child of `x` was not pending, since `x` was not removed yet
    rintro y hy z hz rfl
    obtain ⟨hy, -⟩ := (hmem y).mp (List.mem_reverse.mp hy)
    obtain ⟨-, q, hq, hy'⟩ := h.pending y (List.mem_cons_of_mem _ hz)
    cases hy.symm.trans hy'
    exact hx hq
  · rcases List.mem_append.mp hy with hy | hy
    · obtain ⟨hy, hgone⟩ := (hmem y).mp (List.mem_reverse.mp hy)
      refine ⟨fun hmem' => ?_, x, List.mem_cons_self, hy⟩
      rcases List.mem_cons.mp hmem' with rfl | hmem'
      · exact hside.describes.rooted.not_upTo_parent hxheight ⟨y, hy, .refl y⟩
      · exact hgone hmem'
    · obtain ⟨hgone, q, hq, hy'⟩ := h.pending y (List.mem_cons_of_mem _ hy)
      have hne : y ≠ x := fun heq => hnotin (heq ▸ hy)
      exact ⟨fun hmem' => hgone ((List.mem_cons.mp hmem').resolve_left hne), q,
        List.mem_cons_of_mem _ hq, hy'⟩
  · rcases List.mem_cons.mp hq with rfl | hq
    · by_cases hgone : y ∈ gone
      · exact .inl (List.mem_cons_of_mem _ hgone)
      · exact .inr (List.mem_append_left _ (List.mem_reverse.mpr ((hmem y).mpr ⟨hy, hgone⟩)))
    · rcases h.closed hy hq with hy | hy
      · exact .inl (List.mem_cons_of_mem _ hy)
      · rcases List.mem_cons.mp hy with rfl | hy
        · exact .inl List.mem_cons_self
        · exact .inr (List.mem_append_right _ hy)

theorem Invalidating.size {a' : Archive} {x : BlockHash}
    (h : Invalidating a b gone (x :: stack) a') :
    (a'.invalidate x).1.headers.size + 1 = a'.headers.size := by
  obtain ⟨hx, p, -, hparent⟩ := h.pending x List.mem_cons_self
  obtain ⟨header, hheader, -⟩ := header_of_sideParent hparent
  have hmem : x ∈ a'.headers := by
    rw [Db.mem_iff, h.pruned.headers, if_neg hx]
    exact ⟨header, hheader⟩
  change (a'.headers.erase x).size + 1 = _
  rw [Std.ExtTreeMap.size_erase, if_pos (Std.ExtTreeMap.mem_iff_contains.mp hmem)]
  have hpos : a'.headers.size ≠ 0 := by
    intro hzero
    rw [Std.ExtTreeMap.eq_empty_iff_size_eq_zero.mpr hzero] at hmem
    exact Db.not_mem_empty x hmem
  omega

/-- One turn of the loop. -/
def invalidateStep : Archive × List BlockHash → Archive × List BlockHash
  | (a, []) => (a, [])
  | (a, blockHash :: stack) =>
    let (a, successors) := a.invalidate blockHash
    (a, successors.reverse ++ stack)

theorem invalidateStack_eq_iterate (fuel : Nat) (a : Archive) (stack : List BlockHash) :
    invalidateStack fuel a stack = (invalidateStep^[fuel] (a, stack)).1 := by
  induction fuel generalizing a stack with
  | zero => rfl
  | succ fuel ih =>
    cases stack with
    | nil =>
      rw [Function.iterate_fixed rfl]
      rfl
    | cons x stack => exact ih _ _

/-- The loop ends with an empty stack. -/
theorem Invalidating.iterate {a' : Archive} (hside : SideStored a) {fuel : Nat}
    (h : Invalidating a b gone stack a') (hfuel : a'.headers.size ≤ fuel) :
    (invalidateStep^[fuel] (a', stack)).2 = [] ∧
      ∃ gone', Invalidating a b gone' [] (invalidateStep^[fuel] (a', stack)).1 := by
  induction fuel generalizing a' gone stack with
  | zero =>
    cases stack with
    | nil => exact ⟨rfl, gone, h⟩
    | cons x stack =>
      have hsize := h.size
      omega
  | succ fuel ih =>
    cases stack with
    | nil =>
      rw [Function.iterate_fixed rfl]
      exact ⟨rfl, gone, h⟩
    | cons x stack =>
      have hsize := h.size
      have hle : (a'.invalidate x).1.headers.size ≤ fuel := by omega
      have hrun := ih (h.step hside) hle
      exact hrun

/-- The blocks that are removed are closed under children, so the rest is again
a forest. -/
theorem Invalidating.side {a' : Archive} (hside : SideStored a) (h : Invalidating a b gone [] a') :
    SideStored a' := by
  have hparent : ∀ {x p}, x ∉ gone → a.sideParent x = some p → p ∉ gone := by
    intro x p hx hp hgone
    exact hx ((h.closed hp hgone).resolve_right List.not_mem_nil)
  have hheight : ∀ {x k}, a'.blockHashToHeight[x]? = some k →
      x ∉ gone ∧ a.blockHashToHeight[x]? = some k := by
    intro x k hk
    rw [h.pruned.height] at hk
    split at hk
    case isTrue => cases hk
    case isFalse hx => exact ⟨hx, hk⟩
  have hheader : ∀ {x : BlockHash} {header : Header}, a'.headers[x]? = some header →
      x ∉ gone ∧ a.headers[x]? = some header := by
    intro x header hget
    rw [h.pruned.headers] at hget
    split at hget
    case isTrue => cases hget
    case isFalse hx => exact ⟨hx, hget⟩
  have hrooted : Rooted a'.sideParent a'.sideIndex.height := by
    constructor
    · intro x hx
      obtain ⟨hgone, hx⟩ := hheight hx
      rw [h.pruned.sideParent hgone]
      exact hside.describes.rooted.root hx
    · intro x k hx
      obtain ⟨hgone, hx⟩ := hheight hx
      obtain ⟨p, hp, hk⟩ := hside.describes.rooted.step hx
      refine ⟨p, by rw [h.pruned.sideParent hgone, hp], ?_⟩
      exact (h.pruned.height p).trans ((if_neg (hparent hgone hp)).trans hk)
  have hsame : ∀ {x k n}, a'.blockHashToHeight[x]? = some k →
      ancestor a.sideParent n x = ancestor a'.sideParent n x := fun hk =>
    hrooted.ancestor_congr (fun y j hj => (h.pruned.sideParent (hheight hj).1).symm) hk
  exact {
    hash_eq := fun hget => hside.hash_eq (hheader hget).2
    height := fun {x} => by
      rw [h.pruned.height, Db.mem_iff, h.pruned.headers]
      split
      case isTrue => exact ⟨nofun, nofun⟩
      case isFalse => exact hside.height.trans (Db.mem_iff _ _)
    describes := {
      rooted := hrooted
      parent_eq := fun {x p k} hp hk => by
        obtain ⟨header, hget, hprev⟩ := header_of_sideParent hp
        change (do
          let header ← a'.getHeader x
          okOr header.prevSideHash _ : ArchiveResult BlockHash) = _
        rw [getHeader, hget, okOr_some, ok_bind, hprev]
        rfl
      skips := fun {x k} hk => by
        obtain ⟨hgone, hk'⟩ := hheight hk
        obtain ⟨skips, hskips, hspec⟩ := hside.describes.skips hk'
        refine ⟨skips, (h.pruned.skips x).trans ((if_neg hgone).trans hskips), fun i => ?_⟩
        rw [hspec i, hsame hk] }
    successors := fun {p s'} hs' x => by
      obtain ⟨-, s, hs, hmem⟩ := h.pruned.successors hs'
      rw [hmem, hside.successors hs]
      constructor
      · rintro ⟨⟨header, hget, hp⟩, hgone⟩
        exact ⟨header, by rw [h.pruned.headers, if_neg hgone, hget], hp⟩
      · rintro ⟨header, hget, hp⟩
        obtain ⟨hgone, hget⟩ := hheader hget
        exact ⟨⟨header, hget, hp⟩, hgone⟩
    known := fun {x} hx => by
      obtain ⟨header, hget⟩ := (Db.mem_iff _ _).mp hx
      obtain ⟨hgone, hget⟩ := hheader hget
      obtain ⟨s, hs⟩ := hside.known (Db.mem_of_get hget)
      exact h.pruned.known (fun y hy => Option.some.inj hy ▸ hgone) hs
    roots := by
      obtain ⟨s, hs⟩ := hside.roots
      exact h.pruned.known nofun hs
    bound := fun hk => hside.bound (hheight hk).2 }

theorem invalidateBlock_iterate (hside : SideStored a) (hb : b ∈ a.headers) :
    invalidateStep^[a.headers.size + 1] (a, [b]) = (a.invalidateBlock b, []) ∧
      ∃ gone, Invalidating a b gone [] (a.invalidateBlock b) := by
  obtain ⟨header, hheader⟩ := (Db.mem_iff _ _).mp hb
  have hstart := Invalidating.start hside hheader
  have hle : (a.invalidate b).1.headers.size ≤ a.headers.size := by
    change (a.headers.erase b).size ≤ _
    exact Std.ExtTreeMap.size_erase_le
  obtain ⟨hempty, hgone⟩ := hstart.iterate hside hle
  rw [← List.append_nil (a.invalidate b).2.reverse] at hempty hgone
  rw [invalidateBlock, invalidateStack_eq_iterate]
  exact ⟨Prod.ext rfl hempty, hgone⟩

theorem exists_invalidating (hside : SideStored a) (hb : b ∈ a.headers) :
    ∃ gone, Invalidating a b gone [] (a.invalidateBlock b) :=
  (invalidateBlock_iterate hside hb).2

/-- A block that is not stored has no successors, so its invalidation only marks it. -/
theorem invalidateBlock_of_not_mem (hside : SideStored a) (hb : b ∉ a.headers) :
    a.invalidateBlock b = { a with
      bodies := a.bodies.erase b
      exponentialAncestors := a.exponentialAncestors.erase b
      invalidBlocks := a.invalidBlocks.insert b ()
      successors := a.successors.erase (some b)
      txidToInclusions := a.txidToInclusions.discardBody b a.bodies[b]? } := by
  have hheight : b ∉ a.blockHashToHeight := fun hmem =>
    hb (hside.height.mp ((Db.mem_iff _ _).mp hmem))
  have hwithout : a.withoutSuccessor b = a.successors := by
    rw [withoutSuccessor, (Db.not_mem_iff _ _).mp hb]
  have hnext : (a.invalidate b).2 = [] := by
    change ((a.withoutSuccessor b)[some b]?.map Std.ExtTreeMap.keys).getD [] = []
    rw [hwithout]
    cases hs : a.successors[some b]? with
    | none => rfl
    | some s =>
      refine List.eq_nil_iff_forall_not_mem.mpr fun x hx => ?_
      obtain ⟨header, hheader, hp⟩ := (hside.successors hs x).mp (Std.ExtTreeMap.mem_keys.mp hx)
      exact hb (hside.parent_mem hheader hp)
  rw [invalidateBlock, invalidateStack]
  simp only [hnext, List.reverse_nil, List.append_nil]
  have hdone : ∀ fuel a, invalidateStack fuel a [] = a := by
    intro fuel a
    cases fuel <;> rfl
  rw [hdone]
  simp only [invalidate, hwithout, Db.erase_of_not_mem hb, Db.erase_of_not_mem hheight]

theorem SideStored.invalidateBlock (h : SideStored a) (b : BlockHash) :
    SideStored (a.invalidateBlock b) := by
  by_cases hb : b ∈ a.headers
  · obtain ⟨gone, hgone⟩ := exists_invalidating h hb
    exact hgone.side h
  · rw [invalidateBlock_of_not_mem h hb]
    have hne : ∀ {x : BlockHash}, x ∈ a.headers → b ≠ x := by
      rintro x hx rfl
      exact hb hx
    exact { h with
      describes := { h.describes with
        skips := fun {x k} hk => by
          obtain ⟨skips, hskips, hspec⟩ := h.describes.skips hk
          refine ⟨skips, ?_, hspec⟩
          exact (Db.get_erase_ne _ (hne (h.height.mp ⟨k, hk⟩))).trans hskips }
      successors := fun {p s} hs => by
        rw [Db.get_erase] at hs
        split at hs
        case isTrue => cases hs
        case isFalse => exact h.successors hs
      known := fun {x} hx => by
        obtain ⟨s, hs⟩ := h.known hx
        exact ⟨s, (Db.get_erase_ne _ fun heq => hne hx (Option.some.inj heq)).trans hs⟩
      roots := by
        obtain ⟨s, hs⟩ := h.roots
        exact ⟨s, (Db.get_erase_ne _ (Option.some_ne_none b)).trans hs⟩ }

theorem Stored.invalidateBlock {m : Mainchain} (h : Stored m a) (hb : b ∈ a.headers) :
    Stored m (a.invalidateBlock b) := by
  obtain ⟨gone, hgone⟩ := exists_invalidating h.side hb
  generalize a.invalidateBlock b = a' at hgone
  have hpruned := hgone.pruned
  have hheader : ∀ {x : BlockHash} {header : Header}, a'.headers[x]? = some header →
      x ∉ gone ∧ a.headers[x]? = some header := by
    intro x header hget
    rw [hpruned.headers] at hget
    split at hget
    case isTrue => cases hget
    case isFalse hx => exact ⟨hx, hget⟩
  have hverified : ∀ x mainHash, a'.Verified x mainHash ↔ a.Verified x mainHash := by
    intro x mainHash
    rw [hpruned.rest]
    rfl
  have hinfos : a'.mainBlockInfos = a.mainBlockInfos := by rw [hpruned.rest]
  refine ⟨?_, hgone.side h.side, ⟨?_, ?_, ?_, ?_⟩⟩
  · rw [hpruned.rest]
    exact { h.main with describes := h.main.describes }
  · intro x mainHash hx
    rw [hinfos]
    exact h.bmm.info ((hverified _ _).mp hx)
  · intro x mainHash hx
    exact h.bmm.commit ((hverified _ _).mp hx)
  · intro header mainHash hx
    exact BmmRule.mono (fun p earlier => (hverified p earlier).mpr)
      (h.bmm.sound ((hverified _ _).mp hx))
  · intro x header mainHash hget hinfo
    rw [hinfos] at hinfo
    rw [hverified, h.bmm.rule (hheader hget).2 hinfo]
    exact BmmRule.congr fun _ p earlier _ _ => (hverified p earlier).symm

end Archive

end PlainBitnames
