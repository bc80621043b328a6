import PlainBitnames.Lib.Lineage

/-!
Segments of a lineage: the blocks after one block, up to and including another
one, oldest first. A segment is determined by its members, so it can be cut at
any of them and put together again.
-/

namespace Lineage

variable {K : Type} {parent : K → Option K} {height : K → Option Nat}

/-- A proper ancestor. -/
def Before (parent : K → Option K) (x y : K) : Prop := x ≠ y ∧ Descends parent x y

/-- The blocks up to and including a block; `none` stands before all blocks. -/
def UpTo (parent : K → Option K) (stop : Option K) (x : K) : Prop :=
  ∃ e, stop = some e ∧ Descends parent x e

/-- The list has the blocks after `start` up to and including `stop`, oldest
first. -/
structure Segment (parent : K → Option K) (start stop : Option K) (l : List K) : Prop where
  mem : ∀ x, x ∈ l ↔ UpTo parent stop x ∧ ¬ UpTo parent start x
  sorted : l.Pairwise (Before parent)

theorem upTo_some {x e : K} : UpTo parent (some e) x ↔ Descends parent x e :=
  ⟨fun ⟨_, he, hx⟩ => Option.some.inj he ▸ hx, fun hx => ⟨e, rfl, hx⟩⟩

theorem not_upTo_none (x : K) : ¬ UpTo parent none x := nofun

theorem UpTo.trans {stop : Option K} {x y : K} (hxy : Descends parent x y)
    (hy : UpTo parent stop y) : UpTo parent stop x := by
  obtain ⟨e, he, hy⟩ := hy
  exact ⟨e, he, hxy.trans hy⟩

theorem descends_iff_upTo_parent {x y : K} :
    Descends parent y x ↔ y = x ∨ UpTo parent (parent x) y := by
  constructor
  · rintro ⟨n, hn⟩
    cases n with
    | zero => exact .inl (Option.some.inj hn).symm
    | succ n =>
      obtain ⟨p, hp, hn⟩ := Option.bind_eq_some_iff.mp hn
      exact .inr ⟨p, hp, n, hn⟩
  · rintro (rfl | ⟨p, hp, hy⟩)
    · exact .refl y
    · exact hy.trans (.of_parent hp)

namespace Rooted

theorem not_upTo_parent (hr : Rooted parent height) {x : K} (hx : ∃ h, height x = some h) :
    ¬ UpTo parent (parent x) x := by
  rintro ⟨p, hp, hxp⟩
  obtain ⟨h, hx⟩ := hx
  obtain ⟨k, hpheight, rfl⟩ := hr.height_parent hx hp
  obtain ⟨hle, -⟩ := (hr.descends_iff hx hpheight).mp hxp
  omega

end Rooted

namespace Segment

variable {start mid stop : Option K} {l l' : List K}

theorem nil (start : Option K) : Segment parent start start [] where
  mem x := by simp
  sorted := .nil

theorem of_none (start : Option K) : Segment parent start none [] where
  mem x := ⟨nofun, fun h => absurd h.1 (not_upTo_none x)⟩
  sorted := .nil

theorem split (hr : Rooted parent height) {x e : K} (he : ∃ h, height e = some h)
    (h : Segment parent start (some e) (l ++ x :: l')) :
    Segment parent start (some x) (l ++ [x]) ∧ Segment parent (some x) (some e) l' := by
  obtain ⟨hsorted, htail, hcross⟩ := List.pairwise_append.mp h.sorted
  obtain ⟨hafter, hsorted'⟩ := List.pairwise_cons.mp htail
  have hmem := h.mem
  simp only [List.mem_append, List.mem_cons, upTo_some] at hmem
  obtain ⟨hxe, hxstart⟩ := (hmem x).mp (.inr (.inl rfl))
  have hheight : ∀ y, Descends parent y e → ∃ k, height y = some k := by
    intro y hy
    obtain ⟨k, hk⟩ := he
    obtain ⟨j, -, hj⟩ := hr.exists_height hk hy
    exact ⟨j, hj⟩
  -- a block after `x` is not up to `x`
  have hnot : ∀ y ∈ l', ¬ Descends parent y x := by
    intro y hy hyx
    obtain ⟨hne, hxy⟩ := hafter y hy
    exact hne (hr.descends_antisymm (hheight x hxe) (hheight y (hyx.trans hxe)) hxy hyx)
  constructor
  · refine ⟨fun y => ?_, List.pairwise_append.mpr ⟨hsorted, List.pairwise_singleton _ _, ?_⟩⟩
    · rw [List.mem_append, List.mem_singleton, upTo_some]
      constructor
      · rintro (hy | rfl)
        · exact ⟨(hcross y hy x List.mem_cons_self).2, ((hmem y).mp (.inl hy)).2⟩
        · exact ⟨.refl y, hxstart⟩
      · rintro ⟨hyx, hystart⟩
        rcases (hmem y).mpr ⟨hyx.trans hxe, hystart⟩ with hy | rfl | hy
        · exact .inl hy
        · exact .inr rfl
        · exact absurd hyx (hnot y hy)
    · intro y hy z hz
      obtain rfl := List.mem_singleton.mp hz
      exact hcross y hy z List.mem_cons_self
  · refine ⟨fun y => ?_, hsorted'⟩
    rw [upTo_some, upTo_some]
    constructor
    · exact fun hy => ⟨((hmem y).mp (.inr (.inr hy))).1, hnot y hy⟩
    · rintro ⟨hye, hyx⟩
      -- a block that is not up to `x` comes after it
      have hxy := (hye.total hxe).resolve_left hyx
      rcases (hmem y).mpr ⟨hye, fun hy => hxstart (hy.trans hxy)⟩ with hy | rfl | hy
      · exact absurd (hcross y hy x List.mem_cons_self).2 hyx
      · exact absurd (.refl y) hyx
      · exact hy

end Segment

end Lineage
