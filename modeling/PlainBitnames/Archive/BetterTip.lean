import PlainBitnames.Archive.Bmm

/-!
The comparison of two potential tips. Within a mainchain lineage it goes by the
height and then by the mainchain height. Between lineages it weighs the height
against the total work and against the heights before the fork.
-/

namespace PlainBitnames

open Fallible Lineage

variable [Primitives]

namespace Archive

/-- The header of a block that builds on a block strictly before the given
mainchain block. -/
def headerBefore (a : Archive) (mainAncestor : MainBlockHash) (blockHash : BlockHash) :
    ArchiveResult (Option Header) := do
  let header ← a.getHeader blockHash
  let isAncestor ← a.isMainDescendant header.prevMainHash mainAncestor
  if !isAncestor then .ok none
  else if header.prevMainHash = mainAncestor then .ok none
  else .ok (some header)

def heightBefore (a : Archive) (mainAncestor : MainBlockHash) (blockHash : BlockHash) :
    ArchiveResult (Option Nat) := do
  match ← a.headerBefore mainAncestor blockHash with
  | none => .ok none
  | some _ => do
      let height ← a.getHeight blockHash
      .ok (some height)

/-- The height of a block before the mainchain ancestor, and the total work of
the mainchain block after the one it builds on. -/
def heightAndWorkBefore (a : Archive) (mainAncestor : MainBlockHash) (mainAncestorHeight : Nat)
    (blockHash : BlockHash) : ArchiveResult (Option (Nat × Nat)) := do
  match ← a.headerBefore mainAncestor blockHash with
  | none => .ok none
  | some header => do
      let height ← a.getHeight blockHash
      let prevHeight ← a.getMainHeight header.prevMainHash
      let mainHeight ← heightPlusOne prevHeight
      ensure (mainHeight ≤ mainAncestorHeight) (.panic "attempt to subtract with overflow")
      let mainBlock ← a.getNthMainAncestor mainAncestor (mainAncestorHeight - mainHeight)
      let work ← a.getTotalWork mainBlock
      .ok (some (height, work))

/-- The height of the last ancestor of a tip before the last common mainchain
ancestor. -/
def ancestorHeight (a : Archive) (tip0 tip1 : Tip) (tip : Tip) : ArchiveResult (Option Nat) := do
  let mainAncestor ← a.lastCommonMainAncestor tip0.mainBlockHash tip1.mainBlockHash
  a.findAncestor (a.heightBefore mainAncestor) (a.lineageLength tip.blockHash) (some tip.blockHash)

/-- Two tips of equal height and equal work, compared by their ancestors before
the last common mainchain ancestor. -/
def betterAncestor (a : Archive) (tip0 tip1 : Tip) : ArchiveResult (Option Tip) := do
  let mainAncestor ← a.lastCommonMainAncestor tip0.mainBlockHash tip1.mainBlockHash
  let mainAncestorHeight ← a.getMainHeight mainAncestor
  let ancestor0 ← a.findAncestor (a.heightAndWorkBefore mainAncestor mainAncestorHeight)
    (a.lineageLength tip0.blockHash) (some tip0.blockHash)
  let ancestor1 ← a.findAncestor (a.heightAndWorkBefore mainAncestor mainAncestorHeight)
    (a.lineageLength tip1.blockHash) (some tip1.blockHash)
  match compare (ancestor0.map Prod.snd) (ancestor1.map Prod.snd),
      compare (ancestor0.map Prod.fst) (ancestor1.map Prod.fst) with
  | .lt, .eq | .eq, .eq | _, .gt => .ok (some tip0)
  | .gt, .eq | _, .lt => .ok (some tip1)

/-- Two tips of nonzero height, compared by height and by the total work of
their mainchain blocks. -/
def betterByWork (a : Archive) (tip0 tip1 : Tip) (height0 height1 : Nat) :
    ArchiveResult (Option Tip) := do
  let work0 ← a.getTotalWork tip0.mainBlockHash
  let work1 ← a.getTotalWork tip1.mainBlockHash
  match compare work0 work1, compare height0 height1 with
  | .lt, .lt | .eq, .lt => .ok (some tip1)
  | .eq, .gt | .gt, .gt => .ok (some tip0)
  | .lt, .eq => do
      -- Within the same mainchain lineage, prefer lower work.
      let shared ← a.sharedMainchainLineage tip0.mainBlockHash tip1.mainBlockHash
      .ok (some (if shared then tip0 else tip1))
  | .gt, .eq => do
      let shared ← a.sharedMainchainLineage tip0.mainBlockHash tip1.mainBlockHash
      .ok (some (if !shared then tip0 else tip1))
  | .lt, .gt => do
      let tip0AncestorHeight ← a.ancestorHeight tip0 tip1 tip0
      .ok (some (if (compare tip0AncestorHeight (some height1)).isGE then tip0 else tip1))
  | .gt, .lt => do
      let tip1AncestorHeight ← a.ancestorHeight tip0 tip1 tip1
      .ok (some (if (compare tip1AncestorHeight (some height0)).isLT then tip0 else tip1))
  | .eq, .eq =>
    if tip0.blockHash = tip1.blockHash then .ok (some tip0) else a.betterAncestor tip0 tip1

/-- The better one of two potential tips, if there is one. -/
def betterTip (a : Archive) (tip0 tip1 : Tip) : ArchiveResult (Option Tip) :=
  if tip0 = tip1 then .ok none
  else do
    let height0 ← a.getHeight tip0.blockHash
    let height1 ← a.getHeight tip1.blockHash
    match height0, height1 with
    | 0, 0 => .ok none
    | 0, _ => .ok (some tip1)
    | _, 0 => .ok (some tip0)
    | _, _ => a.betterByWork tip0 tip1 height0 height1

/-- The second tip is strictly better than the first. -/
def Beaten (a : Archive) (tip0 tip1 : Tip) : Prop := a.betterTip tip0 tip1 = .ok (some tip1)

instance (a : Archive) (tip0 tip1 : Tip) : Decidable (a.Beaten tip0 tip1) :=
  inferInstanceAs (Decidable (_ = _))

/-- Why the second of two tips of nonzero height is better. -/
inductive Preferred (a : Archive) (tip0 tip1 : Tip) (height0 height1 work0 work1 : Nat) : Prop
  | higher (hheight : height0 < height1) (hwork : work0 ≤ work1)
  | moreWork (hheight : height0 = height1) (hwork : work0 < work1)
      (hshared : a.sharedMainchainLineage tip0.mainBlockHash tip1.mainBlockHash = .ok false)
  | lessWork (hheight : height0 = height1) (hwork : work1 < work0)
      (hshared : a.sharedMainchainLineage tip0.mainBlockHash tip1.mainBlockHash = .ok true)
  | lower (hheight : height1 < height0) (hwork : work0 < work1) (before : Option Nat)
      (hbefore : a.ancestorHeight tip0 tip1 tip0 = .ok before)
      (hlt : compare before (some height1) = .lt)
  | higherBefore (hheight : height0 < height1) (hwork : work1 < work0) (before : Option Nat)
      (hbefore : a.ancestorHeight tip0 tip1 tip1 = .ok before)
      (hge : compare before (some height0) ≠ .lt)
  | betterBefore (hheight : height0 = height1) (hwork : work0 = work1)
      (hblock : tip0.blockHash ≠ tip1.blockHash)
      (hbetter : a.betterAncestor tip0 tip1 = .ok (some tip1))

variable {a : Archive}

theorem preferred_of_betterByWork {tip0 tip1 : Tip} {height0 height1 : Nat} (hne : tip0 ≠ tip1)
    (h : a.betterByWork tip0 tip1 height0 height1 = .ok (some tip1)) :
    ∃ work0 work1, a.totalWork[tip0.mainBlockHash]? = some work0 ∧
      a.totalWork[tip1.mainBlockHash]? = some work1 ∧
      a.Preferred tip0 tip1 height0 height1 work0 work1 := by
  obtain ⟨work0, hwork0, h⟩ := bind_eq_ok.mp h
  obtain ⟨work1, hwork1, h⟩ := bind_eq_ok.mp h
  refine ⟨work0, work1, okOr_eq_ok.mp hwork0, okOr_eq_ok.mp hwork1, ?_⟩
  have hnot : (Except.ok (some tip0) : ArchiveResult (Option Tip)) ≠ .ok (some tip1) :=
    fun heq => hne (Option.some.inj (Except.ok.inj heq))
  rcases hw : compare work0 work1 with _ | _ | _ <;>
    rcases hh : compare height0 height1 with _ | _ | _ <;>
    simp only [hw, hh] at h <;>
    simp only [Nat.compare_eq_lt, Nat.compare_eq_eq, Nat.compare_eq_gt] at hw hh
  case lt.lt => exact .higher hh hw.le
  case lt.eq =>
    obtain ⟨shared, hshared, h⟩ := bind_eq_ok.mp h
    cases shared with
    | true => exact absurd h hnot
    | false => exact .moreWork hh hw hshared
  case lt.gt =>
    obtain ⟨before, hbefore, h⟩ := bind_eq_ok.mp h
    split at h
    case isTrue => exact absurd h hnot
    case isFalse hge => exact .lower hh hw before hbefore (by simpa using hge)
  case eq.lt => exact .higher hh hw.le
  case eq.eq =>
    split at h
    case isTrue => exact absurd h hnot
    case isFalse hblock => exact .betterBefore hh hw hblock h
  case eq.gt => exact absurd h hnot
  case gt.lt =>
    obtain ⟨before, hbefore, h⟩ := bind_eq_ok.mp h
    split at h
    case isTrue => exact absurd h hnot
    case isFalse hge => exact .higherBefore hh hw before hbefore (by simpa using hge)
  case gt.eq =>
    obtain ⟨shared, hshared, h⟩ := bind_eq_ok.mp h
    cases shared with
    | false => exact absurd h hnot
    | true => exact .lessWork hh hw hshared
  case gt.gt => exact absurd h hnot

/-- The tips of a comparison that the second one wins, with their heights. -/
theorem Beaten.cases {tip0 tip1 : Tip} (h : a.Beaten tip0 tip1) :
    tip0 ≠ tip1 ∧ ∃ height0 height1, a.blockHashToHeight[tip0.blockHash]? = some height0 ∧
      a.blockHashToHeight[tip1.blockHash]? = some height1 ∧
      (height0 = 0 ∧ 0 < height1 ∨ 0 < height0 ∧ 0 < height1 ∧
        ∃ work0 work1, a.totalWork[tip0.mainBlockHash]? = some work0 ∧
          a.totalWork[tip1.mainBlockHash]? = some work1 ∧
          a.Preferred tip0 tip1 height0 height1 work0 work1) := by
  unfold Beaten betterTip at h
  split at h
  case isTrue => cases h
  case isFalse hne =>
    obtain ⟨height0, hheight0, h⟩ := bind_eq_ok.mp h
    obtain ⟨height1, hheight1, h⟩ := bind_eq_ok.mp h
    refine ⟨hne, height0, height1, okOr_eq_ok.mp hheight0, okOr_eq_ok.mp hheight1, ?_⟩
    match height0, height1 with
    | 0, 0 => cases h
    | 0, height1 + 1 => exact .inl ⟨rfl, Nat.succ_pos _⟩
    | height0 + 1, 0 => exact absurd (Option.some.inj (Except.ok.inj h)) hne
    | height0 + 1, height1 + 1 =>
      exact .inr ⟨Nat.succ_pos _, Nat.succ_pos _, preferred_of_betterByWork hne h⟩

/-- The second of two ancestors of the tips, with height and work, is better. -/
def BetterBefore (ancestor0 ancestor1 : Option (Nat × Nat)) : Prop :=
  compare (ancestor0.map Prod.fst) (ancestor1.map Prod.fst) = .lt ∨
    compare (ancestor0.map Prod.fst) (ancestor1.map Prod.fst) = .eq ∧
      compare (ancestor0.map Prod.snd) (ancestor1.map Prod.snd) = .gt

omit [Primitives] in
theorem BetterBefore.asymm {x y : Option (Nat × Nat)} (h : BetterBefore x y) :
    ¬ BetterBefore y x := by
  have hfst : compare (x.map Prod.fst) (y.map Prod.fst) =
      (compare (y.map Prod.fst) (x.map Prod.fst)).swap := Std.OrientedOrd.eq_swap
  have hsnd : compare (x.map Prod.snd) (y.map Prod.snd) =
      (compare (y.map Prod.snd) (x.map Prod.snd)).swap := Std.OrientedOrd.eq_swap
  intro h'
  rcases h with hlt | ⟨heq, hgt⟩ <;> rcases h' with hlt' | ⟨heq', hgt'⟩ <;> simp_all

theorem betterAncestor_eq_ok {tip0 tip1 : Tip} (hne : tip0 ≠ tip1)
    (h : a.betterAncestor tip0 tip1 = .ok (some tip1)) :
    ∃ mainAncestor height ancestor0 ancestor1,
      a.lastCommonMainAncestor tip0.mainBlockHash tip1.mainBlockHash = .ok mainAncestor ∧
      a.getMainHeight mainAncestor = .ok height ∧
      a.findAncestor (a.heightAndWorkBefore mainAncestor height)
        (a.lineageLength tip0.blockHash) (some tip0.blockHash) = .ok ancestor0 ∧
      a.findAncestor (a.heightAndWorkBefore mainAncestor height)
        (a.lineageLength tip1.blockHash) (some tip1.blockHash) = .ok ancestor1 ∧
      BetterBefore ancestor0 ancestor1 := by
  obtain ⟨mainAncestor, hmain, h⟩ := bind_eq_ok.mp h
  obtain ⟨height, hheight, h⟩ := bind_eq_ok.mp h
  obtain ⟨ancestor0, hancestor0, h⟩ := bind_eq_ok.mp h
  obtain ⟨ancestor1, hancestor1, h⟩ := bind_eq_ok.mp h
  refine ⟨mainAncestor, height, ancestor0, ancestor1, hmain, hheight, hancestor0, hancestor1, ?_⟩
  unfold BetterBefore
  split at h <;> simp_all

theorem heightBefore_eq_ok {mainAncestor : MainBlockHash} {b : BlockHash} {found : Option Nat}
    (h : a.heightBefore mainAncestor b = .ok found) :
    a.headerBefore mainAncestor b = .ok none ∧ found = none ∨
      ∃ header height, a.headerBefore mainAncestor b = .ok (some header) ∧
        a.blockHashToHeight[b]? = some height ∧ found = some height := by
  obtain ⟨header, hheader, h⟩ := bind_eq_ok.mp h
  cases header with
  | none =>
    cases h
    exact .inl ⟨hheader, rfl⟩
  | some header =>
    obtain ⟨height, hheight, h⟩ := bind_eq_ok.mp h
    cases h
    exact .inr ⟨header, height, hheader, okOr_eq_ok.mp hheight, rfl⟩

theorem heightAndWorkBefore_eq_ok {mainAncestor : MainBlockHash} {k : Nat} {b : BlockHash}
    {found : Option (Nat × Nat)} (h : a.heightAndWorkBefore mainAncestor k b = .ok found) :
    a.headerBefore mainAncestor b = .ok none ∧ found = none ∨
      ∃ header height work, a.headerBefore mainAncestor b = .ok (some header) ∧
        a.blockHashToHeight[b]? = some height ∧ found = some (height, work) := by
  obtain ⟨header, hheader, h⟩ := bind_eq_ok.mp h
  cases header with
  | none =>
    cases h
    exact .inl ⟨hheader, rfl⟩
  | some header =>
    obtain ⟨height, hheight, h⟩ := bind_eq_ok.mp h
    obtain ⟨prevHeight, -, h⟩ := bind_eq_ok.mp h
    obtain ⟨mainHeight, -, h⟩ := bind_eq_ok.mp h
    obtain ⟨-, h⟩ := ensure_bind_eq_ok.mp h
    obtain ⟨mainBlock, -, h⟩ := bind_eq_ok.mp h
    obtain ⟨work, -, h⟩ := bind_eq_ok.mp h
    cases h
    exact .inr ⟨header, height, work, hheader, okOr_eq_ok.mp hheight, rfl⟩

section Lookups

variable {m : Mainchain} {a : Archive} {x y : MainBlockHash}

theorem MainStored.exists_sharedMainchainLineage (h : MainStored m a) (hx : x ∈ a.mainHeaderInfos)
    (hy : y ∈ a.mainHeaderInfos) :
    ∃ shared, a.sharedMainchainLineage x y = .ok shared ∧
      (shared = true ↔ Descends m.parent x y ∨ Descends m.parent y x) := by
  obtain ⟨x', y', k, hlevel, hiff⟩ := Index.exists_level_eq_iff h.describes (h.height_of_mem hx)
    (h.height_of_mem hy)
  refine ⟨decide (x' = y'), ?_, by rw [decide_eq_true_iff, hiff]⟩
  rw [sharedMainchainLineage, hlevel, ok_bind]

theorem MainStored.sharedMainchainLineage_comm (h : MainStored m a) (hx : x ∈ a.mainHeaderInfos)
    (hy : y ∈ a.mainHeaderInfos) : a.sharedMainchainLineage y x = a.sharedMainchainLineage x y := by
  obtain ⟨shared, hshared, hiff⟩ := h.exists_sharedMainchainLineage hx hy
  obtain ⟨shared', hshared', hiff'⟩ := h.exists_sharedMainchainLineage hy hx
  rw [hshared, hshared', Except.ok.injEq, Bool.eq_iff_iff, hiff, hiff', or_comm]

theorem MainStored.lastCommonMainAncestor_eq (h : MainStored m a) {z : MainBlockHash}
    (hx : x ∈ a.mainHeaderInfos) (hy : y ∈ a.mainHeaderInfos)
    (hz : Index.LastCommon m.parent z x y) : a.lastCommonMainAncestor x y = .ok z := by
  obtain ⟨hzx, hzy⟩ := (hz z).mp (.refl z)
  obtain ⟨z', hlast, hz'⟩ := Index.lastCommon_eq_ok h.describes (h.height_of_mem hx)
    (h.height_of_mem hy) hzx hzy
  obtain ⟨k, hk⟩ := h.height_of_mem hx
  rw [lastCommonMainAncestor, hlast, hz'.unique h.describes.rooted hk hz]

theorem MainStored.lastCommonMainAncestor_comm (h : MainStored m a) {w : MainBlockHash}
    (hx : x ∈ a.mainHeaderInfos) (hy : y ∈ a.mainHeaderInfos) (hwx : Descends m.parent w x)
    (hwy : Descends m.parent w y) :
    a.lastCommonMainAncestor y x = a.lastCommonMainAncestor x y := by
  obtain ⟨z, hlast, hz⟩ := Index.lastCommon_eq_ok h.describes (h.height_of_mem hx)
    (h.height_of_mem hy) hwx hwy
  rw [h.lastCommonMainAncestor_eq hx hy hz, h.lastCommonMainAncestor_eq hy hx hz.symm]

theorem MainStored.work_le (h : MainStored m a) {old new : MainBlockHash} {w w' : Nat}
    (hdescends : Descends m.parent old new) (hw : a.totalWork[old]? = some w)
    (hw' : a.totalWork[new]? = some w') : w ≤ w' := by
  obtain ⟨n, hn⟩ := hdescends
  induction n generalizing new w' with
  | zero =>
    cases hn
    exact (Option.some.inj (hw.symm.trans hw')).le
  | succ n ih =>
    obtain ⟨p, hp, hn⟩ := Option.bind_eq_some_iff.mp hn
    obtain ⟨w'', hw'', rfl⟩ := h.work_step hw' hp
    exact (ih hw'' hn).trans (Nat.le_add_right _ _)

/-- One step of a search along the ancestors. -/
theorem findAncestor_eq_ok {β : Type} {f : BlockHash → ArchiveResult (Option β)} {fuel : Nat}
    {b : BlockHash} {found : Option β}
    (h : a.findAncestor f (fuel + 1) (some b) = .ok found) :
    (∃ v, f b = .ok (some v) ∧ found = some v) ∨
      f b = .ok none ∧ ∃ header, a.headers[b]? = some header ∧
        a.findAncestor f fuel header.prevSideHash = .ok found := by
  obtain ⟨header, hheader, h⟩ := bind_eq_ok.mp h
  obtain ⟨v, hv, h⟩ := bind_eq_ok.mp h
  cases v with
  | none => exact .inr ⟨hv, header, okOr_eq_ok.mp hheader, h⟩
  | some v =>
    cases h
    exact .inl ⟨v, hv, rfl⟩

theorem findAncestor_eq_some {β : Type} {f : BlockHash → ArchiveResult (Option β)} {fuel : Nat}
    {start : Option BlockHash} {v : β} (h : a.findAncestor f fuel start = .ok (some v)) :
    ∃ b b', start = some b ∧ Descends a.sideParent b' b ∧ f b' = .ok (some v) := by
  induction fuel generalizing start with
  | zero => cases h
  | succ fuel ih =>
    cases start with
    | none => cases h
    | some b =>
      rcases findAncestor_eq_ok h with ⟨v', hv', heq⟩ | ⟨-, header, hheader, h⟩
      · cases heq
        exact ⟨b, b, rfl, .refl b, hv'⟩
      · obtain ⟨p, b', hp, hdescends, hfound⟩ := ih h
        have hparent : a.sideParent b = some p := by
          rw [sideParent, hheader, Option.bind_some, hp]
        exact ⟨b, b', rfl, hdescends.trans (.of_parent hparent), hfound⟩

/-- A verified block builds on the parent of its mainchain block, so it lies
before that block. -/
theorem Stored.headerBefore_verified (h : Stored m a) {b : BlockHash} {mainHash : MainBlockHash}
    (hverified : a.Verified b mainHash) : a.headerBefore mainHash b ≠ .ok none := by
  intro hfound
  have hmain := h.bmm.info hverified
  have hstored := h.main.info_header hmain
  obtain ⟨header, hheader, hfound⟩ := bind_eq_ok.mp hfound
  obtain ⟨isAncestor, hisAncestor, hfound⟩ := bind_eq_ok.mp hfound
  obtain ⟨-, hprev, -⟩ := (h.bmm.rule (okOr_eq_ok.mp hheader) hmain).mp hverified
  have hmem : header.prevMainHash ∈ a.mainHeaderInfos :=
    h.main.height.mp (Index.height_of_isDescendant hisAncestor (h.main.height_of_mem hstored))
  have hparent : m.parent mainHash = some header.prevMainHash :=
    Mainchain.parent_eq_some.mpr ⟨hprev, h.main.ne_zeros hmem⟩
  obtain ⟨b, hb', hspec⟩ := h.main.exists_isMainDescendant hmem hstored
  obtain rfl := Except.ok.inj (hisAncestor.symm.trans hb')
  rw [hspec.mpr (.of_parent hparent)] at hfound
  rw [Bool.not_true, if_neg Bool.false_ne_true, if_neg] at hfound
  · cases hfound
  · intro heq
    exact h.main.ne_parent hstored (heq ▸ hparent)

theorem Stored.headerBefore_above (h : Stored m a) {b : BlockHash} {old new : MainBlockHash}
    {found : Option Header} (hverified : a.Verified b new) (hdescends : Descends m.parent old new)
    (hne : old ≠ new) (hfound : a.headerBefore old b = .ok found) : found = none := by
  have hmain := h.bmm.info hverified
  have hold := h.main.mem_of_descends (h.main.info_header hmain) hdescends
  obtain ⟨header, hheader, hfound⟩ := bind_eq_ok.mp hfound
  obtain ⟨isAncestor, hisAncestor, hfound⟩ := bind_eq_ok.mp hfound
  obtain ⟨-, hprev, -⟩ := (h.bmm.rule (okOr_eq_ok.mp hheader) hmain).mp hverified
  have hmem : header.prevMainHash ∈ a.mainHeaderInfos :=
    h.main.height.mp (Index.height_of_isDescendant hisAncestor (h.main.height_of_mem hold))
  have hparent : m.parent new = some header.prevMainHash :=
    Mainchain.parent_eq_some.mpr ⟨hprev, h.main.ne_zeros hmem⟩
  obtain ⟨b, hb', hspec⟩ := h.main.exists_isMainDescendant hmem hold
  obtain rfl := Except.ok.inj (hisAncestor.symm.trans hb')
  cases isAncestor with
  | false => exact (Except.ok.inj hfound).symm
  | true =>
    -- The parent of the new block lies between the two blocks, so it is the old one.
    have hbetween := hdescends.of_ne hparent hne
    have heq := h.main.describes.rooted.descends_antisymm (h.main.height_of_mem hmem)
      (h.main.height_of_mem hold) (hspec.mp rfl) hbetween
    rw [if_neg (by decide), if_pos heq] at hfound
    exact (Except.ok.inj hfound).symm

end Lookups

end Archive

end PlainBitnames
