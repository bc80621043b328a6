import PlainBitnames.Archive.Headers

/-!
How an archive is built from headers and mainchain blocks in any order, as long
as every operation succeeds. The invariants of a built archive: its two indices
describe the forests of stored headers, and the tables of works, successors and
block infos belong to the stored mainchain headers.
-/

namespace PlainBitnames

open Fallible Lineage

variable [Primitives]

/-- The mainchain as it is reported: the hash of a block determines its header
and its info. -/
structure Mainchain where
  header : MainBlockHash → BlockHeaderInfo
  info : MainBlockHash → MainBlockInfo

namespace Mainchain

def parent (m : Mainchain) (hash : MainBlockHash) : Option MainBlockHash :=
  if (m.header hash).prevBlockHash = .allZeros then none else some (m.header hash).prevBlockHash

theorem parent_eq_some {m : Mainchain} {hash p : MainBlockHash} :
    m.parent hash = some p ↔ (m.header hash).prevBlockHash = p ∧ p ≠ .allZeros := by
  unfold parent
  split
  case isTrue hzeros =>
    refine ⟨fun h => (nomatch h), ?_⟩
    rintro ⟨rfl, hne⟩
    exact absurd hzeros hne
  case isFalse hne =>
    rw [Option.some.injEq]
    constructor
    · rintro rfl
      exact ⟨rfl, hne⟩
    · exact fun h => h.1

theorem parent_eq_none {m : Mainchain} {hash : MainBlockHash} :
    m.parent hash = none ↔ (m.header hash).prevBlockHash = .allZeros := by
  unfold parent
  split <;> simp_all

end Mainchain

/-- An operation that builds an archive. -/
inductive ArchiveOp where
  | header (header : Header)
  | mainHeaderInfo (info : BlockHeaderInfo)
  | mainBlockInfo (hash : MainBlockHash) (info : MainBlockInfo)

/-- What an operation stores about the mainchain is what is reported. -/
def ArchiveOp.Reported (m : Mainchain) : ArchiveOp → Prop
  | .header _ => True
  | .mainHeaderInfo info => info = m.header info.blockHash ∧ info.blockHash ≠ .allZeros
  | .mainBlockInfo hash info => info = m.info hash

instance (m : Mainchain) : DecidablePred (ArchiveOp.Reported m)
  | .header _ => inferInstanceAs (Decidable True)
  | .mainHeaderInfo info =>
    inferInstanceAs (Decidable (info = m.header info.blockHash ∧ info.blockHash ≠ .allZeros))
  | .mainBlockInfo hash info => inferInstanceAs (Decidable (info = m.info hash))

namespace Archive

def op (a : Archive) : ArchiveOp → ArchiveResult Archive
  | .header header => a.putHeader header
  | .mainHeaderInfo info => a.putMainHeaderInfo info
  | .mainBlockInfo hash info => a.putMainBlockInfo hash info

def build (a : Archive) (ops : List ArchiveOp) : ArchiveResult Archive := ops.foldlM op a

/-- The parent of a stored mainchain block. -/
def mainParent (a : Archive) (hash : MainBlockHash) : Option MainBlockHash :=
  a.mainHeaderInfos[hash]?.bind fun info =>
    if info.prevBlockHash = .allZeros then none else some info.prevBlockHash

def sideParent (a : Archive) (blockHash : BlockHash) : Option BlockHash :=
  a.headers[blockHash]?.bind Header.prevSideHash

/-- The archive with a further mainchain header, before its jumps. -/
def withMainHeader (a : Archive) (info : BlockHeaderInfo) (height totalWork : Nat)
    (predSuccessors : Db MainBlockHash Unit) : Archive :=
  let successors := a.mainSuccessors.insert info.prevBlockHash
    (predSuccessors.insert info.blockHash ())
  { a with
    mainBlockHashToHeight := a.mainBlockHashToHeight.insert info.blockHash height
    mainHeaderInfos := a.mainHeaderInfos.insert info.blockHash info
    totalWork := a.totalWork.insert info.blockHash totalWork
    mainSuccessors := successors.insert info.blockHash (successors[info.blockHash]?.getD ∅) }

variable {height : Nat}

theorem heightPlusOne_eq_ok {next : Nat} (h : heightPlusOne height = .ok next) :
    next = height + 1 := by
  obtain ⟨-, h⟩ := ensure_bind_eq_ok.mp h
  cases h
  rfl

theorem heightPlusOne_lt {next : Nat} (h : heightPlusOne height = .ok next) : next < 2 ^ 32 := by
  obtain ⟨hlt, h⟩ := ensure_bind_eq_ok.mp h
  cases h
  exact hlt

variable {a : Archive} {info : BlockHeaderInfo}

theorem newMainHeight_eq_ok (h : a.newMainHeight info = .ok height) :
    info.prevBlockHash = .allZeros ∧ height = 0 ∨
      info.prevBlockHash ≠ .allZeros ∧ ∃ k, a.mainBlockHashToHeight[info.prevBlockHash]? = some k ∧
        height = k + 1 := by
  unfold newMainHeight at h
  split at h
  case isTrue hzeros =>
    cases h
    exact .inl ⟨hzeros, rfl⟩
  case isFalse hne =>
    obtain ⟨k, hk, h⟩ := bind_eq_ok.mp h
    exact .inr ⟨hne, k, okOr_eq_ok.mp hk, heightPlusOne_eq_ok h⟩

theorem newMainHeight_lt (h : a.newMainHeight info = .ok height) : height < 2 ^ 32 := by
  unfold newMainHeight at h
  split at h
  case isTrue =>
    cases h
    decide
  case isFalse =>
    obtain ⟨_, -, h⟩ := bind_eq_ok.mp h
    exact heightPlusOne_lt h

theorem newTotalWork_eq_ok {work : Nat} (h : a.newTotalWork info = .ok work) :
    info.prevBlockHash = .allZeros ∧ work = info.work ∨
      info.prevBlockHash ≠ .allZeros ∧ ∃ w, a.totalWork[info.prevBlockHash]? = some w ∧
        work = w + info.work := by
  unfold newTotalWork at h
  split at h
  case isTrue hne =>
    obtain ⟨w, hw, h⟩ := bind_eq_ok.mp h
    obtain ⟨-, h⟩ := ensure_bind_eq_ok.mp h
    cases h
    exact .inr ⟨hne, w, okOr_eq_ok.mp hw, rfl⟩
  case isFalse hzeros =>
    cases h
    exact .inl ⟨not_not.mp hzeros, rfl⟩

variable {a' : Archive}

/-- What storing a mainchain header does. -/
theorem putMainHeaderInfo_ok (h : a.putMainHeaderInfo info = .ok a') :
    (info.prevBlockHash ∈ a.mainHeaderInfos ∨ info.prevBlockHash = .allZeros) ∧
      ∃ height work predSuccessors skips, a.newMainHeight info = .ok height ∧
        a.newTotalWork info = .ok work ∧
        a.mainSuccessors[info.prevBlockHash]? = some predSuccessors ∧
        (a.withMainHeader info height work predSuccessors).mainIndex.newSkips
          (.ok info.prevBlockHash) height = .ok skips ∧
        a' = { a.withMainHeader info height work predSuccessors with
          exponentialMainAncestors :=
            a.exponentialMainAncestors.insert info.blockHash skips } := by
  obtain ⟨hprev, h⟩ := ensure_bind_eq_ok.mp h
  obtain ⟨height, hheight, h⟩ := bind_eq_ok.mp h
  obtain ⟨work, hwork, h⟩ := bind_eq_ok.mp h
  obtain ⟨mid, hmid, h⟩ := bind_eq_ok.mp h
  obtain ⟨predSuccessors, hpred, hmid⟩ := bind_eq_ok.mp hmid
  cases hmid
  obtain ⟨skips, hskips, h⟩ := bind_eq_ok.mp h
  cases h
  refine ⟨?_, height, work, predSuccessors, skips, hheight, hwork, okOr_eq_ok.mp hpred, hskips,
    rfl⟩
  refine hprev.imp_left fun hsome => (Db.mem_iff _ _).mpr ?_
  exact Option.isSome_iff_exists.mp hsome

/-- The mainchain tables of a built archive. -/
structure MainStored (m : Mainchain) (a : Archive) : Prop where
  header_eq : ∀ {hash info}, a.mainHeaderInfos[hash]? = some info → info = m.header hash
  blockHash_eq : ∀ {hash}, hash ∈ a.mainHeaderInfos → (m.header hash).blockHash = hash
  ne_zeros : ∀ {hash}, hash ∈ a.mainHeaderInfos → hash ≠ .allZeros
  height : ∀ {hash}, (∃ k, a.mainBlockHashToHeight[hash]? = some k) ↔ hash ∈ a.mainHeaderInfos
  describes : a.mainIndex.Describes m.parent
  work : ∀ {hash}, hash ∈ a.mainHeaderInfos → ∃ w, a.totalWork[hash]? = some w
  work_root : ∀ {hash w}, a.totalWork[hash]? = some w → m.parent hash = none →
    w = (m.header hash).work
  work_step : ∀ {hash p w}, a.totalWork[hash]? = some w → m.parent hash = some p →
    ∃ w', a.totalWork[p]? = some w' ∧ w = w' + (m.header hash).work
  work_mem : ∀ {hash w}, a.totalWork[hash]? = some w → hash ∈ a.mainHeaderInfos
  successors : ∀ {p s}, a.mainSuccessors[p]? = some s →
    ∀ hash, hash ∈ s ↔ hash ∈ a.mainHeaderInfos ∧ (m.header hash).prevBlockHash = p
  known : ∀ {p}, p = .allZeros ∨ p ∈ a.mainHeaderInfos → ∃ s, a.mainSuccessors[p]? = some s
  info_eq : ∀ {hash info}, a.mainBlockInfos[hash]? = some info → info = m.info hash
  info_header : ∀ {hash}, hash ∈ a.mainBlockInfos → hash ∈ a.mainHeaderInfos
  info_parent : ∀ {hash p}, hash ∈ a.mainBlockInfos → m.parent hash = some p →
    p ∈ a.mainBlockInfos
  bound : ∀ {hash : MainBlockHash} {k}, a.mainBlockHashToHeight[hash]? = some k → k < 2 ^ 32

namespace MainStored

variable {m : Mainchain} {a : Archive}

theorem new (m : Mainchain) : MainStored m .new where
  header_eq h := by cases (Db.get_empty _).symm.trans h
  blockHash_eq h := absurd h (Db.not_mem_empty _)
  ne_zeros h := absurd h (Db.not_mem_empty _)
  height {hash} := ⟨fun ⟨_, h⟩ => (nomatch (Db.get_empty _).symm.trans h),
    fun h => absurd h (Db.not_mem_empty _)⟩
  describes := .of_none Db.get_empty
  work h := absurd h (Db.not_mem_empty _)
  work_root h := by cases (Db.get_empty _).symm.trans h
  work_step h := by cases (Db.get_empty _).symm.trans h
  work_mem h := by cases (Db.get_empty _).symm.trans h
  successors {p s} h hash := by
    have hs := (Db.get_insert _ _ _ _).symm.trans h
    split at hs
    case isTrue =>
      cases hs
      exact ⟨fun h => absurd h (Db.not_mem_empty _), fun h => absurd h.1 (Db.not_mem_empty _)⟩
    case isFalse => cases (Db.get_empty _).symm.trans hs
  known {p} h := by
    rcases h with rfl | h
    · exact ⟨∅, Db.get_insert_self _ _ _⟩
    · exact absurd h (Db.not_mem_empty _)
  info_eq h := by cases (Db.get_empty _).symm.trans h
  info_header h := absurd h (Db.not_mem_empty _)
  info_parent h := absurd h (Db.not_mem_empty _)
  bound h := by cases (Db.get_empty _).symm.trans h

variable {hash : MainBlockHash}

theorem height_of_mem (h : MainStored m a) (hmem : hash ∈ a.mainHeaderInfos) :
    ∃ k, a.mainIndex.height hash = some k :=
  h.height.mpr hmem

theorem parent_mem (h : MainStored m a) {p : MainBlockHash} (hmem : hash ∈ a.mainHeaderInfos)
    (hp : m.parent hash = some p) : p ∈ a.mainHeaderInfos := by
  obtain ⟨k, hk⟩ := h.height_of_mem hmem
  obtain ⟨j, hj, -⟩ := h.describes.rooted.height_parent hk hp
  exact h.height.mp ⟨j, hj⟩

variable {old new : MainBlockHash}

theorem mem_of_descends (h : MainStored m a) (hmem : new ∈ a.mainHeaderInfos)
    (hdescends : Descends m.parent old new) : old ∈ a.mainHeaderInfos := by
  obtain ⟨k, hk⟩ := h.height_of_mem hmem
  obtain ⟨j, -, hj⟩ := h.describes.rooted.exists_height hk hdescends
  exact h.height.mp ⟨j, hj⟩

theorem isMainDescendant_eq_true (h : MainStored m a) (hold : old ∈ a.mainHeaderInfos)
    (hnew : new ∈ a.mainHeaderInfos) :
    a.isMainDescendant old new = .ok true ↔ Descends m.parent old new :=
  Index.isDescendant_eq_true h.describes (h.height_of_mem hold) (h.height_of_mem hnew)

theorem exists_isMainDescendant (h : MainStored m a) (hold : old ∈ a.mainHeaderInfos)
    (hnew : new ∈ a.mainHeaderInfos) :
    ∃ b, a.isMainDescendant old new = .ok b ∧ (b = true ↔ Descends m.parent old new) :=
  Index.isDescendant_eq_ok h.describes (h.height_of_mem hold) (h.height_of_mem hnew)

theorem info_of_descends (h : MainStored m a) (hmem : new ∈ a.mainBlockInfos)
    (hdescends : Descends m.parent old new) : old ∈ a.mainBlockInfos := by
  obtain ⟨n, hn⟩ := hdescends
  induction n generalizing new with
  | zero =>
    cases hn
    exact hmem
  | succ n ih =>
    obtain ⟨p, hp, hn⟩ := Option.bind_eq_some_iff.mp hn
    exact ih (h.info_parent hmem hp) hn

theorem ne_parent (h : MainStored m a) (hmem : hash ∈ a.mainHeaderInfos) :
    m.parent hash ≠ some hash := by
  obtain ⟨k, hk⟩ := h.height_of_mem hmem
  exact h.describes.rooted.ne_parent hk

theorem mainParent_eq (h : MainStored m a) (hmem : hash ∈ a.mainHeaderInfos) :
    a.mainParent hash = m.parent hash := by
  obtain ⟨info, hinfo⟩ := (Db.mem_iff _ _).mp hmem
  rw [mainParent, hinfo, Option.bind_some, h.header_eq hinfo]
  rfl

theorem describes_mainParent (h : MainStored m a) : a.mainIndex.Describes a.mainParent := by
  have heq : ∀ {x k}, a.mainIndex.height x = some k → a.mainParent x = m.parent x := fun hk =>
    h.mainParent_eq (h.height.mp ⟨_, hk⟩)
  have hancestor : ∀ {x k n}, a.mainIndex.height x = some k →
      ancestor a.mainParent n x = ancestor m.parent n x := fun hk =>
    h.describes.rooted.ancestor_congr (fun _ _ hj => heq hj) hk
  refine ⟨⟨fun hx => (heq hx).trans (h.describes.rooted.root hx), fun hx => ?_⟩, fun hp hk => ?_,
    fun hk => ?_⟩
  · rw [heq hx]
    exact h.describes.rooted.step hx
  · exact h.describes.parent_eq ((heq hk).symm.trans hp) hk
  · obtain ⟨skips, hskips, hspec⟩ := h.describes.skips hk
    exact ⟨skips, hskips, fun i => by rw [hspec i, hancestor hk]⟩

theorem descends_mainParent (h : MainStored m a) (hmem : new ∈ a.mainHeaderInfos) :
    Descends a.mainParent old new ↔ Descends m.parent old new := by
  obtain ⟨k, hk⟩ := h.height_of_mem hmem
  have heq : ∀ n, ancestor a.mainParent n new = ancestor m.parent n new := fun n =>
    h.describes.rooted.ancestor_congr (fun hash j hj => h.mainParent_eq (h.height.mp ⟨j, hj⟩)) hk
  simp only [Descends, heq]

variable {info : BlockHeaderInfo}

theorem standsAt {height : Nat} (hinfo : info = m.header info.blockHash)
    (hheight : a.newMainHeight info = .ok height) :
    StandsAt a.mainIndex.height (m.parent info.blockHash) height := by
  rcases newMainHeight_eq_ok hheight with ⟨hzeros, rfl⟩ | ⟨hne, k, hk, rfl⟩
  · exact .inl ⟨Mainchain.parent_eq_none.mpr (by rw [← hinfo, hzeros]), rfl⟩
  · exact .inr ⟨_, k, Mainchain.parent_eq_some.mpr ⟨by rw [← hinfo], hne⟩, hk, rfl⟩

theorem height_again (h : MainStored m a) {height k : Nat} (hinfo : info = m.header info.blockHash)
    (hheight : a.newMainHeight info = .ok height)
    (hk : a.mainBlockHashToHeight[info.blockHash]? = some k) : k = height :=
  h.describes.rooted.height_eq hk (standsAt hinfo hheight)

/-- A mainchain header that is stored adds to the index. -/
theorem extends_withMainHeader (h : MainStored m a) {height work : Nat}
    {predSuccessors : Db MainBlockHash Unit} (hinfo : info = m.header info.blockHash)
    (hheight : a.newMainHeight info = .ok height) :
    (a.withMainHeader info height work predSuccessors).mainIndex.Extends a.mainIndex where
  height hx := Db.get_insert_again (h.height_again hinfo hheight) hx
  parent {x k} hx := by
    obtain ⟨old, hold⟩ := (Db.mem_iff _ _).mp (h.height.mp ⟨k, hx⟩)
    change (do
      let info ← okOr (a.mainHeaderInfos.insert info.blockHash info)[x]? _
      Except.ok info.prevBlockHash : ArchiveResult MainBlockHash) = (do
      let info ← okOr a.mainHeaderInfos[x]? _
      Except.ok info.prevBlockHash)
    rw [Db.get_insert_again (fun hget => (h.header_eq hget).trans hinfo.symm) hold, hold]
  skips _ := rfl
  noAncestor := rfl

theorem describes_putMainHeaderInfo (h : MainStored m a) {height work : Nat}
    {predSuccessors : Db MainBlockHash Unit} {skips : List MainBlockHash}
    (hinfo : info = m.header info.blockHash) (hheight : a.newMainHeight info = .ok height)
    (hskips : (a.withMainHeader info height work predSuccessors).mainIndex.newSkips
      (.ok info.prevBlockHash) height = .ok skips) :
    { a.withMainHeader info height work predSuccessors with
      exponentialMainAncestors :=
        a.exponentialMainAncestors.insert info.blockHash skips : Archive }.mainIndex.Describes
          m.parent := by
  refine Index.Describes.put h.describes (x := info.blockHash)
    (h.extends_withMainHeader hinfo hheight) hskips (standsAt hinfo hheight) ?_
    (Db.get_insert_self _ _ _) (Db.get_insert_self _ _ _) ?_ fun _ _ => rfl
  · intro p hp
    rw [Mainchain.parent_eq_some, ← hinfo] at hp
    obtain ⟨rfl, -⟩ := hp
    refine ⟨rfl, ?_⟩
    change (do
      let info ← okOr (a.mainHeaderInfos.insert info.blockHash info)[info.blockHash]? _
      Except.ok info.prevBlockHash : ArchiveResult MainBlockHash) = _
    rw [Db.get_insert_self]
    rfl
  · intro y hy
    refine ⟨Db.get_insert_ne _ _ (Ne.symm hy), Db.get_insert_ne _ _ (Ne.symm hy), rfl, ?_⟩
    change (do
      let info ← okOr (a.mainHeaderInfos.insert info.blockHash info)[y]? _
      Except.ok info.prevBlockHash : ArchiveResult MainBlockHash) = _
    rw [Db.get_insert_ne _ _ (Ne.symm hy)]
    rfl

theorem work_again (h : MainStored m a) {work w : Nat} (hinfo : info = m.header info.blockHash)
    (hwork : a.newTotalWork info = .ok work) (hw : a.totalWork[info.blockHash]? = some w) :
    w = work := by
  rcases newTotalWork_eq_ok hwork with ⟨hzeros, rfl⟩ | ⟨hne, w', hw', rfl⟩
  · have hroot := h.work_root hw (Mainchain.parent_eq_none.mpr (by rw [← hinfo]; exact hzeros))
    rwa [← hinfo] at hroot
  · obtain ⟨w'', hw'', heq⟩ := h.work_step hw (p := info.prevBlockHash)
      (Mainchain.parent_eq_some.mpr ⟨by rw [← hinfo], hne⟩)
    rw [← hinfo] at heq
    rw [heq, Option.some.inj (hw'.symm.trans hw'')]

theorem putMainHeaderInfo (h : MainStored m a) {a' : Archive}
    (hinfo : info = m.header info.blockHash) (hzeros : info.blockHash ≠ .allZeros)
    (hput : a.putMainHeaderInfo info = .ok a') : MainStored m a' := by
  obtain ⟨hprev, height, work, pred, skips, hheight, hwork, hpred, hskips, rfl⟩ :=
    putMainHeaderInfo_ok hput
  have hmem : ∀ {hash}, hash ∈ a.mainHeaderInfos.insert info.blockHash info ↔
      info.blockHash = hash ∨ hash ∈ a.mainHeaderInfos := Db.mem_insert _ _ _ _
  have hne : info.prevBlockHash ≠ info.blockHash := by
    intro heq
    rcases hprev with hstored | hprev
    · rw [heq] at hstored
      exact h.ne_parent hstored (Mainchain.parent_eq_some.mpr ⟨by rw [← hinfo, heq], hzeros⟩)
    · exact hzeros (heq ▸ hprev)
  have hparent : ∀ {p}, m.parent info.blockHash = some p →
      p = info.prevBlockHash ∧ p ≠ .allZeros := by
    intro p hp
    rw [Mainchain.parent_eq_some, ← hinfo] at hp
    exact ⟨hp.1.symm, hp.2⟩
  exact {
    header_eq := fun {hash old} hget => by
      rcases Db.get_insert_cases hget with ⟨rfl, rfl⟩ | ⟨-, hold⟩
      · exact hinfo
      · exact h.header_eq hold
    blockHash_eq := fun {hash} hstored => by
      rcases hmem.mp hstored with rfl | hstored
      · rw [← hinfo]
      · exact h.blockHash_eq hstored
    ne_zeros := fun {hash} hstored => by
      rcases hmem.mp hstored with rfl | hstored
      · exact hzeros
      · exact h.ne_zeros hstored
    height := fun {hash} => by
      refine Iff.trans ?_ hmem.symm
      rw [← h.height, ← Db.mem_iff, ← Db.mem_iff]
      exact Db.mem_insert _ _ _ _
    describes := h.describes_putMainHeaderInfo hinfo hheight hskips
    work := fun {hash} hstored => by
      rw [← Db.mem_iff]
      refine (Db.mem_insert _ _ _ _).mpr ((hmem.mp hstored).imp_right fun hstored => ?_)
      exact (Db.mem_iff _ _).mpr (h.work hstored)
    work_root := fun {hash w} hget hroot => by
      rcases Db.get_insert_cases hget with ⟨rfl, rfl⟩ | ⟨-, hold⟩
      · rw [Mainchain.parent_eq_none, ← hinfo] at hroot
        rcases newTotalWork_eq_ok hwork with ⟨-, rfl⟩ | ⟨hne, -⟩
        · rw [← hinfo]
        · exact absurd hroot hne
      · exact h.work_root hold hroot
    work_step := fun {hash p w} hget hp => by
      -- the work of the parent is the same before and after
      have hkeep : ∀ {q : MainBlockHash} {w'}, a.totalWork[q]? = some w' →
          (a.totalWork.insert info.blockHash work)[q]? = some w' :=
        Db.get_insert_again (h.work_again hinfo hwork)
      rcases Db.get_insert_cases hget with ⟨rfl, rfl⟩ | ⟨-, hold⟩
      · obtain ⟨rfl, hpne⟩ := hparent hp
        rcases newTotalWork_eq_ok hwork with ⟨hzero, -⟩ | ⟨-, w', hw', rfl⟩
        · exact absurd hzero hpne
        · exact ⟨w', hkeep hw', by rw [← hinfo]⟩
      · obtain ⟨w', hw', heq⟩ := h.work_step hold hp
        exact ⟨w', hkeep hw', heq⟩
    work_mem := fun {hash w} hget => by
      rcases Db.get_insert_cases hget with ⟨rfl, -⟩ | ⟨-, hold⟩
      · exact hmem.mpr (.inl rfl)
      · exact hmem.mpr (.inr (h.work_mem hold))
    successors := fun {p s} hs => by
      refine Db.mem_of_addChild (D := fun hash p => hash ∈ a.mainHeaderInfos.insert
        info.blockHash info ∧ (m.header hash).prevBlockHash = p) h.successors hpred hne ?_ ?_ hs
      · intro hnone hash hold
        obtain ⟨s, hs⟩ := h.known (.inr (h.parent_mem hold.1
          (Mainchain.parent_eq_some.mpr ⟨hold.2, hzeros⟩)))
        cases hnone.symm.trans hs
      · intro hash q
        rw [hmem, or_and_right]
        refine or_congr_left (and_congr_right ?_)
        rintro rfl
        rw [← hinfo]
    known := fun {p} hp => by
      rw [← Db.mem_iff]
      refine (Db.mem_insert _ _ _ _).mpr ?_
      rcases hp with rfl | hstored
      · exact .inr ((Db.mem_insert _ _ _ _).mpr (.inr ((Db.mem_iff _ _).mpr (h.known (.inl rfl)))))
      · rcases hmem.mp hstored with rfl | hstored
        · exact .inl rfl
        · exact .inr ((Db.mem_insert _ _ _ _).mpr
            (.inr ((Db.mem_iff _ _).mpr (h.known (.inr hstored)))))
    info_eq := h.info_eq
    info_header := fun hinfos => hmem.mpr (.inr (h.info_header hinfos))
    info_parent := h.info_parent
    bound := fun {hash k} hk => by
      rcases Db.get_insert_cases hk with ⟨-, rfl⟩ | ⟨-, hk⟩
      · exact newMainHeight_lt hheight
      · exact h.bound hk }

end MainStored

variable {mainHash : MainBlockHash}

/-- What storing a block info does: the info is stored, and the result of the
block it commits to, if its header is stored. -/
theorem putMainBlockInfo_ok {info : MainBlockInfo} (h : a.putMainBlockInfo mainHash info = .ok a') :
    ∃ mainHeader, a.mainHeaderInfos[mainHash]? = some mainHeader ∧
      (mainHeader.prevBlockHash ≠ .allZeros → mainHeader.prevBlockHash ∈ a.mainBlockInfos) ∧
      let a₁ : Archive := { a with mainBlockInfos := a.mainBlockInfos.insert mainHash info }
      (a' = a₁ ∧ (∀ b, info.bmmCommitment = some b → a.headers[b]? = none) ∨
        ∃ b header result, info.bmmCommitment = some b ∧ a.headers[b]? = some header ∧
          a₁.commitmentBmmResult header mainHash mainHeader = .ok result ∧
          a' = { a₁ with bmmResults :=
            a.bmmResults.insert b ((a.getBmmResults b).insert mainHash result) }) := by
  obtain ⟨mainHeader, hmainHeader, h⟩ := bind_eq_ok.mp h
  obtain ⟨_, hparent, h⟩ := bind_eq_ok.mp h
  refine ⟨mainHeader, okOr_eq_ok.mp hmainHeader, ?_, ?_⟩
  · intro hne
    rw [requireMainParentInfo, if_pos hne] at hparent
    obtain ⟨info, hinfo, -⟩ := bind_eq_ok.mp hparent
    exact Db.mem_of_get (okOr_eq_ok.mp hinfo)
  · unfold putCommitmentBmmResult at h
    split at h
    case h_1 hnone =>
      cases h
      exact .inl ⟨rfl, fun b hb => by rw [hnone] at hb; cases hb⟩
    case h_2 commitment hsome =>
      split at h
      case h_1 hnone =>
        cases h
        refine .inl ⟨rfl, fun b hb => ?_⟩
        rw [← Option.some.inj (hsome.symm.trans hb)]
        exact hnone
      case h_2 header hheader =>
        obtain ⟨result, hresult, h⟩ := bind_eq_ok.mp h
        cases h
        exact .inr ⟨commitment, header, result, hsome, hheader, hresult, rfl⟩

/-- The mainchain tables with a further block info. -/
theorem MainStored.withInfo {m : Mainchain} (h : MainStored m a) {mainHeader : BlockHeaderInfo}
    (hheader : a.mainHeaderInfos[mainHash]? = some mainHeader)
    (hparent : mainHeader.prevBlockHash ≠ .allZeros → mainHeader.prevBlockHash ∈ a.mainBlockInfos) :
    MainStored m { a with mainBlockInfos := a.mainBlockInfos.insert mainHash (m.info mainHash) } :=
  { h with
    describes := h.describes
    info_eq := fun {hash info} hget => by
      rcases Db.get_insert_cases hget with ⟨rfl, rfl⟩ | ⟨-, hold⟩
      · rfl
      · exact h.info_eq hold
    info_header := fun {hash} hmem => by
      rcases (Db.mem_insert _ _ _ _).mp hmem with rfl | hmem
      · exact Db.mem_of_get hheader
      · exact h.info_header hmem
    info_parent := fun {hash p} hmem hp => by
      refine (Db.mem_insert _ _ _ _).mpr (.inr ?_)
      rcases (Db.mem_insert _ _ _ _).mp hmem with rfl | hmem
      · rw [Mainchain.parent_eq_some, ← h.header_eq hheader] at hp
        rw [← hp.1]
        exact hparent (hp.1 ▸ hp.2)
      · exact h.info_parent hmem hp }

theorem MainStored.putMainBlockInfo {m : Mainchain} (h : MainStored m a) {info : MainBlockInfo}
    (hinfo : info = m.info mainHash) (hput : a.putMainBlockInfo mainHash info = .ok a') :
    MainStored m a' := by
  obtain ⟨mainHeader, hheader, hparent, hcases⟩ := putMainBlockInfo_ok hput
  subst hinfo
  have hwith := h.withInfo hheader hparent
  rcases hcases with ⟨rfl, -⟩ | ⟨b, header, result, -, -, -, rfl⟩
  · exact hwith
  · exact { hwith with describes := hwith.describes }

/-- The archive with a further header, before its jumps and results. -/
def withHeader (a : Archive) (header : Header) (height : Nat)
    (predSuccessors : Db BlockHash Unit) : Archive :=
  let successors := a.successors.insert header.prevSideHash
    (predSuccessors.insert header.hash ())
  { a with
    blockHashToHeight := a.blockHashToHeight.insert header.hash height
    headers := a.headers.insert header.hash header
    successors := successors.insert (some header.hash) (successors[some header.hash]?.getD ∅) }

variable {header : Header}

theorem newHeight_eq_ok (h : a.newHeight header = .ok height) :
    header.prevSideHash = none ∧ height = 0 ∨
      ∃ parent k, header.prevSideHash = some parent ∧ a.blockHashToHeight[parent]? = some k ∧
        height = k + 1 := by
  unfold newHeight at h
  split at h
  case h_1 hnone =>
    cases h
    exact .inl ⟨hnone, rfl⟩
  case h_2 parent hsome =>
    obtain ⟨k, hk, h⟩ := bind_eq_ok.mp h
    exact .inr ⟨parent, k, hsome, okOr_eq_ok.mp hk, heightPlusOne_eq_ok h⟩

theorem newHeight_lt (h : a.newHeight header = .ok height) : height < 2 ^ 32 := by
  unfold newHeight at h
  split at h
  case h_1 =>
    cases h
    decide
  case h_2 =>
    obtain ⟨k, -, h⟩ := bind_eq_ok.mp h
    exact heightPlusOne_lt h

/-- What storing a header does. -/
theorem putHeader_ok (h : a.putHeader header = .ok a') :
    ∃ height predSuccessors skips results, a.newHeight header = .ok height ∧
      a.successors[header.prevSideHash]? = some predSuccessors ∧
      (a.withHeader header height predSuccessors).sideIndex.newSkips
        (okOr header.prevSideHash (.panic "called `Option::unwrap()` on a `None` value")) height =
          .ok skips ∧
      let a₁ : Archive := { a.withHeader header height predSuccessors with
        exponentialAncestors := a.exponentialAncestors.insert header.hash skips }
      a₁.headerBmmResults header = .ok results ∧
        a' = { a₁ with bmmResults := a.bmmResults.insert header.hash results } := by
  obtain ⟨height, hheight, h⟩ := bind_eq_ok.mp h
  obtain ⟨mid, hmid, h⟩ := bind_eq_ok.mp h
  obtain ⟨predSuccessors, hpred, hmid⟩ := bind_eq_ok.mp hmid
  cases hmid
  obtain ⟨skips, hskips, h⟩ := bind_eq_ok.mp h
  obtain ⟨results, hresults, h⟩ := bind_eq_ok.mp h
  cases h
  refine ⟨height, predSuccessors, skips, results, hheight, ?_, hskips, hresults, rfl⟩
  unfold getSuccessors at hpred
  exact okOr_eq_ok.mp hpred

/-- The sidechain tables of a built archive. -/
structure SideStored (a : Archive) : Prop where
  hash_eq : ∀ {b : BlockHash} {header : Header}, a.headers[b]? = some header → header.hash = b
  height : ∀ {b}, (∃ k, a.blockHashToHeight[b]? = some k) ↔ b ∈ a.headers
  describes : a.sideIndex.Describes a.sideParent
  successors : ∀ {p s}, a.successors[p]? = some s →
    ∀ b, b ∈ s ↔ ∃ header : Header, a.headers[b]? = some header ∧ header.prevSideHash = p
  known : ∀ {b}, b ∈ a.headers → ∃ s, a.successors[some b]? = some s
  roots : ∃ s, a.successors[(none : Option BlockHash)]? = some s
  bound : ∀ {b : BlockHash} {k}, a.blockHashToHeight[b]? = some k → k < 2 ^ 32

namespace SideStored

variable {a : Archive}

theorem new : SideStored .new where
  hash_eq h := by cases (Db.get_empty _).symm.trans h
  height {hash} := ⟨fun ⟨_, h⟩ => (nomatch (Db.get_empty _).symm.trans h),
    fun h => absurd h (Db.not_mem_empty _)⟩
  describes := .of_none Db.get_empty
  successors {p s} h b := by
    rcases Db.get_insert_cases h with ⟨-, rfl⟩ | ⟨-, h⟩
    · refine ⟨fun h => absurd h (Db.not_mem_empty _), ?_⟩
      rintro ⟨header, h, -⟩
      cases (Db.get_empty _).symm.trans h
    · cases (Db.get_empty _).symm.trans h
  known h := absurd h (Db.not_mem_empty _)
  roots := ⟨∅, Db.get_insert_self _ _ _⟩
  bound h := by cases (Db.get_empty _).symm.trans h

variable {b : BlockHash} {header : Header}

theorem sideParent_eq (h : a.headers[b]? = some header) : a.sideParent b = header.prevSideHash := by
  rw [sideParent, h, Option.bind_some]

theorem height_of_mem (h : SideStored a) (hmem : b ∈ a.headers) :
    ∃ k, a.sideIndex.height b = some k :=
  h.height.mpr hmem

theorem parent_mem (h : SideStored a) {p : BlockHash} (hheader : a.headers[b]? = some header)
    (hp : header.prevSideHash = some p) : p ∈ a.headers := by
  obtain ⟨k, hk⟩ := h.height_of_mem (Db.mem_of_get hheader)
  obtain ⟨j, hj, -⟩ := h.describes.rooted.height_parent hk ((sideParent_eq hheader).trans hp)
  exact h.height.mp ⟨j, hj⟩

theorem mem_of_descends (h : SideStored a) {c : BlockHash} (hmem : c ∈ a.headers)
    (hdescends : Descends a.sideParent b c) : b ∈ a.headers := by
  obtain ⟨k, hk⟩ := h.height_of_mem hmem
  obtain ⟨j, -, hj⟩ := h.describes.rooted.exists_height hk hdescends
  exact h.height.mp ⟨j, hj⟩

theorem ne_parent (h : SideStored a) (hheader : a.headers[b]? = some header) :
    header.prevSideHash ≠ some b := by
  obtain ⟨k, hk⟩ := h.height_of_mem (Db.mem_of_get hheader)
  rw [← sideParent_eq hheader]
  exact h.describes.rooted.ne_parent hk

theorem header_again (hcf : CollisionFree) (h : SideStored a) {old : Header}
    (hget : a.headers[header.hash]? = some old) : old = header :=
  Header.hash_injective hcf (h.hash_eq hget)

theorem height_again (hcf : CollisionFree) (h : SideStored a) {height k : Nat}
    (hheight : a.newHeight header = .ok height) (hk : a.blockHashToHeight[header.hash]? = some k) :
    k = height := by
  obtain ⟨old, hold⟩ := (Db.mem_iff _ _).mp (h.height.mp ⟨k, hk⟩)
  obtain rfl := h.header_again hcf hold
  refine h.describes.rooted.height_eq hk ?_
  rw [sideParent_eq hold]
  exact newHeight_eq_ok hheight

theorem extends_withHeader (hcf : CollisionFree) (h : SideStored a) {height : Nat}
    {predSuccessors : Db BlockHash Unit} (hheight : a.newHeight header = .ok height) :
    (a.withHeader header height predSuccessors).sideIndex.Extends a.sideIndex where
  height hx := Db.get_insert_again (h.height_again hcf hheight) hx
  parent {x k} hx := by
    obtain ⟨old, hold⟩ := (Db.mem_iff _ _).mp (h.height.mp ⟨k, hx⟩)
    change (do
      let header ← okOr (a.headers.insert header.hash header)[x]? _
      okOr header.prevSideHash _ : ArchiveResult BlockHash) = (do
      let header ← okOr a.headers[x]? _
      okOr header.prevSideHash _)
    rw [Db.get_insert_again (h.header_again hcf) hold, hold]
  skips _ := rfl
  noAncestor := rfl

theorem describes_putHeader (hcf : CollisionFree) (h : SideStored a) {height : Nat}
    {predSuccessors : Db BlockHash Unit} {skips : List BlockHash}
    {results : Db BlockHash (Db MainBlockHash BmmResult)}
    (hheight : a.newHeight header = .ok height)
    (hskips : (a.withHeader header height predSuccessors).sideIndex.newSkips
      (okOr header.prevSideHash (.panic "called `Option::unwrap()` on a `None` value")) height =
        .ok skips) :
    let a' : Archive := { a.withHeader header height predSuccessors with
      exponentialAncestors := a.exponentialAncestors.insert header.hash skips
      bmmResults := results }
    a'.sideIndex.Describes a'.sideParent := by
  have hget : (a.headers.insert header.hash header)[header.hash]? = some header :=
    Db.get_insert_self _ _ _
  refine Index.Describes.put h.describes (x := header.hash) (h.extends_withHeader hcf hheight)
    hskips ?_ ?_ (Db.get_insert_self _ _ _) (Db.get_insert_self _ _ _) ?_ ?_
  · rw [show sideParent _ header.hash = header.prevSideHash from sideParent_eq hget]
    exact newHeight_eq_ok hheight
  · intro p hp
    have hprev : header.prevSideHash = some p := (sideParent_eq hget).symm.trans hp
    refine ⟨by rw [hprev]; rfl, ?_⟩
    change (do
      let header ← okOr (a.headers.insert header.hash header)[header.hash]? _
      okOr header.prevSideHash _ : ArchiveResult BlockHash) = _
    rw [hget, okOr_some, ok_bind, hprev]
    rfl
  · intro y hy
    have hother : (a.headers.insert header.hash header)[y]? = a.headers[y]? :=
      Db.get_insert_ne _ _ (Ne.symm hy)
    refine ⟨Db.get_insert_ne _ _ (Ne.symm hy), Db.get_insert_ne _ _ (Ne.symm hy), ?_, ?_⟩
    · change (a.headers.insert header.hash header)[y]?.bind _ = _
      rw [hother]
      rfl
    · change (do
        let header ← okOr (a.headers.insert header.hash header)[y]? _
        okOr header.prevSideHash _ : ArchiveResult BlockHash) = _
      rw [hother]
      rfl
  · intro k hk
    obtain ⟨old, hold⟩ := (Db.mem_iff _ _).mp (h.height.mp ⟨k, hk⟩)
    rw [sideParent_eq hold, h.header_again hcf hold]
    exact sideParent_eq hget

theorem putHeader (hcf : CollisionFree) (h : SideStored a) {a' : Archive}
    (hput : a.putHeader header = .ok a') : SideStored a' := by
  obtain ⟨height, pred, skips, results, hheight, hpred, hskips, -, rfl⟩ := putHeader_ok hput
  have hget : ∀ {b : BlockHash} {old}, a.headers[b]? = some old →
      (a.headers.insert header.hash header)[b]? = some old :=
    Db.get_insert_again (h.header_again hcf)
  -- a header is not its own parent
  have hne : header.prevSideHash ≠ some header.hash := by
    intro heq
    rcases newHeight_eq_ok hheight with ⟨hnone, -⟩ | ⟨p, k, hsome, hk, -⟩
    · rw [hnone] at heq
      cases heq
    · obtain rfl := Option.some.inj (hsome.symm.trans heq)
      obtain ⟨old, hold⟩ := (Db.mem_iff _ _).mp (h.height.mp ⟨k, hk⟩)
      obtain rfl := h.header_again hcf hold
      exact h.ne_parent hold heq
  have hmem : ∀ {b : BlockHash} {p}, (∃ old : Header, (a.headers.insert header.hash header)[b]? = some old ∧
        old.prevSideHash = p) ↔
      header.hash = b ∧ header.prevSideHash = p ∨
        ∃ old : Header, a.headers[b]? = some old ∧ old.prevSideHash = p := by
    intro b p
    constructor
    · rintro ⟨old, hold, hp⟩
      rcases Db.get_insert_cases hold with ⟨rfl, rfl⟩ | ⟨-, hold⟩
      · exact .inl ⟨rfl, hp⟩
      · exact .inr ⟨old, hold, hp⟩
    · rintro (⟨rfl, hp⟩ | ⟨old, hold, hp⟩)
      · exact ⟨header, Db.get_insert_self _ _ _, hp⟩
      · exact ⟨old, hget hold, hp⟩
  exact {
    hash_eq := fun {b old} hold => by
      rcases Db.get_insert_cases hold with ⟨rfl, rfl⟩ | ⟨-, hold⟩
      · rfl
      · exact h.hash_eq hold
    height := fun {b} => by
      refine Iff.trans ?_ (Db.mem_insert _ _ _ _).symm
      rw [← h.height, ← Db.mem_iff, ← Db.mem_iff]
      exact Db.mem_insert _ _ _ _
    describes := h.describes_putHeader hcf hheight hskips
    successors := fun {p s} hs b => by
      refine Db.mem_of_addChild h.successors hpred hne ?_ (fun _ _ => hmem) hs b
      rintro hnone b ⟨old, hold, hp⟩
      obtain ⟨s, hs⟩ := h.known (h.parent_mem hold hp)
      cases hnone.symm.trans hs
    known := fun {b} hb => by
      rw [← Db.mem_iff]
      refine (Db.mem_insert _ _ _ _).mpr ?_
      rcases (Db.mem_insert _ _ _ _).mp hb with rfl | hb
      · exact .inl rfl
      · exact .inr ((Db.mem_insert _ _ _ _).mpr (.inr ((Db.mem_iff _ _).mpr (h.known hb))))
    roots := by
      rw [← Db.mem_iff]
      refine (Db.mem_insert _ _ _ _).mpr (.inr ((Db.mem_insert _ _ _ _).mpr (.inr ?_)))
      exact (Db.mem_iff _ _).mpr h.roots
    bound := fun {b k} hk => by
      rcases Db.get_insert_cases hk with ⟨-, rfl⟩ | ⟨-, hk⟩
      · exact newHeight_lt hheight
      · exact h.bound hk }

theorem putMainHeaderInfo (h : SideStored a) {a' : Archive} {info : BlockHeaderInfo}
    (hput : a.putMainHeaderInfo info = .ok a') : SideStored a' := by
  obtain ⟨-, _, _, _, _, -, -, -, -, rfl⟩ := putMainHeaderInfo_ok hput
  exact { h with describes := h.describes }

theorem putMainBlockInfo (h : SideStored a) {a' : Archive} {mainHash : MainBlockHash}
    {info : MainBlockInfo} (hput : a.putMainBlockInfo mainHash info = .ok a') : SideStored a' := by
  obtain ⟨_, -, -, hcases⟩ := putMainBlockInfo_ok hput
  rcases hcases with ⟨rfl, -⟩ | ⟨_, _, _, -, -, -, rfl⟩
  · exact { h with describes := h.describes }
  · exact { h with describes := h.describes }

end SideStored

theorem MainStored.putHeader {m : Mainchain} (h : MainStored m a)
    (hput : a.putHeader header = .ok a') : MainStored m a' := by
  obtain ⟨_, _, _, _, -, -, -, -, rfl⟩ := putHeader_ok hput
  exact { h with describes := h.describes }

/-- An invariant of archives that are built from reports of a mainchain. -/
theorem build_invariant {m : Mainchain} {P : Archive → Prop} {ops : List ArchiveOp} (hinit : P .new)
    (hops : ∀ op ∈ ops, op.Reported m)
    (hstep : ∀ op a a', op.Reported m → P a → a.op op = .ok a' → P a')
    (h : Archive.new.build ops = .ok a) : P a :=
  foldlM_invariant hinit (fun op a a' hmem ha hop => hstep op a a' (hops op hmem) ha hop) h

end Archive

end PlainBitnames
