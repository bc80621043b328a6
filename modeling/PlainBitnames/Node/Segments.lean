import PlainBitnames.Node.Reorg

/-!
How a reorg splits the mainchain blocks between the blocks it applies. The
mainchain blocks that the blocks of a verified lineage build on advance
strictly, so each of them cuts the batch where its block ends.
-/

namespace PlainBitnames

open Fallible Lineage

variable [Primitives]

/-- The mainchain block with a hash; the zero hash stands before all blocks. -/
def MainBlockHash.block? (hash : MainBlockHash) : Option MainBlockHash :=
  if hash = .allZeros then none else some hash

namespace Archive

open MainBlockHash

variable {m : Mainchain} {a : Archive} {x : MainBlockHash}

theorem mainInfosUntil_get {stop : Option MainBlockHash} {fuel : Nat}
    {infos : List (MainBlockHash × MainBlockInfo)} (h : a.mainInfosUntil stop fuel x = .ok infos) :
    ∀ entry ∈ infos, a.mainBlockInfos[entry.1]? = some entry.2 := by
  induction fuel generalizing x infos with
  | zero => exact Except.ok.inj h ▸ nofun
  | succ fuel ih =>
    unfold mainInfosUntil at h
    split at h
    case isTrue => exact Except.ok.inj h ▸ nofun
    case isFalse =>
      obtain ⟨headerInfo, -, h⟩ := bind_eq_ok.mp h
      split at h
      case isTrue => exact Except.ok.inj h ▸ nofun
      case isFalse =>
        obtain ⟨info, hinfo, h⟩ := bind_eq_ok.mp h
        obtain ⟨rest, hrest, h⟩ := bind_eq_ok.mp h
        cases h
        exact List.forall_mem_cons.mpr ⟨okOr_eq_ok.mp hinfo, ih hrest⟩

end Archive

namespace Node

open MainBlockHash Archive

variable {batch : List (MainBlockHash × MainBlockInfo)}

theorem fillTwoWayPegData_of_mem {p : MainBlockHash} (hp : p ∈ batch.map Prod.fst) :
    ∃ l info l', batch = l ++ (p, info) :: l' ∧
      fillTwoWayPegData p batch = (l ++ [(p, info)], l') := by
  induction batch with
  | nil => cases hp
  | cons entry batch ih =>
    obtain ⟨hash, info⟩ := entry
    by_cases heq : hash = p
    · exact ⟨[], info, batch, by rw [heq]; rfl, by rw [fillTwoWayPegData, if_pos heq, heq]; rfl⟩
    · have hp := (List.mem_cons.mp hp).resolve_left (Ne.symm heq)
      obtain ⟨l, info', l', rfl, hfill⟩ := ih hp
      exact ⟨(hash, info) :: l, info', l', rfl, by
        rw [fillTwoWayPegData, if_neg heq, hfill]; rfl⟩

theorem fillTwoWayPegData_of_not_mem {p : MainBlockHash} (hp : p ∉ batch.map Prod.fst) :
    fillTwoWayPegData p batch = (batch, []) := by
  induction batch with
  | nil => rfl
  | cons entry batch ih =>
    obtain ⟨hash, info⟩ := entry
    rw [List.map_cons, List.mem_cons, not_or] at hp
    rw [fillTwoWayPegData, if_neg (Ne.symm hp.1), ih hp.2]

/-- The mainchain blocks that a list of blocks builds on advance. -/
def Ascending (parent : MainBlockHash → Option MainBlockHash) (start : Option MainBlockHash) :
    List (Header × Body) → Prop
  | [] => True
  | (header, _) :: blocks =>
    header.prevMainHash ≠ .allZeros ∧ (∀ s, start = some s → Before parent s header.prevMainHash) ∧
      Ascending parent (some header.prevMainHash) blocks

/-- The mainchain block that the last of some blocks builds on. -/
def lastPrevMain (blocks : List (Header × Body)) : Option MainBlockHash :=
  blocks.getLast?.map fun block => block.1.prevMainHash

variable {blocks : List (Header × Body)}

theorem Ascending.descends {parent : MainBlockHash → Option MainBlockHash}
    {start : Option MainBlockHash} {header : Header} {body : Body}
    (h : Ascending parent start ((header, body) :: blocks)) {e : MainBlockHash}
    (he : lastPrevMain ((header, body) :: blocks) = some e) :
    Descends parent header.prevMainHash e := by
  induction blocks generalizing start header body with
  | nil =>
    cases he
    exact .refl _
  | cons block blocks ih =>
    obtain ⟨-, -, hnext⟩ := h
    rw [lastPrevMain, List.getLast?_cons_cons] at he
    exact ((hnext.2.1 _ rfl).2).trans (ih hnext he)

/-- Each block is the parent of the next one. -/
def Linked (start : Option BlockHash) : List (Header × Body) → Prop
  | [] => True
  | (header, _) :: blocks => header.prevSideHash = start ∧ Linked (some header.hash) blocks

variable {m : Mainchain} {a : Archive}

/-- Where the ancestors of a block, with the block itself, end when they are
taken until another one: at that one if it is among them, and otherwise with the
first block. -/
def EndsAt (a : Archive) (stop next start : Option BlockHash) : Prop :=
  start = stop ∧ (∀ s, stop = some s → UpTo a.sideParent next s) ∨
    start = none ∧ ∀ s, stop = some s → ¬ UpTo a.sideParent next s

variable {stop start : Option BlockHash}

theorem EndsAt.of_none (h : EndsAt a stop none start) : start = none := by
  rcases h with ⟨rfl, hup⟩ | ⟨rfl, -⟩
  · cases start with
    | none => rfl
    | some s => exact absurd (hup s rfl) (not_upTo_none s)
  · rfl

theorem EndsAt.of_eq {b : BlockHash} (h : EndsAt a stop (some b) start) (hb : stop = some b) :
    start = some b := by
  rcases h with ⟨rfl, -⟩ | ⟨-, hnot⟩
  · exact hb
  · exact absurd (upTo_some.mpr (.refl b)) (hnot b hb)

theorem EndsAt.parent {b : BlockHash} (h : EndsAt a stop (some b) start) (hb : stop ≠ some b) :
    EndsAt a stop (a.sideParent b) start := by
  have hiff : ∀ s, stop = some s →
      (UpTo a.sideParent (some b) s ↔ UpTo a.sideParent (a.sideParent b) s) := by
    rintro s rfl
    rw [upTo_some, descends_iff_upTo_parent]
    exact ⟨fun hor => hor.resolve_left fun heq => hb (congrArg some heq), .inr⟩
  exact h.imp (fun ⟨heq, hup⟩ => ⟨heq, fun s hs => (hiff s hs).mp (hup s hs)⟩)
    fun ⟨heq, hnot⟩ => ⟨heq, fun s hs hup => hnot s hs ((hiff s hs).mpr hup)⟩

theorem exists_endsAt (a : Archive) (stop next : Option BlockHash) :
    ∃ start, EndsAt a stop next start := by
  by_cases hup : ∀ s, stop = some s → UpTo a.sideParent next s
  · exact ⟨stop, .inl ⟨rfl, hup⟩⟩
  · obtain ⟨s, hs, hnot⟩ : ∃ s, stop = some s ∧ ¬ UpTo a.sideParent next s := by
      simpa only [not_forall, exists_prop] using hup
    exact ⟨none, .inr ⟨rfl, fun s' hs' => Option.some.inj (hs.symm.trans hs') ▸ hnot⟩⟩

/-- The blocks until an ancestor are linked and stored. -/
theorem blocksUntil_ok (h : SideStored a) {next : Option BlockHash} {fuel : Nat}
    {tail : List (Header × Body)}
    (hfuel : ∀ b, next = some b → ∃ k < fuel, a.blockHashToHeight[b]? = some k)
    (hends : EndsAt a stop next start) (htail : Linked next tail)
    (hblocks : a.blocksUntil stop fuel next = .ok blocks) :
    Linked start (blocks.reverse ++ tail) ∧ ∀ block ∈ blocks,
      a.headers[block.1.hash]? = some block.1 ∧ UpTo a.sideParent next block.1.hash := by
  induction fuel generalizing next blocks tail with
  | zero =>
    cases next with
    | some b =>
      obtain ⟨k, hk, -⟩ := hfuel b rfl
      exact absurd hk (Nat.not_lt_zero k)
    | none =>
      cases hblocks
      rw [hends.of_none]
      exact ⟨htail, nofun⟩
  | succ fuel ih =>
    cases next with
    | none =>
      cases hblocks
      rw [hends.of_none]
      exact ⟨htail, nofun⟩
    | some b =>
      obtain ⟨header, hheader, hblocks⟩ := bind_eq_ok.mp hblocks
      have hget : a.headers[b]? = some header := okOr_eq_ok.mp hheader
      obtain rfl := h.hash_eq hget
      split at hblocks
      case isTrue heq =>
        cases hblocks
        rw [hends.of_eq heq]
        exact ⟨htail, nofun⟩
      case isFalse hne =>
        obtain ⟨body, -, hblocks⟩ := bind_eq_ok.mp hblocks
        obtain ⟨rest, hrest, hblocks⟩ := bind_eq_ok.mp hblocks
        cases hblocks
        have hends := hends.parent hne
        have hparent := SideStored.sideParent_eq hget
        rw [hparent] at hends
        have hcons : Linked header.prevSideHash ((header, body) :: tail) := ⟨rfl, htail⟩
        obtain ⟨hlinked, hstored⟩ := ih (fun p hp => by
          obtain ⟨_, hk, hheight⟩ := hfuel _ rfl
          obtain ⟨k, hpheight, rfl⟩ :=
            h.describes.rooted.height_parent hheight (hparent.trans hp)
          exact ⟨k, Nat.lt_of_succ_lt_succ hk, hpheight⟩) hends hcons hrest
        refine ⟨by rwa [List.reverse_cons, List.append_assoc], ?_⟩
        rintro block (_ | ⟨_, hblock⟩)
        · exact ⟨hget, upTo_some.mpr (.refl _)⟩
        · obtain ⟨hget', hup⟩ := hstored block hblock
          rw [← hparent] at hup
          exact ⟨hget', upTo_some.mpr (descends_iff_upTo_parent.mpr (.inr hup))⟩

variable {common : Option BlockHash}

/-- The blocks to apply are linked, start after the common ancestor if it is
below the new tip, and end with the new tip. -/
theorem blocksToApply_ok (h : SideStored a) {newTip : BlockHash}
    (hends : EndsAt a common (a.sideParent newTip) start)
    (hblocks : blocksToApply a common newTip = .ok blocks) :
    ∃ header body init, a.headers[newTip]? = some header ∧ blocks = init ++ [(header, body)] ∧
      Linked start blocks ∧ ∀ block ∈ blocks,
        a.headers[block.1.hash]? = some block.1 ∧ Descends a.sideParent block.1.hash newTip := by
  obtain ⟨header, hheader, hblocks⟩ := bind_eq_ok.mp hblocks
  obtain ⟨body, -, hblocks⟩ := bind_eq_ok.mp hblocks
  obtain ⟨ancestors, hancestors, hblocks⟩ := bind_eq_ok.mp hblocks
  cases hblocks
  have hget : a.headers[newTip]? = some header := okOr_eq_ok.mp hheader
  obtain rfl := h.hash_eq hget
  have hparent := SideStored.sideParent_eq hget
  rw [hparent] at hends
  obtain ⟨k, hk⟩ := h.height_of_mem (Db.mem_of_get hget)
  obtain ⟨hlinked, hstored⟩ := blocksUntil_ok h (fun p hp => by
    obtain ⟨j, hj, rfl⟩ := h.describes.rooted.height_parent hk (hparent.trans hp)
    refine ⟨j, ?_, hj⟩
    change a.blockHashToHeight[header.hash]? = some (j + 1) at hk
    rw [lineageLength, hk, Option.getD_some]
    omega) hends (show Linked header.prevSideHash [(header, body)] from ⟨rfl, trivial⟩) hancestors
  rw [List.reverse_cons]
  refine ⟨header, body, ancestors.reverse, hget, rfl, hlinked, fun block hblock => ?_⟩
  rcases List.mem_append.mp hblock with hblock | hblock
  · obtain ⟨hget', hup⟩ := hstored block (List.mem_reverse.mp hblock)
    rw [← hparent] at hup
    exact ⟨hget', descends_iff_upTo_parent.mpr (.inr hup)⟩
  · obtain rfl := List.mem_singleton.mp hblock
    exact ⟨hget, .refl _⟩

theorem splitBatch_blocks :
    ((splitBatch blocks batch).map fun block => (block.1, block.2.1)) = blocks := by
  induction blocks generalizing batch with
  | nil => rfl
  | cons block blocks ih => rw [splitBatch, List.map_cons, ih]

/-- The mainchain block that a block builds on. -/
def prevMain? (a : Archive) (b : Option BlockHash) : Option MainBlockHash :=
  b.bind fun b => a.headers[b]?.bind fun header => block? header.prevMainHash

theorem prevMain?_some {a : Archive} {b : BlockHash} {header : Header}
    (h : a.headers[b]? = some header) : prevMain? a (some b) = block? header.prevMainHash := by
  rw [prevMain?, Option.bind_some, h, Option.bind_some]

theorem twoWayPegDataBatch_ok {prevMainHash : MainBlockHash}
    (h : twoWayPegDataBatch a common prevMainHash = .ok batch) :
    ∃ stop infos, stop.bind block? = prevMain? a common ∧
      a.mainInfosUntil stop (a.mainLineageLength prevMainHash) prevMainHash = .ok infos ∧
      batch = infos.reverse := by
  have hinfos : ∀ stop, (do
      let infos ← a.mainInfosUntil stop (a.mainLineageLength prevMainHash) prevMainHash
      .ok infos.reverse) = Except.ok batch →
      ∃ infos, a.mainInfosUntil stop (a.mainLineageLength prevMainHash) prevMainHash = .ok infos ∧
        batch = infos.reverse := by
    intro stop h
    obtain ⟨infos, hinfos, h⟩ := bind_eq_ok.mp h
    exact ⟨infos, hinfos, (Except.ok.inj h).symm⟩
  cases common with
  | none =>
    obtain ⟨infos, hinfos⟩ := hinfos none h
    exact ⟨none, infos, rfl, hinfos⟩
  | some c =>
    obtain ⟨header, hheader, h⟩ := bind_eq_ok.mp h
    obtain ⟨infos, hinfos⟩ := hinfos (some header.prevMainHash) h
    refine ⟨some header.prevMainHash, infos, ?_, hinfos⟩
    rw [prevMain?_some (okOr_eq_ok.mp hheader), Option.bind_some]

theorem twoWayPegDataBatch_get {prevMainHash : MainBlockHash}
    (h : twoWayPegDataBatch a common prevMainHash = .ok batch) :
    ∀ entry ∈ batch, a.mainBlockInfos[entry.1]? = some entry.2 := by
  obtain ⟨stop, infos, -, hinfos, rfl⟩ := twoWayPegDataBatch_ok h
  exact fun entry hentry => mainInfosUntil_get hinfos entry (List.mem_reverse.mp hentry)

theorem fillTwoWayPegData_append (p : MainBlockHash) (batch : List (MainBlockHash × MainBlockInfo)) :
    (fillTwoWayPegData p batch).1 ++ (fillTwoWayPegData p batch).2 = batch := by
  by_cases hp : p ∈ batch.map Prod.fst
  · obtain ⟨l, info, l', rfl, hfill⟩ := fillTwoWayPegData_of_mem hp
    rw [hfill, List.append_assoc]
    rfl
  · rw [fillTwoWayPegData_of_not_mem hp, List.append_nil]

/-- A split pairs the blocks to apply with entries of the batch. -/
theorem mem_splitBatch {header : Header} {body : Body}
    {infos : List (MainBlockHash × MainBlockInfo)}
    (h : (header, body, infos) ∈ splitBatch blocks batch) :
    (header, body) ∈ blocks ∧ ∀ entry ∈ infos, entry ∈ batch := by
  induction blocks generalizing batch with
  | nil => cases h
  | cons block blocks ih =>
    have happend := fillTwoWayPegData_append block.1.prevMainHash batch
    rcases List.mem_cons.mp h with heq | h
    · cases heq
      refine ⟨List.mem_cons_self, fun entry hentry => ?_⟩
      rw [← happend]
      exact List.mem_append_left _ hentry
    · obtain ⟨hblock, hinfos⟩ := ih h
      refine ⟨List.mem_cons_of_mem _ hblock, fun entry hentry => ?_⟩
      rw [← happend]
      exact List.mem_append_right _ (hinfos entry hentry)

end Node

end PlainBitnames
