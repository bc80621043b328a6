import PlainBitnames.Archive.Build
import PlainBitnames.Lib.Batches

/-!
The iterators of the archive over the ancestors of a block, from a height on and oldest
first, and the blocks without a body.
-/

namespace PlainBitnames

open Fallible Lineage

variable [Primitives]

namespace Archive

/-- `AncestorHeaders::next` -/
def ancestorHeaders (a : Archive) (blockHash : BlockHash) :
    ArchiveResult ((BlockHash × Header) × Option BlockHash) := do
  let header ← a.getHeader blockHash
  .ok ((blockHash, header), header.prevSideHash)

/-- A step of `main_ancestor_header_infos`. The zero hash ends it. -/
def mainAncestorHeaderInfos (a : Archive) (blockHash : MainBlockHash) :
    ArchiveResult (BlockHeaderInfo × Option MainBlockHash) := do
  let headerInfo ← a.getMainHeaderInfo blockHash
  .ok (headerInfo, if headerInfo.prevBlockHash = .allZeros then none
    else some headerInfo.prevBlockHash)

/-- What `AncestorsRev` reads. -/
def ancestorsRev (a : Archive) : Batches.Source BlockHash (BlockHash × Header) ArchiveError where
  endHeight := a.getHeight
  nthAncestor := a.getNthAncestor
  take n ancestor := Batches.takeFrom a.ancestorHeaders n (some ancestor)

/-- What `MainchainAncestorsRev` reads. The end height is the one in the header info. -/
def mainchainAncestorsRev (a : Archive) : Batches.Source MainBlockHash BlockHeaderInfo ArchiveError where
  endHeight blockHash := do
    let headerInfo ← a.getMainHeaderInfo blockHash
    .ok headerInfo.height
  nthAncestor := a.getNthMainAncestor
  take n ancestor := Batches.takeFrom a.mainAncestorHeaderInfos n
    (if ancestor = .allZeros then none else some ancestor)

/-- `ancestors(..).take_while(..).filter_map(..)`: the block and its ancestors without a
body, newest first, up to a block that is left out. -/
def missingUntil (a : Archive) (stop : Option BlockHash) :
    Nat → Option BlockHash → ArchiveResult (List BlockHash)
  | 0, _ | _ + 1, none => .ok []
  | fuel + 1, some blockHash => do
      let header ← a.getHeader blockHash
      if stop = some blockHash then .ok []
      else do
        let rest ← missingUntil a stop fuel header.prevSideHash
        .ok (if a.containsBody blockHash then rest else blockHash :: rest)

def getMissingBodies (a : Archive) (blockHash : BlockHash) (ancestor : Option BlockHash) :
    ArchiveResult (List BlockHash) := do
  let missing ← a.missingUntil ancestor (a.lineageLength blockHash) (some blockHash)
  .ok missing.reverse

/-- All blocks that `iter_missing_bodies` returns. -/
def iterMissingBodies (a : Archive) (blockHash : BlockHash) (startHeight : Nat) :
    ArchiveResult (List BlockHash) := do
  let ancestors ← (Batches.Iter.new blockHash startHeight).collect a.ancestorsRev
    (a.lineageLength blockHash)
  .ok ((ancestors.map Prod.fst).filter fun ancestor => !a.containsBody ancestor)

variable {m : Mainchain} {a : Archive}

theorem ancestorHeaders_eq_ok {b : BlockHash} {header : Header} :
    a.ancestorHeaders b = .ok ((b, header), a.sideParent b) ↔ a.headers[b]? = some header := by
  constructor
  · intro h
    obtain ⟨header', hheader, h⟩ := bind_eq_ok.mp h
    obtain ⟨hitem, -⟩ := Prod.mk.inj (Except.ok.inj h)
    cases hitem
    exact okOr_eq_ok.mp hheader
  · intro h
    rw [ancestorHeaders, getHeader, h, okOr_some, ok_bind, SideStored.sideParent_eq h]

theorem mainAncestorHeaderInfos_eq_ok {hash : MainBlockHash} {info : BlockHeaderInfo} :
    a.mainAncestorHeaderInfos hash = .ok (info, a.mainParent hash) ↔
      a.mainHeaderInfos[hash]? = some info := by
  constructor
  · intro h
    obtain ⟨info', hinfo, h⟩ := bind_eq_ok.mp h
    obtain ⟨rfl, -⟩ := Prod.mk.inj (Except.ok.inj h)
    exact okOr_eq_ok.mp hinfo
  · intro h
    rw [mainAncestorHeaderInfos, getMainHeaderInfo, h, okOr_some, ok_bind, mainParent, h]
    rfl

theorem SideStored.steps (h : SideStored a) :
    Batches.Steps a.sideIndex a.sideParent a.ancestorHeaders Prod.fst := by
  intro b k hk
  obtain ⟨header, hheader⟩ := (Db.mem_iff _ _).mp (h.height.mp ⟨k, hk⟩)
  exact ⟨(b, header), ancestorHeaders_eq_ok.mpr hheader, rfl⟩

theorem MainStored.steps (h : MainStored m a) : Batches.Steps a.mainIndex a.mainParent
    a.mainAncestorHeaderInfos BlockHeaderInfo.blockHash := by
  intro hash k hk
  have hmem := h.height.mp ⟨k, hk⟩
  obtain ⟨info, hinfo⟩ := (Db.mem_iff _ _).mp hmem
  exact ⟨info, mainAncestorHeaderInfos_eq_ok.mpr hinfo,
    by rw [h.header_eq hinfo, h.blockHash_eq hmem]⟩

/-- What the iterator over the ancestors of a block returns. -/
theorem SideStored.exists_chain (h : SideStored a) {b : BlockHash} {k : Nat}
    (hk : a.blockHashToHeight[b]? = some k) (start : Nat) :
    ∃ chain, Batches.Upwards a.sideIndex a.sideParent a.ancestorHeaders Prod.fst b start chain ∧
      Batches.takeFrom a.ancestorHeaders (k + 1 - start) (some b) = .ok chain.reverse ∧
      (∀ n, (Batches.Iter.new b start).outputs a.ancestorsRev n =
        .ok ((List.range n).map (chain[·]?))) ∧
      ∀ fuel, k < fuel → (Batches.Iter.new b start).collect a.ancestorsRev fuel = .ok chain :=
  Batches.exists_outputs h.describes h.steps a.ancestorsRev (okOr_eq_ok.mpr hk) (h.bound hk)
    (fun _ => rfl) (fun _ _ _ => rfl) hk start

/-- What the iterator over the ancestors of a mainchain block returns, if the header info
has the height of the block. -/
theorem MainStored.exists_chain (h : MainStored m a) {hash : MainBlockHash} {info : BlockHeaderInfo}
    (hinfo : a.mainHeaderInfos[hash]? = some info)
    (hheight : a.mainBlockHashToHeight[hash]? = some info.height) (start : Nat) :
    ∃ chain, Batches.Upwards a.mainIndex a.mainParent a.mainAncestorHeaderInfos
        BlockHeaderInfo.blockHash hash start chain ∧
      ∀ n, (Batches.Iter.new hash start).outputs a.mainchainAncestorsRev n =
        .ok ((List.range n).map (chain[·]?)) := by
  have hend : a.mainchainAncestorsRev.endHeight hash = .ok info.height :=
    bind_eq_ok.mpr ⟨info, okOr_eq_ok.mpr hinfo, rfl⟩
  have htake : ∀ n y, (∃ j, a.mainIndex.height y = some j) → a.mainchainAncestorsRev.take n y =
      Batches.takeFrom a.mainAncestorHeaderInfos n (some y) := by
    intro n y hy
    simp only [mainchainAncestorsRev, if_neg (h.ne_zeros (h.height.mp hy))]
  obtain ⟨chain, hup, -, houtputs, -⟩ := Batches.exists_outputs h.describes_mainParent h.steps
    a.mainchainAncestorsRev hend (h.bound hheight) (fun _ => rfl) htake hheight start
  exact ⟨chain, hup, houtputs⟩

/-- The blocks without a body down to an ancestor, newest first. -/
theorem missingUntil_eq (h : SideStored a) {b stop : BlockHash} {k j n : Nat}
    (hk : a.blockHashToHeight[b]? = some k) (hj : a.blockHashToHeight[stop]? = some j)
    (hstop : Descends a.sideParent stop b) (hn : k < n) {items : List (BlockHash × Header)}
    (hitems : Batches.takeFrom a.ancestorHeaders (k - j) (some b) = .ok items) :
    a.missingUntil (some stop) n (some b) =
      .ok ((items.map Prod.fst).filter fun x => !a.containsBody x) := by
  have hr := h.describes.rooted
  induction n generalizing b k items with
  | zero => omega
  | succ n ih =>
    obtain ⟨header, hheader⟩ := (Db.mem_iff _ _).mp (h.height.mp ⟨k, hk⟩)
    have hstep : a.ancestorHeaders b = .ok ((b, header), header.prevSideHash) := by
      rw [ancestorHeaders, getHeader, hheader, okOr_some, ok_bind]
    rw [missingUntil, getHeader, hheader, okOr_some, ok_bind]
    by_cases heq : stop = b
    · subst heq
      cases hk.symm.trans hj
      rw [Nat.sub_self] at hitems
      cases hitems
      rw [if_pos rfl]
      rfl
    · rw [if_neg fun hsome => heq (Option.some.inj hsome)]
      have hlt := hr.lt_of_descends hj hk hstop heq
      obtain ⟨k, rfl⟩ : ∃ l, k = l + 1 := ⟨k - 1, by omega⟩
      obtain ⟨p, hp, hheight⟩ := hr.step hk
      have hprev := (SideStored.sideParent_eq hheader).symm.trans hp
      rw [show k + 1 - j = k - j + 1 by omega, Batches.takeFrom, hstep, ok_bind] at hitems
      obtain ⟨rest, hrest, hitems⟩ := bind_eq_ok.mp hitems
      cases hitems
      rw [hprev] at hrest ⊢
      rw [ih hheight (hstop.of_ne hp heq) (Nat.succ_lt_succ_iff.mp hn) hrest, ok_bind,
        List.map_cons, List.filter_cons]
      cases a.containsBody b <;> rfl

end Archive

end PlainBitnames
