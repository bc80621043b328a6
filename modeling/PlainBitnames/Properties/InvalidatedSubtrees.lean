import PlainBitnames.Properties.TxIndex

/-!
Invalidation removes exactly a subtree: a block with its descendants leaves every table of
the archive, and is marked invalid. What remains is closed under ancestors, with the exact
successors.
-/

namespace PlainBitnames

open Fallible Lineage

section

variable [Primitives]

/-- A table without the entries of some blocks. -/
def CutOff {V : Type} (gone : BlockHash → Prop) (table table' : Db BlockHash V) : Prop :=
  ∀ b : BlockHash, (gone b → table'[b]? = none) ∧ (¬ gone b → table'[b]? = table[b]?)

namespace Inclusions

variable {index : Inclusions} {txid : Txid} {b c : BlockHash} {i : UInt32}

theorem get_of_discardBody {body : Option Body}
    (h : ((index.discardBody b body).ofTx txid)[c]? = some i) : (index.ofTx txid)[c]? = some i := by
  cases body with
  | none => exact h
  | some body =>
    rw [discardBody_some, get_removeBody] at h
    split at h
    · cases h
    · exact h

end Inclusions

namespace Archive

/-- The tables of an archive agree: the headers form a forest with heights, jumps and
successors, and the index of transactions matches the bodies. -/
structure Coherent (a : Archive) : Prop where
  side : SideStored a
  lists : a.txidToInclusions.Lists a.bodies

variable {a a' : Archive} {b : BlockHash}

theorem Invalidating.mem_iff {gone : List BlockHash} (h : Invalidating a b gone [] a')
    (x : BlockHash) : x ∈ gone ↔ Descends a.sideParent b x := by
  refine ⟨h.descends x, ?_⟩
  rintro ⟨n, hn⟩
  induction n generalizing x with
  | zero =>
    cases hn
    exact h.first
  | succ n ih =>
    obtain ⟨p, hp, hn⟩ := Option.bind_eq_some_iff.mp hn
    exact (h.closed hp (ih p hn)).resolve_right List.not_mem_nil

theorem Invalidating.cutOff {gone : List BlockHash} (h : Invalidating a b gone [] a') {V : Type}
    {table table' : Db BlockHash V}
    (htable : ∀ x : BlockHash, table'[x]? = if x ∈ gone then none else table[x]?) :
    CutOff (Descends a.sideParent b) table table' := by
  intro x
  rw [← h.mem_iff, htable]
  exact ⟨fun hx => if_pos hx, fun hx => if_neg hx⟩

theorem get_of_invalidateStack {fuel : Nat} {stack : List BlockHash} {txid : Txid} {x : BlockHash}
    {i : UInt32} (h : ((a.invalidateStack fuel stack).txidToInclusions.ofTx txid)[x]? = some i) :
    (a.txidToInclusions.ofTx txid)[x]? = some i := by
  induction fuel generalizing a stack with
  | zero => exact h
  | succ fuel ih =>
    cases stack with
    | nil => exact h
    | cons y stack => exact Inclusions.get_of_discardBody (ih h)

theorem Coherent.cutOff_inclusions (h : Coherent a)
    (hbodies : CutOff (Descends a.sideParent b) a.bodies (a.invalidateBlock b).bodies) (txid : Txid) :
    CutOff (Descends a.sideParent b) (a.txidToInclusions.ofTx txid)
      ((a.invalidateBlock b).txidToInclusions.ofTx txid) := by
  have hlists : (a.invalidateBlock b).txidToInclusions.Lists (a.invalidateBlock b).bodies :=
    lists_invalidateStack h.lists
  intro x
  cases hget : ((a.invalidateBlock b).txidToInclusions.ofTx txid)[x]? with
  | some i =>
    refine ⟨fun hx => ?_, fun _ => (get_of_invalidateStack hget).symm⟩
    obtain ⟨body, -, hbody, -⟩ := hlists.position hget
    rw [(hbodies x).1 hx] at hbody
    cases hbody
  | none =>
    refine ⟨fun _ => rfl, fun hx => ?_⟩
    cases hold : (a.txidToInclusions.ofTx txid)[x]? with
    | none => rfl
    | some i =>
      -- the body of the block is still there, and so are its transactions in the index
      obtain ⟨body, tx, hbody, htx, rfl⟩ := h.lists.position hold
      rw [← (hbodies x).2 hx] at hbody
      have hmem := hlists.listed hbody (List.mem_of_getElem? htx)
      exact absurd hmem ((Db.not_mem_iff _ _).mpr hget)

end Archive

open Archive

/-- Invalidation of a stored block ends. It removes the entries of the block and its
descendants, and no others, marks these blocks, and leaves a forest with exact successors. -/
theorem invalidateBlock_subtree {a : Archive} (h : a.Coherent) {b : BlockHash} (hb : b ∈ a.headers) :
    (∃ n, invalidateStep^[n] (a, [b]) = (a.invalidateBlock b, [])) ∧
    CutOff (Descends a.sideParent b) a.headers (a.invalidateBlock b).headers ∧
    CutOff (Descends a.sideParent b) a.bodies (a.invalidateBlock b).bodies ∧
    CutOff (Descends a.sideParent b) a.blockHashToHeight (a.invalidateBlock b).blockHashToHeight ∧
    CutOff (Descends a.sideParent b) a.exponentialAncestors
      (a.invalidateBlock b).exponentialAncestors ∧
    (∀ txid, CutOff (Descends a.sideParent b) (a.txidToInclusions.ofTx txid)
      ((a.invalidateBlock b).txidToInclusions.ofTx txid)) ∧
    (∀ x, x ∈ (a.invalidateBlock b).invalidBlocks ↔
      Descends a.sideParent b x ∨ x ∈ a.invalidBlocks) ∧
    (∀ x ∈ (a.invalidateBlock b).headers, ∀ y, Descends a.sideParent y x →
      y ∈ (a.invalidateBlock b).headers) ∧
    ∀ p, (∀ x, p = some x → x ∈ (a.invalidateBlock b).headers) →
      ∃ s, (a.invalidateBlock b).successors[p]? = some s ∧ ∀ x, x ∈ s ↔
        ∃ header, (a.invalidateBlock b).headers[x]? = some header ∧ header.prevSideHash = p := by
  obtain ⟨hend, gone, hgone⟩ := invalidateBlock_iterate h.side hb
  have hheaders := hgone.cutOff hgone.pruned.headers
  have hbodies := hgone.cutOff hgone.pruned.bodies
  have hside := hgone.side h.side
  refine ⟨⟨_, hend⟩, hheaders, hbodies, hgone.cutOff hgone.pruned.height,
    hgone.cutOff hgone.pruned.skips, h.cutOff_inclusions hbodies, fun x => ?_,
    fun x hx y hy => ?_, fun p hp => ?_⟩
  · rw [hgone.pruned.invalid, hgone.mem_iff]
  · have hnot : ¬ Descends a.sideParent b x := fun hgone =>
      (Db.not_mem_iff _ _).mpr ((hheaders x).1 hgone) hx
    rw [Db.mem_iff, (hheaders x).2 hnot, ← Db.mem_iff] at hx
    rw [Db.mem_iff, (hheaders y).2 fun hgone => hnot (hgone.trans hy), ← Db.mem_iff]
    exact h.side.mem_of_descends hx hy
  · cases p with
    | none =>
      obtain ⟨s, hs⟩ := hside.roots
      exact ⟨s, hs, hside.successors hs⟩
    | some x =>
      obtain ⟨s, hs⟩ := hside.known (hp x rfl)
      exact ⟨s, hs, hside.successors hs⟩

end

namespace Instance

theorem bodyArchive_coherent : bodyArchive.Coherent := by
  have hreaches : (Node.new.run (headerOps ++ [.body mintHeader.hash mintBody])).Reaches mintMain
      fun _ _ => True := .run .new (by decide +kernel) (Node.permits_true .new _)
  have heq : (Node.new.run (headerOps ++ [.body mintHeader.hash mintBody])).archive = bodyArchive := by
    decide +kernel
  exact ⟨heq ▸ (hreaches.stored collisionFree).side, Archive.lists_run bodyArchive_run⟩

theorem invalidateBlock_subtree_mint :
    mintHeader.hash ∈ bodyArchive.headers ∧
      (bodyArchive.invalidateBlock mintHeader.hash).headers[mintHeader.hash]? = none ∧
      mintHeader.hash ∈ (bodyArchive.invalidateBlock mintHeader.hash).invalidBlocks := by
  have hmem : mintHeader.hash ∈ bodyArchive.headers := by decide +kernel
  obtain ⟨-, hheaders, -, -, -, -, hinvalid, -⟩ := invalidateBlock_subtree bodyArchive_coherent hmem
  exact ⟨hmem, (hheaders _).1 (.refl _), (hinvalid _).mpr (.inl (.refl _))⟩

end Instance

end PlainBitnames
