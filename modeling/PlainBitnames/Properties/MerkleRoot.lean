import PlainBitnames.Instance

/-!
What a merkle root commits to. The root of a body determines the memo of its
coinbase, the encodings of the coinbase outputs, and the encodings and fees of
the transactions, up to the padding of the levelized tree: at a level of odd
length the last node is repeated, so a list of a thousand or more transactions
has the root of every list with the same padded leaves. Nor does an encoding
carry everything a transaction holds.
-/

namespace PlainBitnames

open Borsh Fallible MerkleTree

section

variable [Primitives]

/-- What a node carries up the tree: commitment, amount and canonical size. -/
abbrev Totals := Hash × Amount × UInt64

def CbmtNode.totals (node : CbmtNode) : Totals :=
  (node.commitment, node.amount, node.canonicalSize)

def mergeTotals {E : Type} (a b : Totals) : Except (Failure E) Totals := do
  let amount ← addOrPanic a.2.1 b.2.1
  let canonicalSize ← addOrPanic a.2.2 b.2.2
  .ok (hash (a.1, amount, canonicalSize, b.1), amount, canonicalSize)

variable {E : Type}

theorem parent_totals {a b c : CbmtNode} {index : Nat}
    (h : (a.parent b index : Except (Failure E) CbmtNode) = .ok c) :
    (mergeTotals a.totals b.totals : Except (Failure E) Totals) = .ok c.totals := by
  obtain ⟨amount, hamount, h⟩ := bind_eq_ok.mp h
  obtain ⟨size, hsize, h⟩ := bind_eq_ok.mp h
  cases h
  exact bind_eq_ok.mpr ⟨amount, hamount, bind_eq_ok.mpr ⟨size, hsize, rfl⟩⟩

theorem mergeFeeSizeTotal_totals (a b c : CbmtNode)
    (h : (mergeFeeSizeTotal a b : Except (Failure E) CbmtNode) = .ok c) :
    (mergeTotals a.totals b.totals : Except (Failure E) Totals) = .ok c.totals := by
  obtain ⟨node, hnode, h⟩ := bind_eq_ok.mp h
  obtain ⟨-, h⟩ := ensure_bind_eq_ok.mp h
  cases h
  exact parent_totals hnode

theorem mergeValueSizeTotal_totals (a b c : CbmtNode)
    (h : (mergeValueSizeTotal a b : Except (Failure E) CbmtNode) = .ok c) :
    (mergeTotals a.totals b.totals : Except (Failure E) Totals) = .ok c.totals :=
  parent_totals (ensure_bind_eq_ok.mp h).2

/-- A merge commits to both of its sides. -/
theorem mergeTotals_injective (hcf : CollisionFree) (a b c a' b' c' : Totals)
    (h : (mergeTotals a b : Except (Failure E) Totals) = .ok c)
    (h' : (mergeTotals a' b' : Except (Failure E) Totals) = .ok c') (heq : c.1 = c'.1) :
    a.1 = a'.1 ∧ b.1 = b'.1 := by
  obtain ⟨amount, -, h⟩ := bind_eq_ok.mp h
  obtain ⟨size, -, h⟩ := bind_eq_ok.mp h
  obtain ⟨amount', -, h'⟩ := bind_eq_ok.mp h'
  obtain ⟨size', -, h'⟩ := bind_eq_ok.mp h'
  cases h
  cases h'
  have hreads := reads_hash.pair (reads_uint64.pair (reads_uint64.pair reads_hash))
  obtain ⟨hleft, -, -, hright⟩ := hreads.of_ser_eq rfl rfl (ser_eq_of_hash_eq hcf heq)
  exact ⟨hleft, hright⟩

/-- The canonical size of an encoding, as a leaf carries it. -/
def canonicalSize (bytes : List UInt8) : UInt64 :=
  if bytes.length < 2 ^ 64 then UInt64.ofNat bytes.length else 0

def leafTotals (leaf : List UInt8 × Amount) : Totals :=
  (Primitives.blake3 (ser leaf.2 ++ (ser (canonicalSize leaf.1) ++ leaf.1)), leaf.2,
    canonicalSize leaf.1)

theorem leafTotals_injective (hcf : CollisionFree) :
    Function.Injective fun leaf => (leafTotals leaf).1 := by
  intro a b h
  obtain ⟨hamount, hrest⟩ := reads_uint64 rfl rfl (hcf h)
  obtain ⟨-, hbytes⟩ := reads_uint64 rfl rfl hrest
  exact Prod.ext hbytes hamount

/-- A leaf pre-commitment never has the encoding of a node pre-commitment. -/
def LeafNodeSeparated : Prop :=
  ∀ (l r : Hash) (amount size : UInt64),
    (∀ (tx : Transaction) (fee : Amount), fits tx = true →
      ser (fee, canonicalSize (ser tx), tx) ≠ ser (l, amount, size, r)) ∧
    ∀ output : Output, fits output = true →
      ser (output.getValue, canonicalSize (ser output), output) ≠ ser (l, amount, size, r)

/-- No byte string hashes to zero. -/
def NoZeroDigest : Prop := ∀ bytes, Primitives.blake3 bytes ≠ zeroHash

/-- A leaf is separated from all nodes. -/
def Separated (leaf : List UInt8 × Amount) : Prop :=
  ∀ (l r : Hash) (amount size : UInt64),
    ser leaf.2 ++ (ser (canonicalSize leaf.1) ++ leaf.1) ≠ ser (l, amount, size, r)

theorem leafTotals_ne_merge (hcf : CollisionFree) {leaf : List UInt8 × Amount}
    (hleaf : Separated leaf) (a b c : Totals)
    (h : (mergeTotals a b : Except (Failure E) Totals) = .ok c) : (leafTotals leaf).1 ≠ c.1 := by
  obtain ⟨amount, -, h⟩ := bind_eq_ok.mp h
  obtain ⟨size, -, h⟩ := bind_eq_ok.mp h
  cases h
  intro heq
  exact hleaf _ _ _ _ (hcf heq)

theorem zero_ne_merge (hzero : NoZeroDigest) (a b c : Totals)
    (h : (mergeTotals a b : Except (Failure E) Totals) = .ok c) :
    CbmtNode.default.totals.1 ≠ c.1 := by
  obtain ⟨amount, -, h⟩ := bind_eq_ok.mp h
  obtain ⟨size, -, h⟩ := bind_eq_ok.mp h
  cases h
  exact fun heq => hzero _ heq.symm

theorem zero_notMem (hzero : NoZeroDigest) (leaves : List (List UInt8 × Amount)) :
    zeroHash ∉ leaves.map fun leaf => (leafTotals leaf).1 := by
  intro hmem
  obtain ⟨leaf, -, hleaf⟩ := List.mem_map.mp hmem
  exact hzero _ hleaf

/-- The trees of two committed lists. -/
def completeTree (leaves : List (List UInt8 × Amount)) : Shape Totals :=
  completeShape CbmtNode.default.totals (leaves.map leafTotals)

variable {leaves : List (List UInt8 × Amount)}

theorem completeTree_leaf_ne (hcf : CollisionFree) (hzero : NoZeroDigest)
    (hleaves : ∀ leaf ∈ leaves, Separated leaf) :
    ∀ x ∈ (completeTree leaves).leaves, ∀ a b c : Totals,
      (mergeTotals a b : Except (Failure E) Totals) = .ok c → x.1 ≠ c.1 := by
  intro x hx a b c hmerge
  rcases mem_of_mem_completeShape hx with rfl | hx
  · exact zero_ne_merge hzero a b c hmerge
  · obtain ⟨leaf, hleaf, rfl⟩ := List.mem_map.mp hx
    exact leafTotals_ne_merge hcf (hleaves leaf hleaf) a b c hmerge

/-- Complete trees with one root commitment have the same leaves. -/
theorem completeTree_injective (hcf : CollisionFree) (hzero : NoZeroDigest)
    {leaves' : List (List UInt8 × Amount)} (hleaves : ∀ leaf ∈ leaves, Separated leaf)
    (hleaves' : ∀ leaf ∈ leaves', Separated leaf) {x y : Totals}
    (hx : (completeTree leaves).eval mergeTotals = (.ok x : Except (Failure E) Totals))
    (hy : (completeTree leaves').eval mergeTotals = (.ok y : Except (Failure E) Totals))
    (heq : x.1 = y.1) : leaves = leaves' := by
  have hshape := Shape.eval_injective (mergeTotals_injective (E := E) hcf)
    (completeTree_leaf_ne hcf hzero hleaves) (completeTree_leaf_ne hcf hzero hleaves') hx hy heq
  rw [completeTree, completeTree, completeShape_map, completeShape_map, List.map_map,
    List.map_map] at hshape
  have hcommitments := completeShape_injective (zero_notMem hzero leaves)
    (zero_notMem hzero leaves') hshape
  exact List.map_injective_iff.mpr (leafTotals_injective hcf) hcommitments

/-- The encoding and the fee of a transaction, as its leaf holds them. -/
def FilledTransaction.leaf (tx : FilledTransaction) : List UInt8 × Amount :=
  (ser tx.transaction, tx.getFee.toOption.getD 0)

/-- The encoding and the value of a coinbase output, as its leaf holds them. -/
def Output.leaf (output : Output) : List UInt8 × Amount := (ser output, output.getValue)

theorem transactionLeaf_ok {nTxs index : Nat} {tx : FilledTransaction} {node : CbmtNode}
    (h : Body.transactionLeaf nTxs tx index = .ok node) :
    ((∃ fee, tx.getFee = .ok fee) ∧ fits tx.transaction = true) ∧
      node.totals = leafTotals tx.leaf := by
  obtain ⟨fee, hfee, h⟩ := bind_eq_ok.mp h
  obtain ⟨⟨hfits, hlength⟩, h⟩ := ensure_bind_eq_ok.mp h
  have hfee : tx.getFee = .ok fee := by
    cases hget : tx.getFee with
    | error e => rw [hget] at hfee; cases hfee
    | ok fee' => rw [hget] at hfee; cases hfee; rfl
  cases h
  refine ⟨⟨⟨fee, hfee⟩, hfits⟩, ?_⟩
  simp only [FilledTransaction.leaf, leafTotals, canonicalSize, if_pos hlength, hfee]
  rfl

theorem outputLeaf_ok {nOutputs index : Nat} {output : Output} {node : CbmtNode}
    (h : (Coinbase.outputLeaf nOutputs output index : Except (Failure E) CbmtNode) = .ok node) :
    fits output = true ∧ node.totals = leafTotals output.leaf := by
  obtain ⟨hfits, h⟩ := ensure_bind_eq_ok.mp h
  cases h
  refine ⟨hfits, ?_⟩
  simp only [hfits, true_and]
  rfl

omit [Primitives] in
/-- What every element of an indexed loop passes and yields. -/
theorem mapM_zipIdx_ok {ε α β γ : Type} {f : α × Nat → Except ε β} (payload : β → γ)
    (expected : α → γ) {P : α → Prop}
    (hf : ∀ a index b, f (a, index) = .ok b → P a ∧ payload b = expected a) {l : List α}
    {r : List β} (h : l.zipIdx.mapM f = .ok r) :
    (∀ a ∈ l, P a) ∧ r.map payload = l.map expected := by
  have hall := mapM_eq_ok.mp h
  have hlength : l.length = r.length := by
    have hlen := hall.length_eq
    rwa [List.length_zipIdx] at hlen
  have hget : ∀ (index : Nat) a b, l[index]? = some a → r[index]? = some b →
      P a ∧ payload b = expected a := by
    intro index a b ha hb
    have hzip : ((a, index), b) ∈ l.zipIdx.zip r := by
      refine List.mem_of_getElem? (i := index) ?_
      rw [List.getElem?_zip_eq_some, List.getElem?_zipIdx, ha]
      exact ⟨by simp, hb⟩
    exact hf a index b ((List.forall₂_iff_zip.mp hall).2 hzip)
  constructor
  · intro a ha
    obtain ⟨index, hindex, rfl⟩ := List.getElem_of_mem ha
    exact (hget index _ r[index] (List.getElem?_eq_getElem hindex)
      (List.getElem?_eq_getElem (by omega))).1
  · apply List.ext_getElem (by simp [hlength])
    intro index hindex hindex'
    simp only [List.length_map] at hindex hindex'
    simp only [List.getElem_map]
    exact (hget index _ _ (List.getElem?_eq_getElem hindex')
      (List.getElem?_eq_getElem hindex)).2

/-- The totals at the root of the tree of transactions with these leaves. -/
def TxsRoot (leaves : List (List UInt8 × Amount)) (x : Totals) : Prop :=
  ∃ s, TreeOf Body.levelizedThreshold CbmtNode.default.totals (leaves.map leafTotals) s ∧
    s.eval mergeTotals = (.ok x : Except (Failure ComputeMerkleRootError) Totals)

/-- Two trees of transactions have one root commitment exactly if they stand
for the same leaves. -/
theorem txsRoot_eq_iff (hcf : CollisionFree) (hzero : NoZeroDigest)
    {leaves' : List (List UInt8 × Amount)} (hleaves : ∀ leaf ∈ leaves, Separated leaf)
    (hleaves' : ∀ leaf ∈ leaves', Separated leaf) {x y : Totals} (hx : TxsRoot leaves x)
    (hy : TxsRoot leaves' y) :
    x.1 = y.1 ↔
      padded Body.levelizedThreshold leaves = padded Body.levelizedThreshold leaves' := by
  obtain ⟨s, hs, hx⟩ := hx
  obtain ⟨t, ht, hy⟩ := hy
  have hne : ∀ {leaves : List (List UInt8 × Amount)} {s : Shape Totals},
      (∀ leaf ∈ leaves, Separated leaf) →
      TreeOf Body.levelizedThreshold CbmtNode.default.totals (leaves.map leafTotals) s →
      ∀ x ∈ s.leaves, ∀ a b c : Totals,
        (mergeTotals a b : Except (Failure ComputeMerkleRootError) Totals) = .ok c →
          x.1 ≠ c.1 := by
    intro leaves s hleaves hs x hx
    rcases hs.mem_leaves hx with rfl | hx
    · exact zero_ne_merge hzero
    · obtain ⟨leaf, hleaf, rfl⟩ := List.mem_map.mp hx
      exact leafTotals_ne_merge hcf (hleaves leaf hleaf)
  constructor
  · intro heq
    have hshape := Shape.eval_injective
      (mergeTotals_injective (E := ComputeMerkleRootError) hcf)
      (hne hleaves hs) (hne hleaves' ht) hx hy heq
    have hcommit := hs.map Prod.fst
    have hcommit' := ht.map Prod.fst
    rw [← hshape, List.map_map] at hcommit'
    rw [List.map_map] at hcommit
    have hpadded := hcommit.padded_eq (k := 9) (by decide) (by decide)
      (zero_notMem hzero leaves) (zero_notMem hzero leaves') hcommit'
    rw [padded_map, padded_map] at hpadded
    exact List.map_injective_iff.mpr (leafTotals_injective hcf) hpadded
  · intro hpadded
    obtain rfl : s = t := hs.eq_of_padded ht (by rw [padded_map, padded_map, hpadded])
    rw [Except.ok.inj (hx.symm.trans hy)]

theorem computeOutputsMerkleRoot_ok {coinbase : Coinbase} {root : Hash}
    (h : (coinbase.computeOutputsMerkleRoot : Except (Failure E) Hash) = .ok root) :
    (∀ output ∈ coinbase.outputs, fits output = true) ∧
      ∃ x : Totals, root = x.1 ∧ (completeTree (coinbase.outputs.map Output.leaf)).eval
        mergeTotals = (.ok x : Except (Failure E) Totals) := by
  obtain ⟨leaves, hleaves, h⟩ := bind_eq_ok.mp h
  obtain ⟨node, hnode, h⟩ := bind_eq_ok.mp h
  cases h
  obtain ⟨hfits, htotals⟩ := mapM_zipIdx_ok CbmtNode.totals
    (fun output : Output => leafTotals output.leaf)
    (fun _ _ _ => outputLeaf_ok) hleaves
  refine ⟨hfits, node.totals, rfl, ?_⟩
  have heval := completeRoot_eval mergeValueSizeTotal_totals hnode
  rw [htotals] at heval
  rw [completeTree, List.map_map]
  exact heval

theorem computeMerkleRoot_ok {coinbase : Coinbase} {txs : List FilledTransaction}
    {root : MerkleRoot} (h : Body.computeMerkleRoot coinbase txs = .ok root) :
    (∀ tx ∈ txs, (∃ fee, tx.getFee = .ok fee) ∧ fits tx.transaction = true) ∧
      ∃ (x : Totals) (coinbaseRoot : Hash),
        (coinbase.computeMerkleRoot : Except (Failure ComputeMerkleRootError) Hash) =
          .ok coinbaseRoot ∧
        root = hash (coinbaseRoot, x.1) ∧ TxsRoot (txs.map FilledTransaction.leaf) x := by
  obtain ⟨leaves, hleaves, h⟩ := bind_eq_ok.mp h
  obtain ⟨node, hnode, h⟩ := bind_eq_ok.mp h
  obtain ⟨coinbaseRoot, hcoinbase, h⟩ := bind_eq_ok.mp h
  cases h
  obtain ⟨hchecked, htotals⟩ := mapM_zipIdx_ok CbmtNode.totals
    (fun tx : FilledTransaction => leafTotals tx.leaf)
    (fun _ _ _ => transactionLeaf_ok) hleaves
  have hlength : leaves.length = txs.length := by
    have hlen := congrArg List.length htotals
    rwa [List.length_map, List.length_map] at hlen
  refine ⟨hchecked, node.totals, coinbaseRoot, hcoinbase, rfl, ?_⟩
  unfold TxsRoot TreeOf
  rw [List.map_map, List.length_map]
  unfold Body.computeTxsRoot at hnode
  split at hnode
  · next hlong =>
      obtain ⟨final, hfinal, hnode⟩ := bind_eq_ok.mp hnode
      have hroot : final.head? = some node := okOr_eq_ok.mp hnode
      have hlevel := levelize_eval mergeTotals CbmtNode.totals
        (fun _ _ _ _ hmerge => parent_totals hmerge) hfinal
      rw [htotals] at hlevel
      have hne : (txs.map fun tx => leafTotals tx.leaf) ≠ [] := by
        intro hnil
        have hlen := congrArg List.length hnil
        simp only [List.length_map, List.length_nil] at hlen
        simp [Body.levelizedThreshold, hlen] at hlong
      obtain ⟨d, s, hs, -, -⟩ := levelizedShapes_perfect hne
      rw [hs] at hlevel
      obtain ⟨n, hevaln, rfl⟩ : ∃ n, s.eval mergeTotals = .ok (CbmtNode.totals n) ∧ final = [n] := by
        cases hlevel with
        | cons hhead htail =>
          cases htail
          exact ⟨_, hhead, rfl⟩
      obtain rfl : n = node := by simpa using hroot
      refine ⟨s, ?_, hevaln⟩
      rw [if_pos hlong]
      exact hs
  · next hshort =>
      refine ⟨_, by rw [if_neg hshort], ?_⟩
      have heval := completeRoot_eval mergeFeeSizeTotal_totals hnode
      rw [htotals] at heval
      exact heval

theorem separated_transaction (hsep : LeafNodeSeparated) {tx : FilledTransaction}
    (hfits : fits tx.transaction = true) : Separated tx.leaf :=
  fun l r amount size => (hsep l r amount size).1 tx.transaction _ hfits

theorem separated_output (hsep : LeafNodeSeparated) {output : Output}
    (hfits : fits output = true) : Separated output.leaf :=
  fun l r amount size => (hsep l r amount size).2 output hfits

theorem getValue_eq_of_ser_eq {o p : Output} (ho : fits o = true) (hp : fits p = true)
    (h : ser o = ser p) : o.getValue = p.getValue := by
  obtain ⟨-, hcontent, -⟩ := reads_output.of_ser_eq ho hp h
  unfold Output.getValue
  cases hoc : o.content with
  | bitcoin v =>
    cases hpc : p.content with
    | bitcoin w =>
      rw [hoc, hpc] at hcontent
      exact hcontent
    | _ => rw [hoc, hpc] at hcontent; exact hcontent.elim
  | bitName =>
    cases hpc : p.content with
    | bitName => rfl
    | _ => rw [hoc, hpc] at hcontent; exact hcontent.elim
  | bitNameReservation =>
    cases hpc : p.content with
    | bitNameReservation => rfl
    | _ => rw [hoc, hpc] at hcontent; exact hcontent.elim
  | withdrawal w =>
    cases hpc : p.content with
    | withdrawal x =>
      rw [hoc, hpc] at hcontent
      obtain ⟨hvalue, hfee, -⟩ := hcontent
      simp only [Content.getValue, WithdrawalContent.getValue, hvalue, hfee]
    | _ => rw [hoc, hpc] at hcontent; exact hcontent.elim

theorem map_leaf_eq_iff {l l' : List Output} (hl : ∀ o ∈ l, fits o = true)
    (hl' : ∀ o ∈ l', fits o = true) :
    l.map Output.leaf = l'.map Output.leaf ↔ l.map ser = l'.map ser := by
  constructor
  · intro h
    have hfst := congrArg (List.map Prod.fst) h
    rw [List.map_map, List.map_map] at hfst
    exact hfst
  · intro h
    induction l generalizing l' with
    | nil =>
      cases l' with
      | nil => rfl
      | cons p l' => cases h
    | cons o l ih =>
      cases l' with
      | nil => cases h
      | cons p l' =>
        obtain ⟨hser, htail⟩ := List.cons.inj h
        obtain ⟨ho, hl⟩ := List.forall_mem_cons.mp hl
        obtain ⟨hp, hl'⟩ := List.forall_mem_cons.mp hl'
        have hleaf : o.leaf = p.leaf := Prod.ext hser (getValue_eq_of_ser_eq ho hp hser)
        rw [List.map_cons, List.map_cons, hleaf, ih hl hl' htail]

/-- What a coinbase root commits to. -/
theorem coinbaseRoot_eq_iff (hcf : CollisionFree) (hsep : LeafNodeSeparated) (hzero : NoZeroDigest)
    {c c' : Coinbase} {root root' : Hash}
    (h : (c.computeMerkleRoot : Except (Failure E) Hash) = .ok root)
    (h' : (c'.computeMerkleRoot : Except (Failure E) Hash) = .ok root') :
    root = root' ↔ c.memo = c'.memo ∧ c.outputs.map ser = c'.outputs.map ser := by
  obtain ⟨outputsRoot, houtputs, h⟩ := bind_eq_ok.mp h
  obtain ⟨hmemo, h⟩ := ensure_bind_eq_ok.mp h
  obtain ⟨outputsRoot', houtputs', h'⟩ := bind_eq_ok.mp h'
  obtain ⟨hmemo', h'⟩ := ensure_bind_eq_ok.mp h'
  cases h
  cases h'
  obtain ⟨hfits, x, rfl, hx⟩ := computeOutputsMerkleRoot_ok houtputs
  obtain ⟨hfits', y, rfl, hy⟩ := computeOutputsMerkleRoot_ok houtputs'
  have hleaves : ∀ {outputs : List Output}, (∀ o ∈ outputs, fits o = true) →
      ∀ leaf ∈ outputs.map Output.leaf, Separated leaf := by
    intro outputs hfits leaf hleaf
    obtain ⟨output, houtput, rfl⟩ := List.mem_map.mp hleaf
    exact separated_output hsep (hfits output houtput)
  rw [← map_leaf_eq_iff hfits hfits']
  constructor
  · intro heq
    have hreads := reads_uint8.list_eq.pair reads_hash
    obtain ⟨hmemoeq, hroot⟩ := hreads.of_ser_eq
      (by simp only [fits, Bool.and_eq_true] at hmemo ⊢; exact ⟨hmemo, trivial⟩)
      (by simp only [fits, Bool.and_eq_true] at hmemo' ⊢; exact ⟨hmemo', trivial⟩)
      (ser_eq_of_hash_eq hcf heq)
    exact ⟨hmemoeq, completeTree_injective hcf hzero (hleaves hfits) (hleaves hfits') hx hy hroot⟩
  · rintro ⟨hmemoeq, hout⟩
    rw [hout] at hx
    rw [hmemoeq, Except.ok.inj (hx.symm.trans hy)]

/-- Two bodies have one merkle root exactly if the memos of their coinbases,
the encodings of the coinbase outputs, and the padded lists of transaction
encodings and fees agree. -/
theorem merkleRoot_eq_iff (hcf : CollisionFree) (hsep : LeafNodeSeparated)
    (hzero : NoZeroDigest) {c c' : Coinbase} {txs txs' : List FilledTransaction}
    {root root' : MerkleRoot} (h : Body.computeMerkleRoot c txs = .ok root)
    (h' : Body.computeMerkleRoot c' txs' = .ok root') :
    root = root' ↔ c.memo = c'.memo ∧ c.outputs.map ser = c'.outputs.map ser ∧
      padded Body.levelizedThreshold (txs.map FilledTransaction.leaf) =
        padded Body.levelizedThreshold (txs'.map FilledTransaction.leaf) := by
  obtain ⟨hfits, x, coinbaseRoot, hcoinbase, rfl, hx⟩ := computeMerkleRoot_ok h
  obtain ⟨hfits', y, coinbaseRoot', hcoinbase', rfl, hy⟩ := computeMerkleRoot_ok h'
  have hleaves : ∀ {txs : List FilledTransaction},
      (∀ tx ∈ txs, (∃ fee, tx.getFee = .ok fee) ∧ fits tx.transaction = true) →
      ∀ leaf ∈ txs.map FilledTransaction.leaf, Separated leaf := by
    intro txs hfits leaf hleaf
    obtain ⟨tx, htx, rfl⟩ := List.mem_map.mp hleaf
    exact separated_transaction hsep (hfits tx htx).2
  rw [← and_assoc, ← coinbaseRoot_eq_iff hcf hsep hzero hcoinbase hcoinbase',
    ← txsRoot_eq_iff hcf hzero (hleaves hfits) (hleaves hfits') hx hy]
  constructor
  · intro heq
    exact (reads_hash.pair reads_hash).of_ser_eq rfl rfl (ser_eq_of_hash_eq hcf heq)
  · rintro ⟨hroot, htotals⟩
    rw [hroot, htotals]

/-- A transaction with its fee, or with the error of the fee computation. -/
def FilledTransaction.withFee (tx : FilledTransaction) :
    Transaction × Except GetFeeError Amount :=
  (tx.transaction, tx.getFee)

/-- Two bodies that differ only in what no root can tell apart: parts of an
output or a transaction that its encoding leaves out, or repetitions that the
levelized tree adds on its own. -/
def Confusable (c c' : Coinbase) (txs txs' : List FilledTransaction) : Prop :=
  (c ≠ c' ∨ txs.map FilledTransaction.withFee ≠ txs'.map FilledTransaction.withFee) ∧
    c.memo = c'.memo ∧ c.outputs.map ser = c'.outputs.map ser ∧
    padded Body.levelizedThreshold (txs.map FilledTransaction.leaf) =
      padded Body.levelizedThreshold (txs'.map FilledTransaction.leaf)

/-- A root commits to coinbase, transactions and fees exactly where two bodies
are not confusable. -/
theorem merkleRoot_commits_iff (hcf : CollisionFree) (hsep : LeafNodeSeparated)
    (hzero : NoZeroDigest) {c c' : Coinbase} {txs txs' : List FilledTransaction}
    {root root' : MerkleRoot} (h : Body.computeMerkleRoot c txs = .ok root)
    (h' : Body.computeMerkleRoot c' txs' = .ok root') :
    (root = root' →
      c = c' ∧ txs.map FilledTransaction.withFee = txs'.map FilledTransaction.withFee) ↔
      ¬ Confusable c c' txs txs' := by
  rw [merkleRoot_eq_iff hcf hsep hzero h h', Confusable]
  tauto

end

namespace Instance

theorem noZeroDigest : NoZeroDigest := by
  intro bytes h
  cases h

theorem size_ne_one {bytes : List UInt8} (hlength : 8 ≤ bytes.length) :
    canonicalSize bytes ≠ 1 := by
  unfold canonicalSize
  split
  · next hlt =>
      intro h
      have hval := congrArg UInt64.toNat h
      rw [UInt64.toNat_ofNat', Nat.mod_eq_of_lt hlt] at hval
      have hone : (1 : UInt64).toNat = 1 := rfl
      omega
  · decide

theorem leaf_ne_node {amount : Amount} {bytes : List UInt8} (hlength : 8 ≤ bytes.length)
    (l r : Hash) (amount' size : UInt64) :
    ser amount ++ (ser (canonicalSize bytes) ++ bytes) ≠ ser (l, amount', size, r) := by
  intro h
  have hmarker : ser (l, amount', size, r) = ser (0 : UInt64) ++ (ser (1 : UInt64) ++
      (natBytes (List.length l) ++ l ++ ser (amount', size, r))) := rfl
  rw [hmarker] at h
  obtain ⟨-, hrest⟩ := reads_uint64 rfl rfl h
  obtain ⟨hsize, -⟩ := reads_uint64 rfl rfl hrest
  exact size_ne_one hlength hsize

theorem leafNodeSeparated : LeafNodeSeparated := by
  intro l r amount size
  refine ⟨fun tx fee _ => leaf_ne_node ?_ l r amount size,
    fun output _ => leaf_ne_node ?_ l r amount size⟩
  · change 8 ≤ (ser tx.inputs ++ (ser tx.outputs ++ (ser tx.memo ++ ser tx.data))).length
    simp only [List.length_append]
    have hinputs : 4 ≤ (ser tx.inputs).length := by simp [ser]
    have houtputs : 4 ≤ (ser tx.outputs).length := by simp [ser]
    omega
  · change 8 ≤ (ser output.address ++ (ser output.content ++ ser output.memo)).length
    simp only [List.length_append]
    have haddress : (ser output.address).length = 20 := by simp [ser]
    omega

/-- A transaction without inputs and outputs. -/
def idle : FilledTransaction := ⟨⟨[], [], [], none⟩, []⟩

/-- A node over idle transactions: the fees are zero and the sizes double from
level to level. -/
def IdleNode (k : Nat) (node : CbmtNode) : Prop :=
  node.amount = 0 ∧ node.canonicalSize.toNat ≤ 13 * 2 ^ k

theorem transactionLeaf_idle (n index : Nat) :
    ∃ node, Body.transactionLeaf n idle index = .ok node ∧ IdleNode 0 node :=
  ⟨_, rfl, rfl, show (UInt64.ofNat (ser idle.transaction).length).toNat ≤ 13 * 2 ^ 0 by decide⟩

theorem parent_idle (k i : Nat) (a b : CbmtNode) (hk : k < 10) (ha : IdleNode k a)
    (hb : IdleNode k b) :
    ∃ c, (a.parent b i : Except (Failure ComputeMerkleRootError) CbmtNode) = .ok c ∧
      IdleNode (k + 1) c := by
  obtain ⟨ha, hasize⟩ := ha
  obtain ⟨hb, hbsize⟩ := hb
  have hpow : 2 ^ k ≤ 2 ^ 10 := Nat.pow_le_pow_right (by decide) (by omega)
  have hadd : Checked.add? a.canonicalSize b.canonicalSize =
      some (a.canonicalSize + b.canonicalSize) := if_pos (by omega)
  have hsum := Checked.add?_eq_some.mp hadd
  have hzero : Checked.add? a.amount b.amount = some 0 := by
    rw [ha, hb]
    rfl
  refine ⟨_, bind_eq_ok.mpr ⟨0, by rw [addOrPanic, hzero]; rfl,
    bind_eq_ok.mpr ⟨_, by rw [addOrPanic, hadd]; rfl, rfl⟩⟩, rfl, ?_⟩
  rw [pow_succ]
  simp only
  omega

theorem computeMerkleRoot_idle {n : Nat} (hlow : Body.levelizedThreshold ≤ n)
    (hhigh : n ≤ 2 ^ 10) :
    ∃ root, Body.computeMerkleRoot ⟨[], []⟩ (List.replicate n idle) = .ok root := by
  obtain ⟨leaves, hleaves, hidle⟩ : ∃ leaves,
      (List.replicate n idle).zipIdx.mapM (fun (tx, index) =>
        Body.transactionLeaf (List.replicate n idle).length tx index) = .ok leaves ∧
        ∀ node ∈ leaves, IdleNode 0 node := by
    choose node hnode hidle using transactionLeaf_idle n
    refine ⟨(List.replicate n idle).zipIdx.map fun entry => node entry.2, ?_, ?_⟩
    · rw [mapM_eq_ok, List.forall₂_map_right_iff]
      refine List.forall₂_same.mpr fun entry hentry => ?_
      obtain ⟨tx, index⟩ := entry
      obtain rfl : tx = idle := List.eq_of_mem_replicate (List.fst_mem_of_mem_zipIdx hentry)
      rw [List.length_replicate]
      exact hnode index
    · intro x hx
      obtain ⟨entry, -, rfl⟩ := List.mem_map.mp hx
      exact hidle _
  have hlength : leaves.length = n := by
    have hlen := (mapM_eq_ok.mp hleaves).length_eq
    simpa using hlen.symm
  obtain ⟨final, hfinal⟩ := levelize_succeeds parent_idle leaves.length hidle
    (by rw [hlength]; omega)
  have hlevel := levelize_eval mergeTotals CbmtNode.totals
    (fun _ _ _ _ hmerge => parent_totals hmerge) hfinal
  obtain ⟨d, s, hs, -, -⟩ := levelizedShapes_perfect (l := leaves.map CbmtNode.totals) (by
    intro hnil
    have hlen := congrArg List.length hnil
    simp only [List.length_map, List.length_nil] at hlen
    simp [Body.levelizedThreshold] at hlow
    omega)
  rw [hs] at hlevel
  obtain ⟨root, rfl⟩ : ∃ root, final = [root] := by
    cases hlevel with
    | cons _ htail => cases htail; exact ⟨_, rfl⟩
  have htxs : Body.computeTxsRoot (List.replicate n idle).length leaves = .ok root := by
    rw [Body.computeTxsRoot, List.length_replicate, if_pos hlow]
    exact bind_eq_ok.mpr ⟨[root], hfinal, rfl⟩
  exact ⟨_, bind_eq_ok.mpr ⟨leaves, hleaves, bind_eq_ok.mpr ⟨root, htxs, rfl⟩⟩⟩

/-- One more copy of the last of 1001 transactions does not change the root. -/
theorem merkleRoot_repeats_last :
    CollisionFree ∧ LeafNodeSeparated ∧ NoZeroDigest ∧
      ∃ root, Body.computeMerkleRoot ⟨[], []⟩ (List.replicate 1001 idle) = .ok root ∧
        Body.computeMerkleRoot ⟨[], []⟩ (List.replicate 1002 idle) = .ok root ∧
        (List.replicate 1001 idle).map FilledTransaction.withFee ≠
          (List.replicate 1002 idle).map FilledTransaction.withFee := by
  refine ⟨collisionFree, leafNodeSeparated, noZeroDigest, ?_⟩
  obtain ⟨root, hroot⟩ := computeMerkleRoot_idle (n := 1001) (by decide) (by decide)
  obtain ⟨root', hroot'⟩ := computeMerkleRoot_idle (n := 1002) (by decide) (by decide)
  have hcompleted : completed (List.replicate 1001 ()) = completed (List.replicate 1002 ()) := by
    decide +kernel
  have hpadded : padded Body.levelizedThreshold
        ((List.replicate 1001 idle).map FilledTransaction.leaf) =
      padded Body.levelizedThreshold ((List.replicate 1002 idle).map FilledTransaction.leaf) := by
    have hunit : ∀ n, (List.replicate n idle).map FilledTransaction.leaf =
        (List.replicate n ()).map fun _ => idle.leaf := by simp
    have hlong : ∀ n, 1000 ≤ n → Body.levelizedThreshold ≤ (List.replicate n ()).length := by
      intro n hn
      rw [List.length_replicate]
      exact hn
    rw [hunit, hunit, padded_map, padded_map, padded, padded, if_pos (hlong 1001 (by decide)),
      if_pos (hlong 1002 (by decide)), hcompleted]
  obtain rfl := (merkleRoot_eq_iff collisionFree leafNodeSeparated noZeroDigest hroot
    hroot').mpr ⟨rfl, rfl, hpadded⟩
  refine ⟨root, hroot, hroot', fun h => ?_⟩
  have hlength := congrArg List.length h
  rw [List.length_map, List.length_map, List.length_replicate, List.length_replicate] at hlength
  omega

theorem merkleRoot_commits_idle :
    ∃ root root', Body.computeMerkleRoot ⟨[], []⟩ [] = .ok root ∧
      Body.computeMerkleRoot ⟨[], []⟩ [idle] = .ok root' ∧
      ((root = root' → (⟨[], []⟩ : Coinbase) = ⟨[], []⟩ ∧
        [].map FilledTransaction.withFee = [idle].map FilledTransaction.withFee) ↔
        ¬ Confusable ⟨[], []⟩ ⟨[], []⟩ [] [idle]) := by
  obtain ⟨root, hroot⟩ := exists_of_isOk
    (x := Body.computeMerkleRoot ⟨[], []⟩ []) (by decide +kernel)
  obtain ⟨root', hroot'⟩ := exists_of_isOk
    (x := Body.computeMerkleRoot ⟨[], []⟩ [idle]) (by decide +kernel)
  exact ⟨root, root', hroot, hroot',
    merkleRoot_commits_iff collisionFree leafNodeSeparated noZeroDigest hroot hroot'⟩

end Instance

end PlainBitnames
