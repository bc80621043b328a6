import PlainBitnames.Archive.Basic

/-!
The index of transactions by the blocks that include them. It is written from the body
at hand when a body is stored, deleted or invalidated.
-/

namespace PlainBitnames

variable [Primitives]

namespace Inclusions

/-- The blocks that include a transaction: `get_tx_inclusions`. -/
def ofTx (index : Inclusions) (txid : Txid) : Db BlockHash UInt32 := index[txid]?.getD ∅

/-- A transaction is included in a block at a position. -/
def insertTx (blockHash : BlockHash) (index : Inclusions) (entry : Transaction × Nat) :
    Inclusions :=
  let txid := entry.1.txid
  index.insert txid ((index.ofTx txid).insert blockHash (UInt32.ofNat entry.2))

/-- The transactions of a body that is stored. -/
def insertBody (index : Inclusions) (blockHash : BlockHash) (body : Body) : Inclusions :=
  body.transactions.zipIdx.foldl (insertTx blockHash) index

/-- Write the blocks that include a transaction. -/
def write (index : Inclusions) (txid : Txid) (inclusions : Db BlockHash UInt32) : Inclusions :=
  if inclusions.isEmpty then index.erase txid else index.insert txid inclusions

/-- A transaction is no longer included in a block. -/
def removeTx (blockHash : BlockHash) (index : Inclusions) (tx : Transaction) : Inclusions :=
  index.write tx.txid ((index.ofTx tx.txid).erase blockHash)

/-- The transactions of a body that is deleted. -/
def removeBody (index : Inclusions) (blockHash : BlockHash) (body : Body) : Inclusions :=
  body.transactions.foldl (removeTx blockHash) index

def discardTx (blockHash : BlockHash) (index : Inclusions) (tx : Transaction) : Inclusions :=
  match index[tx.txid]? with
  | some inclusions => index.write tx.txid (inclusions.erase blockHash)
  | none => index

/-- The transactions of a block that is invalidated. -/
def discardBody (index : Inclusions) (blockHash : BlockHash) : Option Body → Inclusions
  | some body => body.transactions.foldl (discardTx blockHash) index
  | none => index

variable {index : Inclusions} {txid : Txid} {blockHash other : BlockHash}

theorem ofTx_insert (inclusions : Db BlockHash UInt32) (txid' : Txid) :
    Inclusions.ofTx (index.insert txid' inclusions) txid =
      if txid' = txid then inclusions else index.ofTx txid := by
  rw [ofTx, Db.get_insert]
  split <;> rfl

theorem ofTx_write (inclusions : Db BlockHash UInt32) (txid' : Txid) :
    (index.write txid' inclusions).ofTx txid =
      if txid' = txid then inclusions else index.ofTx txid := by
  unfold write
  split
  next hempty =>
    rw [ofTx, Db.get_erase]
    split
    · exact (Std.ExtTreeMap.isEmpty_iff.mp hempty).symm
    · rfl
  · exact ofTx_insert inclusions txid'

theorem get_insertTx_self (tx : Transaction) (n : Nat) :
    ((insertTx blockHash index (tx, n)).ofTx tx.txid)[blockHash]? = some (UInt32.ofNat n) := by
  rw [insertTx, ofTx_insert, if_pos rfl, Db.get_insert_self]

theorem get_insertTx_of_ne {entry : Transaction × Nat}
    (hne : entry.1.txid = txid → blockHash ≠ other) :
    ((insertTx blockHash index entry).ofTx txid)[other]? = (index.ofTx txid)[other]? := by
  rw [insertTx, ofTx_insert]
  split
  next heq => rw [Db.get_insert_ne _ _ (hne heq), heq]
  · rfl

/-- The position of a transaction after some transactions are included in a block: that of
the last one with its id, or the old one if there is none. -/
theorem get_insertTxs (index : Inclusions) (blockHash : BlockHash) (txid : Txid)
    (txs : List Transaction) (k : Nat) :
    (∃ (n : Nat) (tx : Transaction), txs[n]? = some tx ∧ tx.txid = txid ∧
      (((txs.zipIdx k).foldl (insertTx blockHash) index).ofTx txid)[blockHash]? =
        some (UInt32.ofNat (n + k))) ∨
    txid ∉ txs.map Transaction.txid ∧
      (((txs.zipIdx k).foldl (insertTx blockHash) index).ofTx txid)[blockHash]? =
        (index.ofTx txid)[blockHash]? := by
  induction txs generalizing k index with
  | nil => exact .inr ⟨List.not_mem_nil, rfl⟩
  | cons tx txs ih =>
    rw [List.zipIdx_cons, List.foldl_cons]
    rcases ih (insertTx blockHash index (tx, k)) (k + 1) with
      ⟨n, tx', hget, htxid, hentry⟩ | ⟨hfresh, hentry⟩
    · exact .inl ⟨n + 1, tx', hget, htxid, by rw [hentry, Nat.add_right_comm, Nat.add_assoc]⟩
    · by_cases htxid : tx.txid = txid
      · refine .inl ⟨0, tx, rfl, htxid, ?_⟩
        rw [hentry, ← htxid, get_insertTx_self, Nat.zero_add]
      · refine .inr ⟨?_, hentry.trans (get_insertTx_of_ne fun heq => absurd heq htxid)⟩
        rw [List.map_cons, List.mem_cons, not_or]
        exact ⟨Ne.symm htxid, hfresh⟩

theorem get_insertBody_of_ne (body : Body) (hne : blockHash ≠ other) :
    ((index.insertBody blockHash body).ofTx txid)[other]? = (index.ofTx txid)[other]? := by
  unfold insertBody
  induction body.transactions.zipIdx generalizing index with
  | nil => rfl
  | cons entry entries ih => exact ih.trans (get_insertTx_of_ne fun _ => hne)

theorem get_removeTx (tx : Transaction) :
    ((removeTx blockHash index tx).ofTx txid)[other]? =
      if tx.txid = txid ∧ blockHash = other then none else (index.ofTx txid)[other]? := by
  rw [removeTx, ofTx_write]
  by_cases htxid : tx.txid = txid
  · rw [if_pos htxid, Db.get_erase, htxid]
    simp only [true_and]
  · rw [if_neg htxid, if_neg fun h => htxid h.1]

theorem get_removeBody (body : Body) :
    ((index.removeBody blockHash body).ofTx txid)[other]? =
      if txid ∈ body.transactions.map Transaction.txid ∧ blockHash = other then none
      else (index.ofTx txid)[other]? := by
  unfold removeBody
  induction body.transactions generalizing index with
  | nil => rw [if_neg fun h => List.not_mem_nil h.1]; rfl
  | cons tx txs ih =>
    rw [List.foldl_cons, ih, get_removeTx]
    simp only [List.map_cons, List.mem_cons]
    grind

/-- A block that is invalidated leaves the index as one whose body is deleted does. -/
theorem discardTx_eq (tx : Transaction) : discardTx blockHash index tx =
    removeTx blockHash index tx := by
  unfold discardTx removeTx ofTx
  cases hget : index[tx.txid]? with
  | some inclusions => rfl
  | none =>
    have herase : (∅ : Db BlockHash UInt32).erase blockHash = ∅ :=
      Db.erase_of_not_mem (Db.not_mem_empty _)
    rw [Option.getD_none, herase, write, if_pos Std.ExtTreeMap.isEmpty_empty,
      Db.erase_of_not_mem ((Db.not_mem_iff _ _).mpr hget)]

theorem discardBody_some (body : Body) :
    index.discardBody blockHash (some body) = index.removeBody blockHash body := by
  have hstep : discardTx blockHash = removeTx blockHash := by
    funext index tx
    exact discardTx_eq tx
  unfold discardBody removeBody
  rw [hstep]

end Inclusions

end PlainBitnames
