import PlainBitnames.Instance
import PlainBitnames.Lib.Cascade
import PlainBitnames.Node.Mining

/-!
The mempool records for every outpoint that its transactions spend by which one it is
spent. Deleting a transaction deletes those that spend its outputs, directly or through
others, and no other ones: while transactions are removed the record stays exact, so the
queue gets exactly the transactions that are left and spend an output of the removed one.
-/

namespace PlainBitnames

open Borsh Fallible

section

variable [Primitives]

namespace MemPool

/-- The record of spent outpoints is exact. -/
structure Indexed (pool : MemPool) : Prop extends Tracked pool where
  pooled : ∀ {outpoint : OutPoint} {txid : Txid}, pool.spentUtxos[outpoint]? = some txid →
    ∃ tx, pool.transactions[txid]? = some tx ∧ outpoint ∈ tx.transaction.inputs
  fits_of_get : ∀ {txid : Txid} {tx : AuthorizedTransaction},
    pool.transactions[txid]? = some tx → fits tx.transaction = true

/-- A pooled transaction spends an output of another one. -/
def Spends (pool : MemPool) (txid child : Txid) : Prop :=
  ∃ tx tx', pool.transactions[txid]? = some tx ∧ pool.transactions[child]? = some tx' ∧
    ∃ vout : UInt32, vout.toNat < tx.transaction.outputs.length ∧
      OutPoint.regular txid vout ∈ tx'.transaction.inputs

/-- A transaction that is pooled in one mempool and not in another. -/
def Lost (pool pool' : MemPool) (txid : Txid) : Prop :=
  txid ∈ pool.transactions ∧ txid ∉ pool'.transactions

variable {pool pool' : MemPool} {tx : AuthorizedTransaction} {txid : Txid}

namespace Indexed

theorem spent_iff (h : pool.Indexed) {outpoint : OutPoint} :
    pool.spentUtxos[outpoint]? = some txid ↔
      ∃ tx, pool.transactions[txid]? = some tx ∧ outpoint ∈ tx.transaction.inputs := by
  refine ⟨h.pooled, ?_⟩
  rintro ⟨tx, htx, hinput⟩
  exact h.spent htx outpoint hinput

theorem new : Indexed .new where
  toTracked := .new
  pooled h := by cases (Db.get_empty _).symm.trans h
  fits_of_get h := by cases (Db.get_empty _).symm.trans h

/-- A transaction that is pooled already is put again only if it has no inputs, since
its inputs are recorded. -/
theorem put (hcf : CollisionFree) (h : pool.Indexed) (hfits : fits tx.transaction = true)
    (hput : pool.put tx = .ok pool') : pool'.Indexed := by
  have htracked := h.toTracked.put hput
  obtain ⟨-, hfresh, rfl⟩ := put_eq_ok.mp hput
  refine ⟨htracked, fun hget => ?_, fun hget => ?_⟩
  · rcases Db.get_putAll_cases hget with hnew | ⟨-, hold⟩
    · obtain ⟨input, hinput, heq⟩ := List.mem_map.mp hnew
      cases heq
      exact ⟨tx, Db.get_insert_self _ _ _, hinput⟩
    · obtain ⟨tx', htx', hinput⟩ := h.pooled hold
      refine ⟨tx', ?_, hinput⟩
      rw [add, Db.get_insert_ne, htx']
      intro heq
      have halike := alike_of_txid_eq hcf hfits (h.fits_of_get htx')
        (heq.trans (h.txid_eq htx').symm)
      rw [← halike.1] at hinput
      exact hfresh _ hinput (Db.mem_of_get hold)
  · rcases Db.get_insert_cases hget with ⟨rfl, rfl⟩ | ⟨-, hget⟩
    · exact hfits
    · exact h.fits_of_get hget

theorem remove (h : pool.Indexed) (htx : pool.transactions[txid]? = some tx) :
    (pool.remove txid tx).Indexed := by
  refine ⟨h.toTracked.remove htx, fun {outpoint other} hget => ?_, fun hget => ?_⟩
  · have hnot : outpoint ∉ tx.transaction.inputs := by
      intro hmem
      rw [MemPool.remove, Db.get_eraseAll_of_mem hmem] at hget
      cases hget
    rw [MemPool.remove, Db.get_eraseAll_of_not_mem hnot] at hget
    obtain ⟨tx', htx', hinput⟩ := h.pooled hget
    refine ⟨tx', ?_, hinput⟩
    rw [MemPool.remove, Db.get_erase_ne, htx']
    rintro rfl
    cases htx.symm.trans htx'
    exact hnot hinput
  · rw [MemPool.remove, Db.get_erase] at hget
    split at hget
    case isTrue => cases hget
    case isFalse => exact h.fits_of_get hget

/-- The children of a transaction are the pooled transactions that spend its outputs. -/
theorem mem_children (h : pool.Indexed) {child : Txid} :
    child ∈ pool.children txid tx ↔ ∃ tx', pool.transactions[child]? = some tx' ∧
      ∃ vout : UInt32, vout.toNat < tx.transaction.outputs.length ∧
        OutPoint.regular txid vout ∈ tx'.transaction.inputs := by
  rw [children, List.mem_filterMap]
  constructor
  · rintro ⟨vout, hvout, hget⟩
    obtain ⟨tx', htx', hinput⟩ := h.pooled hget
    refine ⟨tx', htx', _, ?_, hinput⟩
    have hle : (UInt32.ofNat vout).toNat ≤ vout := Nat.mod_le _ _
    exact hle.trans_lt (List.mem_range.mp hvout)
  · rintro ⟨tx', htx', vout, hvout, hinput⟩
    refine ⟨vout.toNat, List.mem_range.mpr hvout, ?_⟩
    rw [UInt32.ofNat_toNat]
    exact h.spent htx' _ hinput

end Indexed

theorem lost_remove (htx : pool'.transactions[txid]? = some tx) (hsub : txid ∈ pool.transactions)
    {other : Txid} :
    pool.Lost (pool'.remove txid tx) other ↔ pool.Lost pool' other ∨ other = txid := by
  unfold Lost
  rw [MemPool.remove, Db.mem_erase]
  by_cases heq : other = txid
  · subst heq
    simp [hsub]
  · simp [heq, Ne.symm heq]

/-- Every transaction of a mempool is in another one. -/
def Within (pool pool' : MemPool) : Prop :=
  ∀ ⦃txid : Txid⦄ ⦃tx : AuthorizedTransaction⦄, pool.transactions[txid]? = some tx →
    pool'.transactions[txid]? = some tx

theorem Within.refl (pool : MemPool) : pool.Within pool := fun _ _ h => h

theorem Within.trans {pool₀ : MemPool} (h : pool.Within pool') (h' : pool'.Within pool₀) :
    pool.Within pool₀ := fun _ _ hget => h' (h hget)

theorem Within.remove (txid : Txid) (tx : AuthorizedTransaction) :
    (pool.remove txid tx).Within pool := by
  intro other tx' hget
  rw [MemPool.remove, Db.get_erase] at hget
  split at hget
  case isTrue => cases hget
  case isFalse => exact hget

theorem mem_of_reaches {child : Txid} (htxid : txid ∈ pool.transactions)
    (h : Relation.ReflTransGen pool.Spends txid child) : child ∈ pool.transactions := by
  induction h with
  | refl => exact htxid
  | tail _ hspends _ =>
    obtain ⟨_, _, -, hchild, -⟩ := hspends
    exact Db.mem_of_get hchild

/-- The loop of `delete`: the first transaction of the queue is removed. -/
def deleteStep : List Txid × MemPool → List Txid × MemPool
  | ([], pool) => ([], pool)
  | (txid :: queue, pool) =>
    match pool.transactions[txid]? with
    | none => (queue, pool)
    | some tx =>
      let pool := pool.remove txid tx
      (queue ++ pool.children txid tx, pool)

theorem deleteStep_none {queue : List Txid} (htx : pool.transactions[txid]? = none) :
    deleteStep (txid :: queue, pool) = (queue, pool) := by
  rw [deleteStep, htx]

theorem deleteStep_some {queue : List Txid} (htx : pool.transactions[txid]? = some tx) :
    deleteStep (txid :: queue, pool) =
      (queue ++ (pool.remove txid tx).children txid tx, pool.remove txid tx) := by
  rw [deleteStep, htx]

theorem deleteQueue_eq_iterate (fuel : Nat) (queue : List Txid) (pool : MemPool) :
    deleteQueue fuel queue pool = (deleteStep^[fuel] (queue, pool)).2 := by
  induction fuel generalizing queue pool with
  | zero => rfl
  | succ fuel ih =>
    rw [Function.iterate_succ_apply]
    cases queue with
    | nil =>
      rw [← ih]
      cases fuel <;> rfl
    | cons txid queue =>
      rw [deleteQueue]
      cases htx : pool.transactions[txid]? with
      | none => rw [deleteStep_none htx, ih]
      | some tx =>
        rw [deleteStep_some htx]
        exact ih _ _

/-- Removing a transaction takes its outputs away, and at most as many transactions enter
the queue. -/
theorem length_children_remove (htx : pool.transactions[txid]? = some tx) :
    ((pool.remove txid tx).children txid tx).length + (pool.remove txid tx).outputCount ≤
      pool.outputCount := by
  have hcount : tx.transaction.outputs.length + (pool.remove txid tx).outputCount =
      pool.outputCount :=
    Db.total_erase_of_get (fun _ tx => tx.transaction.outputs.length) htx
  have hchildren : ((pool.remove txid tx).children txid tx).length ≤
      tx.transaction.outputs.length :=
    (List.length_filterMap_le _ _).trans_eq List.length_range
  omega

/-- When the queue is empty, what was removed is what spends outputs of the first
transaction. The invariant is that of a cascade over the mempool at the start; the
remaining mempool is part of it, and its record is exact. -/
theorem cascade_iterate {start : MemPool} {first : Txid} {fuel : Nat} {queue : List Txid}
    (hfirst : first ∈ start.transactions) (hpool : pool.Indexed)
    (hsub : pool.Within start) (h : Cascade start.Spends first (start.Lost pool) queue)
    (hfuel : queue.length + pool.outputCount ≤ fuel) :
    ∃ pool', deleteStep^[fuel] (queue, pool) = ([], pool') ∧ pool'.Indexed ∧
      pool'.Within start ∧ Cascade start.Spends first (start.Lost pool') [] := by
  induction fuel generalizing queue pool with
  | zero =>
    obtain rfl : queue = [] := List.length_eq_zero_iff.mp (by omega)
    exact ⟨pool, rfl, hpool, hsub, h⟩
  | succ fuel ih =>
    cases queue with
    | nil => exact ⟨pool, Function.iterate_fixed rfl _, hpool, hsub, h⟩
    | cons txid queue =>
      rw [Function.iterate_succ_apply]
      rw [List.length_cons] at hfuel
      have hmem : txid ∈ start.transactions :=
        mem_of_reaches hfirst (h.reached txid (.inr List.mem_cons_self))
      cases htx : pool.transactions[txid]? with
      | none =>
        rw [deleteStep_none htx]
        have hlost : start.Lost pool txid := ⟨hmem, (Db.not_mem_iff _ _).mpr htx⟩
        exact ih hpool hsub (h.skip hlost) (by omega)
      | some tx =>
        rw [deleteStep_some htx]
        have hrest := hpool.remove htx
        have hsub' : (pool.remove txid tx).Within start :=
          (Within.remove txid tx).trans hsub
        have hlength := length_children_remove htx
        refine ih hrest hsub' (h.remove (fun _ => lost_remove htx hmem) ?_ ?_) (by
          rw [List.length_append]
          omega)
        · intro child hchild
          obtain ⟨tx', htx', hspends⟩ := hrest.mem_children.mp hchild
          exact ⟨tx, tx', hsub htx, hsub' htx', hspends⟩
        · rintro child ⟨tx₀, tx', htx₀, htx', hspends⟩
          cases htx₀.symm.trans (hsub htx)
          by_cases hleft : child ∈ (pool.remove txid tx).transactions
          · obtain ⟨other, hother⟩ := (Db.mem_iff _ _).mp hleft
            cases htx'.symm.trans (hsub' hother)
            exact .inr (hrest.mem_children.mpr ⟨tx', hother, hspends⟩)
          · exact .inl ⟨Db.mem_of_get htx', hleft⟩

/-- Deleting a pooled transaction: the queue runs empty, and the transactions that are
lost are those that spend its outputs, directly or through others. -/
theorem Indexed.delete_pooled (h : pool.Indexed) (htxid : txid ∈ pool.transactions) :
    deleteStep^[1 + pool.outputCount] ([txid], pool) = ([], pool.delete txid) ∧
      (pool.delete txid).Indexed ∧ (pool.delete txid).Within pool ∧
      ∀ x, pool.Lost (pool.delete txid) x ↔ Relation.ReflTransGen pool.Spends txid x := by
  have hnone : ∀ x, ¬ pool.Lost pool x := fun x hx => hx.2 hx.1
  obtain ⟨pool', hiterate, hpool', hsub, hcascade⟩ := cascade_iterate htxid h (.refl pool)
    (.start hnone) (show [txid].length + pool.outputCount ≤ 1 + pool.outputCount from le_rfl)
  have hdelete : pool.delete txid = pool' := by rw [delete, deleteQueue_eq_iterate, hiterate]
  rw [hdelete]
  exact ⟨hiterate, hpool', hsub, fun x => hcascade.removed_iff⟩

theorem delete_of_not_mem (htxid : txid ∉ pool.transactions) :
    deleteStep^[1 + pool.outputCount] ([txid], pool) = ([], pool) ∧ pool.delete txid = pool := by
  have hiterate : deleteStep^[1 + pool.outputCount] ([txid], pool) = ([], pool) := by
    rw [Nat.add_comm, Function.iterate_succ_apply,
      deleteStep_none ((Db.not_mem_iff _ _).mp htxid)]
    exact Function.iterate_fixed rfl _
  refine ⟨hiterate, ?_⟩
  rw [delete, deleteQueue_eq_iterate, hiterate]

theorem Indexed.delete (h : pool.Indexed) (txid : Txid) : (pool.delete txid).Indexed := by
  by_cases htxid : txid ∈ pool.transactions
  · exact (h.delete_pooled htxid).2.1
  · rw [(delete_of_not_mem htxid).2]
    exact h

end MemPool

/-- What is done with a mempool. -/
inductive PoolOp where
  | put (transaction : AuthorizedTransaction)
  | delete (txid : Txid)

namespace MemPool

/-- What a failed `put` has written is dropped. A transaction without an encoding has no
id: hashing it panics before anything is written. -/
def step (pool : MemPool) : PoolOp → MemPool
  | .put transaction =>
    if fits transaction.transaction then (pool.put transaction).toOption.getD pool else pool
  | .delete txid => pool.delete txid

def run (pool : MemPool) (ops : List PoolOp) : MemPool := ops.foldl step pool

variable {pool : MemPool}

theorem Indexed.step (hcf : CollisionFree) (h : pool.Indexed) (op : PoolOp) :
    (pool.step op).Indexed := by
  cases op with
  | put transaction =>
    rw [MemPool.step]
    split
    case isTrue hfits =>
      cases hput : pool.put transaction with
      | error => exact h
      | ok pool' => exact h.put hcf hfits hput
    case isFalse => exact h
  | delete txid => exact h.delete txid

theorem indexed_run (hcf : CollisionFree) (ops : List PoolOp) : (MemPool.new.run ops).Indexed :=
  List.foldlRecOn ops _ .new fun _ h op _ => h.step hcf op

end MemPool

/-- After any puts and deletions the record of spent outpoints is exact, and no outpoint
is spent twice. A deletion ends, and deletes a pooled transaction with all that spends its
outputs. -/
theorem pool_index_exact (hcf : CollisionFree) (ops : List PoolOp) :
    (∀ (outpoint : OutPoint) (txid : Txid),
      (MemPool.new.run ops).spentUtxos[outpoint]? = some txid ↔
        ∃ tx, (MemPool.new.run ops).transactions[txid]? = some tx ∧
          outpoint ∈ tx.transaction.inputs) ∧
      (∀ (txid txid' : Txid) (tx tx' : AuthorizedTransaction),
        (MemPool.new.run ops).transactions[txid]? = some tx →
        (MemPool.new.run ops).transactions[txid']? = some tx' → txid ≠ txid' →
          ∀ outpoint ∈ tx.transaction.inputs, outpoint ∉ tx'.transaction.inputs) ∧
      ∀ txid : Txid,
        (∃ steps, MemPool.deleteStep^[steps] ([txid], MemPool.new.run ops) =
          ([], (MemPool.new.run ops).delete txid)) ∧
        (txid ∈ (MemPool.new.run ops).transactions →
          ∀ (other : Txid) (tx : AuthorizedTransaction),
            ((MemPool.new.run ops).delete txid).transactions[other]? = some tx ↔
              (MemPool.new.run ops).transactions[other]? = some tx ∧
                ¬ Relation.ReflTransGen (MemPool.new.run ops).Spends txid other) ∧
        (txid ∉ (MemPool.new.run ops).transactions →
          (MemPool.new.run ops).delete txid = MemPool.new.run ops) := by
  have h := MemPool.indexed_run hcf ops
  generalize MemPool.new.run ops = pool at h ⊢
  refine ⟨fun outpoint txid => h.spent_iff, ?_, fun txid => ⟨?_, ?_, ?_⟩⟩
  · intro txid txid' tx tx' htx htx' hne outpoint hinput hinput'
    exact hne (Option.some.inj ((h.spent htx outpoint hinput).symm.trans
      (h.spent htx' outpoint hinput')))
  · by_cases htxid : txid ∈ pool.transactions
    · exact ⟨_, (h.delete_pooled htxid).1⟩
    · rw [(MemPool.delete_of_not_mem htxid).2]
      exact ⟨_, (MemPool.delete_of_not_mem htxid).1⟩
  · intro htxid other tx
    obtain ⟨-, -, hwithin, hlost⟩ := h.delete_pooled htxid
    rw [← hlost]
    constructor
    · intro hget
      exact ⟨hwithin hget, fun hother => hother.2 (Db.mem_of_get hget)⟩
    · rintro ⟨hget, hkept⟩
      have hmem : other ∈ (pool.delete txid).transactions :=
        not_not.mp fun hnot => hkept ⟨Db.mem_of_get hget, hnot⟩
      obtain ⟨tx', htx'⟩ := (Db.mem_iff _ _).mp hmem
      cases hget.symm.trans (hwithin htx')
      exact htx'
  · exact fun htxid => (MemPool.delete_of_not_mem htxid).2

end

namespace Instance

/-- A transaction is put, one that spends its output, one that spends the output too and
is not taken, and the first one is deleted. -/
def poolOps : List PoolOp :=
  [.put ⟨mint, []⟩, .put ⟨spendMint, [⟨7, 7⟩]⟩,
    .put ⟨⟨[.regular mint.txid 0], [], [1], none⟩, [⟨7, 7⟩]⟩]

theorem pool_index_exact_mint :
    (MemPool.new.run poolOps).spentUtxos[OutPoint.regular mint.txid 0]? = some spendMint.txid ∧
      spendMint.txid ∉ ((MemPool.new.run poolOps).delete mint.txid).transactions := by
  obtain ⟨hspent, -, hdelete⟩ := pool_index_exact collisionFree poolOps
  have hmint : (MemPool.new.run poolOps).transactions[mint.txid]? = some ⟨mint, []⟩ := by
    decide +kernel
  have hspend : (MemPool.new.run poolOps).transactions[spendMint.txid]? =
      some ⟨spendMint, [⟨7, 7⟩]⟩ := by
    decide +kernel
  have hinput : OutPoint.regular mint.txid 0 ∈ spendMint.inputs := List.mem_singleton_self _
  refine ⟨(hspent _ _).mpr ⟨_, hspend, hinput⟩, fun hmem => ?_⟩
  obtain ⟨tx, htx⟩ := (Db.mem_iff _ _).mp hmem
  refine (((hdelete mint.txid).2.1 (Db.mem_of_get hmint) _ tx).mp htx).2 (.single ?_)
  exact ⟨_, _, hmint, hspend, 0, by decide, hinput⟩

end Instance

end PlainBitnames
