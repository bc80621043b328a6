import PlainBitnames.Properties.PoolConflicts
import PlainBitnames.Properties.PoolIndex

/-!
The mempool when a block is connected. The transactions of the block are deleted with
all that spends their outputs, also with transactions that the block has just made
spendable. Transactions that spend the same outputs as the block are not looked for.
-/

namespace PlainBitnames

open Fallible

section

variable [Primitives]

namespace MemPool

variable {pool pool' : MemPool} {txid child : Txid}

theorem Within.spends (h : pool'.Within pool) (hspends : pool'.Spends txid child) :
    pool.Spends txid child := by
  obtain ⟨tx, tx', htx, htx', hinput⟩ := hspends
  exact ⟨tx, tx', h htx, h htx', hinput⟩

theorem Within.spends_of_mem (h : pool'.Within pool) (hspends : pool.Spends txid child)
    (htxid : txid ∈ pool'.transactions) (hchild : child ∈ pool'.transactions) :
    pool'.Spends txid child := by
  obtain ⟨tx, tx', htx, htx', hinput⟩ := hspends
  obtain ⟨other, hother⟩ := (Db.mem_iff _ _).mp htxid
  obtain ⟨other', hother'⟩ := (Db.mem_iff _ _).mp hchild
  cases htx.symm.trans (h hother)
  cases htx'.symm.trans (h hother')
  exact ⟨tx, tx', hother, hother', hinput⟩

theorem Within.reaches (h : pool'.Within pool)
    (hreaches : Relation.ReflTransGen pool'.Spends txid child) :
    Relation.ReflTransGen pool.Spends txid child :=
  Relation.ReflTransGen.mono (fun _ _ => h.spends) _ _ hreaches

/-- A transaction that depends on one that is left is lost, or depends on it in what is
left. The induction is along the way to it: what depends on a lost transaction is lost. -/
theorem lost_or_reaches (hwithin : pool'.Within pool)
    (hlost : ∀ x y, pool.Lost pool' x → pool.Spends x y → pool.Lost pool' y)
    (htxid : txid ∈ pool'.transactions) (h : Relation.ReflTransGen pool.Spends txid child) :
    pool.Lost pool' child ∨
      child ∈ pool'.transactions ∧ Relation.ReflTransGen pool'.Spends txid child := by
  induction h with
  | refl => exact .inr ⟨htxid, .refl⟩
  | @tail x y _ hspends ih =>
    rcases ih with hx | ⟨hx, hreaches⟩
    · exact .inl (hlost x y hx hspends)
    · by_cases hy : y ∈ pool'.transactions
      · exact .inr ⟨hy, hreaches.tail (hwithin.spends_of_mem hspends hx hy)⟩
      · obtain ⟨_, _, -, hget, -⟩ := hspends
        exact .inl ⟨Db.mem_of_get hget, hy⟩

/-- Deleting transactions one after the other deletes what spends outputs of one of
them. -/
theorem Indexed.deleteAll (h : pool.Indexed) (txids : List Txid) :
    (txids.foldl MemPool.delete pool).Indexed ∧ (txids.foldl MemPool.delete pool).Within pool ∧
      ∀ x, pool.Lost (txids.foldl MemPool.delete pool) x ↔
        ∃ txid ∈ txids, txid ∈ pool.transactions ∧
          Relation.ReflTransGen pool.Spends txid x := by
  induction txids generalizing pool with
  | nil => exact ⟨h, .refl pool, fun x => ⟨fun hx => absurd hx.1 hx.2, by simp⟩⟩
  | cons txid txids ih =>
    obtain ⟨hindexed, hwithin, hlost⟩ := ih (h.delete txid)
    rw [List.foldl_cons]
    by_cases htxid : txid ∈ pool.transactions
    · obtain ⟨-, -, hfirst, hreaches⟩ := h.delete_pooled htxid
      refine ⟨hindexed, hwithin.trans hfirst, fun x => ?_⟩
      have hclosed : ∀ x y, pool.Lost (pool.delete txid) x → pool.Spends x y →
          pool.Lost (pool.delete txid) y := by
        intro x y hx hspends
        exact (hreaches y).mpr (((hreaches x).mp hx).tail hspends)
      constructor
      · rintro ⟨hmem, hnot⟩
        by_cases hleft : x ∈ (pool.delete txid).transactions
        · obtain ⟨other, hother, hpooled, hpath⟩ := (hlost x).mp ⟨hleft, hnot⟩
          obtain ⟨tx, htx⟩ := (Db.mem_iff _ _).mp hpooled
          exact ⟨other, List.mem_cons_of_mem _ hother, Db.mem_of_get (hfirst htx),
            hfirst.reaches hpath⟩
        · exact ⟨txid, List.mem_cons_self, htxid, (hreaches x).mp ⟨hmem, hleft⟩⟩
      · rintro ⟨other, hother, hpooled, hpath⟩
        refine ⟨mem_of_reaches hpooled hpath, fun hleft => ?_⟩
        obtain ⟨tx, htx⟩ := (Db.mem_iff _ _).mp hleft
        have hkept := Db.mem_of_get (hwithin htx)
        rcases List.mem_cons.mp hother with rfl | hother
        · exact ((hreaches x).mpr hpath).2 hkept
        · by_cases hrest : other ∈ (pool.delete txid).transactions
          · rcases lost_or_reaches hfirst hclosed hrest hpath with hx | ⟨-, hpath⟩
            · exact hx.2 hkept
            · exact ((hlost x).mpr ⟨other, hother, hrest, hpath⟩).2 hleft
          · have hgone := (hreaches other).mp ⟨hpooled, hrest⟩
            exact ((hreaches x).mpr (hgone.trans hpath)).2 hkept
    · rw [(delete_of_not_mem htxid).2] at hindexed hwithin hlost ⊢
      refine ⟨hindexed, hwithin, fun x => (hlost x).trans ?_⟩
      constructor
      · rintro ⟨other, hother, hrest⟩
        exact ⟨other, List.mem_cons_of_mem _ hother, hrest⟩
      · rintro ⟨other, hother, hpooled, hpath⟩
        rcases List.mem_cons.mp hother with rfl | hother
        · exact absurd hpooled htxid
        · exact ⟨other, hother, hpooled, hpath⟩

end MemPool

/-- The outpoint is unspent once a block and its two-way peg data are connected to a
state. -/
def State.UnspentAfter (ctxt : BatchVerificationContext) (state : State) (header : Header)
    (body : Body) (data : TwoWayPegData) (outpoint : OutPoint) : Prop :=
  ∃ applied connected, state.applyBlock ctxt header body = .ok applied ∧
    applied.connectTwoWayPegData data = .ok connected ∧ outpoint ∈ connected.utxos

/-- A pooled transaction that is in the block, or spends outputs of one that is, directly or
through others. -/
def MemPool.DependsOn (pool : MemPool) (body : Body) (txid : Txid) : Prop :=
  ∃ tx ∈ body.transactions, tx.txid ∈ pool.transactions ∧
    Relation.ReflTransGen pool.Spends tx.txid txid

/-- A block that does not touch what its transactions leave valid: no other transaction
with unspent inputs depends on it, and those that spend its inputs do. -/
structure PoolNode.Undisturbed (ctxt : BatchVerificationContext) (pool : PoolNode)
    (header : Header) (body : Body) (data : TwoWayPegData) : Prop where
  independent : ∀ (txid : Txid) (tx : AuthorizedTransaction),
    pool.mempool.transactions[txid]? = some tx → txid ∉ body.transactions.map Transaction.txid →
      (∀ input ∈ tx.transaction.inputs,
        pool.node.state.UnspentAfter ctxt header body data input) →
      ¬ pool.mempool.DependsOn body txid
  conflicts : ∀ (txid : Txid) (tx : AuthorizedTransaction),
    pool.mempool.transactions[txid]? = some tx →
      ∀ input ∈ tx.transaction.inputs, input ∈ body.transactions.flatMap Transaction.inputs →
        pool.mempool.DependsOn body txid

/-- Connecting a block keeps the other transactions whose inputs are unspent afterwards, and
leaves none that spends an input of the block, exactly if the block does not disturb the
mempool. -/
theorem confirmation_keeps_iff (hcf : CollisionFree) {ops : List PoolOp}
    {ctxt : BatchVerificationContext} {pool pool' : PoolNode} {header : Header} {body : Body}
    {data : TwoWayPegData} (hpool : pool.mempool = MemPool.new.run ops)
    (h : pool.connectTip ctxt header body data = .ok pool') :
    ((∀ (txid : Txid) (tx : AuthorizedTransaction),
        pool.mempool.transactions[txid]? = some tx →
        txid ∉ body.transactions.map Transaction.txid →
        (∀ input ∈ tx.transaction.inputs, input ∈ pool'.node.state.utxos) →
          pool'.mempool.transactions[txid]? = some tx) ∧
      ∀ (txid : Txid) (tx : AuthorizedTransaction),
        pool'.mempool.transactions[txid]? = some tx →
          ∀ input ∈ tx.transaction.inputs,
            input ∉ body.transactions.flatMap Transaction.inputs) ↔
      pool.Undisturbed ctxt header body data := by
  have hindexed : pool.mempool.Indexed := by
    rw [hpool]
    exact MemPool.indexed_run hcf ops
  obtain ⟨node, hnode, h⟩ := bind_eq_ok.mp h
  cases h
  obtain ⟨applied, _, happly, hconnect, -⟩ := Node.connectTip_ok hnode
  have hunspent : ∀ outpoint, pool.node.state.UnspentAfter ctxt header body data outpoint ↔
      outpoint ∈ node.state.utxos := by
    intro outpoint
    constructor
    · rintro ⟨_, _, happly', hconnect', hmem⟩
      cases happly.symm.trans happly'
      cases hconnect.symm.trans hconnect'
      exact hmem
    · exact fun hmem => ⟨applied, node.state, happly, hconnect, hmem⟩
  have hfold : body.transactions.foldl (fun mempool tx => mempool.delete tx.txid) pool.mempool =
      (body.transactions.map Transaction.txid).foldl MemPool.delete pool.mempool := by
    rw [List.foldl_map]
  obtain ⟨-, hwithin, hlost⟩ := hindexed.deleteAll (body.transactions.map Transaction.txid)
  rw [hfold]
  generalize (body.transactions.map Transaction.txid).foldl MemPool.delete pool.mempool = mempool
    at hwithin hlost ⊢
  have hlost : ∀ txid, pool.mempool.Lost mempool txid ↔ pool.mempool.DependsOn body txid := by
    intro txid
    rw [hlost, MemPool.DependsOn]
    simp only [List.mem_map, exists_exists_and_eq_and]
  have hkept : ∀ (txid : Txid) (tx : AuthorizedTransaction),
      pool.mempool.transactions[txid]? = some tx →
        (mempool.transactions[txid]? = some tx ↔ ¬ pool.mempool.DependsOn body txid) := by
    intro txid tx htx
    rw [← hlost]
    constructor
    · exact fun hget hgone => hgone.2 (Db.mem_of_get hget)
    · intro hgone
      have hmem : txid ∈ mempool.transactions :=
        not_not.mp fun hnot => hgone ⟨Db.mem_of_get htx, hnot⟩
      obtain ⟨tx', htx'⟩ := (Db.mem_iff _ _).mp hmem
      cases htx.symm.trans (hwithin htx')
      exact htx'
  constructor
  · rintro ⟨hstays, hclear⟩
    refine ⟨fun txid tx htx hout hinputs => ?_, fun txid tx htx input hinput hspent => ?_⟩
    · refine (hkept txid tx htx).mp (hstays txid tx htx hout fun input hinput => ?_)
      exact (hunspent input).mp (hinputs input hinput)
    · refine not_not.mp fun hindependent => ?_
      exact hclear txid tx ((hkept txid tx htx).mpr hindependent) input hinput hspent
  · rintro ⟨hindependent, hconflicts⟩
    refine ⟨fun txid tx htx hout hinputs => ?_, fun txid tx htx input hinput hspent => ?_⟩
    · refine (hkept txid tx htx).mpr (hindependent txid tx htx hout fun input hinput => ?_)
      exact (hunspent input).mpr (hinputs input hinput)
    · have hdepends := hconflicts txid tx (hwithin htx) input hinput hspent
      exact ((hlost txid).mpr hdepends).2 (Db.mem_of_get htx)

end

namespace Instance

/-- The mempool after a block with `mint` and one that spends its output are connected and
disconnected again. -/
def returnedPool : PoolNode :=
  ((spentPool ⟨mintNode, .new⟩).disconnectTip >>= PoolNode.disconnectTip).toOption.getD .new

def mintData : TwoWayPegData := .ofInfos [(1, mintMain.info 1)]

/-- The mempool after the block with `mint` is connected once more. -/
def confirmedPool : PoolNode :=
  (returnedPool.connectTip 0 mintHeader mintBody mintData).toOption.getD .new

/-- Two blocks are connected and disconnected, and their transactions are pooled. The first
block is connected again: the transaction of the second block is deleted, although its
input is unspent. A transaction that spends the same output as a block stays. -/
theorem confirmation_loses_child :
    mintNode.Reaches mintMain (fun _ _ => True) ∧
      ((spentPool ⟨mintNode, .new⟩).disconnectTip >>= PoolNode.disconnectTip) =
        .ok returnedPool ∧
      returnedPool.connectTip 0 mintHeader mintBody mintData = .ok confirmedPool ∧
      returnedPool.mempool.transactions[spendMint.txid]? = some ⟨spendMint, [⟨7, 7⟩]⟩ ∧
      spendMint.txid ∉ mintBody.transactions.map Transaction.txid ∧
      (∀ input ∈ spendMint.inputs, input ∈ confirmedPool.node.state.utxos) ∧
      spendMint.txid ∉ confirmedPool.mempool.transactions ∧
      rivalPool.connectTip 0 spendHeader spendBody spendData = .ok (spentPool rivalPool) ∧
      (spentPool rivalPool).mempool.transactions[rivalSpend.transaction.txid]? =
        some rivalSpend ∧
      OutPoint.regular mint.txid 0 ∈ rivalSpend.transaction.inputs ∧
      OutPoint.regular mint.txid 0 ∈ spendBody.transactions.flatMap Transaction.inputs := by
  refine ⟨mintNode_reaches, ?_, ?_, by decide +kernel, by decide +kernel, by decide +kernel,
    by decide +kernel, ?_, by decide +kernel, by decide +kernel, by decide +kernel⟩
  · rw [returnedPool]
    exact eq_ok_getD _ (by decide +kernel)
  · rw [confirmedPool]
    exact eq_ok_getD _ (by decide +kernel)
  · rw [spentPool]
    exact eq_ok_getD _ (by decide +kernel)

/-- A mempool with the transaction of a block. -/
def readyPool : PoolNode := ⟨mintNode, MemPool.new.run [.put ⟨spendMint, [⟨7, 7⟩]⟩]⟩

theorem confirmation_keeps_iff_ready :
    ∃ pool, readyPool.connectTip 0 spendHeader spendBody spendData = .ok pool ∧
      ∀ (txid : Txid) (tx : AuthorizedTransaction), pool.mempool.transactions[txid]? = some tx →
        ∀ input ∈ tx.transaction.inputs,
          input ∉ spendBody.transactions.flatMap Transaction.inputs := by
  obtain ⟨pool, hpool⟩ := exists_of_isOk
    (x := readyPool.connectTip 0 spendHeader spendBody spendData) (by decide +kernel)
  have hsingle : readyPool.mempool.transactions =
      (∅ : Db Txid AuthorizedTransaction).insert spendMint.txid ⟨spendMint, [⟨7, 7⟩]⟩ := by
    decide +kernel
  have honly : ∀ (txid : Txid) (tx : AuthorizedTransaction),
      readyPool.mempool.transactions[txid]? = some tx → txid = spendMint.txid := by
    intro txid tx htx
    rw [hsingle] at htx
    rcases Db.get_insert_cases htx with ⟨rfl, -⟩ | ⟨-, htx⟩
    · rfl
    · cases (Db.get_empty _).symm.trans htx
  have hmem : spendMint.txid ∈ readyPool.mempool.transactions := by
    rw [hsingle, Db.mem_insert]
    exact .inl rfl
  refine ⟨pool, hpool, ((confirmation_keeps_iff collisionFree rfl hpool).mpr ⟨?_, ?_⟩).2⟩
  · intro txid tx htx hout
    refine absurd ?_ hout
    rw [honly txid tx htx]
    exact List.mem_singleton_self _
  · intro txid tx htx _ _ _
    rw [honly txid tx htx]
    exact ⟨spendMint, List.mem_singleton_self _, hmem, .refl⟩

end Instance

end PlainBitnames
