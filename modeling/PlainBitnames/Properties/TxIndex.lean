import PlainBitnames.Node.Transactions
import PlainBitnames.Properties.PoolConflicts
import PlainBitnames.Properties.PoolIndex

/-!
The index of transactions and the lookups that use it. The index is written from the body
at hand, so it matches the stored bodies as long as no body is stored over one with other
transactions: the entries of a body that is replaced stay behind.
-/

namespace PlainBitnames

open Fallible Relation

section

variable [Primitives]

namespace Inclusions

/-- An index matches some bodies: a recorded position is that of a transaction with the
recorded id, and every transaction is recorded. -/
structure Lists (index : Inclusions) (bodies : Db BlockHash Body) : Prop where
  position : ∀ {txid : Txid} {b : BlockHash} {i : UInt32}, (index.ofTx txid)[b]? = some i →
    ∃ (body : Body) (tx : Transaction), bodies[b]? = some body ∧
      body.transactions[i.toNat]? = some tx ∧ tx.txid = txid
  listed : ∀ {b : BlockHash} {body : Body} {tx : Transaction}, bodies[b]? = some body →
    tx ∈ body.transactions → b ∈ index.ofTx tx.txid

variable {index : Inclusions} {bodies : Db BlockHash Body} {b : BlockHash} {body : Body}

theorem Lists.new : Lists ∅ ∅ where
  position h := by
    rw [ofTx, Db.get_empty, Option.getD_none, Db.get_empty] at h
    cases h
  listed h := by
    rw [Db.get_empty] at h
    cases h

/-- A body is recorded in full, over one whose transactions it has too. -/
theorem Lists.insertBody (h : index.Lists bodies) (hlength : body.transactions.length ≤ 2 ^ 32)
    (hcovers : ∀ old, bodies[b]? = some old → ∀ tx ∈ old.transactions,
      tx.txid ∈ body.transactions.map Transaction.txid) :
    (index.insertBody b body).Lists (bodies.insert b body) where
  position {txid c i} hget := by
    by_cases hbc : b = c
    · subst hbc
      refine ⟨body, ?_⟩
      rcases get_insertTxs index b txid body.transactions 0 with
        ⟨n, tx, htx, htxid, hentry⟩ | ⟨hfresh, hentry⟩
      · obtain rfl : UInt32.ofNat n = i := Option.some.inj (hentry.symm.trans hget)
        have hn : n < 2 ^ 32 :=
          Nat.lt_of_lt_of_le (List.getElem?_eq_some_iff.mp htx).1 hlength
        rw [UInt32.toNat_ofNat_of_lt' hn]
        exact ⟨tx, Db.get_insert_self _ _ _, htx, htxid⟩
      · obtain ⟨old, tx, hold, htx, htxid⟩ := h.position (hentry.symm.trans hget)
        have hmem := hcovers old hold tx (List.mem_of_getElem? htx)
        rw [htxid] at hmem
        exact absurd hmem hfresh
    · rw [get_insertBody_of_ne body hbc] at hget
      rw [Db.get_insert_ne _ _ hbc]
      exact h.position hget
  listed {c body' tx} hbody htx := by
    rw [Db.mem_iff]
    rcases Db.get_insert_cases hbody with ⟨rfl, rfl⟩ | ⟨hne, hbody⟩
    · rcases get_insertTxs index b tx.txid body.transactions 0 with
        ⟨n, _, -, -, hentry⟩ | ⟨hfresh, -⟩
      · exact ⟨_, hentry⟩
      · exact absurd (List.mem_map_of_mem htx) hfresh
    · rw [get_insertBody_of_ne body hne]
      exact (Db.mem_iff _ _).mp (h.listed hbody htx)

theorem Lists.removeBody (h : index.Lists bodies) (hbody : bodies[b]? = some body) :
    (index.removeBody b body).Lists (bodies.erase b) where
  position {txid c i} hget := by
    rw [get_removeBody] at hget
    split at hget
    · cases hget
    next hnot =>
      obtain ⟨body', tx, hbody', htx, htxid⟩ := h.position hget
      have hne : b ≠ c := by
        rintro rfl
        obtain rfl : body = body' := Option.some.inj (hbody.symm.trans hbody')
        exact hnot ⟨htxid ▸ List.mem_map_of_mem (List.mem_of_getElem? htx), rfl⟩
      exact ⟨body', tx, (Db.get_erase_ne _ hne).trans hbody', htx, htxid⟩
  listed {c body' tx} hbody' htx := by
    have hne : b ≠ c := by
      rintro rfl
      rw [Db.get_erase, if_pos rfl] at hbody'
      cases hbody'
    rw [Db.get_erase_ne _ hne] at hbody'
    rw [Db.mem_iff, get_removeBody, if_neg fun h => hne h.2]
    exact (Db.mem_iff _ _).mp (h.listed hbody' htx)

theorem Lists.discardBody (h : index.Lists bodies) (b : BlockHash) :
    (index.discardBody b bodies[b]?).Lists (bodies.erase b) := by
  cases hbody : bodies[b]? with
  | some body =>
    rw [discardBody_some]
    exact h.removeBody hbody
  | none =>
    rw [Db.erase_of_not_mem ((Db.not_mem_iff _ _).mpr hbody)]
    exact h

end Inclusions

namespace Archive

/-- The transactions of the body that is stored for a block, if there is one, are among
those of a new body, and their positions fit the index. -/
def Covers (a : Archive) (b : BlockHash) (body : Body) : Prop :=
  body.transactions.length ≤ 2 ^ 32 ∧
    ∀ old, a.bodies[b]? = some old → ∀ tx ∈ old.transactions,
      tx.txid ∈ body.transactions.map Transaction.txid

/-- One call that writes the bodies, with the bodies that may be stored. A body is deleted
as a failed reorg does it: it is the stored one. The other calls leave the bodies and the
index as they are. -/
inductive BodyStep (stores : Archive → BlockHash → Body → Prop) (a : Archive) : Archive → Prop
  | putBody {b : BlockHash} {body : Body} {a' : Archive} (hstores : stores a b body)
      (hput : a.putBody b body = .ok a') : BodyStep stores a a'
  | deleteBody {b : BlockHash} {body : Body} {a' : Archive} (hbody : a.bodies[b]? = some body)
      (hdelete : a.deleteBody b body = .ok a') : BodyStep stores a a'
  | invalidateBlock (b : BlockHash) : BodyStep stores a (a.invalidateBlock b)
  | other {a' : Archive} (hbodies : a'.bodies = a.bodies)
      (hindex : a'.txidToInclusions = a.txidToInclusions) : BodyStep stores a a'

variable {a a' : Archive}

theorem lists_invalidateStack {fuel : Nat} {stack : List BlockHash}
    (h : a.txidToInclusions.Lists a.bodies) :
    (a.invalidateStack fuel stack).txidToInclusions.Lists (a.invalidateStack fuel stack).bodies := by
  induction fuel generalizing a stack with
  | zero => exact h
  | succ fuel ih =>
    cases stack with
    | nil => exact h
    | cons b stack => exact ih (h.discardBody b)

theorem BodyStep.lists (hstep : a.BodyStep Covers a') (h : a.txidToInclusions.Lists a.bodies) :
    a'.txidToInclusions.Lists a'.bodies := by
  cases hstep with
  | putBody hcovers hput =>
    obtain ⟨_, rfl, -⟩ := putBody_tips hput
    exact h.insertBody hcovers.1 hcovers.2
  | deleteBody hbody hdelete =>
    obtain ⟨_, rfl, -⟩ := deleteBody_tips hdelete
    exact h.removeBody hbody
  | invalidateBlock b => exact lists_invalidateStack h
  | other hbodies hindex =>
    rw [hbodies, hindex]
    exact h

theorem lists_run (hrun : ReflTransGen (BodyStep Covers) .new a) :
    a.txidToInclusions.Lists a.bodies := by
  induction hrun with
  | refl => exact .new
  | tail _ hstep ih => exact hstep.lists ih

end Archive

namespace PoolNode

variable {pool : PoolNode} {txid : Txid}

theorem mem_inclusions {inclusion : BlockHash × UInt32} :
    inclusion ∈ pool.inclusions txid ↔
      (pool.node.archive.txidToInclusions.ofTx txid)[inclusion.1]? = some inclusion.2 :=
  Db.mem_toList

theorem tryGetTransaction_ok
    (hlists : pool.node.archive.txidToInclusions.Lists pool.node.archive.bodies)
    (hpool : pool.mempool.Indexed) :
    ∃ found, pool.tryGetTransaction txid = .ok found ∧ ∀ tx, found = some tx → tx.txid = txid := by
  rw [tryGetTransaction]
  cases hhead : (pool.inclusions txid).head? with
  | none =>
    refine ⟨_, rfl, fun tx htx => ?_⟩
    obtain ⟨authorized, hget, rfl⟩ := Option.map_eq_some_iff.mp htx
    exact hpool.txid_eq hget
  | some inclusion =>
    obtain ⟨body, tx, hbody, htx, htxid⟩ :=
      hlists.position (mem_inclusions.mp (List.mem_of_head? hhead))
    exact ⟨some tx, bind_eq_ok.mpr ⟨body, mapFailure_eq_ok.mpr (okOr_eq_ok.mpr hbody),
      bind_eq_ok.mpr ⟨tx, okOr_eq_ok.mpr htx, rfl⟩⟩, fun _ heq => Option.some.inj heq ▸ htxid⟩

/-- The position that is recorded for a transaction is its position in the split body. -/
theorem authorizedTransactions_get {inclusion : BlockHash × UInt32}
    {transactions : List AuthorizedTransaction}
    (hlists : pool.node.archive.txidToInclusions.Lists pool.node.archive.bodies)
    (hmem : inclusion ∈ pool.inclusions txid)
    (h : pool.authorizedTransactions inclusion.1 = .ok transactions) :
    ∃ tx, transactions[inclusion.2.toNat]? = some tx ∧ tx.transaction.txid = txid := by
  obtain ⟨body, tx, hbody, htx, htxid⟩ := hlists.position (mem_inclusions.mp hmem)
  obtain ⟨body', hbody', h⟩ := bind_eq_ok.mp h
  rw [mapFailure_eq_ok, Archive.getBody, okOr_eq_ok, hbody] at hbody'
  cases hbody'
  rw [← (of_takeAuthorizations (okOr_eq_ok.mp h)).2, List.getElem?_map] at htx
  obtain ⟨authorized, hget, rfl⟩ := Option.map_eq_some_iff.mp htx
  exact ⟨authorized, hget, htxid⟩

theorem getAuthorizedTransaction_txid {tx : AuthorizedTransaction}
    (hlists : pool.node.archive.txidToInclusions.Lists pool.node.archive.bodies)
    (hpool : pool.mempool.Indexed) (h : pool.getAuthorizedTransaction txid = .ok (some tx)) :
    tx.transaction.txid = txid := by
  rw [getAuthorizedTransaction] at h
  cases hpooled : pool.mempool.transactions[txid]? with
  | some authorized =>
    rw [hpooled] at h
    cases h
    exact hpool.txid_eq hpooled
  | none =>
    rw [hpooled] at h
    cases hhead : (pool.inclusions txid).head? with
    | none =>
      rw [hhead] at h
      cases h
    | some inclusion =>
      rw [hhead] at h
      obtain ⟨transactions, hsplit, h⟩ := bind_eq_ok.mp h
      obtain ⟨tx', hget, htxid⟩ :=
        authorizedTransactions_get hlists (List.mem_of_head? hhead) hsplit
      rw [hget] at h
      cases h
      exact htxid

theorem mem_of_findM? {p : BlockHash × UInt32 → NodeResult Bool}
    {l : List (BlockHash × UInt32)} {x : BlockHash × UInt32}
    (h : l.findM? p = .ok (some x)) : x ∈ l := by
  induction l with
  | nil => cases h
  | cons y l ih =>
    obtain ⟨found, -, h⟩ := bind_eq_ok.mp h
    cases found with
    | true =>
      cases h
      exact List.mem_cons_self
    | false => exact List.mem_cons_of_mem _ (ih h)

theorem tryGetFilledPooled_txid {tx : Authorized FilledTransaction} {position : Option TxIn}
    (hpool : pool.mempool.Indexed) (h : pool.tryGetFilledPooled txid = .ok (some (tx, position))) :
    tx.transaction.transaction.txid = txid := by
  rw [tryGetFilledPooled] at h
  cases hpooled : pool.mempool.transactions[txid]? with
  | none =>
    rw [hpooled] at h
    cases h
  | some authorized =>
    rw [hpooled] at h
    dsimp only at h
    split at h
    next filledTx hfill =>
      cases h
      obtain ⟨filled, hfilled, hfill⟩ := bind_eq_ok.mp hfill
      obtain ⟨_, -, hfilled⟩ := bind_eq_ok.mp hfilled
      cases hfill
      cases hfilled
      exact hpool.txid_eq hpooled
    · cases h
    · cases h

theorem tryGetFilledTransaction_txid {tx : Authorized FilledTransaction} {position : Option TxIn}
    (hlists : pool.node.archive.txidToInclusions.Lists pool.node.archive.bodies)
    (hpool : pool.mempool.Indexed)
    (h : pool.tryGetFilledTransaction txid = .ok (some (tx, position))) :
    tx.transaction.transaction.txid = txid := by
  obtain ⟨found, hfound, h⟩ := bind_eq_ok.mp h
  cases found with
  | none => exact tryGetFilledPooled_txid hpool h
  | some inclusion =>
    obtain ⟨transactions, hsplit, h⟩ := bind_eq_ok.mp h
    obtain ⟨authTx, hget, h⟩ := bind_eq_ok.mp h
    obtain ⟨filledTx, hfill, h⟩ := bind_eq_ok.mp h
    cases h
    rw [mapFailure_eq_ok] at hfill
    obtain ⟨_, -, hfill⟩ := bind_eq_ok.mp hfill
    cases hfill
    obtain ⟨tx', hget', htxid⟩ := authorizedTransactions_get hlists (mem_of_findM? hfound) hsplit
    rw [okOr_eq_ok, hget'] at hget
    cases hget
    exact htxid

end PoolNode

/-- As long as a body is stored only over one whose transactions it has too, a transaction
is recorded for a block exactly if the stored body has it, at a position of the body that
has it. A lookup then finds a transaction with the id that it looks for, and reads no
position that does not exist. -/
theorem index_matches_bodies (hcf : CollisionFree) {a : Archive}
    (hrun : ReflTransGen (Archive.BodyStep Archive.Covers) .new a) (state : State)
    (ops : List PoolOp) (txid : Txid) :
    (∀ b : BlockHash, b ∈ a.txidToInclusions.ofTx txid ↔
      ∃ body, a.bodies[b]? = some body ∧ ∃ tx ∈ body.transactions, tx.txid = txid) ∧
    (∀ (b : BlockHash) (i : UInt32), (a.txidToInclusions.ofTx txid)[b]? = some i →
      ∃ (body : Body) (tx : Transaction), a.bodies[b]? = some body ∧
        body.transactions[i.toNat]? = some tx ∧ tx.txid = txid) ∧
    (∃ found, PoolNode.tryGetTransaction ⟨⟨a, state⟩, MemPool.new.run ops⟩ txid = .ok found ∧
      ∀ tx, found = some tx → tx.txid = txid) ∧
    (∀ tx, PoolNode.getAuthorizedTransaction ⟨⟨a, state⟩, MemPool.new.run ops⟩ txid =
      .ok (some tx) → tx.transaction.txid = txid) ∧
    (∀ tx position, PoolNode.tryGetFilledTransaction ⟨⟨a, state⟩, MemPool.new.run ops⟩ txid =
      .ok (some (tx, position)) → tx.transaction.transaction.txid = txid) ∧
    ∀ (b : BlockHash) (i : UInt32) (transactions : List AuthorizedTransaction),
      (b, i) ∈ PoolNode.inclusions ⟨⟨a, state⟩, MemPool.new.run ops⟩ txid →
      PoolNode.authorizedTransactions ⟨⟨a, state⟩, MemPool.new.run ops⟩ b = .ok transactions →
      ∃ tx, transactions[i.toNat]? = some tx ∧ tx.transaction.txid = txid := by
  have hlists := Archive.lists_run hrun
  have hpool := MemPool.indexed_run hcf ops
  refine ⟨fun b => ⟨fun hmem => ?_, ?_⟩, fun b i => hlists.position,
    PoolNode.tryGetTransaction_ok hlists hpool,
    fun tx => PoolNode.getAuthorizedTransaction_txid hlists hpool,
    fun tx position => PoolNode.tryGetFilledTransaction_txid hlists hpool,
    fun b i transactions => PoolNode.authorizedTransactions_get hlists⟩
  · obtain ⟨i, hi⟩ := (Db.mem_iff _ _).mp hmem
    obtain ⟨body, tx, hbody, htx, htxid⟩ := hlists.position hi
    exact ⟨body, hbody, tx, List.mem_of_getElem? htx, htxid⟩
  · rintro ⟨body, hbody, tx, htx, rfl⟩
    exact hlists.listed hbody htx

theorem takeAuthorizations_join (txs : List AuthorizedTransaction)
    (h : ∀ tx ∈ txs, tx.authorizations.length = tx.transaction.inputs.length) :
    takeAuthorizations (txs.map Authorized.transaction) (txs.flatMap Authorized.authorizations) =
      some txs := by
  induction txs with
  | nil => rfl
  | cons tx txs ih =>
    obtain ⟨htx, hrest⟩ := List.forall_mem_cons.mp h
    rw [List.map_cons, List.flatMap_cons, takeAuthorizations, ← htx, List.take_left,
      List.drop_left, ih hrest, if_neg (by rw [List.length_append]; omega)]
    rfl

/-- A body is split into its transactions with their authorizations if it has an
authorization for each input. Then splitting gives back what was joined. -/
theorem body_splits_iff (body : Body) :
    ((∃ authorized, body.authorizedTransactions = some authorized) ↔
      (body.transactions.map fun tx => tx.inputs.length).sum ≤ body.authorizations.length) ∧
    ∀ (txs : List AuthorizedTransaction) (coinbase : Coinbase),
      (∀ tx ∈ txs, tx.authorizations.length = tx.transaction.inputs.length) →
      (Body.new txs coinbase).authorizedTransactions = some txs := by
  refine ⟨⟨?_, fun hle => ?_⟩, fun txs coinbase => takeAuthorizations_join txs⟩
  · rintro ⟨authorized, h⟩
    exact (of_takeAuthorizations h).1
  · obtain ⟨authorized, h, -⟩ := takeAuthorizations_eq_some hle
    exact ⟨authorized, h⟩

end

namespace Instance

/-- A header is stored that the mainchain commits to. -/
def headerOps : List NodeOp :=
  [connectMain mintMain 1, connectMain mintMain 2, connectMain mintMain 3, .header mintHeader]

/-- A peer sends a body for the header, and then another one sends an empty body. -/
def replacedNode : Node := Node.new.run
  (headerOps ++ [.body mintHeader.hash mintBody, .body mintHeader.hash emptyBody])

/-- The second body has no transaction, but that of the first one is still recorded for the
block, and looking it up panics. -/
theorem replaced_body_stays_listed :
    replacedNode.Reaches mintMain (fun _ _ => True) ∧
      replacedNode.archive.bodies[mintHeader.hash]? = some emptyBody ∧
      (replacedNode.archive.txidToInclusions.ofTx mint.txid)[mintHeader.hash]? = some 0 ∧
      PoolNode.tryGetTransaction ⟨replacedNode, .new⟩ mint.txid =
        .error (.panic "called `Option::unwrap()` on a `None` value") := by
  refine ⟨.run .new (by decide +kernel) (Node.permits_true .new _), by decide +kernel,
    by decide +kernel, by decide +kernel⟩

def headerArchive : Archive := (Node.new.run headerOps).archive

def bodyArchive : Archive :=
  (headerArchive.putBody mintHeader.hash mintBody).toOption.getD .new

theorem bodyArchive_run :
    ReflTransGen (Archive.BodyStep Archive.Covers) .new bodyArchive := by
  have hheader : Archive.BodyStep Archive.Covers .new headerArchive :=
    .other (by decide +kernel) (by decide +kernel)
  have hput : headerArchive.putBody mintHeader.hash mintBody = .ok bodyArchive :=
    eq_ok_getD _ (by decide +kernel)
  have hnone : headerArchive.bodies[mintHeader.hash]? = none := by decide +kernel
  refine .tail (.single hheader) (.putBody ⟨by decide +kernel, fun old hold => ?_⟩ hput)
  rw [hnone] at hold
  cases hold

theorem index_matches_bodies_mint :
    mintHeader.hash ∈ bodyArchive.txidToInclusions.ofTx mint.txid ∧
      bodyArchive.bodies[mintHeader.hash]? = some mintBody := by
  have hstored : bodyArchive.bodies[mintHeader.hash]? = some mintBody := by decide +kernel
  have hmatches := index_matches_bodies collisionFree bodyArchive_run .empty [] mint.txid
  exact ⟨(hmatches.1 _).mpr ⟨mintBody, hstored, mint, by decide +kernel, rfl⟩, hstored⟩

/-- A peer sends a body whose transaction spends an output without an authorization. -/
def unsignedBody : Body := { spendBody with authorizations := [] }

def unsignedNode : Node := Node.new.run (headerOps ++ [.body mintHeader.hash unsignedBody])

/-- The body is stored, and looking up its transaction panics. -/
theorem unsigned_body_panics :
    unsignedNode.Reaches mintMain (fun _ _ => True) ∧
      unsignedNode.archive.bodies[mintHeader.hash]? = some unsignedBody ∧
      unsignedBody.authorizedTransactions = none ∧
      PoolNode.getAuthorizedTransaction ⟨unsignedNode, .new⟩ spendMint.txid =
        .error (.panic "called `Option::unwrap()` on a `None` value") := by
  refine ⟨.run .new (by decide +kernel) (Node.permits_true .new _), by decide +kernel,
    by decide +kernel, by decide +kernel⟩

theorem body_splits_iff_spend :
    (∃ authorized, spendBody.authorizedTransactions = some authorized) ∧
      ∀ tx : AuthorizedTransaction, tx.authorizations.length = tx.transaction.inputs.length →
        (Body.new [tx] spendBody.coinbase).authorizedTransactions = some [tx] := by
  refine ⟨(body_splits_iff spendBody).1.mpr (by decide +kernel), fun tx htx => ?_⟩
  exact (body_splits_iff spendBody).2 [tx] _ (List.forall_mem_singleton.mpr htx)

end Instance

end PlainBitnames
