import PlainBitnames.Node.Mining
import PlainBitnames.Properties.Authorization
import PlainBitnames.Properties.Connectable
import PlainBitnames.State.History

/-!
When the block of a template can be applied to the state that it was made for. The
checks of each transaction imply the checks of the block, except for the size of the
body and for what the transactions do to the names and reservations one after another.
-/

namespace PlainBitnames

open Borsh Fallible

theorem zip_flatMap {α β γ : Type} {f : α → List β} {g : α → List γ} {l : List α}
    (h : ∀ a ∈ l, (f a).length = (g a).length) :
    (l.flatMap f).zip (l.flatMap g) = l.flatMap fun a => (f a).zip (g a) := by
  induction l with
  | nil => rfl
  | cons a l ih =>
    obtain ⟨hhead, htail⟩ := List.forall_mem_cons.mp h
    rw [List.flatMap_cons, List.flatMap_cons, List.flatMap_cons, List.zip_append hhead, ih htail]

theorem chunks_sound {α : Type} {n : Nat} (hn : 0 < n) {l chunk : List α} (h : chunk ∈ chunks n l) :
    chunk ≠ [] ∧ chunk ⊆ l := by
  obtain ⟨k, hk, rfl⟩ := List.mem_map.mp h
  have hk := List.mem_range.mp hk
  have hlt : k * n < l.length := by
    have hle := (Nat.le_div_iff_mul_le hn).mp (Nat.succ_le_of_lt hk)
    rw [Nat.succ_mul] at hle
    omega
  refine ⟨fun hnil => ?_, fun a ha => List.mem_of_mem_drop (List.mem_of_mem_take ha)⟩
  have hlength := congrArg List.length hnil
  rw [List.length_take, List.length_drop, List.length_nil] at hlength
  omega

section

variable [Primitives]

/-- Batch verification accepts all batches of valid signatures. A batch is not empty. -/
def BatchComplete : Prop :=
  ∀ ctxt items, items ≠ [] →
    (∀ item ∈ items, Primitives.verifySignature item.1 item.2.1 item.2.2 = true) →
    Primitives.verifyBatch ctxt items = true

/-- A transaction without the outputs that it is filled with. -/
def Authorized.unfilled (tx : Authorized FilledTransaction) : AuthorizedTransaction :=
  ⟨tx.transaction.transaction, tx.authorizations⟩

variable {ctxt : BatchVerificationContext} {state : State} {tx : Authorized FilledTransaction}
  {txs : List (Authorized FilledTransaction)}

theorem authorizations_new (txs : List (Authorized FilledTransaction)) (coinbase : Coinbase) :
    (Body.new (txs.map Authorized.unfilled) coinbase).authorizations =
      txs.flatMap Authorized.authorizations :=
  List.flatMap_map ..

theorem transactions_new (txs : List (Authorized FilledTransaction)) (coinbase : Coinbase) :
    (Body.new (txs.map Authorized.unfilled) coinbase).transactions =
      txs.map fun tx => tx.transaction.transaction :=
  List.map_map ..

namespace State

theorem Admitted.length_eq (h : state.Admitted ctxt tx) :
    tx.authorizations.length = tx.transaction.inputs.length := by
  obtain ⟨hle, h⟩ := ensure_bind_eq_ok.mp h.verified
  obtain ⟨hge, -⟩ := ensure_bind_eq_ok.mp h
  exact Nat.le_antisymm hge hle

theorem Admitted.requiringAuth_eq (h : state.Admitted ctxt tx) :
    tx.transaction.spentUtxosRequiringAuth = tx.transaction.spentUtxos := by
  refine (spentUtxosRequiringAuth_sublist _).eq_of_length ?_
  rw [← h.count_eq, h.length_eq]
  exact h.fills.length_eq

theorem Admitted.verifySignature (hsound : BatchSound) (h : state.Admitted ctxt tx)
    {authorization : Authorization} (hmem : authorization ∈ tx.authorizations) :
    Primitives.verifySignature authorization.verifyingKey authorization.signature
      (txMsgCanonical tx.transaction.transaction) = true := by
  obtain ⟨-, hverified⟩ := ensure_bind_eq_ok.mp h.verified
  obtain ⟨-, hverified⟩ := ensure_bind_eq_ok.mp hverified
  rw [if_neg (by simpa using List.ne_nil_of_mem hmem)] at hverified
  obtain ⟨-, hverified⟩ := ensure_bind_eq_ok.mp hverified
  have hchunk := ensure_eq_ok.mp hverified
  refine hsound ctxt _ hchunk
    (authorization.verifyingKey, authorization.signature, txMsgCanonical tx.transaction.transaction) ?_
  rw [List.map_map]
  exact List.mem_map.mpr ⟨authorization, hmem, rfl⟩

/-- The authorizations of a block are right if those of each transaction are. -/
theorem verifyAuthorizations_new (hsound : BatchSound) (hcomplete : BatchComplete)
    (h : ∀ tx ∈ txs, state.Admitted ctxt tx) {coinbase : Coinbase}
    (hfits : fits (Body.new (txs.map Authorized.unfilled) coinbase) = true) :
    verifyAuthorizations ctxt (Body.new (txs.map Authorized.unfilled) coinbase) = .ok () := by
  let message := fun tx : Authorized FilledTransaction =>
    List.replicate tx.transaction.inputs.length (txMsgCanonical tx.transaction.transaction)
  have hlength : ∀ tx ∈ txs, tx.authorizations.length = (message tx).length := fun tx htx =>
    (h tx htx).length_eq.trans List.length_replicate.symm
  have hpairs : authorizationPairs (Body.new (txs.map Authorized.unfilled) coinbase) =
      txs.flatMap fun tx => tx.authorizations.zip (message tx) := by
    rw [← zip_flatMap hlength, authorizationPairs, authorizations_new, transactions_new,
      List.flatMap_map]
    rfl
  have hcount : (Body.new (txs.map Authorized.unfilled) coinbase).authorizations.length =
      ((Body.new (txs.map Authorized.unfilled) coinbase).transactions.map fun tx =>
        tx.inputs.length).sum := by
    rw [authorizations_new, transactions_new, List.length_flatMap, List.map_map]
    exact congrArg List.sum (List.map_congr_left fun tx htx => (h tx htx).length_eq)
  have hpairsLength : (authorizationPairs (Body.new (txs.map Authorized.unfilled)
      coinbase)).length = (Body.new (txs.map Authorized.unfilled) coinbase).authorizations.length := by
    rw [hpairs, authorizations_new, List.length_flatMap, List.length_flatMap]
    refine congrArg List.sum (List.map_congr_left fun tx htx => ?_)
    rw [List.length_zip, ← hlength tx htx, Nat.min_self]
  have htransactions : (Body.new (txs.map Authorized.unfilled) coinbase).transactions.all fits =
      true :=
    List.all_eq_true.mpr (fits_parts hfits).1
  have hchunks : (chunks chunkSize (authorizationPairs (Body.new (txs.map Authorized.unfilled)
      coinbase))).all (verifyChunk ctxt) = true := by
    refine List.all_eq_true.mpr fun chunk hchunk => ?_
    obtain ⟨hne, hsubset⟩ := chunks_sound (by decide) hchunk
    refine hcomplete ctxt _ (by simpa using hne) fun item hitem => ?_
    obtain ⟨⟨authorization, msg⟩, hpair, rfl⟩ := List.mem_map.mp hitem
    have hmem := hsubset hpair
    rw [hpairs] at hmem
    obtain ⟨tx, htx, hmem⟩ := List.mem_flatMap.mp hmem
    obtain ⟨hauthorization, hmsg⟩ := List.of_mem_zip hmem
    obtain rfl := List.eq_of_mem_replicate hmsg
    exact (h tx htx).verifySignature hsound hauthorization
  unfold verifyAuthorizations
  dsimp only
  rw [ensure_of hcount.ge, ok_bind, ensure_of hcount.le, ok_bind, ensure_of htransactions, ok_bind,
    ensure_of hpairsLength, ok_bind, ensure_of hchunks]

theorem foldlM_addFee_eq (h : ∀ tx ∈ txs, state.Admitted ctxt tx) {fees fees' : Amount}
    (hfees : fees.toNat + totalFees txs = fees'.toNat) :
    (txs.map Authorized.transaction).foldlM state.addFee fees = .ok fees' := by
  induction txs generalizing fees with
  | nil => exact congrArg Except.ok (UInt64.toNat_inj.mp hfees)
  | cons tx txs ih =>
    obtain ⟨⟨_, _, _, _, fee, hvalid⟩, htail⟩ := List.forall_mem_cons.mp h
    have hfee := (validateFilledTransaction_ok hvalid).fee_eq
    have htotal : totalFees (tx :: txs) = fee.toNat + totalFees txs := by
      rw [totalFees, List.map_cons, List.sum_cons, hfee]
      rfl
    have hlt := fees'.toNat_lt
    have hadd : Checked.add? fees fee = some (fees + fee) := if_pos (by omega)
    have hsum := Checked.add?_eq_some.mp hadd
    rw [List.map_cons, List.foldlM_cons, addFee, hvalid, ok_bind, hadd, okOr_some]
    exact ih htail (by omega)

/-- A body passes the checks if it has what they establish. -/
theorem Checked.checkBody {header : Header} {body : Body} {p : PrevalidatedBlock}
    (h : Checked ctxt state header body p) :
    state.checkBody ctxt header body =
      .ok ⟨p.filledTransactions, p.coinbaseValue, p.totalFees, header.merkleRoot⟩ := by
  unfold State.checkBody
  rw [ensure_of h.fits_body, ok_bind, ensure_of h.size_le, ok_bind, ensure_of h.prev_eq, ok_bind,
    h.coinbaseValue_eq, okOr_some, ok_bind,
    mapM_fillTransaction_eq_ok.mpr ⟨h.transactions_eq, h.fills⟩, ok_bind,
    ensure_of (utxoDoubleSpent_of_nodup h.nodup), ok_bind, h.fees_eq, ok_bind, ensure_of h.fees_le,
    ok_bind, mapFailure_eq_ok.mpr h.root_eq, ok_bind, ensure_of rfl, ok_bind]
  dsimp only
  rw [ensure_of h.count_eq, ok_bind, ensure_of (by simpa using h.addresses), ok_bind,
    mapFailure_eq_ok.mpr h.verified, ok_bind]

/-- Transactions that are admitted one by one make a block that is valid unless it is
too large. -/
theorem checked_of_admitted (hsound : BatchSound) (hcomplete : BatchComplete)
    (h : ∀ tx ∈ txs, state.Admitted ctxt tx)
    (hnodup : (txs.flatMap fun tx => tx.transaction.inputs).Nodup) {address : Address}
    {fees : Amount} (hfees : totalFees txs = fees.toNat) {header : Header}
    (hprev : header.prevSideHash = state.tip)
    (hroot : Body.computeMerkleRoot (templateCoinbase address fees)
      (txs.map Authorized.transaction) = .ok header.merkleRoot)
    (hfits : fits (Body.new (txs.map Authorized.unfilled) (templateCoinbase address fees)) = true)
    (hsize : (ser (Body.new (txs.map Authorized.unfilled)
      (templateCoinbase address fees))).length ≤ Body.maxSize) (height : Nat) :
    Checked ctxt state header (Body.new (txs.map Authorized.unfilled)
      (templateCoinbase address fees))
      ⟨txs.map Authorized.transaction, header.merkleRoot, fees, fees, height⟩ where
  fits_body := hfits
  size_le := hsize
  prev_eq := hprev
  coinbaseValue_eq := by
    rw [Body.getCoinbaseValue, Body.new, templateCoinbase]
    split
    case isTrue hzero => rw [hzero]; rfl
    case isFalse => exact Checked.sum?_eq_some.mpr (Nat.add_zero _)
  transactions_eq := by
    rw [transactions_new, List.map_map]
    rfl
  fills tx htx := by
    obtain ⟨authorized, hauthorized, rfl⟩ := List.mem_map.mp htx
    exact (h authorized hauthorized).fills
  nodup := by rwa [List.flatMap_map]
  fees_eq := foldlM_addFee_eq h (by rw [UInt64.toNat_zero, Nat.zero_add, hfees])
  fees_le := UInt64.le_refl _
  root_eq := hroot
  computedRoot_eq := rfl
  count_eq := by
    rw [authorizations_new, List.length_flatMap, List.map_map]
    exact congrArg List.sum (List.map_congr_left fun tx htx => (h tx htx).count_eq)
  addresses pair hpair := by
    rw [authorizations_new, List.flatMap_map, zip_flatMap fun tx htx => (h tx htx).count_eq] at hpair
    obtain ⟨tx, htx, hpair⟩ := List.mem_flatMap.mp hpair
    rw [(h tx htx).requiringAuth_eq] at hpair
    exact (h tx htx).addresses pair hpair
  verified := verifyAuthorizations_new hsound hcomplete h hfits

/-- An admitted transaction that declares a name does not spend that name first. -/
theorem Admitted.declared_eq_nil (h : state.Admitted ctxt tx)
    (hspent : tx.transaction.declared.Sublist (Dbs.spentNames tx.transaction)) :
    tx.transaction.declared = [] := by
  cases hdeclared : tx.transaction.declared with
  | nil => rfl
  | cons name names =>
    rw [hdeclared] at hspent
    obtain ⟨input, hinput, hname⟩ := List.mem_filterMap.mp (hspent.subset List.mem_cons_self)
    have hmem := (List.of_mem_zip (List.mem_filter.mp hinput).1).2
    have hlength := congrArg List.length h.requiringAuth_eq
    unfold FilledTransaction.declared at hdeclared
    unfold FilledTransaction.spentUtxosRequiringAuth at hlength
    cases hdata : tx.transaction.transaction.batchIcannData with
    | none =>
      rw [hdata] at hdeclared
      cases hdeclared
    | some data =>
      rw [hdata] at hdeclared hlength
      dsimp only at hlength
      rw [show data.nameHashes = name :: names from hdeclared] at hlength
      exact absurd hlength (length_retainRequiringAuth_lt hmem hname).ne

end State

/-- The pooled transactions among the first ones that are valid on the state. -/
def PoolNode.validTransactions (ctxt : BatchVerificationContext) (pool : PoolNode) (number : Nat) :
    List (Authorized FilledTransaction) :=
  (pool.mempool.take number).filterMap (pool.node.state.fillValid ctxt)

/-- The body that valid transactions make with a coinbase output for their fees. -/
def bodyOf (txs : List (Authorized FilledTransaction)) (address : Address) : Body :=
  Body.new (txs.map Authorized.unfilled) (templateCoinbase address (UInt64.ofNat (totalFees txs)))

/-- The valid ones among the first pooled transactions make a body that is serialized in
at most `Body.maxSize` bytes. Each reservation that they burn is recorded when its turn
comes, none of them declares ICANN names, and heights and sequence numbers are left. -/
structure PoolNode.Includable (ctxt : BatchVerificationContext) (pool : PoolNode) (number : Nat)
    (address : Address) : Prop where
  fits_body : fits (bodyOf (pool.validTransactions ctxt number) address) = true
  size_le : (ser (bodyOf (pool.validTransactions ctxt number) address)).length ≤ Body.maxSize
  height : ∀ height, pool.node.state.height = some height → height + 1 < 2 ^ 32
  burns : State.BurnsRecorded pool.node.state.bitnames.reservations
    ((pool.validTransactions ctxt number).map Authorized.transaction)
  declares : ∀ tx ∈ pool.validTransactions ctxt number, tx.transaction.declared = []
  seqs : State.SeqsLeft pool.node.state.bitnames.seqsUsed
    ((pool.validTransactions ctxt number).map Authorized.transaction)

/-- What a template on top of the tip of the state holds. -/
theorem Node.buildBlockTemplate_full {node : Node} {prevMainHash : MainBlockHash}
    {txs : List (Authorized FilledTransaction)} {fees : Amount} {address : Address}
    {bribe : Option Amount} {template : BlockTemplate}
    (h : node.buildBlockTemplate prevMainHash (txs, fees) address bribe = .ok template)
    (htip : template.header.prevSideHash = node.state.tip) :
    template.body = Body.new (txs.map Authorized.unfilled) (templateCoinbase address fees) ∧
      Body.computeMerkleRoot (templateCoinbase address fees) (txs.map Authorized.transaction) =
        .ok template.header.merkleRoot := by
  obtain ⟨prevSideHash, -, h⟩ := bind_eq_ok.mp h
  obtain ⟨⟨bribe, header, body, fees⟩, hparts, h⟩ := bind_eq_ok.mp h
  obtain ⟨height, -, h⟩ := bind_eq_ok.mp h
  cases h
  split at hparts
  case isTrue =>
    obtain ⟨root, hroot, hparts⟩ := bind_eq_ok.mp hparts
    cases hparts
    exact ⟨rfl, mapFailure_eq_ok.mp hroot⟩
  case isFalse hne =>
    obtain ⟨root, -, hparts⟩ := bind_eq_ok.mp hparts
    cases hparts
    exact absurd htip hne

/-- What `get_transactions` returns from a mempool that was filled. -/
theorem PoolNode.getTransactions_ok {ctxt : BatchVerificationContext} {pool pool' : PoolNode}
    {number : Nat} {txs : List (Authorized FilledTransaction)} {fees : Amount}
    (hpool : pool.mempool.Filled)
    (h : pool.getTransactions ctxt number = .ok (pool', txs, fees)) :
    txs = pool.validTransactions ctxt number ∧ totalFees txs = fees.toNat := by
  obtain ⟨selection, hselection, h⟩ := bind_eq_ok.mp h
  cases h
  obtain ⟨hreturned, hfee⟩ := Selection.foldlM_step_ok hselection
    (hpool.tracked.disjoint_take number) fun _ _ _ _ => List.not_mem_nil
  rw [List.nil_append] at hreturned
  rw [UInt64.toNat_zero, Nat.zero_add, ← hreturned] at hfee
  exact ⟨hreturned, hfee.symm⟩

theorem PoolNode.nodup_validTransactions {ctxt : BatchVerificationContext} {pool : PoolNode}
    (hpool : pool.mempool.Filled) (number : Nat) :
    ((pool.validTransactions ctxt number).flatMap fun tx => tx.transaction.inputs).Nodup := by
  have hinputs : ∀ {transaction tx}, pool.node.state.fillValid ctxt transaction = some tx →
      tx.transaction.inputs = transaction.transaction.inputs := fun h =>
    congrArg Transaction.inputs (State.fillValid_eq_some h).2.1
  rw [List.nodup_flatMap]
  constructor
  · intro tx htx
    obtain ⟨transaction, htransaction, hadmitted⟩ := List.mem_filterMap.mp htx
    rw [hinputs hadmitted]
    exact hpool.tracked.nodup_take htransaction
  · refine (hpool.tracked.disjoint_take number).filterMap _ ?_
    intro transaction transaction' hdisjoint tx htx tx' htx' input hinput hinput'
    exact hdisjoint input (hinputs htx ▸ hinput) (hinputs htx' ▸ hinput')

theorem PoolNode.admitted {ctxt : BatchVerificationContext} {pool : PoolNode} {number : Nat} :
    ∀ tx ∈ pool.validTransactions ctxt number, pool.node.state.Admitted ctxt tx := by
  intro tx htx
  obtain ⟨transaction, -, hadmitted⟩ := List.mem_filterMap.mp htx
  exact (State.fillValid_eq_some hadmitted).1

theorem State.filled_new (h : ∀ tx ∈ txs, state.Admitted ctxt tx) (coinbase : Coinbase) :
    state.filled (Body.new (txs.map Authorized.unfilled) coinbase) =
      txs.map Authorized.transaction := by
  rw [filled, transactions_new, List.filterMap_map, ← List.filterMap_eq_map]
  refine List.filterMap_congr fun tx htx => ?_
  rw [Function.comp_apply, fillTransaction_eq_ok.mpr ⟨rfl, (h tx htx).fills⟩]
  rfl

theorem State.declares_of_nil {dbs : Dbs} {txs : List FilledTransaction}
    (h : ∀ tx ∈ txs, tx.declared = []) : Declares dbs txs := by
  have hnone : txs.flatMap FilledTransaction.declared = [] := List.flatMap_eq_nil_iff.mpr h
  refine ⟨fun tx htx => ?_, ?_, ?_⟩
  · rw [h tx htx]
    exact List.nil_sublist _
  · rw [hnone]
    exact List.nodup_nil
  · rw [hnone]
    exact fun _ hname => absurd hname List.not_mem_nil

theorem isValue_templateCoinbase (address : Address) (fees : Amount) :
    ∀ output ∈ (templateCoinbase address fees).outputs, output.isValue = true := by
  intro output houtput
  unfold templateCoinbase at houtput
  split at houtput
  case isTrue => cases houtput
  case isFalse =>
    obtain rfl := List.mem_singleton.mp houtput
    rfl

/-- The block of a template on top of the tip, with the transactions of the mempool, is
applied exactly when the valid pooled transactions make a body that is not too large and
their effects on names and reservations are possible one after another. -/
theorem template_applies_iff (hsound : BatchSound) (hcomplete : BatchComplete)
    {steps : List Step} {pool pool' : PoolNode}
    (hrun : State.empty.run steps = .ok pool.node.state) (hpool : pool.mempool.Filled)
    {ctxt : BatchVerificationContext} {number : Nat} {txs : List (Authorized FilledTransaction)}
    {fees : Amount} (hget : pool.getTransactions ctxt number = .ok (pool', txs, fees))
    {prevMainHash : MainBlockHash} {address : Address} {bribe : Option Amount}
    {template : BlockTemplate}
    (htemplate : pool.node.buildBlockTemplate prevMainHash (txs, fees) address bribe =
      .ok template)
    (htip : template.header.prevSideHash = pool.node.state.tip) :
    (∃ state', pool.node.state.applyBlock ctxt template.header template.body = .ok state') ↔
      pool.Includable ctxt number address := by
  obtain ⟨rfl, hfees⟩ := PoolNode.getTransactions_ok hpool hget
  obtain ⟨hbody, hroot⟩ := Node.buildBlockTemplate_full htemplate htip
  have hadmitted : ∀ tx ∈ pool.validTransactions ctxt number,
      pool.node.state.Admitted ctxt tx := PoolNode.admitted
  have hbodyOf : bodyOf (pool.validTransactions ctxt number) address = template.body := by
    rw [bodyOf, hfees, UInt64.ofNat_toNat, hbody]
  have hfilled : pool.node.state.filled template.body =
      (pool.validTransactions ctxt number).map Authorized.transaction := by
    rw [hbody, State.filled_new hadmitted]
  constructor
  · rintro ⟨state', h⟩
    obtain ⟨p, hprevalidate, h⟩ := bind_eq_ok.mp h
    obtain ⟨result, hconnect, -⟩ := bind_eq_ok.mp h
    have hp := State.prevalidate_ok hprevalidate
    obtain ⟨-, hburns, hdeclares, hseqs⟩ :=
      (State.connectPrevalidated_ok_iff hrun hprevalidate).mp ⟨result, hconnect⟩
    rw [hfilled] at hburns hdeclares hseqs
    refine ⟨hbodyOf ▸ hp.fits_body, hbodyOf ▸ hp.size_le, fun height hheight => ?_, hburns,
      fun tx htx => ?_, hseqs⟩
    · have hnext := hp.height_eq
      rw [State.nextHeight, hheight] at hnext
      exact (ensure_bind_eq_ok.mp hnext).1
    · exact (hadmitted tx htx).declared_eq_nil (hdeclares.spent _ (List.mem_map_of_mem htx))
  · intro h
    obtain ⟨height, hheight⟩ : ∃ height, pool.node.state.nextHeight = .ok height := by
      unfold State.nextHeight
      cases hstate : pool.node.state.height with
      | none => exact ⟨0, rfl⟩
      | some height => exact ⟨height + 1, ensure_bind_eq_ok.mpr ⟨h.height height hstate, rfl⟩⟩
    have hchecked := State.checked_of_admitted hsound hcomplete hadmitted
      (PoolNode.nodup_validTransactions hpool number) hfees htip hroot
      (by rw [← hbody, ← hbodyOf]; exact h.fits_body)
      (by rw [← hbody, ← hbodyOf]; exact h.size_le) height
    rw [← hbody] at hchecked
    have hprevalidate : ∃ p, pool.node.state.prevalidate ctxt template.header template.body =
        .ok p :=
      ⟨_, bind_eq_ok.mpr ⟨_, hchecked.checkBody, bind_eq_ok.mpr ⟨height, hheight, rfl⟩⟩⟩
    obtain ⟨p, hprevalidate⟩ := hprevalidate
    have hconnectable : pool.node.state.Connectable template.body := by
      refine ⟨?_, hfilled ▸ h.burns, ?_, hfilled ▸ h.seqs⟩
      · rw [hbody]
        exact isValue_templateCoinbase address fees
      · rw [hfilled]
        exact State.declares_of_nil (List.forall_mem_map.mpr h.declares)
    obtain ⟨⟨root, state'⟩, hconnect⟩ :=
      (State.connectPrevalidated_ok_iff hrun hprevalidate).mpr hconnectable
    exact ⟨state', bind_eq_ok.mpr ⟨p, hprevalidate, bind_eq_ok.mpr ⟨_, hconnect, rfl⟩⟩⟩

end

namespace Instance

/-- A transaction without inputs and outputs. -/
def memoTx (memo : List UInt8) : Transaction := ⟨[], [], memo, none⟩

/-- A new node whose mempool holds one such transaction. -/
def memoPool (memo : List UInt8) : PoolNode :=
  ⟨.new, MemPool.new.add ⟨memoTx memo, []⟩⟩

theorem validateTransaction_memoTx (memo : List UInt8) :
    State.empty.validateTransaction 0 ⟨memoTx memo, []⟩ = .ok 0 := rfl

theorem broadcastTransaction_memoTx (memo : List UInt8) :
    PoolNode.new.broadcastTransaction 0 ⟨memoTx memo, []⟩ = .ok (memoPool memo) := by
  have hput : MemPool.new.put ⟨memoTx memo, []⟩ = .ok (MemPool.new.add ⟨memoTx memo, []⟩) :=
    MemPool.put_eq_ok.mpr ⟨List.nodup_nil, nofun, rfl⟩
  have hvalid : mapFailure NodeError.state
      (PoolNode.new.node.state.validateTransaction 0 ⟨memoTx memo, []⟩) = .ok 0 :=
    mapFailure_eq_ok.mpr (validateTransaction_memoTx memo)
  have hfresh : (memoTx memo).txid ∉ PoolNode.new.mempool.transactions := Db.not_mem_empty _
  have hmempool : mapFailure NodeError.memPool (PoolNode.new.mempool.put ⟨memoTx memo, []⟩) =
      .ok (MemPool.new.add ⟨memoTx memo, []⟩) :=
    mapFailure_eq_ok.mpr hput
  rw [PoolNode.broadcastTransaction, hvalid, ok_bind, if_neg hfresh, hmempool]
  rfl

theorem take_memoPool (memo : List UInt8) (number : Nat) :
    (memoPool memo).mempool.take (number + 1) = [⟨memoTx memo, []⟩] := by
  have hfresh : (memoTx memo).txid ∉ (∅ : Db Txid AuthorizedTransaction) := Db.not_mem_empty _
  have hperm := Db.toList_insert_perm (⟨memoTx memo, []⟩ : AuthorizedTransaction) hfresh
  rw [Std.ExtTreeMap.toList_eq_nil_iff.mpr rfl, List.perm_singleton] at hperm
  have hentries : (memoPool memo).mempool.transactions.toList =
      [((memoTx memo).txid, ⟨memoTx memo, []⟩)] := hperm
  rw [MemPool.take, hentries, List.take_succ_cons, List.take_nil]
  rfl

theorem getTransactions_memoPool (memo : List UInt8) (number : Nat) :
    (memoPool memo).getTransactions 0 (number + 1) =
      .ok (memoPool memo, [⟨⟨memoTx memo, []⟩, []⟩], 0) := by
  rw [PoolNode.getTransactions, take_memoPool]
  rfl

theorem length_ser_memoTx (memo : List UInt8) : (ser (memoTx memo)).length = memo.length + 13 := by
  have hmemo : (ser memo).length = memo.length + 4 := by
    simp [ser, leBytes]
  have hser : ser (memoTx memo) =
      ser ([] : List OutPoint) ++ (ser ([] : List Output) ++ (ser memo ++ [0])) := rfl
  rw [hser, List.length_append, List.length_append, List.length_append, hmemo]
  simp [ser]
  omega

theorem length_ser_memoBody (memo : List UInt8) :
    (ser (⟨⟨[], []⟩, [memoTx memo], []⟩ : Body)).length = memo.length + 29 := by
  have htransactions : (ser [memoTx memo]).length = memo.length + 17 := by
    rw [show ser [memoTx memo] = leBytes 4 1 ++ (ser (memoTx memo) ++ []) from rfl,
      List.length_append, length_leBytes, List.append_nil, length_ser_memoTx, Nat.add_comm]
  rw [show ser (⟨⟨[], []⟩, [memoTx memo], []⟩ : Body) =
      ser (⟨[], []⟩ : Coinbase) ++ (ser [memoTx memo] ++ ser ([] : List Authorization)) from rfl,
    List.length_append, List.length_append, htransactions]
  simp [ser]
  omega

theorem fits_memoTx {memo : List UInt8} (hlength : memo.length < 2 ^ 32) :
    fits (memoTx memo) = true := by
  have hmemo : fits memo = true := fits_list.mpr ⟨hlength, fun _ _ => rfl⟩
  show (true && true && fits memo && true) = true
  rw [hmemo]
  rfl

theorem exists_merkleRoot_memoTx {memo : List UInt8} (hlength : memo.length < 2 ^ 32) :
    ∃ root, Body.computeMerkleRoot ⟨[], []⟩ [⟨memoTx memo, []⟩] = .ok root := by
  have hsize : (ser (memoTx memo)).length < 2 ^ 64 := by
    rw [length_ser_memoTx]
    omega
  obtain ⟨leaf, hleaf⟩ : ∃ leaf, Body.transactionLeaf 1 ⟨memoTx memo, []⟩ 0 = .ok leaf :=
    ⟨_, bind_eq_ok.mpr ⟨0, rfl, ensure_bind_eq_ok.mpr ⟨⟨fits_memoTx hlength, hsize⟩, rfl⟩⟩⟩
  refine ⟨_, bind_eq_ok.mpr ⟨[leaf], ?_, rfl⟩⟩
  rw [List.zipIdx_singleton, mapM_eq_ok]
  exact .cons hleaf .nil

theorem exists_template_memoTx {memo : List UInt8} (hlength : memo.length < 2 ^ 32) :
    ∃ template, (memoPool memo).node.buildBlockTemplate 1 ([⟨⟨memoTx memo, []⟩, []⟩], 0) 7 none =
        .ok template ∧
      template.header.prevSideHash = none ∧ template.body = ⟨⟨[], []⟩, [memoTx memo], []⟩ := by
  obtain ⟨root, hroot⟩ := exists_merkleRoot_memoTx hlength
  have hroot : mapFailure TemplateError.computeMerkleRoot
      (Body.computeMerkleRoot ⟨[], []⟩ [⟨memoTx memo, []⟩]) = .ok root := mapFailure_eq_ok.mpr hroot
  have hparts : fullTemplate none 1 ([⟨⟨memoTx memo, []⟩, []⟩], 0) 7 none =
      .ok (1000, ⟨root, none, 1⟩, ⟨⟨[], []⟩, [memoTx memo], []⟩, 0) :=
    bind_eq_ok.mpr ⟨root, hroot, rfl⟩
  refine ⟨⟨1000, ⟨root, none, 1⟩, 0, ⟨⟨[], []⟩, [memoTx memo], []⟩, 0⟩, ?_, rfl, rfl⟩
  exact bind_eq_ok.mpr ⟨none, rfl, bind_eq_ok.mpr ⟨_, hparts, rfl⟩⟩

/-- A memo that does not fit into a block. -/
def largeMemo : List UInt8 := List.replicate (Body.maxSize + 1) 0

/-- A transaction that is larger than a block is admitted to the mempool, and the template
with it is too large. -/
theorem large_template_rejected :
    PoolNode.new.broadcastTransaction 0 ⟨memoTx largeMemo, []⟩ = .ok (memoPool largeMemo) ∧
      (memoPool largeMemo).getTransactions 0 1000 =
        .ok (memoPool largeMemo, [⟨⟨memoTx largeMemo, []⟩, []⟩], 0) ∧
      ∃ template, (memoPool largeMemo).node.buildBlockTemplate 1
          ([⟨⟨memoTx largeMemo, []⟩, []⟩], 0) 7 none = .ok template ∧
        template.header.prevSideHash = (memoPool largeMemo).node.state.tip ∧
        (memoPool largeMemo).node.state.applyBlock 0 template.header template.body =
          .error (.error .bodyTooLarge) := by
  have hlength : largeMemo.length = 8388609 := List.length_replicate
  obtain ⟨template, htemplate, hprev, hbody⟩ :=
    exists_template_memoTx (show largeMemo.length < 2 ^ 32 by omega)
  refine ⟨broadcastTransaction_memoTx _, getTransactions_memoPool _ 999, template, htemplate, hprev,
    ?_⟩
  have hfits : fits template.body = true := by
    rw [hbody]
    show (true && (true && (fits (memoTx largeMemo) && true)) && true) = true
    rw [fits_memoTx (by omega)]
    rfl
  have hsize : ¬ (ser template.body).length ≤ Body.maxSize := by
    rw [hbody, length_ser_memoBody, hlength]
    decide
  refine bind_eq_error.mpr (.inl (bind_eq_error.mpr (.inl ?_)))
  rw [State.checkBody, ensure_of hfits, ok_bind]
  exact bind_eq_error.mpr (.inl (ensure_eq_error.mpr ⟨hsize, rfl⟩))

theorem batchComplete : BatchComplete := fun _ _ _ h => List.all_eq_true.mpr h

theorem validTransactions_memoPool (memo : List UInt8) (number : Nat) :
    (memoPool memo).validTransactions 0 (number + 1) = [⟨⟨memoTx memo, []⟩, []⟩] := by
  rw [PoolNode.validTransactions, take_memoPool]
  rfl

theorem template_applies_iff_memoTx :
    ∃ template, (memoPool [1]).node.buildBlockTemplate 1 ([⟨⟨memoTx [1], []⟩, []⟩], 0) 7 none =
        .ok template ∧
      ∃ state', (memoPool [1]).node.state.applyBlock 0 template.header template.body =
        .ok state' := by
  have hpool : (memoPool [1]).mempool.Filled :=
    PoolNode.filled_broadcastTransaction .new (broadcastTransaction_memoTx [1])
  have hrun : State.empty.run [] = .ok (memoPool [1]).node.state := rfl
  obtain ⟨template, htemplate, hprev, -⟩ :=
    exists_template_memoTx (show [1].length < 2 ^ 32 by decide)
  refine ⟨template, htemplate, (template_applies_iff batchSound batchComplete hrun hpool
    (getTransactions_memoPool [1] 999) htemplate hprev).mpr ?_⟩
  have hvalid := validTransactions_memoPool [1] 999
  refine ⟨?_, ?_, nofun, ?_, ?_, ?_⟩
  · rw [hvalid]
    decide +kernel
  · rw [hvalid]
    decide +kernel
  · rw [hvalid]
    exact ⟨nofun, trivial⟩
  · rw [hvalid]
    exact List.forall_mem_singleton.mpr rfl
  · rw [hvalid]
    intro i hi
    cases hi

end Instance

end PlainBitnames
