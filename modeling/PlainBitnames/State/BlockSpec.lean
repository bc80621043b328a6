import PlainBitnames.State.Block

/-!
What an accepted block has passed and what it does. `Prevalid` lists the checks
of a prevalidated block; `connectPrevalidated_eq_ok` says when such a block can
be connected, and that the databases it leaves behind are those with all inputs
of the block deleted and all its outputs put.
-/

namespace PlainBitnames

open Borsh Fallible

variable [Primitives]

namespace FilledTransaction

/-- The outputs a transaction creates, under their outpoints. -/
def created (tx : FilledTransaction) : List (OutPoint × FilledOutput) :=
  (tx.filledOutputs.getD []).zipIdx.map fun (output, vout) =>
    (.regular tx.txid (UInt32.ofNat vout), output)

/-- The outputs a transaction spends, under their outpoints. -/
def spent (tx : FilledTransaction) : List (OutPoint × SpentOutput) :=
  tx.spentInputs.zipIdx.map fun (input, vin) =>
    (input.1, ⟨input.2, .regular tx.txid (UInt32.ofNat vin)⟩)

theorem length_fillOutputs {os : List Output} {bitnames reservations : List FilledContent}
    {filled : List FilledOutput} (h : fillOutputs os bitnames reservations = some filled) :
    filled.length = os.length := by
  induction os generalizing bitnames reservations filled with
  | nil =>
    cases h
    rfl
  | cons o os ih =>
    unfold fillOutputs at h
    split at h
    · split at h
      · cases h
      · obtain ⟨rest, hrest, rfl⟩ := Option.map_eq_some_iff.mp h
        rw [List.length_cons, List.length_cons, ih hrest]
    · split at h
      · cases h
      · obtain ⟨rest, hrest, rfl⟩ := Option.map_eq_some_iff.mp h
        rw [List.length_cons, List.length_cons, ih hrest]
    · obtain ⟨rest, hrest, rfl⟩ := Option.map_eq_some_iff.mp h
      rw [List.length_cons, List.length_cons, ih hrest]
    · obtain ⟨rest, hrest, rfl⟩ := Option.map_eq_some_iff.mp h
      rw [List.length_cons, List.length_cons, ih hrest]

end FilledTransaction

def outpointsOf (outpoint : UInt32 → OutPoint) (outputs : List Output) : List OutPoint :=
  (List.range outputs.length).map fun vout => outpoint (UInt32.ofNat vout)

def Transaction.outpoints (tx : Transaction) : List OutPoint :=
  outpointsOf (.regular tx.txid) tx.outputs

/-- The outpoints the coinbase of a block creates. -/
def coinbaseOutpoints (header : Header) (body : Body) : List OutPoint :=
  outpointsOf (.coinbase header.computeCoinbaseTxid) body.coinbase.outputs

theorem FilledTransaction.map_fst_created {tx : FilledTransaction}
    (h : tx.filledOutputs.isSome) : tx.created.map Prod.fst = tx.transaction.outpoints := by
  obtain ⟨filled, hfilled⟩ := Option.isSome_iff_exists.mp h
  have hlength : filled.length = tx.transaction.outputs.length := length_fillOutputs hfilled
  rw [FilledTransaction.created, hfilled, Option.getD_some, List.map_map]
  change filled.zipIdx.map ((fun vout => OutPoint.regular tx.txid (UInt32.ofNat vout)) ∘ Prod.snd) = _
  rw [← List.map_map, List.zipIdx_map_snd, Transaction.outpoints, outpointsOf, ← hlength,
    List.range_eq_range']
  rfl

namespace State

/-- The outputs a filled transaction carries are those the state has at its
inputs. -/
def Fills (state : State) (tx : FilledTransaction) : Prop :=
  List.Forall₂ (fun input utxo => state.utxos[input]? = some utxo) tx.inputs tx.spentUtxos

variable {state : State} {tx : FilledTransaction}

theorem Fills.length_eq (h : state.Fills tx) : tx.inputs.length = tx.spentUtxos.length :=
  List.Forall₂.length_eq h

theorem Fills.map_fst_spentInputs (h : state.Fills tx) : tx.spentInputs.map Prod.fst = tx.inputs :=
  List.map_fst_zip (Nat.le_of_eq h.length_eq)

theorem Fills.map_snd_spentInputs (h : state.Fills tx) :
    tx.spentInputs.map Prod.snd = tx.spentUtxos :=
  List.map_snd_zip (Nat.le_of_eq h.length_eq.symm)

theorem Fills.get_of_mem (h : state.Fills tx) {input : OutPoint} {utxo : FilledOutput}
    (hmem : (input, utxo) ∈ tx.spentInputs) : state.utxos[input]? = some utxo :=
  (List.forall₂_iff_zip.mp h).2 hmem

theorem Fills.mem_inputs (h : state.Fills tx) {input : OutPoint × FilledOutput}
    (hmem : input ∈ tx.spentInputs) : input.1 ∈ tx.inputs := by
  rw [← h.map_fst_spentInputs]
  exact List.mem_map_of_mem hmem

theorem Fills.mem_utxos (h : state.Fills tx) {input : OutPoint} (hmem : input ∈ tx.inputs) :
    input ∈ state.utxos := by
  rw [← h.map_fst_spentInputs] at hmem
  obtain ⟨⟨input, utxo⟩, hentry, rfl⟩ := List.mem_map.mp hmem
  exact Db.mem_of_get (h.get_of_mem hentry)

theorem fillTransaction_eq_ok {t : Transaction} :
    state.fillTransaction t = .ok tx ↔ tx.transaction = t ∧ state.Fills tx := by
  unfold fillTransaction
  rw [bind_eq_ok]
  simp only [mapM_eq_ok, okOr_eq_ok]
  constructor
  · rintro ⟨utxos, hlookup, htx⟩
    cases htx
    exact ⟨rfl, hlookup⟩
  · rintro ⟨rfl, hfills⟩
    exact ⟨tx.spentUtxos, hfills, rfl⟩

variable {txs : List FilledTransaction}

theorem mapM_fillTransaction_eq_ok {ts : List Transaction} :
    ts.mapM state.fillTransaction = .ok txs ↔
      ts = txs.map FilledTransaction.transaction ∧ ∀ tx ∈ txs, state.Fills tx := by
  rw [mapM_eq_ok]
  simp only [fillTransaction_eq_ok]
  constructor
  · intro h
    induction h with
    | nil => exact ⟨rfl, by simp⟩
    | cons hhead _ ih =>
      obtain ⟨hts, hfills⟩ := ih
      exact ⟨by rw [List.map_cons, hhead.1, hts], List.forall_mem_cons.mpr ⟨hhead.2, hfills⟩⟩
  · rintro ⟨rfl, hfills⟩
    rw [List.forall₂_map_left_iff]
    exact List.forall₂_same.mpr fun tx htx => ⟨rfl, hfills tx htx⟩

/-! The double-spend check accepts only lists without repetition. -/

theorem nodup_of_adjacentEqual {l : List OutPoint}
    (hsorted : l.Pairwise fun a b => (compare a b).isLE = true)
    (h : adjacentEqual l = false) : l.Nodup := by
  induction l with
  | nil => exact List.nodup_nil
  | cons a l ih =>
    cases l with
    | nil => simp
    | cons b l =>
      simp only [adjacentEqual, Bool.or_eq_false_iff, beq_eq_false_iff_ne] at h
      obtain ⟨hhead, htail⟩ := List.pairwise_cons.mp hsorted
      refine List.nodup_cons.mpr ⟨?_, ih htail h.2⟩
      -- a later copy of `a` would lie between `b` and `a`
      intro hmem
      rcases List.mem_cons.mp hmem with heq | hmem
      · exact h.1 heq
      · have hba := (List.pairwise_cons.mp htail).1 a hmem
        have hab := hhead b (by simp)
        exact h.1 (Std.compare_eq_iff_eq.mp (Std.OrientedCmp.isLE_antisymm hab hba))

theorem nodup_of_utxoDoubleSpent {inputs : List OutPoint}
    (h : utxoDoubleSpent inputs = false) : inputs.Nodup := by
  have htotal : Std.Total fun a b : OutPoint => (compare a b).isLE = true :=
    ⟨fun a b => by
      cases hab : (compare a b).isLE with
      | true => exact .inl rfl
      | false => exact .inr (by
          have hnot : ¬ (compare a b).isLE = true := by simp [hab]
          simp [Std.OrientedCmp.lt_of_not_isLE hnot])⟩
  have htrans : IsTrans OutPoint fun a b => (compare a b).isLE = true :=
    ⟨fun _ _ _ => Std.TransOrd.isLE_trans⟩
  have hsorted := List.pairwise_insertionSort (fun a b : OutPoint => (compare a b).isLE = true) inputs
  have hnodup := nodup_of_adjacentEqual hsorted h
  exact (List.perm_insertionSort _ inputs).nodup_iff.mp hnodup

theorem adjacentEqual_of_nodup {l : List OutPoint} (h : l.Nodup) : adjacentEqual l = false := by
  induction l with
  | nil => rfl
  | cons a l ih =>
    obtain ⟨hfresh, hnodup⟩ := List.nodup_cons.mp h
    cases l with
    | nil => rfl
    | cons b l =>
      rw [adjacentEqual, ih hnodup, Bool.or_false]
      exact beq_false_of_ne fun heq => hfresh (heq ▸ List.mem_cons_self)

theorem utxoDoubleSpent_of_nodup {inputs : List OutPoint} (h : inputs.Nodup) :
    utxoDoubleSpent inputs = false :=
  adjacentEqual_of_nodup ((List.perm_insertionSort _ _).nodup_iff.mpr h)

/-- The checks a body has passed, with what they have computed. -/
structure Checked (ctxt : BatchVerificationContext) (state : State) (header : Header)
    (body : Body) (p : PrevalidatedBlock) : Prop where
  fits_body : fits body = true
  size_le : (ser body).length ≤ Body.maxSize
  prev_eq : header.prevSideHash = state.tip
  coinbaseValue_eq : body.getCoinbaseValue = some p.coinbaseValue
  transactions_eq : body.transactions = p.filledTransactions.map FilledTransaction.transaction
  fills : ∀ tx ∈ p.filledTransactions, state.Fills tx
  nodup : (p.filledTransactions.flatMap FilledTransaction.inputs).Nodup
  fees_eq : p.filledTransactions.foldlM state.addFee 0 = .ok p.totalFees
  fees_le : p.coinbaseValue ≤ p.totalFees
  root_eq : Body.computeMerkleRoot body.coinbase p.filledTransactions = .ok header.merkleRoot
  computedRoot_eq : p.computedMerkleRoot = header.merkleRoot
  count_eq : body.authorizations.length =
    (p.filledTransactions.map fun tx => tx.spentUtxosRequiringAuth.length).sum
  addresses : ∀ pair ∈ body.authorizations.zip
    (p.filledTransactions.flatMap FilledTransaction.spentUtxosRequiringAuth),
    pair.1.getAddress = pair.2.address
  verified : verifyAuthorizations ctxt body = .ok ()

/-- The checks a prevalidated block has passed. -/
structure Prevalid (ctxt : BatchVerificationContext) (state : State) (header : Header)
    (body : Body) (p : PrevalidatedBlock) : Prop
    extends Checked ctxt state header body p where
  height_eq : state.nextHeight = .ok p.nextHeight

variable {ctxt : BatchVerificationContext} {header : Header} {body : Body}

theorem checkBody_ok {c : CheckedBody} (h : state.checkBody ctxt header body = .ok c)
    (height : Nat) :
    Checked ctxt state header body
      ⟨c.filledTransactions, c.merkleRoot, c.totalFees, c.coinbaseValue, height⟩ := by
  unfold checkBody at h
  rw [ensure_bind_eq_ok, ensure_bind_eq_ok, ensure_bind_eq_ok] at h
  obtain ⟨hfits, hsize, hprev, h⟩ := h
  obtain ⟨coinbaseValue, hcoinbase, h⟩ := bind_eq_ok.mp h
  obtain ⟨filled, hfilled, h⟩ := bind_eq_ok.mp h
  obtain ⟨hdouble, h⟩ := ensure_bind_eq_ok.mp h
  obtain ⟨totalFees, hfees, h⟩ := bind_eq_ok.mp h
  obtain ⟨hle, h⟩ := ensure_bind_eq_ok.mp h
  obtain ⟨root, hroot, h⟩ := bind_eq_ok.mp h
  rw [ensure_bind_eq_ok, ensure_bind_eq_ok, ensure_bind_eq_ok] at h
  obtain ⟨hheader, hcount, haddresses, h⟩ := h
  obtain ⟨⟨⟩, hverified, h⟩ := bind_eq_ok.mp h
  cases h
  obtain ⟨htransactions, hfills⟩ := mapM_fillTransaction_eq_ok.mp hfilled
  exact {
    fits_body := hfits
    size_le := hsize
    prev_eq := hprev
    coinbaseValue_eq := okOr_eq_ok.mp hcoinbase
    transactions_eq := htransactions
    fills := hfills
    nodup := nodup_of_utxoDoubleSpent hdouble
    fees_eq := hfees
    fees_le := hle
    root_eq := hheader ▸ mapFailure_eq_ok.mp hroot
    computedRoot_eq := hheader
    count_eq := hcount
    addresses := by simpa using haddresses
    verified := mapFailure_eq_ok.mp hverified }

theorem prevalidate_ok {p : PrevalidatedBlock} (h : state.prevalidate ctxt header body = .ok p) :
    Prevalid ctxt state header body p := by
  obtain ⟨c, hchecked, h⟩ := bind_eq_ok.mp h
  obtain ⟨height, hheight, h⟩ := bind_eq_ok.mp h
  cases h
  exact ⟨checkBody_ok hchecked height, hheight⟩

/-- The spent outputs looked up in a state are those the transaction was filled
with. -/
theorem spentOutputs_eq_ok (hfills : state.Fills tx) : state.spentOutputs tx = .ok tx.spent := by
  rw [spentOutputs, FilledTransaction.spent, FilledTransaction.spentInputs, mapM_eq_ok]
  have hzip : ∀ {inputs : List OutPoint} {utxos : List FilledOutput} (vin : Nat),
      List.Forall₂ (fun input utxo => state.utxos[input]? = some utxo) inputs utxos →
      List.Forall₂ (fun (input : OutPoint × Nat) spent => (do
        let spentOutput ← okOr state.utxos[input.1]? (.error (.noUtxo input.1))
        .ok (input.1, ⟨spentOutput, .regular tx.txid (UInt32.ofNat input.2)⟩) :
          Result (OutPoint × SpentOutput)) = .ok spent)
        (inputs.zipIdx vin)
        (((inputs.zip utxos).zipIdx vin).map fun (input, vin) =>
          (input.1, ⟨input.2, .regular tx.txid (UInt32.ofNat vin)⟩)) := by
    intro inputs utxos vin h
    induction h generalizing vin with
    | nil => exact .nil
    | cons hhead _ ih =>
      refine .cons ?_ (ih (vin + 1))
      rw [hhead]
      rfl
  exact hzip 0 hfills

theorem createdUtxos_eq_ok {created : List (OutPoint × FilledOutput)} :
    createdUtxos tx = .ok created ↔ tx.filledOutputs.isSome ∧ created = tx.created := by
  unfold createdUtxos FilledTransaction.created
  cases tx.filledOutputs with
  | none => simp [okOr, bind, Except.bind]
  | some outputs => simp [okOr, bind, Except.bind, eq_comm]

theorem fillCoinbaseContent_eq_ok {content : Content} {filled : FilledContent} :
    fillCoinbaseContent content = .ok filled ↔
      filled.toContent = content ∧ filled.isBitname = false ∧ filled.isReservation = false := by
  cases content <;> cases filled <;>
    simp [fillCoinbaseContent, FilledContent.toContent, FilledContent.isBitname,
      FilledContent.isReservation, eq_comm]

variable {coinbase : List (OutPoint × FilledOutput)}

theorem coinbaseUtxos_eq_ok :
    coinbaseUtxos header body = .ok coinbase ↔
      coinbase.map Prod.fst = coinbaseOutpoints header body ∧
        coinbase.map (fun entry => entry.2.toOutput) = body.coinbase.outputs ∧
        ∀ entry ∈ coinbase, entry.2.isBitname = false ∧ entry.2.isReservation = false := by
  have hentry : ∀ (output : Output) (vout : Nat) (entry : OutPoint × FilledOutput),
      (do
        let content ← fillCoinbaseContent output.content
        .ok (.coinbase header.computeCoinbaseTxid (UInt32.ofNat vout),
          ⟨output.address, content, output.memo⟩) : Result (OutPoint × FilledOutput)) =
        .ok entry ↔
        entry.1 = .coinbase header.computeCoinbaseTxid (UInt32.ofNat vout) ∧
          entry.2.toOutput = output ∧ entry.2.isBitname = false ∧
          entry.2.isReservation = false := by
    intro output vout entry
    rw [bind_eq_ok]
    simp only [fillCoinbaseContent_eq_ok]
    constructor
    · rintro ⟨content, ⟨hcontent, hname, hreservation⟩, hentry⟩
      cases hentry
      exact ⟨rfl, by rw [FilledOutput.toOutput, hcontent], hname, hreservation⟩
    · rintro ⟨hkey, rfl, hname, hreservation⟩
      exact ⟨entry.2.content, ⟨rfl, hname, hreservation⟩, by rw [← hkey]; rfl⟩
  have hkeys : coinbaseOutpoints header body = body.coinbase.outputs.zipIdx.map
      fun entry => .coinbase header.computeCoinbaseTxid (UInt32.ofNat entry.2) := by
    rw [coinbaseOutpoints, outpointsOf, List.range_eq_range', ← List.zipIdx_map_snd 0,
      List.map_map]
    rfl
  unfold coinbaseUtxos
  rw [mapM_eq_ok, hkeys]
  simp only [hentry]
  generalize body.coinbase.outputs = outputs
  generalize hstart : 0 = start
  clear hstart hkeys
  induction outputs generalizing start coinbase with
  | nil =>
    rw [List.zipIdx_nil, List.forall₂_nil_left_iff]
    constructor
    · rintro rfl
      simp
    · rintro ⟨hnil, -⟩
      simpa using hnil
  | cons output outputs ih =>
    cases coinbase with
    | nil => simp
    | cons entry coinbase =>
      simp only [List.zipIdx_cons, List.forall₂_cons, ih, List.map_cons, List.cons.injEq,
        List.forall_mem_cons]
      tauto

theorem map_fst_spent (hfills : state.Fills tx) : tx.spent.map Prod.fst = tx.inputs := by
  rw [← hfills.map_fst_spentInputs, FilledTransaction.spent, List.map_map]
  change tx.spentInputs.zipIdx.map (Prod.fst ∘ Prod.fst) = _
  rw [← List.map_map, List.zipIdx_map_fst]

/-- A spent output is the one the state has, under the input that spends it. -/
theorem Fills.mem_spent (h : state.Fills tx) {entry : OutPoint × SpentOutput}
    (hentry : entry ∈ tx.spent) :
    entry.1 ∈ tx.inputs ∧ state.utxos[entry.1]? = some entry.2.output ∧
      ∃ vin, entry.2.inpoint = .regular tx.txid vin := by
  obtain ⟨⟨input, vin⟩, hmem, rfl⟩ := List.mem_map.mp hentry
  have hinput := List.fst_mem_of_mem_zipIdx hmem
  exact ⟨h.mem_inputs hinput, h.get_of_mem hinput, _, rfl⟩

/-- An output of a coinbase is created under its index. -/
theorem mem_coinbaseUtxos (h : coinbaseUtxos header body = .ok coinbase)
    {entry : OutPoint × FilledOutput} (hentry : entry ∈ coinbase) :
    ∃ i, entry.1 = .coinbase header.computeCoinbaseTxid (UInt32.ofNat i) ∧
      body.coinbase.outputs[i]? = some entry.2.toOutput := by
  obtain ⟨hkeys, houtputs, -⟩ := coinbaseUtxos_eq_ok.mp h
  obtain ⟨i, hi⟩ := List.mem_iff_getElem?.mp hentry
  refine ⟨i, ?_, by rw [← houtputs, List.getElem?_map, hi]; rfl⟩
  have hkey : (coinbaseOutpoints header body)[i]? = some entry.1 := by
    rw [← hkeys, List.getElem?_map, hi]
    rfl
  rw [coinbaseOutpoints, outpointsOf, List.getElem?_map] at hkey
  obtain ⟨j, hj, heq⟩ := Option.map_eq_some_iff.mp hkey
  obtain ⟨hlt, hj⟩ := List.getElem?_eq_some_iff.mp hj
  rw [List.getElem_range] at hj
  rw [hj]
  exact heq.symm

/-- The effect of a filled transaction on the BitName databases. -/
def applyTx (height : Nat) (dbs : Dbs) (tx : FilledTransaction) : Result Dbs :=
  applyData dbs tx.transaction.data tx height

theorem accumulate_eq_ok {height : Nat} {m m' : Mutations} (hfills : state.Fills tx) :
    state.accumulate height m (tx.transaction, tx) = .ok m' ↔
      tx.filledOutputs.isSome ∧ ∃ dbs, applyTx height m.bitnames tx = .ok dbs ∧
        m' = {
          utxoDeletes := Db.putAll m.utxoDeletes (tx.inputs.map fun input => (input, ()))
          stxoPuts := Db.putAll m.stxoPuts tx.spent
          utxoPuts := Db.putAll m.utxoPuts tx.created
          bitnames := dbs } := by
  have hdeletes : (tx.spent.map fun entry => (entry.1, ())) =
      tx.inputs.map fun input => (input, ()) := by
    rw [← map_fst_spent hfills, List.map_map]
    rfl
  simp only [accumulate, spentOutputs_eq_ok hfills, ok_bind, bind_eq_ok, createdUtxos_eq_ok,
    hdeletes, applyTx]
  constructor
  · rintro ⟨created, ⟨hsome, rfl⟩, dbs, hdbs, hm⟩
    cases hm
    exact ⟨hsome, dbs, hdbs, rfl⟩
  · rintro ⟨hsome, dbs, hdbs, rfl⟩
    exact ⟨tx.created, ⟨hsome, rfl⟩, dbs, hdbs, rfl⟩

/-- The mutations of a list of transactions are the batches of their effects. -/
theorem foldlM_accumulate_eq_ok {height : Nat} {m m' : Mutations}
    (hfills : ∀ tx ∈ txs, state.Fills tx) :
    (txs.map fun tx => (tx.transaction, tx)).foldlM (state.accumulate height) m = .ok m' ↔
      (∀ tx ∈ txs, tx.filledOutputs.isSome) ∧
        ∃ dbs, txs.foldlM (applyTx height) m.bitnames = .ok dbs ∧ m' = {
          utxoDeletes := Db.putAll m.utxoDeletes
            ((txs.flatMap FilledTransaction.inputs).map fun input => (input, ()))
          stxoPuts := Db.putAll m.stxoPuts (txs.flatMap FilledTransaction.spent)
          utxoPuts := Db.putAll m.utxoPuts (txs.flatMap FilledTransaction.created)
          bitnames := dbs } := by
  induction txs generalizing m with
  | nil =>
    simp only [List.map_nil, foldlM_nil_eq_ok, List.flatMap_nil, Db.putAll_nil]
    constructor
    · rintro rfl
      exact ⟨by simp, m.bitnames, rfl, rfl⟩
    · rintro ⟨-, dbs, rfl, rfl⟩
      rfl
  | cons tx txs ih =>
    obtain ⟨hhead, htail⟩ := List.forall_mem_cons.mp hfills
    simp only [List.map_cons, foldlM_cons_eq_ok, accumulate_eq_ok hhead, ih htail,
      List.flatMap_cons, List.map_append, Db.putAll_append, List.forall_mem_cons]
    constructor
    · rintro ⟨_, ⟨hsome, dbs, hdbs, rfl⟩, hrest, dbs', hdbs', rfl⟩
      exact ⟨⟨hsome, hrest⟩, dbs', ⟨dbs, hdbs, hdbs'⟩, rfl⟩
    · rintro ⟨⟨hsome, hrest⟩, dbs', ⟨dbs, hdbs, hdbs'⟩, rfl⟩
      exact ⟨_, ⟨hsome, dbs, hdbs, rfl⟩, hrest, dbs', hdbs', rfl⟩

/-- The state with the inputs of some transactions spent and with the outputs of
a coinbase and of the transactions. -/
def batch (state : State) (coinbase : List (OutPoint × FilledOutput))
    (txs : List FilledTransaction) (dbs : Dbs) : State :=
  { state with
    utxos := Db.putAll (Db.eraseAll state.utxos (txs.flatMap FilledTransaction.inputs))
      (coinbase ++ txs.flatMap FilledTransaction.created)
    stxos := Db.putAll state.stxos (txs.flatMap FilledTransaction.spent)
    bitnames := dbs }

/-- Where the utxos after some transactions come from. -/
theorem batch_utxos_cases (dbs : Dbs) {outpoint : OutPoint} {output : FilledOutput}
    (h : (state.batch coinbase txs dbs).utxos[outpoint]? = some output) :
    (outpoint, output) ∈ coinbase ∨ (∃ tx ∈ txs, (outpoint, output) ∈ tx.created) ∨
      outpoint ∉ txs.flatMap FilledTransaction.inputs ∧
        outpoint ∉ (coinbase ++ txs.flatMap FilledTransaction.created).map Prod.fst ∧
        state.utxos[outpoint]? = some output := by
  rcases Db.get_putAll_cases h with hmem | ⟨hnot, hget⟩
  · rcases List.mem_append.mp hmem with hmem | hmem
    · exact .inl hmem
    · exact .inr (.inl (List.mem_flatMap.mp hmem))
  · by_cases hinput : outpoint ∈ txs.flatMap FilledTransaction.inputs
    · rw [Db.get_eraseAll_of_mem hinput] at hget
      cases hget
    · rw [Db.get_eraseAll_of_not_mem hinput] at hget
      exact .inr (.inr ⟨hinput, hnot, hget⟩)

def setTip (state : State) (header : Header) (height : Nat) : State :=
  { state with tip := some header.hash, height := some height }

variable {state' : State}

/-- When a prevalidated block can be connected, and to which state. -/
theorem connectPrevalidated_eq_ok {p : PrevalidatedBlock} {root : MerkleRoot}
    (htransactions : body.transactions = p.filledTransactions.map FilledTransaction.transaction)
    (hfills : ∀ tx ∈ p.filledTransactions, state.Fills tx) :
    state.connectPrevalidated header body p = .ok (root, state') ↔
      (∀ tx ∈ p.filledTransactions, tx.filledOutputs.isSome) ∧
        ∃ coinbase dbs, coinbaseUtxos header body = .ok coinbase ∧
          p.filledTransactions.foldlM (applyTx p.nextHeight) state.bitnames = .ok dbs ∧
          root = p.computedMerkleRoot ∧
          state' = (state.batch coinbase p.filledTransactions dbs).setTip header p.nextHeight := by
  have hzip : body.transactions.zip p.filledTransactions =
      p.filledTransactions.map fun tx => (tx.transaction, tx) := by
    have hmap := List.zip_map' (f := FilledTransaction.transaction) (g := id)
      (l := p.filledTransactions)
    rw [List.map_id] at hmap
    rw [htransactions]
    exact hmap
  unfold connectPrevalidated
  rw [hzip]
  simp only [bind_eq_ok, foldlM_accumulate_eq_ok hfills]
  constructor
  · rintro ⟨coinbase, hcoinbase, _, ⟨hsome, dbs, hdbs, rfl⟩, h⟩
    cases h
    refine ⟨hsome, coinbase, dbs, hcoinbase, hdbs, rfl, ?_⟩
    simp only [batch, setTip, Db.eraseAll_keys_putAll, Db.putAll_toList_putAll,
      ← Db.putAll_append]
  · rintro ⟨hsome, coinbase, dbs, hcoinbase, hdbs, rfl, rfl⟩
    refine ⟨coinbase, hcoinbase, _, ⟨hsome, dbs, hdbs, rfl⟩, ?_⟩
    simp only [batch, setTip, Db.eraseAll_keys_putAll, Db.putAll_toList_putAll,
      ← Db.putAll_append]

/-- What applying a block does: the block is prevalidated, and the state it
leaves behind is the batch of its effects. -/
theorem applyBlock_prevalidated (h : state.applyBlock ctxt header body = .ok state') :
    ∃ p coinbase dbs, state.prevalidate ctxt header body = .ok p ∧
      (∀ tx ∈ p.filledTransactions, tx.filledOutputs.isSome) ∧
      coinbaseUtxos header body = .ok coinbase ∧
      p.filledTransactions.foldlM (applyTx p.nextHeight) state.bitnames = .ok dbs ∧
      state' = (state.batch coinbase p.filledTransactions dbs).setTip header p.nextHeight := by
  obtain ⟨p, hp, h⟩ := bind_eq_ok.mp h
  obtain ⟨⟨root, state''⟩, hconnect, h⟩ := bind_eq_ok.mp h
  cases h
  have hprevalid := prevalidate_ok hp
  obtain ⟨hsome, coinbase, dbs, hcoinbase, hdbs, -, rfl⟩ :=
    (connectPrevalidated_eq_ok hprevalid.transactions_eq hprevalid.fills).mp hconnect
  exact ⟨p, coinbase, dbs, hp, hsome, hcoinbase, hdbs, rfl⟩

theorem applyBlock_ok (h : state.applyBlock ctxt header body = .ok state') :
    ∃ p coinbase dbs, Prevalid ctxt state header body p ∧
      (∀ tx ∈ p.filledTransactions, tx.filledOutputs.isSome) ∧
      coinbaseUtxos header body = .ok coinbase ∧
      p.filledTransactions.foldlM (applyTx p.nextHeight) state.bitnames = .ok dbs ∧
      state' = (state.batch coinbase p.filledTransactions dbs).setTip header p.nextHeight := by
  obtain ⟨p, coinbase, dbs, hp, hrest⟩ := applyBlock_prevalidated h
  exact ⟨p, coinbase, dbs, prevalidate_ok hp, hrest⟩

def heightAfter (height : Option Nat) : Nat := height.elim 0 (· + 1)

theorem nextHeight_ok {height : Nat} (h : state.nextHeight = .ok height) :
    height = heightAfter state.height := by
  unfold nextHeight at h
  split at h
  case h_1 hheight =>
    cases h
    rw [hheight]
    rfl
  case h_2 previous hheight =>
    obtain ⟨-, h⟩ := ensure_bind_eq_ok.mp h
    cases h
    rw [hheight]
    rfl

theorem applyBlock_height (h : state.applyBlock ctxt header body = .ok state') :
    state'.height = some (heightAfter state.height) := by
  obtain ⟨p, coinbase, dbs, hp, -, -, -, rfl⟩ := applyBlock_ok h
  exact congrArg some (nextHeight_ok hp.height_eq)

end State

end PlainBitnames
