import PlainBitnames.Instance
import PlainBitnames.State.Invariants

/-!
Which validated blocks can be connected. Prevalidation looks neither at the
kinds of coinbase outputs nor at the table of reservations, and it does not
compare the names of a batch ICANN registration with the spent ones. A block
that prevalidation accepts is connected exactly when these are in order and the
sequence numbers do not run out; all other checks that connection makes are
implied by prevalidation.
-/

namespace PlainBitnames

open Borsh Fallible

section

variable [Primitives]

namespace FilledTransaction

/-- The reservation that a transaction burns, if it is a registration. -/
def burned (tx : FilledTransaction) : Option Txid :=
  tx.transaction.impliedReservationCommitment.bind tx.burnedReservation

/-- The names that a transaction declares as ICANN names. -/
def declared (tx : FilledTransaction) : List BitName :=
  (tx.transaction.batchIcannData.map BatchIcannRegistrationData.nameHashes).getD []

/-- The reservations that are recorded after a transaction. -/
def recordedAfter (tx : FilledTransaction) (table : Db Txid Hash) : Db Txid Hash :=
  match tx.burned, tx.transaction.reservationCommitment with
  | some txid, _ => table.erase txid
  | none, some commitment => table.insert tx.txid commitment
  | none, none => table

end FilledTransaction

namespace State

def filled (state : State) (body : Body) : List FilledTransaction :=
  body.transactions.filterMap fun tx => (state.fillTransaction tx).toOption

/-- Every reservation that is burned is recorded when its turn comes. -/
def BurnsRecorded : Db Txid Hash → List FilledTransaction → Prop
  | _, [] => True
  | table, tx :: txs =>
    (∀ txid, tx.burned = some txid → txid ∈ table) ∧ BurnsRecorded (tx.recordedAfter table) txs

/-- The names that transactions declare are spent by them in this order, and
none is declared twice or marked before. -/
structure Declares (dbs : Dbs) (txs : List FilledTransaction) : Prop where
  spent : ∀ tx ∈ txs, tx.declared.Sublist (Dbs.spentNames tx)
  nodup : (txs.flatMap FilledTransaction.declared).Nodup
  unmarked : ∀ name ∈ txs.flatMap FilledTransaction.declared, ∀ data,
    dbs.bitnames[name]? = some data → data.isIcann = false

/-- Every registration finds a sequence number, if some are already used. -/
def SeqsLeft (used : Nat) (txs : List FilledTransaction) : Prop :=
  ∀ i < (txs.filterMap fun tx => tx.transaction.registrationNameHash).length, used + i < 2 ^ 32

/-- What connecting a block demands beyond its validation. -/
structure Connectable (state : State) (body : Body) : Prop where
  coinbase : ∀ output ∈ body.coinbase.outputs, output.isValue = true
  burns : BurnsRecorded state.bitnames.reservations (state.filled body)
  declares : Declares state.bitnames (state.filled body)
  seqs : SeqsLeft state.bitnames.seqsUsed (state.filled body)

variable {state : State}

theorem Prevalid.filled_eq {ctxt : BatchVerificationContext} {header : Header} {body : Body}
    {p : PrevalidatedBlock} (hp : Prevalid ctxt state header body p) :
    state.filled body = p.filledTransactions := by
  have hfills := hp.fills
  unfold filled
  rw [hp.transactions_eq, List.filterMap_map]
  generalize p.filledTransactions = txs at hfills
  induction txs with
  | nil => rfl
  | cons tx txs ih =>
    obtain ⟨hhead, htail⟩ := List.forall_mem_cons.mp hfills
    have hfill : state.fillTransaction tx.transaction = .ok tx :=
      fillTransaction_eq_ok.mpr ⟨rfl, hhead⟩
    rw [List.filterMap_cons, Function.comp_apply, hfill, ih htail]
    rfl

theorem exists_coinbaseUtxos_iff {header : Header} {body : Body} :
    (∃ coinbase, coinbaseUtxos header body = .ok coinbase) ↔
      ∀ output ∈ body.coinbase.outputs, output.isValue = true := by
  unfold coinbaseUtxos
  simp only [mapM_eq_ok]
  generalize body.coinbase.outputs = outputs
  generalize 0 = start
  induction outputs generalizing start with
  | nil => simp
  | cons output outputs ih =>
    rw [List.forall_mem_cons, ← ih (start + 1)]
    constructor
    · rintro ⟨_, _ | ⟨hhead, htail⟩⟩
      refine ⟨?_, _, htail⟩
      obtain ⟨content, hcontent, -⟩ := bind_eq_ok.mp hhead
      unfold Output.isValue
      cases hkind : output.content <;> rw [hkind] at hcontent <;> first | rfl | cases hcontent
    · rintro ⟨hvalue, coinbase, htail⟩
      unfold Output.isValue at hvalue
      have hcontent : ∃ content, fillCoinbaseContent output.content = .ok content := by
        cases hkind : output.content <;> rw [hkind] at hvalue <;>
          first | exact ⟨_, rfl⟩ | cases hvalue
      obtain ⟨content, hcontent⟩ := hcontent
      exact ⟨_, .cons (bind_eq_ok.mpr ⟨content, hcontent, rfl⟩) htail⟩

variable {dbs : Dbs} {tx : FilledTransaction}

theorem DataEffect.reservations {height : Nat} {dbs' : Dbs} (h : DataEffect height dbs tx dbs') :
    dbs'.reservations = tx.recordedAfter dbs.reservations ∧
      ∀ txid, tx.burned = some txid → txid ∈ dbs.reservations := by
  unfold FilledTransaction.recordedAfter FilledTransaction.burned
  cases h with
  | registration hdata himplied hburned hrecorded =>
    simp only [himplied, Option.bind_some, hburned, Option.some.injEq, forall_eq']
    exact ⟨trivial, hrecorded⟩
  | batchIcann hdata _ _ _ hmarks =>
    simp [Transaction.impliedReservationCommitment, Transaction.reservationCommitment, hdata,
      hmarks.reservations_eq]
  | none hdata | update hdata =>
    simp [Transaction.impliedReservationCommitment, Transaction.reservationCommitment, hdata]
  | reservation hdata =>
    simp [Transaction.impliedReservationCommitment, Transaction.reservationCommitment, hdata,
      Dbs.putReservation]

/-- The records of the names that a state has registered, after some names were
declared. -/
def MarkedSince (before : Dbs) (marked : List BitName) (dbs : Dbs) : Prop :=
  ∀ (name : BitName) (data : BitNameData), before.bitnames[name]? = some data →
    ∃ data', dbs.bitnames[name]? = some data' ∧
      data'.isIcann = (data.isIcann || decide (name ∈ marked))

theorem MarkedSince.refl (dbs : Dbs) : MarkedSince dbs [] dbs :=
  fun _ data hget => ⟨data, hget, by simp⟩

variable {marked : List BitName}

theorem MarkedSince.step {height : Nat} {before dbs' : Dbs}
    (hmarked : MarkedSince before marked dbs)
    (hfresh : ∀ name, tx.transaction.registrationNameHash = some name → name ∉ before.bitnames)
    (h : DataEffect height dbs tx dbs') : MarkedSince before (marked ++ tx.declared) dbs' := by
  intro name data hget
  obtain ⟨data', hget', hicann⟩ := hmarked name data hget
  unfold FilledTransaction.declared Transaction.batchIcannData
  cases h with
  | none hdata => exact ⟨data', hget', by simp [hdata, hicann]⟩
  | reservation hdata => exact ⟨data', hget', by simp [hdata, hicann]⟩
  | registration hdata =>
    refine ⟨data', ?_, by simp [hdata, hicann]⟩
    rw [Db.get_insert_ne]
    · exact hget'
    · rintro rfl
      exact hfresh _ (by rw [Transaction.registrationNameHash, hdata]) (Db.mem_of_get hget)
  | @update updates updated data'' hdata hname hrecord =>
    by_cases heq : updated = name
    · subst heq
      rw [hrecord] at hget'
      cases hget'
      exact ⟨_, Db.get_insert_self _ _ _, by simp [hdata, hicann, BitNameData.applyUpdates]⟩
    · exact ⟨data', by rw [Db.get_insert_ne _ _ heq, hget'], by simp [hdata, hicann]⟩
  | batchIcann hdata _ _ _ hmarks =>
    refine ⟨_, by rw [hmarks.get_eq, hget']; rfl, ?_⟩
    simp [hdata, hicann, Bool.or_assoc]

theorem seqsLeft_cons {used : Nat} {txs : List FilledTransaction} :
    SeqsLeft used (tx :: txs) ↔
      (∀ name, tx.transaction.registrationNameHash = some name → used < 2 ^ 32) ∧
        SeqsLeft (used + tx.transaction.registrationNameHash.toList.length) txs := by
  unfold SeqsLeft
  rw [List.filterMap_cons]
  cases tx.transaction.registrationNameHash with
  | none => simp
  | some name =>
    simp only [Option.some.injEq, forall_eq', List.length_cons, Option.toList_some,
      List.length_nil]
    constructor
    · intro h
      refine ⟨h 0 (Nat.succ_pos _), fun i hi => ?_⟩
      have := h (i + 1) (by omega)
      omega
    · rintro ⟨hfirst, hrest⟩ i hi
      cases i with
      | zero => exact hfirst
      | succ i =>
        have := hrest i (by omega)
        omega

theorem exists_updatedBitname (h : tx.spentBitnames ≠ []) :
    ∃ name, tx.updatedBitname = .ok name ∧ name ∈ Dbs.spentNames tx := by
  have hlast := List.getLast?_eq_some_getLast h
  have hmem := List.getLast_mem h
  obtain ⟨name, hname⟩ : ∃ name, (tx.spentBitnames.getLast h).2.bitname = some name := by
    have hkind := (List.mem_filter.mp hmem).2
    generalize (tx.spentBitnames.getLast h) = input at hkind
    obtain ⟨outpoint, address, content, memo⟩ := input
    cases content <;> first | exact ⟨_, rfl⟩ | cases hkind
  refine ⟨name, ?_, List.mem_filterMap.mpr ⟨_, hmem, hname⟩⟩
  rw [FilledTransaction.updatedBitname, hlast, okOr_some, ok_bind, hname, okOr_some]

/-- When a validated transaction can be applied, given that it spends
registered names. -/
theorem exists_applyTx {height : Nat} {fee : Amount} (hvalid : state.Validated tx fee)
    (hnames : ∀ name ∈ Dbs.spentNames tx, name ∈ dbs.bitnames)
    (hburns : ∀ txid, tx.burned = some txid → txid ∈ dbs.reservations)
    (hspent : tx.declared.Sublist (Dbs.spentNames tx)) (hnodup : tx.declared.Nodup)
    (hunmarked : ∀ name ∈ tx.declared, ∀ data, dbs.bitnames[name]? = some data →
      data.isIcann = false)
    (hseqs : ∀ name, tx.transaction.registrationNameHash = some name → dbs.seqsUsed < 2 ^ 32) :
    ∃ dbs', applyTx height dbs tx = .ok dbs' := by
  unfold applyTx applyData
  split
  case h_1 => exact ⟨_, rfl⟩
  case h_2 => exact ⟨_, rfl⟩
  case h_3 nameHash nonce data hdata =>
    have himplied : tx.transaction.impliedReservationCommitment =
        some (Primitives.keyedHash nonce (Primitives.hashBytes nameHash)) := by
      rw [Transaction.impliedReservationCommitment, hdata]
    obtain ⟨burned, hburned⟩ :=
      FilledTransaction.exists_burnedReservation (hvalid.reserved _ himplied)
    have hrecorded := hburns burned (by rw [FilledTransaction.burned, himplied]; exact hburned)
    have hseq := Dbs.nextSeq_eq_ok.mpr
      ⟨rfl, hseqs nameHash (by rw [Transaction.registrationNameHash, hdata])⟩
    rw [Dbs.applyRegistration, himplied, okOr_some, ok_bind, hburned, okOr_some, ok_bind,
      ensure_of hrecorded, ok_bind, hseq]
    exact ⟨_, rfl⟩
  case h_4 updates hdata =>
    obtain ⟨name, hname, hmem⟩ := exists_updatedBitname
      (hvalid.update_spends (by rw [Transaction.isUpdate, hdata]))
    obtain ⟨record, hget⟩ := (Db.mem_iff _ _).mp (hnames name hmem)
    rw [Dbs.applyUpdates, hname, ok_bind, hget]
    exact ⟨_, rfl⟩
  case h_5 batch hdata =>
    have hdeclared : tx.declared = batch.nameHashes := by
      rw [FilledTransaction.declared, Transaction.batchIcannData, hdata]
      rfl
    rw [hdeclared] at hspent hnodup hunmarked
    obtain ⟨dbs', rest, hfold⟩ := Dbs.exists_foldlM_icannStep hspent hnodup (by
      intro name hname
      obtain ⟨record, hget⟩ := (Db.mem_iff _ _).mp (hnames name (hspent.subset hname))
      exact ⟨record, hget, hunmarked name hname record hget⟩)
    rw [Dbs.applyBatchIcann, hfold]
    exact ⟨dbs', rfl⟩

/-- When a validated transaction can be applied after some transactions of its
block, in terms of the state before the block. -/
theorem exists_applyTx_iff (height : Nat) {fee : Amount} (hvalid : state.Validated tx fee)
    (hnames : ∀ name ∈ Dbs.spentNames tx, name ∈ state.bitnames.bitnames)
    (hmarked : MarkedSince state.bitnames marked dbs) :
    (∃ dbs', applyTx height dbs tx = .ok dbs') ↔
      (∀ txid, tx.burned = some txid → txid ∈ dbs.reservations) ∧
        (∀ name, tx.transaction.registrationNameHash = some name → dbs.seqsUsed < 2 ^ 32) ∧
        tx.declared.Sublist (Dbs.spentNames tx) ∧ tx.declared.Nodup ∧
        ∀ name ∈ tx.declared, name ∉ marked ∧
          ∀ data, state.bitnames.bitnames[name]? = some data → data.isIcann = false := by
  constructor
  · rintro ⟨dbs', h⟩
    have heffect := applyTx_ok h
    refine ⟨heffect.reservations.2, heffect.seqsUsed.2, ?_⟩
    unfold FilledTransaction.declared Transaction.batchIcannData
    cases heffect with
    | batchIcann hdata hsublist hnodup hunmarked =>
      simp only [hdata, Option.map_some, Option.getD_some]
      refine ⟨hsublist, hnodup, ?_⟩
      intro name hname
      obtain ⟨record, hrecord⟩ := (Db.mem_iff _ _).mp (hnames name (hsublist.subset hname))
      obtain ⟨data', hget', hicann⟩ := hmarked name record hrecord
      have hfalse := hunmarked name hname data' hget'
      rw [hicann, Bool.or_eq_false_iff, decide_eq_false_iff_not] at hfalse
      refine ⟨hfalse.2, ?_⟩
      intro data hdata
      rw [hrecord] at hdata
      cases hdata
      exact hfalse.1
    | none hdata | reservation hdata | registration hdata | update hdata => simp [hdata]
  · rintro ⟨hburns, hseqs, hspent, hnodup, hunmarked⟩
    refine exists_applyTx hvalid ?_ hburns hspent hnodup ?_ hseqs
    · intro name hname
      obtain ⟨record, hrecord⟩ := (Db.mem_iff _ _).mp (hnames name hname)
      obtain ⟨data', hget', -⟩ := hmarked name record hrecord
      exact Db.mem_of_get hget'
    · intro name hname data hget
      obtain ⟨record, hrecord⟩ :=
        (Db.mem_iff _ _).mp (hnames name (hspent.subset hname))
      obtain ⟨data', hget', hicann⟩ := hmarked name record hrecord
      rw [hget] at hget'
      cases hget'
      obtain ⟨hnot, hfalse⟩ := hunmarked name hname
      simp [hicann, hfalse record hrecord, hnot]

theorem exists_foldlM_applyTx_iff (height : Nat) {txs : List FilledTransaction}
    (hvalid : ∀ tx ∈ txs, ∃ fee, state.Validated tx fee)
    (hnames : ∀ tx ∈ txs, ∀ name ∈ Dbs.spentNames tx, name ∈ state.bitnames.bitnames)
    (hmarked : MarkedSince state.bitnames marked dbs) :
    (∃ dbs', txs.foldlM (applyTx height) dbs = .ok dbs') ↔
      BurnsRecorded dbs.reservations txs ∧ SeqsLeft dbs.seqsUsed txs ∧
        Declares state.bitnames txs ∧
        ∀ name ∈ txs.flatMap FilledTransaction.declared, name ∉ marked := by
  induction txs generalizing dbs marked with
  | nil =>
    exact ⟨fun _ => ⟨trivial, by simp [SeqsLeft], ⟨by simp, by simp, by simp⟩, by simp⟩,
      fun _ => ⟨dbs, rfl⟩⟩
  | cons tx txs ih =>
    obtain ⟨⟨fee, hhead⟩, htail⟩ := List.forall_mem_cons.mp hvalid
    obtain ⟨hnamesHead, hnamesTail⟩ := List.forall_mem_cons.mp hnames
    have hstep := exists_applyTx_iff height hhead hnamesHead hmarked
    have hrest : ∀ {next}, applyTx height dbs tx = .ok next →
        ((∃ dbs', txs.foldlM (applyTx height) next = .ok dbs') ↔
          BurnsRecorded (tx.recordedAfter dbs.reservations) txs ∧
            SeqsLeft (dbs.seqsUsed + tx.transaction.registrationNameHash.toList.length) txs ∧
            Declares state.bitnames txs ∧
            ∀ name ∈ txs.flatMap FilledTransaction.declared, name ∉ marked ++ tx.declared) := by
      intro next hnext
      have heffect := applyTx_ok hnext
      rw [← heffect.reservations.1, ← heffect.seqsUsed.1]
      exact ih htail hnamesTail (hmarked.step hhead.name_fresh heffect)
    simp only [foldlM_cons_eq_ok, BurnsRecorded, seqsLeft_cons, List.flatMap_cons]
    constructor
    · rintro ⟨dbs', next, hnext, hfold⟩
      obtain ⟨hburns, hseqs, hspent, hnodup, hunmarked⟩ := hstep.mp ⟨next, hnext⟩
      obtain ⟨hburns', hseqs', hdeclares, hfresh⟩ := (hrest hnext).mp ⟨dbs', hfold⟩
      refine ⟨⟨hburns, hburns'⟩, ⟨hseqs, hseqs'⟩, ⟨List.forall_mem_cons.mpr ⟨hspent, hdeclares.spent⟩, ?_, ?_⟩, ?_⟩
      · rw [List.flatMap_cons, List.nodup_append]
        refine ⟨hnodup, hdeclares.nodup, ?_⟩
        rintro name hname _ hother rfl
        exact hfresh name hother (List.mem_append_right _ hname)
      · intro name hname
        rw [List.flatMap_cons] at hname
        rcases List.mem_append.mp hname with hname | hname
        · exact (hunmarked name hname).2
        · exact hdeclares.unmarked name hname
      · intro name hname
        rcases List.mem_append.mp hname with hname | hname
        · exact (hunmarked name hname).1
        · exact fun hmem => hfresh name hname (List.mem_append_left _ hmem)
    · rintro ⟨⟨hburns, hburns'⟩, ⟨hseqs, hseqs'⟩, ⟨hspent, hnodup, hunmarked⟩, hfresh⟩
      rw [List.flatMap_cons] at hnodup hunmarked
      obtain ⟨hspentHead, hspentTail⟩ := List.forall_mem_cons.mp hspent
      obtain ⟨hnodupHead, hnodupTail, hdisjoint⟩ := List.nodup_append.mp hnodup
      obtain ⟨next, hnext⟩ := hstep.mpr ⟨hburns, hseqs, hspentHead, hnodupHead, fun name hname =>
        ⟨hfresh name (List.mem_append_left _ hname),
          hunmarked name (List.mem_append_left _ hname)⟩⟩
      obtain ⟨dbs', hfold⟩ := (hrest hnext).mpr ⟨hburns', hseqs', ⟨hspentTail, hnodupTail,
        fun name hname => hunmarked name (List.mem_append_right _ hname)⟩, by
          intro name hname hmem
          rcases List.mem_append.mp hmem with hmem | hmem
          · exact hfresh name (List.mem_append_right _ hname) hmem
          · exact hdisjoint name hmem name hname rfl⟩
      exact ⟨dbs', next, hnext, hfold⟩

/-- In every state of a run, a prevalidated block can be connected exactly when
its coinbase makes value outputs only, its registrations burn recorded
reservations and find sequence numbers, and its batch ICANN registrations
declare spent names that are not yet marked. -/
theorem connectPrevalidated_ok_iff {steps : List Step} {state : State}
    {ctxt : BatchVerificationContext} {header : Header} {body : Body} {p : PrevalidatedBlock}
    (hrun : State.empty.run steps = .ok state)
    (hprevalidate : state.prevalidate ctxt header body = .ok p) :
    (∃ result, state.connectPrevalidated header body p = .ok result) ↔
      state.Connectable body := by
  have hp := prevalidate_ok hprevalidate
  have hnames := (namesRegistered_of_run hrun).2
  have hspent : ∀ tx ∈ p.filledTransactions, ∀ name ∈ Dbs.spentNames tx,
      name ∈ state.bitnames.bitnames := by
    intro tx htx name hname
    obtain ⟨input, hinput, hinputName⟩ := List.mem_filterMap.mp hname
    exact hnames input.1 input.2 name
      ((hp.fills tx htx).get_of_mem (List.mem_filter.mp hinput).1) hinputName
  have happly := exists_foldlM_applyTx_iff p.nextHeight hp.validated hspent
    (MarkedSince.refl state.bitnames)
  have hfillable : ∀ tx ∈ p.filledTransactions, tx.filledOutputs.isSome := by
    intro tx htx
    obtain ⟨fee, hvalid⟩ := hp.validated tx htx
    obtain ⟨filled, hfilled⟩ := hvalid.fillable
    rw [hfilled.filled_eq]
    rfl
  constructor
  · rintro ⟨⟨root, state'⟩, hconnect⟩
    obtain ⟨-, coinbase, dbs, hcoinbase, hdbs, -, -⟩ :=
      (connectPrevalidated_eq_ok hp.transactions_eq hp.fills).mp hconnect
    obtain ⟨hburns, hseqs, hdeclares, -⟩ := happly.mp ⟨dbs, hdbs⟩
    exact ⟨exists_coinbaseUtxos_iff.mp ⟨coinbase, hcoinbase⟩, hp.filled_eq ▸ hburns,
      hp.filled_eq ▸ hdeclares, hp.filled_eq ▸ hseqs⟩
  · rintro ⟨hvalue, hburns, hdeclares, hseqs⟩
    rw [hp.filled_eq] at hburns hdeclares hseqs
    obtain ⟨coinbase, hcoinbase⟩ := exists_coinbaseUtxos_iff.mpr hvalue
    obtain ⟨dbs, hdbs⟩ := happly.mpr ⟨hburns, hseqs, hdeclares, by simp⟩
    exact ⟨(_, _), (connectPrevalidated_eq_ok hp.transactions_eq hp.fills).mpr
      ⟨hfillable, coinbase, dbs, hcoinbase, hdbs, rfl, rfl⟩⟩

end State

end

namespace Instance

/-- A block whose coinbase makes a name output. -/
def nameCoinbaseBody : Body := ⟨⟨[], [⟨7, .bitName, []⟩]⟩, [], []⟩

/-- A block with a name output in its coinbase is valid on top of the empty
state, but cannot be connected. -/
theorem prevalidate_not_connectable :
    ∃ p, State.empty.prevalidate 0 (mine State.empty nameCoinbaseBody) nameCoinbaseBody = .ok p ∧
      ∀ result, State.empty.connectPrevalidated (mine State.empty nameCoinbaseBody)
        nameCoinbaseBody p ≠ .ok result := by
  obtain ⟨p, hp⟩ := exists_of_isOk
    (x := State.empty.prevalidate 0 (mine State.empty nameCoinbaseBody) nameCoinbaseBody)
    (by decide +kernel)
  refine ⟨p, hp, ?_⟩
  intro result h
  obtain ⟨coinbase, hcoinbase, -⟩ := bind_eq_ok.mp h
  cases hcoinbase

/-- The output of `mint` can be spent. -/
theorem connectable_spend :
    ∃ p, State.empty.run (stepsOf [.inl mintBody]) = .ok minted ∧
      minted.prevalidate 0 (mine minted spendBody) spendBody = .ok p ∧
      ((∃ result, minted.connectPrevalidated (mine minted spendBody) spendBody p = .ok result) ↔
        minted.Connectable spendBody) := by
  obtain ⟨p, hp⟩ := exists_of_isOk
    (x := minted.prevalidate 0 (mine minted spendBody) spendBody) (by decide +kernel)
  exact ⟨p, run_minted, hp, State.connectPrevalidated_ok_iff run_minted hp⟩

end Instance

end PlainBitnames
