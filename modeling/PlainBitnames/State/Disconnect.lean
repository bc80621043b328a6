import PlainBitnames.State.NameHistory

/-!
Taking back a block. The transactions are filled from the spent outputs, and as long as
these are the ones that the block has spent, the records of names return to what they were
before it.
-/

namespace PlainBitnames

open Fallible

variable [Primitives]

/-- The entries of a store are entries of another one. -/
def StxosWithin (stxos stxos' : Db OutPoint SpentOutput) : Prop :=
  ∀ (outpoint : OutPoint) (spent : SpentOutput), stxos[outpoint]? = some spent →
    stxos'[outpoint]? = some spent

theorem StxosWithin.refl (stxos : Db OutPoint SpentOutput) : StxosWithin stxos stxos :=
  fun _ _ h => h

theorem StxosWithin.trans {a b c : Db OutPoint SpentOutput} (hab : StxosWithin a b)
    (hbc : StxosWithin b c) : StxosWithin a c :=
  fun outpoint spent h => hbc outpoint spent (hab outpoint spent h)

/-- The spent outputs record what a transaction has spent. -/
structure FilledTransaction.RecordedIn (tx : FilledTransaction) (stxos : Db OutPoint SpentOutput) :
    Prop where
  length_eq : tx.inputs.length = tx.spentUtxos.length
  get_eq : ∀ entry ∈ tx.spent, stxos[entry.1]? = some entry.2

namespace State

variable {tx : FilledTransaction}

theorem mem_spent_of_lt {i : Nat} (hi : i < tx.inputs.length) (hi' : i < tx.spentUtxos.length) :
    (tx.inputs[i], (⟨tx.spentUtxos[i], .regular tx.txid (UInt32.ofNat i)⟩ : SpentOutput)) ∈
      tx.spent := by
  refine List.mem_map.mpr ⟨((tx.inputs[i], tx.spentUtxos[i]), i), ?_, rfl⟩
  rw [List.mem_zipIdx_iff_getElem?]
  simp [FilledTransaction.spentInputs, List.getElem?_zip_eq_some]

/-- A transaction is filled from the spent outputs as it was when they were recorded. -/
theorem fillTransactionFromStxos_eq {state : State} {filled : FilledTransaction}
    {stxos : Db OutPoint SpentOutput} (hwithin : StxosWithin state.stxos stxos)
    (hrecorded : tx.RecordedIn stxos)
    (h : state.fillTransactionFromStxos tx.transaction = .ok filled) : filled = tx := by
  obtain ⟨outputs, houtputs, h⟩ := bind_eq_ok.mp h
  cases h
  have hforall := List.forall₂_reverse_iff.mp ((List.reverse_reverse outputs).symm ▸
    mapM_eq_ok.mp houtputs)
  have hlength : outputs.reverse.length = tx.spentUtxos.length := by
    rw [← hforall.length_eq, List.length_zipIdx]
    exact hrecorded.length_eq
  have hspent : outputs.reverse = tx.spentUtxos := by
    refine List.ext_getElem hlength ?_
    intro i hi hi'
    have hinput : i < tx.transaction.inputs.length := by
      rw [show tx.transaction.inputs.length = tx.spentUtxos.length from hrecorded.length_eq]
      exact hi'
    have hstep := hforall.get (by rwa [List.length_zipIdx]) hi
    rw [List.get_eq_getElem, List.get_eq_getElem, List.getElem_zipIdx] at hstep
    obtain ⟨stxo, hstxo, hstep⟩ := bind_eq_ok.mp hstep
    obtain ⟨-, hstep⟩ := ensure_bind_eq_ok.mp hstep
    have hold := hrecorded.get_eq _ (mem_spent_of_lt hinput hi')
    have hnew := hwithin _ _ (okOr_eq_ok.mp hstxo)
    cases hold.symm.trans hnew
    exact (Except.ok.inj hstep).symm
  rw [hspent]

theorem foldlM_deleteUtxo_frame {outpoints : List OutPoint} {state state' : State}
    (h : outpoints.foldlM deleteUtxo state = .ok state') :
    state'.bitnames = state.bitnames ∧ state'.stxos = state.stxos := by
  refine foldlM_invariant (P := fun s : State => s.bitnames = state.bitnames ∧
    s.stxos = state.stxos) ⟨rfl, rfl⟩ ?_ h
  intro _ _ _ _ hs hstep
  obtain ⟨-, hstep⟩ := ensure_bind_eq_ok.mp hstep
  cases hstep
  exact hs

/-- Outputs that are moved back are no longer spent. -/
theorem foldlM_unspend_frame {outpoints : List OutPoint} {state state' : State}
    (h : outpoints.foldlM unspend state = .ok state') :
    state'.bitnames = state.bitnames ∧ StxosWithin state'.stxos state.stxos ∧
      ∀ outpoint ∈ outpoints, outpoint ∉ state'.stxos := by
  refine foldlM_history (P := fun done (s : State) => s.bitnames = state.bitnames ∧
    StxosWithin s.stxos state.stxos ∧ ∀ outpoint ∈ done, outpoint ∉ s.stxos)
    ⟨rfl, .refl _, by simp⟩ ?_ h
  rintro done outpoint s s' - ⟨hbitnames, hwithin, hdone⟩ hstep
  obtain ⟨spent, hget, hstep⟩ := bind_eq_ok.mp hstep
  cases hstep
  refine ⟨hbitnames, ?_, ?_⟩
  · intro other entry hentry
    rw [Db.get_erase] at hentry
    split at hentry
    · cases hentry
    · exact hwithin other entry hentry
  · intro other hother hmem
    obtain ⟨hne, hmem⟩ := (Db.mem_erase _ _ _).mp hmem
    rcases List.mem_append.mp hother with hother | hother
    · exact hdone other hother hmem
    · exact hne (List.mem_singleton.mp hother).symm

variable {height : Nat}

/-- What taking back a transaction does. -/
theorem disconnectTransaction_ok {acc acc' : State × List FilledTransaction} {tx : Transaction}
    (h : disconnectTransaction height acc tx = .ok acc') :
    ∃ filled dbs, acc.1.fillTransactionFromStxos tx = .ok filled ∧
      revertData acc.1.bitnames tx.data filled height = .ok dbs ∧
      acc'.1.bitnames = dbs ∧ acc'.2 = acc.2 ++ [filled] ∧
      StxosWithin acc'.1.stxos acc.1.stxos ∧ ∀ input ∈ tx.inputs, input ∉ acc'.1.stxos := by
  obtain ⟨filled, hfilled, h⟩ := bind_eq_ok.mp h
  obtain ⟨dbs, hdbs, h⟩ := bind_eq_ok.mp h
  obtain ⟨deleted, hdeleted, h⟩ := bind_eq_ok.mp h
  obtain ⟨unspent, hunspent, h⟩ := bind_eq_ok.mp h
  cases h
  obtain ⟨hbitnames, hstxos⟩ := foldlM_deleteUtxo_frame hdeleted
  obtain ⟨hbitnames', hwithin, hgone⟩ := foldlM_unspend_frame hunspent
  refine ⟨filled, dbs, hfilled, hdbs, hbitnames'.trans hbitnames, rfl, ?_, ?_⟩
  · rw [hstxos] at hwithin
    exact hwithin
  · intro input hinput
    exact hgone input (List.mem_reverse.mpr hinput)

/-- The texts of the assertions in the undoing of updates. -/
def revertAssertions : List String :=
  ["assert!(popped.is_some())", "assert_eq!(popped.data, value)",
    "assert_eq!(popped.txid, txid)", "assert_eq!(popped.height, height)"]

/-- The failure is an assertion in the undoing of updates. -/
def RevertAssertion {E : Type} : Failure E → Prop
  | .panic message => message ∈ revertAssertions
  | .error _ => False

omit [Primitives] in
theorem RevertAssertion.of_map {E F : Type} {f : E → F} (e : Failure E)
    (h : RevertAssertion (e.map f)) : RevertAssertion e := by
  cases e with
  | panic message => exact h
  | error => exact h

/-- Undoing the updates of a transaction succeeds and returns the record to what it was. -/
theorem revertUpdates_eq {dbs dbs' : Dbs} {updates : BitNameDataUpdates} {name : BitName}
    {data : BitNameData} (hname : tx.updatedBitname = .ok name)
    (hget : dbs.bitnames[name]? = some data)
    (hnames : dbs'.bitnames = dbs.bitnames.insert name (data.applyUpdates updates tx.txid height)) :
    ∃ reverted, dbs'.revertUpdates tx updates height = .ok reverted ∧
      reverted.bitnames = dbs.bitnames := by
  have hget' : dbs'.bitnames[name]? = some (data.applyUpdates updates tx.txid height) := by
    rw [hnames, Db.get_insert_self]
  refine ⟨{ dbs' with bitnames := dbs'.bitnames.insert name data }, ?_, ?_⟩
  · rw [Dbs.revertUpdates, hname, ok_bind, hget', okOr_some, ok_bind,
      BitNameData.revertUpdates_applyUpdates, ok_bind]
  · rw [hnames, Db.insert_insert]
    apply Db.ext
    intro other
    by_cases hother : name = other
    · subst hother
      rw [Db.get_insert_self, hget]
    · rw [Db.get_insert_ne _ _ hother]

/-- Undoing the effect of a transaction returns the records of names to what they were. -/
theorem DataEffect.revert_names {dbs dbs' later reverted : Dbs}
    (heffect : DataEffect height dbs tx dbs')
    (hfresh : ∀ name, tx.transaction.registrationNameHash = some name → name ∉ dbs.bitnames)
    (hnames : later.bitnames = dbs'.bitnames)
    (h : revertData later tx.transaction.data tx height = .ok reverted) :
    reverted.bitnames = dbs.bitnames := by
  cases heffect with
  | none hdata =>
    rw [hdata] at h
    cases h
    exact hnames
  | reservation hdata =>
    rw [hdata] at h
    obtain ⟨-, h⟩ := ensure_bind_eq_ok.mp h
    cases h
    exact hnames
  | @registration nameHash _ _ _ _ _ hdata =>
    have hnone := hfresh nameHash (by rw [Transaction.registrationNameHash, hdata])
    rw [hdata] at h
    obtain ⟨_, -, h⟩ := bind_eq_ok.mp (mapFailure_eq_ok.mp h)
    obtain ⟨_, -, h⟩ := bind_eq_ok.mp h
    obtain ⟨-, h⟩ := ensure_bind_eq_ok.mp h
    obtain ⟨-, h⟩ := ensure_bind_eq_ok.mp h
    obtain ⟨_, -, h⟩ := bind_eq_ok.mp h
    obtain ⟨_, -, h⟩ := bind_eq_ok.mp h
    cases h
    change later.bitnames.erase nameHash = dbs.bitnames
    rw [hnames, Db.erase_insert_of_fresh _ hnone]
  | update hdata hname hget =>
    rw [hdata] at h
    obtain ⟨_, hreverted, heq⟩ := revertUpdates_eq hname hget hnames
    cases (mapFailure_eq_ok.mp h).symm.trans hreverted
    exact heq
  | @batchIcann batch _ hdata _ _ _ hmarks =>
    rw [hdata] at h
    have hrevert := mapFailure_eq_ok.mp h
    have hnone : batch.nameHashes = [] := by
      refine Dbs.revertBatchIcann_of_marked ?_ hrevert
      intro name hmem data hget
      rw [hnames, hmarks.get_eq] at hget
      obtain ⟨_, -, rfl⟩ := Option.map_eq_some_iff.mp hget
      simp [hmem]
    rw [Dbs.revertBatchIcann, hnone] at hrevert
    cases hrevert
    rw [hnames]
    apply Db.ext
    intro name
    rw [hmarks.get_eq, hnone]
    cases dbs.bitnames[name]? <;> simp

/-- Undoing the effect of a transaction does not run into an assertion of updates. -/
theorem DataEffect.revert_avoids {dbs dbs' later : Dbs} (heffect : DataEffect height dbs tx dbs')
    (hnames : later.bitnames = dbs'.bitnames) :
    Avoids RevertAssertion (revertData later tx.transaction.data tx height) := by
  have hpanic (message : String) (hnot : message ∉ revertAssertions) :
      ¬ RevertAssertion (.panic message : Failure BitNameError) := hnot
  have herror (e : BitNameError) : ¬ RevertAssertion (.error e) := id
  cases heffect with
  | none hdata =>
    rw [hdata]
    exact .ok _
  | reservation hdata =>
    rw [hdata]
    exact (Avoids.ensure fun _ => id).bind fun _ _ => .ok _
  | registration hdata =>
    rw [hdata]
    refine Avoids.mapFailure ?_ RevertAssertion.of_map
    refine (Avoids.okOr fun _ => herror _).bind fun _ _ => ?_
    refine (Avoids.okOr fun _ => hpanic _ (by decide)).bind fun _ _ => ?_
    refine (Avoids.ensure fun _ => hpanic _ (by decide)).bind fun _ _ => ?_
    refine (Avoids.ensure fun _ => herror _).bind fun _ _ => ?_
    refine (Avoids.okOr fun _ => hpanic _ (by decide)).bind fun _ _ => ?_
    exact (Avoids.okOr fun _ => hpanic _ (by decide)).bind fun _ _ => .ok _
  | update hdata hname hget =>
    rw [hdata]
    obtain ⟨reverted, hreverted, -⟩ := revertUpdates_eq hname hget hnames
    exact Avoids.mapFailure (.of_ok ⟨reverted, hreverted⟩) RevertAssertion.of_map
  | batchIcann hdata =>
    rw [hdata]
    refine Avoids.mapFailure ?_ RevertAssertion.of_map
    refine Avoids.bind ?_ fun _ _ => .ok _
    refine Avoids.foldlM (P := fun _ => True) trivial fun s _ name _ => ⟨?_, fun _ _ => trivial⟩
    refine (Avoids.okOr fun _ => herror _).bind fun _ _ => ?_
    refine (Avoids.okOr fun _ => herror _).bind fun _ _ => ?_
    exact (Avoids.ensure fun _ => hpanic _ (by decide)).bind fun _ _ => .ok _

/-- The transactions of a body are taken back: their inputs are no longer spent. -/
theorem foldlM_disconnectTransaction_frame {txs : List Transaction}
    {acc acc' : State × List FilledTransaction}
    (h : txs.foldlM (disconnectTransaction height) acc = .ok acc') :
    StxosWithin acc'.1.stxos acc.1.stxos ∧
      (∀ tx ∈ txs, ∀ input ∈ tx.inputs, input ∉ acc'.1.stxos) := by
  refine foldlM_history (P := fun done (a : State × List FilledTransaction) =>
    StxosWithin a.1.stxos acc.1.stxos ∧ ∀ tx ∈ done, ∀ input ∈ tx.inputs, input ∉ a.1.stxos)
    ⟨.refl _, by simp⟩ ?_ h
  rintro done tx a a' - ⟨hwithin, hdone⟩ hstep
  obtain ⟨_, _, -, -, -, -, hstxos, hgone⟩ := disconnectTransaction_ok hstep
  refine ⟨hstxos.trans hwithin, ?_⟩
  intro other hother input hinput hmem
  rcases List.mem_append.mp hother with hother | hother
  · obtain ⟨spent, hget⟩ := (Db.mem_iff _ _).mp hmem
    exact hdone other hother input hinput (Db.mem_of_get (hstxos input spent hget))
  · cases List.mem_singleton.mp hother
    exact hgone input hinput hmem

/-- The names that the transactions of a body register. -/
def registeredNames (body : Body) : List BitName :=
  body.transactions.filterMap Transaction.registrationNameHash

/-- A state is as good as the one right after a block for taking the block back. -/
structure Resembles (state top : State) : Prop where
  names_eq : state.bitnames.bitnames = top.bitnames.bitnames
  stxos : StxosWithin state.stxos top.stxos
  height_eq : state.height = top.height

theorem Resembles.refl (state : State) : state.Resembles state := ⟨rfl, .refl _, rfl⟩

theorem Resembles.trans {a b c : State} (hab : a.Resembles b) (hbc : b.Resembles c) :
    a.Resembles c :=
  ⟨hab.names_eq.trans hbc.names_eq, hab.stxos.trans hbc.stxos, hab.height_eq.trans hbc.height_eq⟩

section

variable {ctxt : BatchVerificationContext} {before top state : State} {header : Header}
  {body : Body}

/-- What the transactions of a connected block have recorded, as their undoing needs it. -/
structure Undoable (before top : State) (header : Header) (body : Body)
    (txs : List FilledTransaction) (height : Nat) : Prop where
  transactions_eq : body.transactions = txs.map FilledTransaction.transaction
  fold_eq : txs.foldlM (applyTx height) before.bitnames = .ok top.bitnames
  fresh : before.bitnames.Fresh txs
  recorded : ∀ tx ∈ txs, tx.RecordedIn top.stxos
  root_eq : Body.computeMerkleRoot body.coinbase txs = .ok header.merkleRoot
  height_eq : top.height = some height
  heightAfter_eq : height = heightAfter before.height
  stxos : ∀ (outpoint : OutPoint) (spent : SpentOutput), top.stxos[outpoint]? = some spent →
    (∃ tx ∈ body.transactions, outpoint ∈ tx.inputs) ∨ before.stxos[outpoint]? = some spent

theorem undoable_of_applyBlock (h : before.applyBlock ctxt header body = .ok top)
    (hnodup : (registeredNames body).Nodup) : ∃ txs height, Undoable before top header body txs height := by
  obtain ⟨p, coinbase, dbs, hp, -, -, hfold, rfl⟩ := applyBlock_ok h
  have htransactions := hp.transactions_eq
  have hkeys : (p.filledTransactions.flatMap FilledTransaction.spent).map Prod.fst =
      p.filledTransactions.flatMap FilledTransaction.inputs := by
    rw [List.map_flatMap]
    exact List.flatMap_congr fun tx htx => map_fst_spent (hp.fills tx htx)
  refine ⟨p.filledTransactions, p.nextHeight, htransactions, hfold, ⟨?_, ?_⟩, ?_, hp.root_eq,
    rfl, nextHeight_ok hp.height_eq, ?_⟩
  · rw [registeredNames, htransactions, List.filterMap_map] at hnodup
    exact hnodup
  · intro tx htx name hname
    obtain ⟨fee, hvalid⟩ := hp.validated tx htx
    exact hvalid.name_fresh name hname
  · intro tx htx
    refine ⟨(hp.fills tx htx).length_eq, fun entry hentry => ?_⟩
    refine Db.get_putAll_of_mem ?_ (List.mem_flatMap.mpr ⟨tx, htx, hentry⟩)
    rw [hkeys]
    exact hp.nodup
  · intro outpoint spent hget
    rcases Db.get_putAll_cases hget with hmem | ⟨-, hget⟩
    · obtain ⟨tx, htx, hentry⟩ := List.mem_flatMap.mp hmem
      refine .inl ⟨tx.transaction, ?_, ((hp.fills tx htx).mem_spent hentry).1⟩
      rw [htransactions]
      exact List.mem_map_of_mem htx
    · exact .inr hget

/-- When some last transactions of a block have been taken back, the records of names are
those before these transactions. -/
structure Reverted (top : State) (txs : List FilledTransaction) (dbs : Dbs)
    (acc : State × List FilledTransaction) : Prop where
  names_eq : acc.1.bitnames.bitnames = dbs.bitnames
  stxos : StxosWithin acc.1.stxos top.stxos
  filled_eq : acc.2 = txs.reverse

/-- The part of the transactions of a block that is still to be applied. -/
def Remaining (top : State) (txs : List FilledTransaction) (dbs : Dbs) : Prop :=
  dbs.Fresh txs ∧ ∀ tx ∈ txs, tx.RecordedIn top.stxos

variable {height : Nat} {txs : List FilledTransaction}

theorem Remaining.step {tx : FilledTransaction} {dbs dbs' : Dbs} (h : Remaining top (tx :: txs) dbs)
    (hstep : applyTx height dbs tx = .ok dbs') : Remaining top txs dbs' :=
  ⟨(applyTx_ok hstep).fresh h.1, fun other hother => h.2 other (List.mem_cons_of_mem _ hother)⟩

variable {acc : State × List FilledTransaction}

theorem Reverted.step {tx : FilledTransaction} {dbs dbs' : Dbs}
    {acc' : State × List FilledTransaction} (hremaining : Remaining top (tx :: txs) dbs)
    (hstep : applyTx height dbs tx = .ok dbs') (h : Reverted top txs dbs' acc)
    (hrevert : disconnectTransaction height acc tx.transaction = .ok acc') :
    Reverted top (tx :: txs) dbs acc' := by
  obtain ⟨filled, reverted, hfilled, hreverted, heq, hacc, hstxos, -⟩ :=
    disconnectTransaction_ok hrevert
  cases fillTransactionFromStxos_eq h.stxos (hremaining.2 tx List.mem_cons_self) hfilled
  refine ⟨?_, hstxos.trans h.stxos, ?_⟩
  · rw [heq]
    exact (applyTx_ok hstep).revert_names (hremaining.1.not_mem tx List.mem_cons_self) h.names_eq
      hreverted
  · rw [hacc, h.filled_eq, List.reverse_cons]

theorem foldlM_deleteUtxo_avoids {outpoints : List OutPoint} {state : State} :
    Avoids RevertAssertion (outpoints.foldlM deleteUtxo state) := by
  refine Avoids.foldlM (P := fun _ => True) trivial fun s _ outpoint _ => ⟨?_, fun _ _ => trivial⟩
  exact (Avoids.ensure fun _ => id).bind fun _ _ => .ok _

theorem foldlM_unspend_avoids {outpoints : List OutPoint} {state : State} :
    Avoids RevertAssertion (outpoints.foldlM unspend state) := by
  refine Avoids.foldlM (P := fun _ => True) trivial fun s _ outpoint _ => ⟨?_, fun _ _ => trivial⟩
  exact (Avoids.okOr fun _ => id).bind fun _ _ => .ok _

theorem fillTransactionFromStxos_avoids {state : State} {tx : Transaction} :
    Avoids RevertAssertion (state.fillTransactionFromStxos tx) := by
  refine Avoids.bind ?_ fun _ _ => .ok _
  refine Avoids.mapM fun entry _ => ?_
  refine (Avoids.okOr fun _ => id).bind fun _ _ => ?_
  refine (Avoids.ensure fun _ => ?_).bind fun _ _ => .ok _
  change _ ∉ revertAssertions
  decide

theorem Reverted.avoids {tx : FilledTransaction} {dbs dbs' : Dbs}
    (hremaining : Remaining top (tx :: txs) dbs) (hstep : applyTx height dbs tx = .ok dbs')
    (h : Reverted top txs dbs' acc) :
    Avoids RevertAssertion (disconnectTransaction height acc tx.transaction) := by
  refine fillTransactionFromStxos_avoids.bind fun filled hfilled => ?_
  cases fillTransactionFromStxos_eq h.stxos (hremaining.2 tx List.mem_cons_self) hfilled
  refine ((applyTx_ok hstep).revert_avoids h.names_eq).bind fun _ _ => ?_
  exact foldlM_deleteUtxo_avoids.bind fun _ _ => foldlM_unspend_avoids.bind fun _ _ => .ok _

/-- The loop over the transactions of a connected block, last to first. -/
theorem Resembles.reverted (hundoable : Undoable before top header body txs height)
    (h : state.Resembles top)
    (hloop : body.transactions.reverse.foldlM (disconnectTransaction height) (state, []) = .ok acc) :
    Reverted top txs before.bitnames acc := by
  rw [hundoable.transactions_eq] at hloop
  exact foldlM_undo (P := Remaining top) (R := Reverted top)
    (fun _ _ _ _ hremaining hstep => hremaining.step hstep)
    (fun _ _ _ _ _ _ hremaining hstep hR hrevert => hR.step hremaining hstep hrevert)
    ⟨hundoable.fresh, hundoable.recorded⟩ hundoable.fold_eq ⟨h.names_eq, h.stxos, rfl⟩ hloop

/-- Taking back a connected block from a state that resembles the one right after it leads to
a state that resembles the one before it. -/
theorem Resembles.disconnectTip {state' : State}
    (hundoable : Undoable before top header body txs height) (h : state.Resembles top)
    (hdisconnect : state.disconnectTip header body = .ok state') : state'.Resembles before := by
  obtain ⟨_, -, hdisconnect⟩ := bind_eq_ok.mp hdisconnect
  obtain ⟨-, hdisconnect⟩ := ensure_bind_eq_ok.mp hdisconnect
  obtain ⟨_, hheight, hdisconnect⟩ := bind_eq_ok.mp hdisconnect
  cases (h.height_eq.trans hundoable.height_eq).symm.trans (okOr_eq_ok.mp hheight)
  obtain ⟨reverted, hreverted, hdisconnect⟩ := bind_eq_ok.mp hdisconnect
  obtain ⟨deleted, hdeleted, hdisconnect⟩ := bind_eq_ok.mp hdisconnect
  obtain ⟨_, -, hdisconnect⟩ := bind_eq_ok.mp hdisconnect
  obtain ⟨-, hdisconnect⟩ := ensure_bind_eq_ok.mp hdisconnect
  obtain ⟨hstxos, hgone⟩ := foldlM_disconnectTransaction_frame hreverted
  obtain ⟨hbitnames, hstxos'⟩ := foldlM_deleteUtxo_frame hdeleted
  have hnames : deleted.bitnames.bitnames = before.bitnames.bitnames := by
    rw [hbitnames]
    exact (h.reverted hundoable hreverted).names_eq
  have hwithin : StxosWithin deleted.stxos before.stxos := by
    intro outpoint spent hget
    rw [hstxos'] at hget
    have htop := h.stxos outpoint spent (hstxos outpoint spent hget)
    rcases hundoable.stxos outpoint spent htop with ⟨tx, htx, hinput⟩ | hbefore
    · exact absurd (Db.mem_of_get hget)
        (hgone tx (List.mem_reverse.mpr htx) outpoint hinput)
    · exact hbefore
  have hafter := hundoable.heightAfter_eq
  cases hprev : header.prevSideHash with
  | none =>
    rw [hprev] at hdisconnect
    cases height with
    | zero =>
      cases hdisconnect
      refine ⟨hnames, hwithin, ?_⟩
      cases hbefore : before.height with
      | none => rfl
      | some => rw [hbefore] at hafter; cases hafter
    | succ => cases hdisconnect
  | some prev =>
    rw [hprev] at hdisconnect
    cases height with
    | zero => cases hdisconnect
    | succ height =>
      cases hdisconnect
      refine ⟨hnames, hwithin, ?_⟩
      cases hbefore : before.height with
      | none => rw [hbefore] at hafter; cases hafter
      | some => rw [hbefore] at hafter; cases hafter; rfl

/-- Taking back a connected block from a state that resembles the one right after it does not
run into an assertion of updates. -/
theorem Resembles.disconnectTip_avoids (hundoable : Undoable before top header body txs height)
    (h : state.Resembles top) : Avoids RevertAssertion (state.disconnectTip header body) := by
  refine (Avoids.okOr fun _ => id).bind fun _ _ => ?_
  refine (Avoids.ensure fun _ => id).bind fun _ _ => ?_
  refine (Avoids.okOr fun _ => ?_).bind fun _ hheight => ?_
  · change _ ∉ revertAssertions
    decide
  cases (h.height_eq.trans hundoable.height_eq).symm.trans (okOr_eq_ok.mp hheight)
  refine Avoids.bind ?_ fun acc hacc => ?_
  · rw [hundoable.transactions_eq]
    exact avoids_foldlM_undo (P := Remaining top) (R := Reverted top)
      (fun _ _ _ _ hremaining hstep => hremaining.step hstep)
      (fun _ _ _ _ _ _ hremaining hstep hR hrevert => hR.step hremaining hstep hrevert)
      (fun _ _ _ _ _ hremaining hstep hR => hR.avoids hremaining hstep)
      ⟨hundoable.fresh, hundoable.recorded⟩ hundoable.fold_eq ⟨h.names_eq, h.stxos, rfl⟩
  refine foldlM_deleteUtxo_avoids.bind fun _ _ => ?_
  -- the root is that of the filled transactions of the block
  rw [(h.reverted hundoable hacc).filled_eq, List.reverse_reverse, hundoable.root_eq]
  refine (Avoids.ok _).bind fun root hroot => ?_
  refine (Avoids.ensure fun _ => id).bind fun _ _ => ?_
  cases header.prevSideHash <;> cases height <;> first | exact .ok _ | exact .error id

end

end State

end PlainBitnames
