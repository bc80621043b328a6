import PlainBitnames.State.Life

/-!
The content of an outpoint does not change. A transaction can be included again once its inputs
are unspent again, but the names and reservations that it moves are those of its inputs, which
are alike, so the outputs are alike as well.
-/

namespace PlainBitnames

open Borsh Fallible

variable [Primitives]

/-- The same up to the network of a mainchain address. -/
def FilledContent.Alike : FilledContent → FilledContent → Prop
  | .bitcoin value, .bitcoin value' => value = value'
  | .bitcoinWithdrawal withdrawal, .bitcoinWithdrawal withdrawal' => withdrawal.Alike withdrawal'
  | .bitName name, .bitName name' => name = name'
  | .bitNameReservation txid commitment, .bitNameReservation txid' commitment' =>
    txid = txid' ∧ commitment = commitment'
  | _, _ => False

def FilledOutput.Alike (a b : FilledOutput) : Prop :=
  a.address = b.address ∧ a.content.Alike b.content ∧ a.memo = b.memo

namespace FilledContent

variable {a b : FilledContent}

theorem Alike.refl (content : FilledContent) : content.Alike content := by
  cases content <;> first | exact rfl | exact ⟨rfl, rfl⟩ | exact ⟨rfl, rfl, rfl⟩

theorem Alike.cases (h : a.Alike b) :
    a = b ∨ ∃ w x, a = .bitcoinWithdrawal w ∧ b = .bitcoinWithdrawal x ∧ w.Alike x := by
  cases a <;> cases b <;> try exact h.elim
  case bitcoin.bitcoin => exact .inl (congrArg _ h)
  case bitcoinWithdrawal.bitcoinWithdrawal w x => exact .inr ⟨w, x, rfl, rfl, h⟩
  case bitName.bitName => exact .inl (congrArg _ h)
  case bitNameReservation.bitNameReservation =>
    obtain ⟨rfl, rfl⟩ := h
    exact .inl rfl

theorem Alike.congr {α : Type} (f : FilledContent → α) (h : a.Alike b)
    (hf : ∀ w x : WithdrawalContent, w.Alike x → f (.bitcoinWithdrawal w) = f (.bitcoinWithdrawal x)) :
    f a = f b := by
  rcases h.cases with rfl | ⟨w, x, rfl, rfl, halike⟩
  · rfl
  · exact hf w x halike

/-- Contents that carry neither a name nor a reservation are alike if they hold the same. -/
theorem alike_of_toContent (h : a.toContent.Alike b.toContent)
    (ha : a.isBitname = false ∧ a.isReservation = false) : a.Alike b := by
  cases a with
  | bitName => cases ha.1
  | bitNameReservation => cases ha.2
  | bitcoin | bitcoinWithdrawal => cases b <;> exact h

end FilledContent

namespace FilledOutput

variable {a b : FilledOutput}

theorem Alike.bitname_eq (h : a.Alike b) : a.bitname = b.bitname :=
  h.2.1.congr FilledContent.bitname fun _ _ _ => rfl

theorem Alike.isBitname_eq (h : a.Alike b) : a.isBitname = b.isBitname :=
  h.2.1.congr FilledContent.isBitname fun _ _ _ => rfl

theorem Alike.isReservation_eq (h : a.Alike b) : a.isReservation = b.isReservation :=
  h.2.1.congr FilledContent.isReservation fun _ _ _ => rfl

theorem Alike.isWithdrawal_eq (h : a.Alike b) :
    a.content.isWithdrawal = b.content.isWithdrawal :=
  h.2.1.congr FilledContent.isWithdrawal fun _ _ _ => rfl

theorem Alike.reservationCommitment_eq (h : a.Alike b) :
    a.reservationCommitment = b.reservationCommitment :=
  h.2.1.congr FilledContent.reservationCommitment fun _ _ _ => rfl

theorem Alike.getValue_eq (h : a.Alike b) : a.getValue = b.getValue := by
  refine h.2.1.congr FilledContent.getValue fun w x halike => ?_
  change w.getValue = x.getValue
  rw [WithdrawalContent.getValue, WithdrawalContent.getValue, halike.1, halike.2.1]

theorem Alike.content_eq (h : a.Alike b) (hasset : a.isBitname = true ∨ a.isReservation = true) :
    a.content = b.content := by
  rcases h.2.1.cases with heq | ⟨w, x, hw, -, -⟩
  · exact heq
  · rw [isBitname, isReservation, hw] at hasset
    exact hasset.elim nofun nofun

end FilledOutput

/-- Transactions that are alike register the same name, burn the same reservation and make the
same one. -/
theorem Transaction.Alike.data_eq {t u : Transaction} (h : t.Alike u) :
    t.registrationNameHash = u.registrationNameHash ∧
      t.impliedReservationCommitment = u.impliedReservationCommitment ∧
      t.reservationCommitment = u.reservationCommitment := by
  obtain ⟨-, -, -, hdata⟩ := h
  unfold registrationNameHash impliedReservationCommitment reservationCommitment
  generalize t.data = d, u.data = e at hdata
  cases hdata with
  | none => exact ⟨rfl, rfl, rfl⟩
  | @some d e halike =>
    cases d <;> cases e <;> try exact halike.elim
    case bitNameReservation.bitNameReservation => exact ⟨rfl, rfl, congrArg some halike⟩
    case bitNameRegistration.bitNameRegistration =>
      obtain ⟨rfl, rfl, -⟩ := halike
      exact ⟨rfl, rfl, rfl⟩
    case bitNameUpdate.bitNameUpdate => exact ⟨rfl, rfl, rfl⟩
    case batchIcann.batchIcann => exact ⟨rfl, rfl, rfl⟩

namespace FilledTransaction

variable {tx tx' : FilledTransaction} {inputs : List OutPoint} {utxos utxos' : List FilledOutput}

/-- What is selected of the spent outputs is the same for outputs that are alike. -/
theorem map_filter_zip {α : Type} {p : FilledOutput → Bool} {f : FilledOutput → α}
    (hp : ∀ a b : FilledOutput, a.Alike b → p a = p b)
    (hf : ∀ a b : FilledOutput, a.Alike b → p a = true → f a = f b)
    (h : List.Forall₂ FilledOutput.Alike utxos utxos') (inputs : List OutPoint) :
    ((inputs.zip utxos).filter fun input => p input.2).map (fun input => f input.2) =
      ((inputs.zip utxos').filter fun input => p input.2).map fun input => f input.2 := by
  induction h generalizing inputs with
  | nil => rfl
  | @cons a b _ _ halike _ ih =>
    cases inputs with
    | nil => rfl
    | cons input inputs =>
      rw [List.zip_cons_cons, List.zip_cons_cons, List.filter_cons, List.filter_cons,
        hp a b halike]
      split
      case isTrue hb =>
        rw [List.map_cons, List.map_cons, ih inputs, hf a b halike (hp a b halike ▸ hb)]
      case isFalse => exact ih inputs

variable {filled : List FilledOutput}

/-- Outputs that are alike, filled with the same names and reservations. -/
theorem fillOutputs_alike {os os' : List Output} (h : List.Forall₂ Output.Alike os os')
    {names reservations : List FilledContent} {filled' : List FilledOutput}
    (hfilled : fillOutputs os names reservations = some filled)
    (hfilled' : fillOutputs os' names reservations = some filled') :
    List.Forall₂ FilledOutput.Alike filled filled' := by
  induction h generalizing names reservations filled filled' with
  | nil =>
    cases hfilled
    cases hfilled'
    exact .nil
  | @cons o o' _ _ halike _ ih =>
    obtain ⟨address, content, memo⟩ := o
    obtain ⟨address', content', memo'⟩ := o'
    obtain ⟨haddress, hcontent, hmemo⟩ := halike
    cases content <;> cases content' <;> try exact hcontent.elim
    case bitName.bitName =>
      cases names with
      | nil => cases hfilled
      | cons name names =>
        obtain ⟨rest, hrest, rfl⟩ := Option.map_eq_some_iff.mp hfilled
        obtain ⟨rest', hrest', rfl⟩ := Option.map_eq_some_iff.mp hfilled'
        exact .cons ⟨haddress, .refl name, hmemo⟩ (ih hrest hrest')
    case bitNameReservation.bitNameReservation =>
      cases reservations with
      | nil => cases hfilled
      | cons reservation reservations =>
        obtain ⟨rest, hrest, rfl⟩ := Option.map_eq_some_iff.mp hfilled
        obtain ⟨rest', hrest', rfl⟩ := Option.map_eq_some_iff.mp hfilled'
        exact .cons ⟨haddress, .refl reservation, hmemo⟩ (ih hrest hrest')
    case bitcoin.bitcoin | withdrawal.withdrawal =>
      obtain ⟨rest, hrest, rfl⟩ := Option.map_eq_some_iff.mp hfilled
      obtain ⟨rest', hrest', rfl⟩ := Option.map_eq_some_iff.mp hfilled'
      exact .cons ⟨haddress, hcontent, hmemo⟩ (ih hrest hrest')

/-- Transactions that are alike and spend outputs that are alike create outputs that are
alike. -/
theorem filledOutputs_alike (htx : tx.transaction.Alike tx'.transaction)
    (htxid : tx.txid = tx'.txid)
    (hspent : List.Forall₂ FilledOutput.Alike tx.spentUtxos tx'.spentUtxos)
    {filled' : List FilledOutput} (hfilled : tx.filledOutputs = some filled)
    (hfilled' : tx'.filledOutputs = some filled') :
    List.Forall₂ FilledOutput.Alike filled filled' := by
  obtain ⟨hname, himplied, hreservation⟩ := htx.data_eq
  have hinputs : tx.inputs = tx'.inputs := htx.1
  have hnames : tx.filledBitnameOutputContent = tx'.filledBitnameOutputContent := by
    unfold filledBitnameOutputContent spentBitnames spentInputs
    rw [hname, hinputs, map_filter_zip (fun _ _ h => h.isBitname_eq)
      (fun _ _ h hasset => h.content_eq (.inl hasset)) hspent]
  have hreservations : tx.filledReservationOutputContent = tx'.filledReservationOutputContent := by
    unfold filledReservationOutputContent spentReservations spentInputs
    rw [himplied, hreservation, hinputs, htxid, map_filter_zip (fun _ _ h => h.isReservation_eq)
      (fun _ _ h hasset => h.content_eq (.inr hasset)) hspent]
  rw [filledOutputs, hnames, hreservations] at hfilled
  exact fillOutputs_alike htx.2.1 hfilled hfilled'

theorem mem_created_iff (hfilled : tx.filledOutputs = some filled)
    {entry : OutPoint × FilledOutput} : entry ∈ tx.created ↔
      ∃ i, entry.1 = .regular tx.txid (UInt32.ofNat i) ∧ filled[i]? = some entry.2 := by
  rw [created, hfilled, Option.getD_some, List.mem_map]
  constructor
  · rintro ⟨⟨output, i⟩, hmem, rfl⟩
    exact ⟨i, rfl, List.mem_zipIdx_iff_getElem?.mp hmem⟩
  · obtain ⟨outpoint, output⟩ := entry
    rintro ⟨i, rfl, hget⟩
    exact ⟨(output, i), List.mem_zipIdx_iff_getElem?.mpr hget, rfl⟩

/-- Two transactions with one txid that spend outputs that are alike create outputs that are
alike. -/
theorem created_alike (hcf : CollisionFree) (hfits : fits tx.transaction = true)
    (hfits' : fits tx'.transaction = true) (htxid : tx.txid = tx'.txid)
    (hspent : List.Forall₂ FilledOutput.Alike tx.spentUtxos tx'.spentUtxos)
    (hsome : tx.filledOutputs.isSome) (hsome' : tx'.filledOutputs.isSome) {outpoint : OutPoint}
    {a b : FilledOutput} (ha : (outpoint, a) ∈ tx.created) (hb : (outpoint, b) ∈ tx'.created) :
    a.Alike b := by
  obtain ⟨filled, hfilled⟩ := Option.isSome_iff_exists.mp hsome
  obtain ⟨filled', hfilled'⟩ := Option.isSome_iff_exists.mp hsome'
  have halike := filledOutputs_alike (alike_of_txid_eq hcf hfits hfits' htxid) htxid hspent hfilled
    hfilled'
  obtain ⟨i, rfl, hai⟩ := (mem_created_iff hfilled).mp ha
  obtain ⟨j, hkey, hbj⟩ := (mem_created_iff hfilled').mp hb
  obtain ⟨hi, rfl⟩ := List.getElem?_eq_some_iff.mp hai
  obtain ⟨hj, rfl⟩ := List.getElem?_eq_some_iff.mp hbj
  have hlength : filled.length = tx.transaction.outputs.length := length_fillOutputs hfilled
  have hlength' : filled'.length = tx'.transaction.outputs.length := length_fillOutputs hfilled'
  have hlt := length_outputs_lt hfits
  have hlt' := length_outputs_lt hfits'
  obtain rfl := ofNat_inj (by omega) (by omega) (OutPoint.regular.inj hkey).2
  exact halike.get hi hj

end FilledTransaction

/-- What two lists of outputs at the same outpoints are to each other. -/
theorem forall₂_of_common {R S : OutPoint → FilledOutput → Prop}
    {T : FilledOutput → FilledOutput → Prop} (h : ∀ outpoint a b, R outpoint a → S outpoint b → T a b)
    {outpoints : List OutPoint} {utxos utxos' : List FilledOutput}
    (hR : List.Forall₂ R outpoints utxos) (hS : List.Forall₂ S outpoints utxos') :
    List.Forall₂ T utxos utxos' := by
  induction hR generalizing utxos' with
  | nil =>
    cases hS
    exact .nil
  | cons hhead _ ih =>
    cases hS with
    | cons hhead' htail' => exact .cons (h _ _ _ hhead hhead') (ih htail')

/-- An outpoint of a transaction and its output, created by a transaction with that txid that
spends known outputs. -/
def Made (known : OutPoint → FilledOutput → Prop) (outpoint : OutPoint) (output : FilledOutput) :
    Prop :=
  ∃ tx : FilledTransaction, fits tx.transaction = true ∧ tx.filledOutputs.isSome ∧
    List.Forall₂ known tx.inputs tx.spentUtxos ∧ (outpoint, output) ∈ tx.created

/-- An output that carries neither a name nor a reservation, and that a history accounts for. -/
def Held (history : History) (outpoint : OutPoint) (output : FilledOutput) : Prop :=
  history.Explains outpoint output.toOutput ∧ output.isBitname = false ∧
    output.isReservation = false ∧ ∀ txid vout, outpoint ≠ .regular txid vout

/-- The outputs that were ever known, one up to what the encoding leaves out for each
outpoint. -/
structure Recorded (known : OutPoint → FilledOutput → Prop) (history : History) (state : State) :
    Prop extends Traced history state where
  known_utxos : ∀ (outpoint : OutPoint) (output : FilledOutput),
    state.utxos[outpoint]? = some output → known outpoint output
  known_bundles : ∀ (m6id : M6id) bundle status,
    state.withdrawalBundles[m6id]? = some (.known bundle, status) →
      ∀ entry ∈ bundle.spendUtxos.toList, known entry.1 entry.2
  source : ∀ outpoint output, known outpoint output →
    Made known outpoint output ∨ Held history outpoint output
  alike : ∀ outpoint a b, known outpoint a → known outpoint b → a.Alike b

variable {known : OutPoint → FilledOutput → Prop} {outpoint : OutPoint} {output : FilledOutput}

theorem Made.mono {known' : OutPoint → FilledOutput → Prop} (h : Made known outpoint output)
    (hmono : ∀ outpoint output, known outpoint output → known' outpoint output) :
    Made known' outpoint output := by
  obtain ⟨tx, hfits, hsome, hinputs, hcreated⟩ := h
  exact ⟨tx, hfits, hsome, hinputs.imp fun _ _ => hmono _ _, hcreated⟩

theorem Held.mono {history history' : History} (h : Held history outpoint output)
    (hextends : history'.Extends history) : Held history' outpoint output :=
  ⟨h.1.mono hextends, h.2⟩

theorem Made.exists_regular (h : Made known outpoint output) :
    ∃ txid vout, outpoint = .regular txid vout := by
  obtain ⟨tx, -, hsome, -, hcreated⟩ := h
  obtain ⟨filled, hfilled⟩ := Option.isSome_iff_exists.mp hsome
  obtain ⟨i, hkey, -⟩ := (FilledTransaction.mem_created_iff hfilled).mp hcreated
  exact ⟨tx.txid, UInt32.ofNat i, hkey⟩

/-- Outputs at one outpoint that come from outputs that are alike are alike. -/
theorem alike_of_source (hcf : CollisionFree) {history : History} (hhistory : history.Unambiguous)
    (halike : ∀ outpoint a b, known outpoint a → known outpoint b → a.Alike b) {a b : FilledOutput}
    (ha : Made known outpoint a ∨ Held history outpoint a)
    (hb : Made known outpoint b ∨ Held history outpoint b) : a.Alike b := by
  rcases ha with ha | ha <;> rcases hb with hb | hb
  · obtain ⟨tx, hfits, hsome, hinputs, hcreated⟩ := ha
    obtain ⟨tx', hfits', hsome', hinputs', hcreated'⟩ := hb
    have htxid : tx.txid = tx'.txid := by
      obtain ⟨filled, hfilled⟩ := Option.isSome_iff_exists.mp hsome
      obtain ⟨filled', hfilled'⟩ := Option.isSome_iff_exists.mp hsome'
      obtain ⟨i, hkey, -⟩ := (FilledTransaction.mem_created_iff hfilled).mp hcreated
      obtain ⟨j, hkey', -⟩ := (FilledTransaction.mem_created_iff hfilled').mp hcreated'
      exact (OutPoint.regular.inj (hkey.symm.trans hkey')).1
    have heq : tx.inputs = tx'.inputs := (alike_of_txid_eq hcf hfits hfits' htxid).1
    rw [heq] at hinputs
    have hspent : List.Forall₂ FilledOutput.Alike tx.spentUtxos tx'.spentUtxos :=
      forall₂_of_common halike hinputs hinputs'
    exact FilledTransaction.created_alike hcf hfits hfits' htxid hspent hsome hsome' hcreated hcreated'
  · obtain ⟨txid, vout, rfl⟩ := ha.exists_regular
    exact absurd rfl (hb.2.2.2 txid vout)
  · obtain ⟨txid, vout, rfl⟩ := hb.exists_regular
    exact absurd rfl (ha.2.2.2 txid vout)
  · obtain ⟨haddress, hcontent, hmemo⟩ := ha.1.alike hcf hhistory hb.1
    exact ⟨haddress, FilledContent.alike_of_toContent hcontent ⟨ha.2.1, ha.2.2.1⟩, hmemo⟩

/-- What was known is known still, and it accounts for a later state. -/
def Recorded.Continues (known : OutPoint → FilledOutput → Prop) (history : History)
    (state : State) : Prop :=
  ∃ known' : OutPoint → FilledOutput → Prop,
    (∀ outpoint output, known outpoint output → known' outpoint output) ∧
      Recorded known' history state

namespace Recorded

variable {known : OutPoint → FilledOutput → Prop} {history history' : History}
  {state state' : State}

theorem empty : Recorded (fun _ _ => False) ⟨[], []⟩ State.empty where
  toTraced := .empty
  known_utxos _ _ h := by
    rw [State.empty, Db.get_empty] at h
    cases h
  known_bundles _ _ _ h := by
    rw [State.empty, Db.get_empty] at h
    cases h
  source _ _ h := h.elim
  alike _ _ _ h := h.elim

/-- Some outputs become known. -/
theorem extend (hcf : CollisionFree) (h : Recorded known history state)
    (new : OutPoint → FilledOutput → Prop) (htraced : Traced history' state')
    (hhistory : history'.Unambiguous) (hextends : history'.Extends history)
    (hnew : ∀ outpoint output, new outpoint output →
      Made known outpoint output ∨ Held history' outpoint output)
    (hutxos : ∀ (outpoint : OutPoint) (output : FilledOutput),
      state'.utxos[outpoint]? = some output → known outpoint output ∨ new outpoint output)
    (hbundles : ∀ (m6id : M6id) bundle status,
      state'.withdrawalBundles[m6id]? = some (.known bundle, status) →
        ∀ entry ∈ bundle.spendUtxos.toList, known entry.1 entry.2) :
    Continues known history' state' := by
  have hsource : ∀ outpoint output, known outpoint output ∨ new outpoint output →
      Made known outpoint output ∨ Held history' outpoint output := by
    rintro outpoint output (hknown | hoccurs)
    · exact (h.source outpoint output hknown).imp_right (Held.mono · hextends)
    · exact hnew outpoint output hoccurs
  exact ⟨fun outpoint output => known outpoint output ∨ new outpoint output, fun _ _ => .inl, {
    toTraced := htraced
    known_utxos := hutxos
    known_bundles := fun m6id bundle status hget entry hentry =>
      .inl (hbundles m6id bundle status hget entry hentry)
    source := fun outpoint output hknown =>
      (hsource outpoint output hknown).imp_left (Made.mono · fun _ _ => .inl)
    alike := fun outpoint a b ha hb =>
      alike_of_source hcf hhistory h.alike (hsource outpoint a ha) (hsource outpoint b hb) }⟩

theorem applyBlock (hcf : CollisionFree) (h : Recorded known history state)
    {ctxt : BatchVerificationContext} {header : Header} {body : Body}
    (hok : state.applyBlock ctxt header body = .ok state')
    (hdeposits : (history.deposits.map Deposit.outpoint).Nodup) :
    Continues known (history.addBlock header body) state' := by
  have htraced := h.toTraced.applyBlock hok
  obtain ⟨p, coinbase, dbs, hp, hsome, hcoinbase, -, rfl⟩ := State.applyBlock_ok hok
  refine h.extend hcf (fun outpoint output => (outpoint, output) ∈ coinbase ∨
    ∃ tx ∈ p.filledTransactions, (outpoint, output) ∈ tx.created) htraced
    (htraced.unambiguous hcf hdeposits) (history.extends_addBlock header body) ?_ ?_
    h.known_bundles
  · rintro outpoint output (hmem | ⟨tx, htx, hmem⟩)
    · obtain ⟨-, -, hplain⟩ := State.coinbaseUtxos_eq_ok.mp hcoinbase
      obtain ⟨hbitname, hreservation⟩ := hplain _ hmem
      obtain ⟨i, hkey, -⟩ := State.mem_coinbaseUtxos hcoinbase hmem
      exact .inr ⟨Traced.explains_coinbase hcoinbase history hmem, hbitname, hreservation,
        fun txid vout heq => by cases hkey.symm.trans heq⟩
    · exact .inl ⟨tx, hp.fits_transaction htx, hsome tx htx,
        (hp.fills tx htx).imp fun _ _ => h.known_utxos _ _, hmem⟩
  · intro outpoint output hget
    rcases State.batch_utxos_cases dbs hget with hmem | hmem | ⟨-, -, hget⟩
    · exact .inr (.inl hmem)
    · exact .inr (.inr hmem)
    · exact .inl (h.known_utxos outpoint output hget)

theorem eventEffect (hcf : CollisionFree) (h : Recorded known history state) {height : Nat}
    {event : BlockEvent} (hhistory : (history.addEvent event).Unambiguous)
    (heffect : State.EventEffect height state event state') :
    Continues known (history.addEvent event) state' := by
  have htraced := h.toTraced.eventEffect heffect
  cases heffect with
  | deposit deposit =>
    refine h.extend hcf (fun outpoint output => outpoint = .deposit deposit.outpoint ∧
      output = deposit.output) htraced hhistory (history.extends_addEvent _) ?_ ?_
      h.known_bundles
    · rintro outpoint output ⟨rfl, rfl⟩
      exact .inr ⟨⟨deposit, by simp [History.addEvent], rfl, rfl⟩, rfl, rfl, nofun⟩
    · intro outpoint output hget
      rcases Db.get_insert_cases hget with ⟨rfl, rfl⟩ | ⟨-, hget⟩
      · exact .inr ⟨rfl, rfl⟩
      · exact .inl (h.known_utxos outpoint output hget)
  | withdrawalBundle heffect =>
    refine ⟨known, fun _ _ => id, htraced, ?_, ?_, h.source, h.alike⟩
    · intro outpoint output hget
      rcases heffect.utxos hget with hget | ⟨bundle, status, hbundle, hmem⟩
      · exact h.known_utxos outpoint output hget
      · exact h.known_bundles _ bundle status hbundle _ hmem
    · intro m6id bundle status hget
      obtain ⟨earlier, hearlier⟩ := heffect.known hget
      exact h.known_bundles m6id bundle earlier hearlier

theorem collectEffect (h : Recorded known history state) {height : Nat}
    (heffect : State.CollectEffect height state state') : Recorded known history state' := by
  have htraced := h.toTraced.collectEffect heffect
  cases heffect with
  | unchanged => exact h
  | collected _ _ hbundle =>
    refine ⟨htraced, h.known_utxos, ?_, h.source, h.alike⟩
    intro m6id bundle status hget entry hentry
    rcases Db.get_insert_cases hget with ⟨-, heq⟩ | ⟨-, hget⟩
    · cases heq
      exact h.known_utxos _ _ (hbundle.withdrawals entry hentry).1
    · exact h.known_bundles m6id bundle status hget entry hentry

theorem Continues.trans {known' : OutPoint → FilledOutput → Prop}
    (h : Continues known' history state)
    (hmono : ∀ outpoint output, known outpoint output → known' outpoint output) :
    Continues known history state := by
  obtain ⟨known'', hmono', hrecorded⟩ := h
  exact ⟨known'', fun outpoint output hknown => hmono' outpoint output
    (hmono outpoint output hknown), hrecorded⟩

theorem connectTwoWayPegData (hcf : CollisionFree) (h : Recorded known history state)
    {data : TwoWayPegData}
    (hhistory : ((data.events.map Prod.snd).foldl History.addEvent history).Unambiguous)
    (hok : state.connectTwoWayPegData data = .ok state') :
    Continues known ((data.events.map Prod.snd).foldl History.addEvent history) state' := by
  obtain ⟨height, hheight⟩ := State.exists_height_of_connectTwoWayPegData hok
  refine State.connectTwoWayPegData_history
    (P := fun done s => (done.foldl History.addEvent history).Unambiguous →
      Continues known (done.foldl History.addEvent history) s) hheight
    (fun _ => ⟨known, fun _ _ => id, h⟩) ?_ ?_ ?_ hok hhistory
  · intro done event s s' hs heffect hhistory
    rw [List.foldl_append, List.foldl_cons, List.foldl_nil] at hhistory ⊢
    obtain ⟨known', hmono, hrecorded⟩ :=
      hs (hhistory.of_extends (History.extends_addEvent _ event))
    exact (hrecorded.eventEffect hcf hhistory heffect).trans hmono
  · intro done s _ _ _ hs hhistory
    obtain ⟨known', hmono, hrecorded⟩ := hs hhistory
    exact ⟨known', hmono, ⟨hrecorded.chain, hrecorded.fits_body, hrecorded.utxos, hrecorded.stxos,
      hrecorded.bundles, hrecorded.inputs⟩, hrecorded.known_utxos, hrecorded.known_bundles,
      hrecorded.source, hrecorded.alike⟩
  · intro done s s' hs heffect hhistory
    obtain ⟨known', hmono, hrecorded⟩ := hs hhistory
    exact ⟨known', hmono, hrecorded.collectEffect heffect⟩

/-- What is known along a run. -/
theorem run (hcf : CollisionFree) {done later : List Step}
    (h : Recorded known (.ofSteps done) state) (hrun : state.run later = .ok state')
    (hdeposits : DepositsDistinct (done ++ later)) :
    Continues known (.ofSteps (done ++ later)) state' := by
  induction later using List.reverseRecOn generalizing state' with
  | nil =>
    cases foldlM_nil_eq_ok.mp hrun
    rw [List.append_nil]
    exact ⟨known, fun _ _ => id, h⟩
  | append_singleton later step ih =>
    obtain ⟨s, hs, hlast⟩ := foldlM_append_eq_ok.mp hrun
    obtain ⟨_, hstep, hnil⟩ := foldlM_cons_eq_ok.mp hlast
    obtain rfl := foldlM_nil_eq_ok.mp hnil
    rw [← List.append_assoc] at hdeposits ⊢
    obtain ⟨known', hmono, hrecorded⟩ := ih hs hdeposits.of_append
    refine Continues.trans ?_ hmono
    cases step with
    | block ctxt header body =>
      rw [History.ofSteps_block]
      exact hrecorded.applyBlock hcf hstep hdeposits.of_append
    | peg data =>
      have hdeposits' : ((History.ofSteps (done ++ later ++ [.peg data])).deposits.map
        Deposit.outpoint).Nodup := hdeposits
      rw [History.ofSteps_peg] at hdeposits' ⊢
      refine hrecorded.connectTwoWayPegData hcf ?_ hstep
      rw [History.foldl_addEvent] at hdeposits' ⊢
      exact ⟨hrecorded.fits_body, hrecorded.chain.nodup hcf, hdeposits'⟩

end Recorded

/-- The outputs of an outpoint in a state and in a later one are alike. -/
theorem utxos_alike (hcf : CollisionFree) {done later : List Step} {state state' : State}
    (hrun : State.empty.run done = .ok state) (hlater : state.run later = .ok state')
    (hdeposits : DepositsDistinct (done ++ later)) {a b : FilledOutput}
    (ha : state.utxos[outpoint]? = some a) (hb : state'.utxos[outpoint]? = some b) : a.Alike b := by
  have hempty : Recorded (fun _ _ => False) (.ofSteps []) State.empty := .empty
  obtain ⟨known, -, hknown⟩ := hempty.run hcf hrun hdeposits.of_append
  obtain ⟨known', hmono, hknown'⟩ := Recorded.run hcf hknown hlater hdeposits
  exact hknown'.alike outpoint a b (hmono _ _ (hknown.known_utxos _ _ ha))
    (hknown'.known_utxos _ _ hb)

end PlainBitnames
