import PlainBitnames.State.BlockSpec

/-!
What a validated transaction has passed and what its outputs carry. The counts
that validation compares are exactly those under which all outputs can be
filled; then the names in the outputs are the spent ones and the registered
one, and the reservations are the spent ones without the burned one, and the
new one.
-/

namespace PlainBitnames

open Borsh Fallible

variable [Primitives]

namespace FilledContent

theorem toContent_of_isBitname {content : FilledContent} (h : content.isBitname = true) :
    content.toContent = .bitName ∧ content.isReservation = false := by
  cases content <;> first | exact ⟨rfl, rfl⟩ | cases h

theorem toContent_of_isReservation {content : FilledContent} (h : content.isReservation = true) :
    content.toContent = .bitNameReservation ∧ content.isBitname = false := by
  cases content <;> first | exact ⟨rfl, rfl⟩ | cases h

end FilledContent

namespace Transaction

variable {tx : Transaction}

theorem registration {implied : Hash} (h : tx.impliedReservationCommitment = some implied) :
    tx.isRegistration = true ∧ tx.isReservation = false ∧ tx.reservationCommitment = none := by
  unfold impliedReservationCommitment at h
  unfold isRegistration isReservation reservationCommitment
  split at h <;> simp_all

/-- A transaction without implied commitment is not a registration; it makes a
reservation if it carries a commitment. -/
theorem not_registration (h : tx.impliedReservationCommitment = none) :
    tx.isRegistration = false ∧
      tx.reservationCommitment.toList.length = if tx.isReservation then 1 else 0 := by
  unfold impliedReservationCommitment at h
  unfold isRegistration isReservation reservationCommitment
  split at h
  · cases h
  · rename_i hdata
    cases hcases : tx.data with
    | none => simp
    | some data => cases data <;> simp_all

theorem exists_registrationNameHash {implied : Hash}
    (h : tx.impliedReservationCommitment = some implied) :
    ∃ nameHash, tx.registrationNameHash = some nameHash := by
  unfold impliedReservationCommitment at h
  unfold registrationNameHash
  split at h
  · exact ⟨_, rfl⟩
  · cases h

theorem isReservation_eq_false_of_isRegistration (h : tx.isRegistration = true) :
    tx.isReservation = false := by
  unfold isRegistration at h
  unfold isReservation
  split at h <;> simp_all

end Transaction

namespace FilledTransaction

/-- With a name for every name output and a reservation for every reservation
output, the outputs can be filled: each keeps its plain form, and the names and
the reservations occur in order. -/
theorem exists_fillOutputs {os : List Output} {names reservations : List FilledContent}
    (hnames : ∀ content ∈ names, content.isBitname = true)
    (hreservations : ∀ content ∈ reservations, content.isReservation = true)
    (hnamesLength : (os.filter Output.isBitname).length = names.length)
    (hreservationsLength : (os.filter Output.isReservation).length = reservations.length) :
    ∃ filled, fillOutputs os names reservations = some filled ∧
      filled.map FilledOutput.toOutput = os ∧
      (filled.map FilledOutput.content).filter FilledContent.isBitname = names ∧
      (filled.map FilledOutput.content).filter FilledContent.isReservation = reservations := by
  induction os generalizing names reservations with
  | nil =>
    have hnil := List.length_eq_zero_iff.mp hnamesLength.symm
    have hnil' := List.length_eq_zero_iff.mp hreservationsLength.symm
    exact ⟨[], rfl, rfl, hnil.symm, hnil'.symm⟩
  | cons o os ih =>
    obtain ⟨address, content, memo⟩ := o
    simp only [List.filter_cons, Output.isBitname, Output.isReservation]
      at hnamesLength hreservationsLength
    cases content with
    | bitName =>
      cases names with
      | nil => cases hnamesLength
      | cons name names =>
        obtain ⟨hname, hnames⟩ := List.forall_mem_cons.mp hnames
        obtain ⟨hcontent, hnot⟩ := FilledContent.toContent_of_isBitname hname
        obtain ⟨filled, hfilled, hout, hn, hr⟩ := ih hnames hreservations
          (Nat.succ.inj hnamesLength) hreservationsLength
        exact ⟨⟨address, name, memo⟩ :: filled, by simp [fillOutputs, hfilled],
          by simp [FilledOutput.toOutput, hcontent, hout], by simp [hname, hn],
          by simp [hnot, hr]⟩
    | bitNameReservation =>
      cases reservations with
      | nil => cases hreservationsLength
      | cons reservation reservations =>
        obtain ⟨hreservation, hreservations⟩ := List.forall_mem_cons.mp hreservations
        obtain ⟨hcontent, hnot⟩ := FilledContent.toContent_of_isReservation hreservation
        obtain ⟨filled, hfilled, hout, hn, hr⟩ := ih hnames hreservations hnamesLength
          (Nat.succ.inj hreservationsLength)
        exact ⟨⟨address, reservation, memo⟩ :: filled, by simp [fillOutputs, hfilled],
          by simp [FilledOutput.toOutput, hcontent, hout], by simp [hnot, hn],
          by simp [hreservation, hr]⟩
    | bitcoin value =>
      obtain ⟨filled, hfilled, hout, hn, hr⟩ := ih hnames hreservations hnamesLength
        hreservationsLength
      exact ⟨⟨address, .bitcoin value, memo⟩ :: filled, by simp [fillOutputs, hfilled],
        by simp [FilledOutput.toOutput, FilledContent.toContent, hout],
        by simp [FilledContent.isBitname, hn], by simp [FilledContent.isReservation, hr]⟩
    | withdrawal w =>
      obtain ⟨filled, hfilled, hout, hn, hr⟩ := ih hnames hreservations hnamesLength
        hreservationsLength
      exact ⟨⟨address, .bitcoinWithdrawal w, memo⟩ :: filled, by simp [fillOutputs, hfilled],
        by simp [FilledOutput.toOutput, FilledContent.toContent, hout],
        by simp [FilledContent.isBitname, hn], by simp [FilledContent.isReservation, hr]⟩

/-- What the outputs of a transaction carry once they are filled: names and
reservations where the plain outputs have them. -/
structure Fillable (tx : FilledTransaction) (filled : List FilledOutput) : Prop where
  filled_eq : tx.filledOutputs = some filled
  toOutput_eq : filled.map FilledOutput.toOutput = tx.outputs
  names_eq : (filled.map FilledOutput.content).filter FilledContent.isBitname =
    tx.filledBitnameOutputContent
  reservations_eq : (filled.map FilledOutput.content).filter FilledContent.isReservation =
    tx.filledReservationOutputContent

variable {tx : FilledTransaction} {filled : List FilledOutput}

theorem Fillable.created_eq (h : tx.Fillable filled) : tx.created.map Prod.snd = filled := by
  rw [created, h.filled_eq, Option.getD_some, List.map_map]
  change filled.zipIdx.map Prod.fst = filled
  exact List.zipIdx_map_fst 0 filled

/-- An output of a transaction is created under its txid and index. -/
theorem Fillable.mem_created (h : tx.Fillable filled) {entry : OutPoint × FilledOutput}
    (hentry : entry ∈ tx.created) :
    ∃ i, entry.1 = .regular tx.txid (UInt32.ofNat i) ∧
      tx.outputs[i]? = some entry.2.toOutput := by
  rw [created, h.filled_eq, Option.getD_some] at hentry
  obtain ⟨⟨output, i⟩, hmem, rfl⟩ := List.mem_map.mp hentry
  have hget := List.mem_zipIdx_iff_getElem?.mp hmem
  refine ⟨i, rfl, ?_⟩
  rw [← h.toOutput_eq, List.getElem?_map, hget]
  rfl

/-- The name of an output is a spent one or the registered one. -/
theorem Fillable.name_cases (h : tx.Fillable filled) {entry : OutPoint × FilledOutput}
    (hentry : entry ∈ tx.created) {name : BitName} (hname : entry.2.bitname = some name) :
    (∃ input ∈ tx.spentInputs, input.2.bitname = some name) ∨
      tx.transaction.registrationNameHash = some name := by
  have hcontent : entry.2.content = .bitName name := by
    unfold FilledOutput.bitname FilledContent.bitname at hname
    split at hname
    case h_1 heq =>
      cases hname
      exact heq
    case h_2 => cases hname
  have hmem : entry.2.content ∈ tx.filledBitnameOutputContent := by
    rw [← h.names_eq, ← h.created_eq, List.map_map]
    exact List.mem_filter.mpr ⟨List.mem_map.mpr ⟨entry, hentry, rfl⟩, by rw [hcontent]; rfl⟩
  rcases List.mem_append.mp hmem with hmem | hmem
  · obtain ⟨input, hinput, heq⟩ := List.mem_map.mp hmem
    refine .inl ⟨input, (List.mem_filter.mp hinput).1, ?_⟩
    rw [FilledOutput.bitname, heq, hcontent]
    rfl
  · obtain ⟨other, hother, heq⟩ := Option.map_eq_some_iff.mp (Option.mem_toList.mp hmem)
    rw [hcontent] at heq
    cases heq
    exact .inr hother

theorem isBitname_of_mem_filledBitnameOutputContent {content : FilledContent}
    (h : content ∈ tx.filledBitnameOutputContent) : content.isBitname = true := by
  rcases List.mem_append.mp h with h | h
  · obtain ⟨input, hinput, rfl⟩ := List.mem_map.mp h
    exact (List.mem_filter.mp hinput).2
  · obtain ⟨name, -, rfl⟩ := Option.map_eq_some_iff.mp (Option.mem_toList.mp h)
    rfl

theorem isReservation_of_mem_filledReservationOutputContent {content : FilledContent}
    (h : content ∈ tx.filledReservationOutputContent) : content.isReservation = true := by
  rcases List.mem_append.mp h with h | h
  · have hspent : content ∈ tx.spentReservations.map fun input => input.2.content := by
      unfold retainReservations at h
      split at h
      · exact List.mem_of_mem_eraseP h
      · exact h
    obtain ⟨input, hinput, rfl⟩ := List.mem_map.mp hspent
    exact (List.mem_filter.mp hinput).2
  · obtain ⟨commitment, -, rfl⟩ := Option.map_eq_some_iff.mp (Option.mem_toList.mp h)
    rfl

/-- The reservation a registration burns is the first one with the implied
commitment, and the one its outputs leave out. -/
theorem burnedReservation_split {implied : Hash} {burned : Txid}
    (h : tx.burnedReservation implied = some burned) :
    ∃ before after,
      (tx.spentReservations.map fun input => input.2.content) =
        before ++ .bitNameReservation burned implied :: after ∧
      (∀ content ∈ before, content.reservationCommitment ≠ some implied) ∧
      retainReservations (some implied) (tx.spentReservations.map fun input => input.2.content) =
        before ++ after := by
  obtain ⟨before, ⟨outpoint, output⟩, after, hspent, hburned, hbefore⟩ :=
    List.findSome?_eq_some_iff.mp h
  have hcontent : output.content = .bitNameReservation burned implied := by
    dsimp only [FilledOutput.reservationData, FilledContent.reservationData] at hburned
    split at hburned
    case h_1 txid commitment hdata =>
      split at hdata
      case h_1 txid' commitment' houtput =>
        cases hdata
        split at hburned
        case isTrue hcommitment =>
          cases hburned
          rw [houtput, hcommitment]
        case isFalse => cases hburned
      case h_2 => cases hdata
    case h_2 => cases hburned
  have hfirst : ∀ content ∈ before.map (fun input => input.2.content),
      content.reservationCommitment ≠ some implied := by
    intro content hmem hcommitment
    obtain ⟨input, hinput, rfl⟩ := List.mem_map.mp hmem
    obtain ⟨⟨txid, commitment⟩, hdata, rfl⟩ := Option.map_eq_some_iff.mp hcommitment
    have hnone := hbefore input hinput
    rw [FilledOutput.reservationData, hdata] at hnone
    simp at hnone
  have hmap : (tx.spentReservations.map fun input => input.2.content) =
      before.map (fun input => input.2.content) ++
        .bitNameReservation burned implied :: after.map (fun input => input.2.content) := by
    rw [hspent, List.map_append, List.map_cons, hcontent]
  refine ⟨_, _, hmap, hfirst, ?_⟩
  rw [retainReservations, hmap, List.eraseP_append_right _ (by simpa using hfirst),
    List.eraseP_cons_of_pos]
  simp [FilledContent.reservationCommitment, FilledContent.reservationData]

theorem burnedReservation_perm {implied : Hash} {burned : Txid}
    (h : tx.burnedReservation implied = some burned) :
    (tx.spentReservations.map fun input => input.2.content).Perm
      (.bitNameReservation burned implied :: retainReservations (some implied)
        (tx.spentReservations.map fun input => input.2.content)) := by
  obtain ⟨before, after, hspent, -, hretain⟩ := burnedReservation_split h
  rw [hretain, hspent]
  exact List.perm_middle

theorem exists_burnedReservation {implied : Hash}
    (h : ∃ input ∈ tx.spentReservations, input.2.reservationCommitment = some implied) :
    ∃ burned, tx.burnedReservation implied = some burned := by
  obtain ⟨input, hinput, hcommitment⟩ := h
  rw [← Option.isSome_iff_exists, burnedReservation, List.findSome?_isSome_iff]
  refine ⟨input, hinput, ?_⟩
  obtain ⟨⟨txid, commitment⟩, hdata, rfl⟩ := Option.map_eq_some_iff.mp hcommitment
  rw [FilledOutput.reservationData, hdata]
  simp

end FilledTransaction

namespace State

/-- The checks a filled transaction has passed, with its fee. -/
structure Validated (state : State) (tx : FilledTransaction) (fee : Amount) : Prop where
  /-- A reservation makes one reservation output, a registration burns one. -/
  reservations_length : tx.transaction.reservationOutputs.length +
      (if tx.transaction.isRegistration then 1 else 0) =
    tx.spentReservations.length + (if tx.transaction.isReservation then 1 else 0)
  /-- A registration makes one name output. -/
  names_length : tx.transaction.bitnameOutputs.length =
    tx.spentBitnames.length + tx.transaction.registrationNameHash.toList.length
  update_spends : tx.transaction.isUpdate = true → tx.spentBitnames ≠ []
  name_fresh : ∀ nameHash, tx.transaction.registrationNameHash = some nameHash →
    nameHash ∉ state.bitnames.bitnames
  reserved : ∀ implied, tx.transaction.impliedReservationCommitment = some implied →
    ∃ input ∈ tx.spentReservations, input.2.reservationCommitment = some implied
  batch_valid : validateBatchIcann tx = .ok ()
  no_withdrawal : ∀ input ∈ tx.spentInputs, input.2.content.isWithdrawal = false
  fee_eq : tx.fee = .ok fee

variable {tx : FilledTransaction}

theorem validateReservations_ok {u : Unit} (h : validateReservations tx = .ok u) :
    tx.transaction.reservationOutputs.length +
        (if tx.transaction.isRegistration then 1 else 0) =
      tx.spentReservations.length + (if tx.transaction.isReservation then 1 else 0) := by
  have h := ensure_eq_ok.mp h
  split at h
  case isTrue hreservation =>
    have hnot : tx.transaction.isRegistration = false := by
      by_contra hne
      have := Transaction.isReservation_eq_false_of_isRegistration (Bool.of_not_eq_false hne)
      simp_all
    simp [hnot, hreservation, h]
  case isFalse hreservation =>
    split at h
    case isTrue hregistration => simp [hregistration, hreservation, h]
    case isFalse hregistration => simp [hregistration, hreservation, h]

variable {state : State}

/-- What the checks of names establish. -/
theorem validateBitnames_ok {u : Unit} (h : state.validateBitnames tx = .ok u) :
    (tx.transaction.isUpdate = true → tx.spentBitnames ≠ []) ∧
      (∀ nameHash, tx.transaction.registrationNameHash = some nameHash →
        nameHash ∉ state.bitnames.bitnames ∧
          ∀ implied, tx.transaction.impliedReservationCommitment = some implied →
            ∃ input ∈ tx.spentReservations, input.2.reservationCommitment = some implied) ∧
      tx.transaction.bitnameOutputs.length =
        tx.spentBitnames.length + tx.transaction.registrationNameHash.toList.length := by
  obtain ⟨hupdate, h⟩ := ensure_bind_eq_ok.mp h
  have hspends : tx.transaction.isUpdate = true → tx.spentBitnames ≠ [] := by
    intro hisUpdate hnil
    exact hupdate ⟨hisUpdate, .inl (by simp [hnil])⟩
  refine ⟨hspends, ?_⟩
  -- the check of a batch establishes nothing that is used
  cases hname : tx.transaction.registrationNameHash with
  | none =>
    have hbalance : tx.transaction.bitnameOutputs.length = tx.spentBitnames.length := by
      dsimp only at h
      rw [hname] at h
      split at h
      · exact ensure_eq_ok.mp (ensure_bind_eq_ok.mp h).2
      · exact ensure_eq_ok.mp h
    refine ⟨fun name heq => ?_, hbalance⟩
    cases heq
  | some nameHash =>
    have hchecks : nameHash ∉ state.bitnames.bitnames ∧
        (∀ implied, tx.transaction.impliedReservationCommitment = some implied →
          tx.spentReservations.any (fun input =>
            input.2.reservationCommitment = some implied) = true) ∧
        tx.transaction.bitnameOutputs.length = tx.spentBitnames.length + 1 := by
      dsimp only at h
      rw [hname] at h
      cases himplied : tx.transaction.impliedReservationCommitment with
      | none =>
        rw [himplied] at h
        have hrest : nameHash ∉ state.bitnames.bitnames ∧
            tx.transaction.bitnameOutputs.length = tx.spentBitnames.length + 1 := by
          split at h
          · obtain ⟨hfresh, h⟩ := ensure_bind_eq_ok.mp (ensure_bind_eq_ok.mp h).2
            exact ⟨hfresh, ensure_eq_ok.mp h⟩
          · obtain ⟨hfresh, h⟩ := ensure_bind_eq_ok.mp h
            exact ⟨hfresh, ensure_eq_ok.mp h⟩
        refine ⟨hrest.1, fun implied heq => ?_, hrest.2⟩
        cases heq
      | some implied =>
        rw [himplied] at h
        have hrest : nameHash ∉ state.bitnames.bitnames ∧
            tx.spentReservations.any (fun input =>
              input.2.reservationCommitment = some implied) = true ∧
            tx.transaction.bitnameOutputs.length = tx.spentBitnames.length + 1 := by
          split at h
          · obtain ⟨hfresh, h⟩ := ensure_bind_eq_ok.mp (ensure_bind_eq_ok.mp h).2
            obtain ⟨hany, h⟩ := ensure_bind_eq_ok.mp h
            exact ⟨hfresh, hany, ensure_eq_ok.mp h⟩
          · obtain ⟨hfresh, h⟩ := ensure_bind_eq_ok.mp h
            obtain ⟨hany, h⟩ := ensure_bind_eq_ok.mp h
            exact ⟨hfresh, hany, ensure_eq_ok.mp h⟩
        refine ⟨hrest.1, fun other heq => ?_, hrest.2.2⟩
        cases heq
        exact hrest.2.1
    obtain ⟨hfresh, hreserved, hlength⟩ := hchecks
    refine ⟨fun name heq => ?_, hlength⟩
    cases heq
    refine ⟨hfresh, fun implied himplied => ?_⟩
    simpa using hreserved implied himplied

/-- A registration that passes the checks of names spends a reservation with the implied
commitment. -/
theorem validateBitnames_reserved {u : Unit} (h : state.validateBitnames tx = .ok u)
    {implied : Hash} (himplied : tx.transaction.impliedReservationCommitment = some implied) :
    ∃ input ∈ tx.spentReservations, input.2.reservationCommitment = some implied := by
  obtain ⟨name, hname⟩ := Transaction.exists_registrationNameHash himplied
  exact ((validateBitnames_ok h).2.1 name hname).2 implied himplied

theorem validateFilledTransaction_ok {fee : Amount}
    (h : state.validateFilledTransaction tx = .ok fee) : state.Validated tx fee := by
  obtain ⟨_, hreservations, h⟩ := bind_eq_ok.mp h
  obtain ⟨_, hbitnames, h⟩ := bind_eq_ok.mp h
  obtain ⟨_, hbatch, h⟩ := bind_eq_ok.mp h
  obtain ⟨hupdate, hregistration, hnames⟩ := validateBitnames_ok hbitnames
  dsimp only at h
  split at h
  · cases h
  case h_2 hfind =>
    exact {
      reservations_length := validateReservations_ok hreservations
      names_length := hnames
      update_spends := hupdate
      name_fresh := fun name hname => (hregistration name hname).1
      reserved := fun _ himplied => validateBitnames_reserved hbitnames himplied
      batch_valid := hbatch
      no_withdrawal := by simpa using hfind
      fee_eq := mapError_eq_ok.mp h }

theorem Prevalid.validated {ctxt : BatchVerificationContext} {header : Header} {body : Body}
    {p : PrevalidatedBlock} (hp : Prevalid ctxt state header body p) :
    ∀ tx ∈ p.filledTransactions, ∃ fee, state.Validated tx fee := by
  have hfees := hp.fees_eq
  generalize p.filledTransactions = txs at hfees
  generalize (0 : Amount) = start at hfees
  induction txs generalizing start with
  | nil => simp
  | cons tx txs ih =>
    obtain ⟨next, hnext, hrest⟩ := foldlM_cons_eq_ok.mp hfees
    obtain ⟨fee, hfee, -⟩ := bind_eq_ok.mp hnext
    exact List.forall_mem_cons.mpr ⟨⟨fee, validateFilledTransaction_ok hfee⟩, ih next hrest⟩

/-- The outputs of a transaction can be filled if its names and reservations balance
and a registration finds its reservation. -/
theorem exists_fillable (hreservationsLength : tx.transaction.reservationOutputs.length +
        (if tx.transaction.isRegistration then 1 else 0) =
      tx.spentReservations.length + (if tx.transaction.isReservation then 1 else 0))
    (hnamesLength : tx.transaction.bitnameOutputs.length =
      tx.spentBitnames.length + tx.transaction.registrationNameHash.toList.length)
    (hreserved : ∀ implied, tx.transaction.impliedReservationCommitment = some implied →
      ∃ input ∈ tx.spentReservations, input.2.reservationCommitment = some implied) :
    ∃ filled, tx.Fillable filled := by
  have hnames : tx.transaction.bitnameOutputs.length = tx.filledBitnameOutputContent.length := by
    rw [hnamesLength, FilledTransaction.filledBitnameOutputContent, List.length_append,
      List.length_map]
    cases tx.transaction.registrationNameHash <;> rfl
  have hreservations : tx.transaction.reservationOutputs.length =
      tx.filledReservationOutputContent.length := by
    have hlength := hreservationsLength
    rw [FilledTransaction.filledReservationOutputContent, List.length_append]
    cases himplied : tx.transaction.impliedReservationCommitment with
    | none =>
      obtain ⟨hregistration, hcount⟩ := Transaction.not_registration himplied
      rw [hregistration] at hlength
      rw [FilledTransaction.retainReservations, List.length_map, Option.toList_map,
        List.length_map, hcount]
      simpa using hlength
    | some implied =>
      obtain ⟨hregistration, hreservation, hnone⟩ := Transaction.registration himplied
      obtain ⟨burned, hburned⟩ :=
        FilledTransaction.exists_burnedReservation (hreserved implied himplied)
      have hperm := (FilledTransaction.burnedReservation_perm hburned).length_eq
      rw [List.length_map, List.length_cons] at hperm
      rw [hregistration, hreservation] at hlength
      rw [hnone]
      simp only [if_true, Bool.false_eq_true, if_false] at hlength
      simp only [Option.map_none, Option.toList_none, List.length_nil]
      omega
  obtain ⟨filled, hfilled, hout, hn, hr⟩ := FilledTransaction.exists_fillOutputs
    (fun _ => FilledTransaction.isBitname_of_mem_filledBitnameOutputContent)
    (fun _ => FilledTransaction.isReservation_of_mem_filledReservationOutputContent)
    hnames hreservations
  exact ⟨filled, hfilled, hout, hn, hr⟩

theorem Validated.fillable {fee : Amount} (h : state.Validated tx fee) :
    ∃ filled, tx.Fillable filled :=
  exists_fillable h.reservations_length h.names_length h.reserved

end State

/-! The effect of a transaction on the BitName databases. -/

namespace Dbs

/-- The number that follows the last sequence number. -/
def seqsUsed (dbs : Dbs) : Nat := (dbs.lastSeq.map (· + 1)).getD 0

variable {dbs : Dbs}

theorem nextSeq_eq_ok {seq : Nat} : dbs.nextSeq = .ok seq ↔ dbs.seqsUsed = seq ∧ seq < 2 ^ 32 := by
  unfold nextSeq seqsUsed
  cases dbs.lastSeq with
  | none =>
    simp only [Except.ok.injEq, Option.map_none, Option.getD_none]
    omega
  | some last =>
    simp only [ensure_bind_eq_ok, Except.ok.injEq, Option.map_some, Option.getD_some]
    omega

/-- The number that follows the last sequence number is taken next. -/
theorem seqsUsed_insert (dbs : Dbs) (name : BitName) (bitnames : Db BitName BitNameData)
    (reservations : Db Txid Hash) :
    seqsUsed ⟨bitnames, reservations, dbs.seqToBitname.insert dbs.seqsUsed name⟩ =
      dbs.seqsUsed + 1 := by
  have hlast : Db.last (dbs.seqToBitname.insert dbs.seqsUsed name) =
      some (dbs.seqsUsed, name) := by
    refine Db.last_eq_of_greatest (Db.get_insert_self _ _ _) ?_
    intro seq hmem hne
    have hmem := ((Db.mem_insert _ _ _ _).mp hmem).resolve_left (Ne.symm hne)
    unfold seqsUsed lastSeq
    cases hlast : Db.last dbs.seqToBitname with
    | none =>
      rw [Db.last_eq_none.mp hlast] at hmem
      exact absurd hmem (Db.not_mem_empty _)
    | some entry =>
      rw [Option.map_some, Option.map_some, Option.getD_some, Nat.compare_eq_lt]
      by_cases heq : seq = entry.1
      · omega
      · have hlt := Nat.compare_eq_lt.mp (Db.lt_of_last hlast hmem heq)
        omega
  rw [seqsUsed, lastSeq, hlast]
  rfl

variable {names : List BitName}

theorem cons_sublist_iff_searchFrom {name : BitName} {spent : List BitName} :
    (name :: names).Sublist spent ↔
      ∃ rest, searchFrom name spent = some rest ∧ names.Sublist rest := by
  induction spent with
  | nil => simp [searchFrom]
  | cons other spent ih =>
    unfold searchFrom
    by_cases heq : other = name
    · simp [heq]
    · rw [List.sublist_cons_iff, ih, if_neg heq]
      constructor
      · rintro (h | ⟨rest, hcons, -⟩)
        · exact h
        · exact absurd (List.cons.inj hcons).1.symm heq
      · exact .inl

/-- The databases in which some names are marked. -/
structure Marks (dbs : Dbs) (names : List BitName) (dbs' : Dbs) : Prop where
  get_eq : ∀ name : BitName, dbs'.bitnames[name]? =
    dbs.bitnames[name]?.map fun data : BitNameData =>
      { data with isIcann := data.isIcann || decide (name ∈ names) }
  reservations_eq : dbs'.reservations = dbs.reservations
  seqToBitname_eq : dbs'.seqToBitname = dbs.seqToBitname

theorem Marks.nil (dbs : Dbs) : Marks dbs [] dbs := by
  refine ⟨fun name => ?_, rfl, rfl⟩
  cases dbs.bitnames[name]? <;> simp

theorem Marks.cons {dbs' : Dbs} {name : BitName} {data : BitNameData}
    (hget : dbs.bitnames[name]? = some data) (h : Marks { dbs with
      bitnames := dbs.bitnames.insert name { data with isIcann := true } } names dbs') :
    Marks dbs (name :: names) dbs' := by
  refine ⟨fun other => ?_, h.reservations_eq, h.seqToBitname_eq⟩
  rw [h.get_eq other, Db.get_insert]
  split
  case isTrue heq =>
    subst heq
    simp [hget]
  case isFalse hne =>
    simp [Ne.symm hne]

/-- A batch ICANN registration is applied exactly when its names are spent in
order and none is marked yet; then they all are. -/
theorem foldlM_icannStep {dbs' : Dbs} {spent rest : List BitName} (h : names.foldlM (icannStep
      (fun data name => ensure (data.isIcann = false) (.error (.alreadyIcann name))) true)
      (dbs, spent) = .ok (dbs', rest)) :
    names.Sublist spent ∧ names.Nodup ∧
      (∀ name ∈ names, ∀ data, dbs.bitnames[name]? = some data → data.isIcann = false) ∧
      Marks dbs names dbs' := by
  induction names generalizing dbs spent with
  | nil =>
    cases foldlM_nil_eq_ok.mp h
    exact ⟨List.nil_sublist _, List.nodup_nil, by simp, .nil _⟩
  | cons name names ih =>
    obtain ⟨⟨next, later⟩, hstep, h⟩ := foldlM_cons_eq_ok.mp h
    obtain ⟨found, hfound, hstep⟩ := bind_eq_ok.mp hstep
    obtain ⟨data, hget, hstep⟩ := bind_eq_ok.mp hstep
    obtain ⟨hunmarked, hstep⟩ := ensure_bind_eq_ok.mp hstep
    cases hstep
    have hget := okOr_eq_ok.mp hget
    obtain ⟨hsublist, hnodup, hfresh, hmarks⟩ := ih h
    have hnot : name ∉ names := by
      intro hmem
      have := hfresh name hmem _ (Db.get_insert_self _ _ _)
      cases this
    refine ⟨cons_sublist_iff_searchFrom.mpr ⟨later, okOr_eq_ok.mp hfound, hsublist⟩,
      List.nodup_cons.mpr ⟨hnot, hnodup⟩, ?_, .cons hget hmarks⟩
    refine List.forall_mem_cons.mpr ⟨?_, ?_⟩
    · intro other hother
      rw [hget] at hother
      cases hother
      exact hunmarked
    · intro other hmem record hrecord
      refine hfresh other hmem record ?_
      rwa [Db.get_insert_ne]
      rintro rfl
      exact hnot hmem

theorem exists_foldlM_icannStep {spent : List BitName} (hsublist : names.Sublist spent)
    (hnodup : names.Nodup)
    (hfresh : ∀ name ∈ names, ∃ data, dbs.bitnames[name]? = some data ∧ data.isIcann = false) :
    ∃ dbs' rest, names.foldlM (icannStep
      (fun data name => ensure (data.isIcann = false) (.error (.alreadyIcann name))) true)
      (dbs, spent) = .ok (dbs', rest) := by
  induction names generalizing dbs spent with
  | nil => exact ⟨dbs, spent, rfl⟩
  | cons name names ih =>
    obtain ⟨rest, hfound, hsublist⟩ := cons_sublist_iff_searchFrom.mp hsublist
    obtain ⟨hnot, hnodup⟩ := List.nodup_cons.mp hnodup
    obtain ⟨⟨data, hget, hunmarked⟩, hfresh⟩ := List.forall_mem_cons.mp hfresh
    obtain ⟨dbs', later, h⟩ := @ih
      { dbs with bitnames := dbs.bitnames.insert name { data with isIcann := true } } rest
      hsublist hnodup (by
        intro other hmem
        rw [Db.get_insert_ne]
        · exact hfresh other hmem
        · rintro rfl
          exact hnot hmem)
    refine ⟨dbs', later, foldlM_cons_eq_ok.mpr ⟨_, ?_, h⟩⟩
    rw [icannStep, hfound, okOr_some, ok_bind, hget, okOr_some, ok_bind, ensure_of hunmarked]
    rfl

/-- The undoing of a batch stops at a declared name that is marked. -/
theorem revertBatchIcann_of_marked {dbs' : Dbs} {tx : FilledTransaction}
    {batch : BatchIcannRegistrationData}
    (hmarked : ∀ name ∈ batch.nameHashes, ∀ data, dbs.bitnames[name]? = some data →
      data.isIcann = true) (h : dbs.revertBatchIcann tx batch = .ok dbs') :
    batch.nameHashes = [] := by
  obtain ⟨⟨reverted, rest⟩, hfold, -⟩ := bind_eq_ok.mp h
  cases hnames : batch.nameHashes.reverse with
  | nil => exact List.reverse_eq_nil_iff.mp hnames
  | cons name names =>
    rw [hnames] at hfold
    obtain ⟨_, hstep, -⟩ := foldlM_cons_eq_ok.mp hfold
    obtain ⟨_, -, hstep⟩ := bind_eq_ok.mp hstep
    obtain ⟨data, hget, hstep⟩ := bind_eq_ok.mp hstep
    obtain ⟨hunmarked, -⟩ := ensure_bind_eq_ok.mp hstep
    have hmem : name ∈ batch.nameHashes := by
      rw [← List.mem_reverse, hnames]
      exact List.mem_cons_self
    cases (hmarked name hmem data (okOr_eq_ok.mp hget)).symm.trans hunmarked

end Dbs

namespace State

/-- What a transaction can do to the BitName databases. -/
inductive DataEffect (height : Nat) (dbs : Dbs) (tx : FilledTransaction) : Dbs → Prop
  | none (hdata : tx.transaction.data = none) : DataEffect height dbs tx dbs
  | reservation {commitment}
      (hdata : tx.transaction.data = some (.bitNameReservation commitment)) :
      DataEffect height dbs tx (dbs.putReservation tx.txid commitment)
  | registration {nameHash nonce data implied burned seq}
      (hdata : tx.transaction.data = some (.bitNameRegistration nameHash nonce data))
      (himplied : tx.transaction.impliedReservationCommitment = some implied)
      (hburned : tx.burnedReservation implied = some burned)
      (hrecorded : burned ∈ dbs.reservations) (hseq : dbs.seqsUsed = seq)
      (hlt : seq < 2 ^ 32) :
      DataEffect height dbs tx {
        bitnames := dbs.bitnames.insert nameHash (.init data tx.txid height seq)
        reservations := dbs.reservations.erase burned
        seqToBitname := dbs.seqToBitname.insert seq nameHash }
  | update {updates name data}
      (hdata : tx.transaction.data = some (.bitNameUpdate updates))
      (hname : tx.updatedBitname = .ok name) (hget : dbs.bitnames[name]? = some data) :
      DataEffect height dbs tx { dbs with
        bitnames := dbs.bitnames.insert name (data.applyUpdates updates tx.txid height) }
  | batchIcann {batch dbs'}
      (hdata : tx.transaction.data = some (.batchIcann batch))
      (hsublist : batch.nameHashes.Sublist (Dbs.spentNames tx))
      (hnodup : batch.nameHashes.Nodup)
      (hunmarked : ∀ name ∈ batch.nameHashes, ∀ data, dbs.bitnames[name]? = some data →
        data.isIcann = false)
      (hmarks : Dbs.Marks dbs batch.nameHashes dbs') : DataEffect height dbs tx dbs'

variable {height : Nat} {dbs dbs' : Dbs} {tx : FilledTransaction}

theorem applyTx_ok (h : applyTx height dbs tx = .ok dbs') : DataEffect height dbs tx dbs' := by
  unfold applyTx applyData at h
  split at h
  case h_1 hdata =>
    cases h
    exact .none hdata
  case h_2 commitment hdata =>
    cases h
    exact .reservation hdata
  case h_3 nameHash nonce data hdata =>
    obtain ⟨implied, himplied, h⟩ := bind_eq_ok.mp (mapFailure_eq_ok.mp h)
    obtain ⟨burned, hburned, h⟩ := bind_eq_ok.mp h
    obtain ⟨hrecorded, h⟩ := ensure_bind_eq_ok.mp h
    obtain ⟨seq, hseq, h⟩ := bind_eq_ok.mp h
    cases h
    obtain ⟨hused, hlt⟩ := Dbs.nextSeq_eq_ok.mp hseq
    exact .registration hdata (okOr_eq_ok.mp himplied) (okOr_eq_ok.mp hburned) hrecorded hused hlt
  case h_4 updates hdata =>
    obtain ⟨name, hname, h⟩ := bind_eq_ok.mp (mapFailure_eq_ok.mp h)
    obtain ⟨data, hget, h⟩ := bind_eq_ok.mp h
    cases h
    exact .update hdata hname (okOr_eq_ok.mp hget)
  case h_5 batch hdata =>
    obtain ⟨⟨marked, rest⟩, hfold, h⟩ := bind_eq_ok.mp (mapFailure_eq_ok.mp h)
    cases h
    obtain ⟨hsublist, hnodup, hunmarked, hmarks⟩ := Dbs.foldlM_icannStep hfold
    exact .batchIcann hdata hsublist hnodup hunmarked hmarks

theorem DataEffect.mem_bitnames (h : DataEffect height dbs tx dbs') {name : BitName}
    (hmem : name ∈ dbs.bitnames) : name ∈ dbs'.bitnames := by
  cases h with
  | none => exact hmem
  | reservation => exact hmem
  | registration => exact (Db.mem_insert _ _ _ _).mpr (.inr hmem)
  | update => exact (Db.mem_insert _ _ _ _).mpr (.inr hmem)
  | batchIcann _ _ _ _ hmarks =>
    obtain ⟨data, hget⟩ := (Db.mem_iff _ _).mp hmem
    exact Db.mem_of_get (by rw [hmarks.get_eq, hget]; rfl)

theorem DataEffect.mem_of_registration (h : DataEffect height dbs tx dbs') {name : BitName}
    (hname : tx.transaction.registrationNameHash = some name) : name ∈ dbs'.bitnames := by
  unfold Transaction.registrationNameHash at hname
  cases h with
  | registration hdata =>
    rw [hdata] at hname
    cases hname
    exact (Db.mem_insert _ _ _ _).mpr (.inl rfl)
  | _ => simp_all

theorem DataEffect.seqsUsed (h : DataEffect height dbs tx dbs') :
    dbs'.seqsUsed = dbs.seqsUsed + tx.transaction.registrationNameHash.toList.length ∧
      ∀ name, tx.transaction.registrationNameHash = some name → dbs.seqsUsed < 2 ^ 32 := by
  unfold Transaction.registrationNameHash
  cases h with
  | none hdata | reservation hdata | update hdata =>
    simp [hdata, Dbs.seqsUsed, Dbs.lastSeq, Dbs.putReservation]
  | registration hdata _ _ _ hseq hlt =>
    subst hseq
    simp only [hdata, Option.toList_some, List.length_singleton, Dbs.seqsUsed_insert]
    exact ⟨trivial, fun _ _ => hlt⟩
  | batchIcann hdata _ _ _ hmarks =>
    simp [hdata, Dbs.seqsUsed, Dbs.lastSeq, hmarks.seqToBitname_eq]

theorem mem_bitnames_of_foldlM {txs : List FilledTransaction}
    (h : txs.foldlM (applyTx height) dbs = .ok dbs') {name : BitName} (hmem : name ∈ dbs.bitnames ∨
      ∃ tx ∈ txs, tx.transaction.registrationNameHash = some name) : name ∈ dbs'.bitnames := by
  induction txs generalizing dbs with
  | nil =>
    cases foldlM_nil_eq_ok.mp h
    simpa using hmem
  | cons tx txs ih =>
    obtain ⟨next, hnext, h⟩ := foldlM_cons_eq_ok.mp h
    have heffect := applyTx_ok hnext
    refine ih h ?_
    rcases hmem with hmem | ⟨other, hother, hname⟩
    · exact .inl (heffect.mem_bitnames hmem)
    · rcases List.mem_cons.mp hother with rfl | hother
      · exact .inl (heffect.mem_of_registration hname)
      · exact .inr ⟨other, hother, hname⟩

end State

end PlainBitnames
