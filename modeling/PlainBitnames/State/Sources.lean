import PlainBitnames.State.Invariants

/-!
Which outputs stand under which outpoints. Along every run, coinbase outputs carry
no names and deposits neither names nor memos, among the utxos and the stxos and in
the bundles. There are no names before the second block, so the bundle that can
spend everything, an unknown one at the first block, spends no name: the spender of
a name is always a transaction.
-/

namespace PlainBitnames

open Fallible

variable [Primitives]

/-- What an output can be, by the kind of its outpoint. -/
def OutPoint.Fits : OutPoint → FilledOutput → Prop
  | .regular _ _, _ => True
  | .coinbase _ _, output => output.isBitname = false
  | .deposit _, output => output.isBitname = false ∧ output.memo = []

theorem OutPoint.Fits.regular {outpoint : OutPoint} {output : FilledOutput}
    (h : outpoint.Fits output) (hname : output.isBitname = true) :
    ∃ txid vout, outpoint = .regular txid vout := by
  cases outpoint with
  | regular txid vout => exact ⟨txid, vout, rfl⟩
  | coinbase => cases hname.symm.trans h
  | deposit => cases hname.symm.trans h.1

theorem FilledOutput.exists_bitname {output : FilledOutput} (h : output.isBitname = true) :
    ∃ name, output.bitname = some name := by
  obtain ⟨address, content, memo⟩ := output
  cases content with
  | bitName name => exact ⟨name, rfl⟩
  | _ => cases h

theorem Transaction.exists_impliedReservationCommitment {tx : Transaction} {name : BitName}
    (h : tx.registrationNameHash = some name) :
    ∃ implied, tx.impliedReservationCommitment = some implied := by
  unfold registrationNameHash at h
  unfold impliedReservationCommitment
  split at h
  · exact ⟨_, rfl⟩
  · cases h

namespace State

/-- The outputs of a state fit their outpoints, and names are spent by transactions. -/
structure Sourced (state : State) : Prop where
  utxos : ∀ (outpoint : OutPoint) (output : FilledOutput),
    state.utxos[outpoint]? = some output → outpoint.Fits output
  stxos : ∀ (outpoint : OutPoint) (spent : SpentOutput),
    state.stxos[outpoint]? = some spent → outpoint.Fits spent.output ∧
      (spent.output.isBitname = true → ∃ txid vin, spent.inpoint = .regular txid vin)
  bundles : ∀ (m6id : M6id) bundle status,
    state.withdrawalBundles[m6id]? = some (.known bundle, status) →
      ∀ entry ∈ bundle.spendUtxos.toList, entry.1.Fits entry.2
  holds : state.BundlesHoldWithdrawals
  none_utxos : state.height = none → state.utxos = ∅
  zero_names : state.height = some 0 → ∀ (outpoint : OutPoint) (output : FilledOutput),
    state.utxos[outpoint]? = some output → output.isBitname = false

theorem Sourced.empty : Sourced State.empty where
  utxos outpoint output hget := by
    rw [State.empty, Db.get_empty] at hget
    cases hget
  stxos outpoint spent hget := by
    rw [State.empty, Db.get_empty] at hget
    cases hget
  bundles m6id bundle status hget := by
    rw [State.empty, Db.get_empty] at hget
    cases hget
  holds m6id bundle status hget := by
    rw [State.empty, Db.get_empty] at hget
    cases hget
  none_utxos _ := rfl
  zero_names hheight := by cases hheight

variable {state : State}

theorem Validated.created_of_nil {tx : FilledTransaction} {fee : Amount}
    (h : state.Validated tx fee) (hnil : tx.spentInputs = []) {entry : OutPoint × FilledOutput}
    (hentry : entry ∈ tx.created) : entry.2.isBitname = false := by
  obtain ⟨filled, hfillable⟩ := h.fillable
  cases hname : entry.2.isBitname with
  | false => rfl
  | true =>
    obtain ⟨name, hname⟩ := FilledOutput.exists_bitname hname
    rcases hfillable.name_cases hentry hname with ⟨input, hinput, -⟩ | hregistered
    · rw [hnil] at hinput
      cases hinput
    · -- a registration spends a reservation
      obtain ⟨implied, himplied⟩ := Transaction.exists_impliedReservationCommitment hregistered
      obtain ⟨input, hinput, -⟩ := h.reserved implied himplied
      rw [FilledTransaction.spentReservations, hnil] at hinput
      cases hinput

variable {state' : State}

theorem Sourced.applyBlock {ctxt : BatchVerificationContext} {header : Header} {body : Body}
    (hs : state.Sourced) (h : state.applyBlock ctxt header body = .ok state') : state'.Sourced := by
  obtain ⟨p, coinbase, dbs, hp, -, hcoinbase, hdbs, rfl⟩ := applyBlock_ok h
  have hplain : ∀ entry ∈ coinbase, entry.2.isBitname = false :=
    fun entry hentry => ((coinbaseUtxos_eq_ok.mp hcoinbase).2.2 entry hentry).1
  constructor
  · intro outpoint output hget
    rcases batch_utxos_cases dbs hget with hmem | ⟨tx, htx, hentry⟩ | ⟨-, -, hget⟩
    · obtain ⟨i, hkey, -⟩ := mem_coinbaseUtxos hcoinbase hmem
      obtain rfl : outpoint = _ := hkey
      exact hplain _ hmem
    · obtain ⟨fee, hvalid⟩ := hp.validated tx htx
      obtain ⟨filled, hfillable⟩ := hvalid.fillable
      obtain ⟨i, hkey, -⟩ := hfillable.mem_created hentry
      obtain rfl : outpoint = _ := hkey
      exact trivial
    · exact hs.utxos outpoint output hget
  · intro outpoint spent hget
    rcases Db.get_putAll_cases hget with hmem | ⟨-, hget⟩
    · obtain ⟨tx, htx, hmem⟩ := List.mem_flatMap.mp hmem
      obtain ⟨-, hutxo, vin, hvin⟩ := (hp.fills tx htx).mem_spent hmem
      exact ⟨hs.utxos outpoint spent.output hutxo, fun _ => ⟨tx.txid, vin, hvin⟩⟩
    · exact hs.stxos outpoint spent hget
  · exact hs.bundles
  · exact hs.holds
  · intro hheight
    cases hheight
  · -- the first block spends nothing
    intro hheight outpoint output hget
    have hzero : p.nextHeight = 0 := Option.some.inj hheight
    have hnone : state.height = none := by
      cases hold : state.height with
      | none => rfl
      | some height =>
        have hnext := nextHeight_ok hp.height_eq
        rw [hold, hzero] at hnext
        exact absurd hnext (Nat.succ_ne_zero height).symm
    have hempty := hs.none_utxos hnone
    rcases batch_utxos_cases dbs hget with hmem | ⟨tx, htx, hentry⟩ | ⟨-, -, hget⟩
    · exact hplain _ hmem
    · obtain ⟨fee, hvalid⟩ := hp.validated tx htx
      refine hvalid.created_of_nil (List.eq_nil_iff_forall_not_mem.mpr ?_) hentry
      intro input hinput
      have hget := (hp.fills tx htx).get_of_mem hinput
      rw [hempty, Db.get_empty] at hget
      cases hget
    · rw [hempty, Db.get_empty] at hget
      cases hget

theorem Sourced.eventEffect {height : Nat} {event : BlockEvent} (hs : state.Sourced)
    (hheight : state.height = some height) (heffect : EventEffect height state event state') :
    state'.Sourced := by
  cases heffect with
  | deposit deposit =>
    have hcases : ∀ {outpoint : OutPoint} {output : FilledOutput},
        (state.utxos.insert (.deposit deposit.outpoint) deposit.output)[outpoint]? =
          some output →
        outpoint = .deposit deposit.outpoint ∧ output = deposit.output ∨
          state.utxos[outpoint]? = some output := by
      intro outpoint output hget
      rw [Db.get_insert] at hget
      split at hget
      case isTrue heq => exact .inl ⟨heq.symm, (Option.some.inj hget).symm⟩
      case isFalse => exact .inr hget
    refine ⟨?_, hs.stxos, hs.bundles, hs.holds, ?_, ?_⟩
    · intro outpoint output hget
      rcases hcases hget with ⟨rfl, rfl⟩ | hget
      · exact ⟨rfl, rfl⟩
      · exact hs.utxos outpoint output hget
    · intro hnone
      cases hheight.symm.trans hnone
    · intro hzero outpoint output hget
      rcases hcases hget with ⟨rfl, rfl⟩ | hget
      · rfl
      · exact hs.zero_names hzero outpoint output hget
  | withdrawalBundle heffect =>
    have hframe := heffect.frame.2.1
    have hwithdrawal : ∀ {m6id : M6id} {bundle status} {entry : OutPoint × FilledOutput},
        state.withdrawalBundles[m6id]? = some (.known bundle, status) →
        entry ∈ bundle.spendUtxos.toList → entry.2.isBitname = false := by
      intro m6id bundle status entry hbundle hmem
      have hnot := FilledOutput.isAsset_of_isWithdrawal (hs.holds _ _ _ hbundle _ hmem)
      exact (Bool.or_eq_false_iff.mp hnot).1
    refine ⟨?_, ?_, ?_, hs.holds.bundleEffect heffect, ?_, ?_⟩
    · intro outpoint output hget
      rcases heffect.utxos hget with hget | ⟨bundle, status, hbundle, hmem⟩
      · exact hs.utxos outpoint output hget
      · exact hs.bundles _ bundle status hbundle _ hmem
    · intro outpoint spent hget
      rcases heffect.stxos hget with hget | ⟨rfl, hget⟩ | ⟨bundle, status, hbundle, hmem⟩
      · exact hs.stxos outpoint spent hget
      · refine ⟨hs.utxos outpoint spent.output hget, fun hname => ?_⟩
        cases hname.symm.trans (hs.zero_names hheight outpoint spent.output hget)
      · refine ⟨hs.bundles _ bundle status hbundle _ hmem, fun hname => ?_⟩
        cases hname.symm.trans (hwithdrawal hbundle hmem)
    · intro m6id bundle status hget
      obtain ⟨earlier, hearlier⟩ := heffect.known hget
      exact hs.bundles m6id bundle earlier hearlier
    · intro hnone
      cases hheight.symm.trans (hframe.symm.trans hnone)
    · intro hzero outpoint output hget
      rcases heffect.utxos hget with hget | ⟨bundle, status, hbundle, hmem⟩
      · exact hs.zero_names (hframe.symm.trans hzero) outpoint output hget
      · exact hwithdrawal hbundle hmem

theorem Sourced.collectEffect {height : Nat} (hs : state.Sourced)
    (heffect : CollectEffect height state state') : state'.Sourced := by
  have hholds := hs.holds.collectEffect heffect
  cases heffect with
  | unchanged => exact hs
  | collected _ _ hbundle =>
    refine ⟨hs.utxos, hs.stxos, ?_, hholds, hs.none_utxos, hs.zero_names⟩
    intro other bundle status hget
    rw [Db.get_insert] at hget
    split at hget
    · cases hget
      exact fun entry hentry => hs.utxos _ _ (hbundle.withdrawals entry hentry).1
    · exact hs.bundles other bundle status hget

theorem Sourced.connectTwoWayPegData {data : TwoWayPegData} (hs : state.Sourced)
    (h : state.connectTwoWayPegData data = .ok state') : state'.Sourced := by
  obtain ⟨height, hheight⟩ := exists_height_of_connectTwoWayPegData h
  have hstate : state'.Sourced ∧ state'.height = some height := by
    refine connectTwoWayPegData_history
      (P := fun _ s => s.Sourced ∧ s.height = some height) hheight ⟨hs, hheight⟩ ?_ ?_ ?_ h
    · rintro done event s s' ⟨hs, hheight⟩ heffect
      refine ⟨hs.eventEffect hheight heffect, ?_⟩
      cases heffect with
      | deposit => exact hheight
      | withdrawalBundle heffect => exact heffect.frame.2.1.trans hheight
    · rintro done s _ _ _ ⟨hs, hheight⟩
      exact ⟨⟨hs.utxos, hs.stxos, hs.bundles, hs.holds, hs.none_utxos, hs.zero_names⟩, hheight⟩
    · rintro done s s' ⟨hs, hheight⟩ heffect
      refine ⟨hs.collectEffect heffect, ?_⟩
      cases heffect with
      | unchanged => exact hheight
      | collected => exact hheight
  exact hstate.1

theorem sourced_of_run {steps : List Step} (h : State.empty.run steps = .ok state) :
    state.Sourced := by
  refine run_history (P := fun _ s => s.Sourced) .empty ?_ h
  intro done step s s' hs hstep
  cases step with
  | block ctxt header body => exact hs.applyBlock hstep
  | peg data => exact hs.connectTwoWayPegData hstep

end State

end PlainBitnames
