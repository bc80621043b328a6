import PlainBitnames.State.PegSpec
import PlainBitnames.State.TxSpec

/-!
Invariants of all runs: known bundles hold withdrawal outputs only, so two-way
peg data brings neither names nor reservations into the utxos, and every name
that a utxo carries is registered.
-/

namespace PlainBitnames

open Fallible

variable [Primitives]

namespace FilledOutput

/-- The output carries a name or a reservation. -/
def isAsset (output : FilledOutput) : Bool := output.isBitname || output.isReservation

variable {output : FilledOutput}

theorem isBitname_of_bitname {name : BitName} (h : output.bitname = some name) :
    output.isBitname = true := by
  obtain ⟨address, content, memo⟩ := output
  cases content <;> first | rfl | cases h

theorem isAsset_of_bitname {name : BitName} (h : output.bitname = some name) :
    output.isAsset = true := by
  rw [isAsset, isBitname_of_bitname h, Bool.true_or]

theorem isAsset_of_isWithdrawal (h : output.content.isWithdrawal = true) :
    output.isAsset = false := by
  obtain ⟨address, content, memo⟩ := output
  cases content <;> first | rfl | cases h

end FilledOutput

namespace State

variable {state : State}

theorem run_history {P : List Step → State → Prop} {steps : List Step} (hinit : P [] State.empty)
    (hstep : ∀ done step s s', P done s → s.step step = .ok s' → P (done ++ [step]) s')
    (h : State.empty.run steps = .ok state) : P steps state :=
  foldlM_history hinit (fun done step s s' _ hs hok => hstep done step s s' hs hok) h

/-- The outputs of a known bundle are withdrawals. -/
def BundlesHoldWithdrawals (state : State) : Prop :=
  ∀ (m6id : M6id) bundle status, state.withdrawalBundles[m6id]? = some (.known bundle, status) →
    ∀ entry ∈ bundle.spendUtxos.toList, entry.2.content.isWithdrawal = true

variable {state' : State} {height : Nat} {event : WithdrawalBundleEventStatus}

/-- Events make no bundle known. -/
theorem BundleEffect.known {m6id : M6id} (heffect : BundleEffect height m6id state event state')
    {other : M6id} {bundle : WithdrawalBundle} {status : HeightRollBack WithdrawalBundleStatus}
    (hget : state'.withdrawalBundles[other]? = some (.known bundle, status)) :
    ∃ earlier, state.withdrawalBundles[other]? = some (.known bundle, earlier) := by
  -- only the entry of the event's own bundle is new
  have hinsert : ∀ {info history}, (state.withdrawalBundles.insert m6id (info, history))[other]? =
      some (.known bundle, status) → (info = .known bundle → ∃ earlier,
        state.withdrawalBundles[m6id]? = some (.known bundle, earlier)) →
      ∃ earlier, state.withdrawalBundles[other]? = some (.known bundle, earlier) := by
    intro info history hget hinfo
    rw [Db.get_insert] at hget
    split at hget
    case isTrue heq =>
      cases hget
      exact heq ▸ hinfo rfl
    case isFalse => exact ⟨_, hget⟩
  cases heffect with
  | unchanged => exact ⟨_, hget⟩
  | noted hbundle => exact hinsert hget fun hinfo => ⟨_, hinfo ▸ hbundle⟩
  | discovered => exact hinsert hget fun hinfo => (nomatch hinfo)
  | submitted hbundle => exact hinsert hget fun hinfo => ⟨_, hinfo ▸ hbundle⟩
  | confirmedUnexpected hbundle => exact hinsert hget fun hinfo => ⟨_, hinfo ▸ hbundle⟩
  | confirmedUnknown => exact hinsert hget fun hinfo => (nomatch hinfo)
  | failed hbundle => exact hinsert hget fun hinfo => ⟨_, hinfo ▸ hbundle⟩

theorem BundlesHoldWithdrawals.bundleEffect {m6id : M6id} (h : state.BundlesHoldWithdrawals)
    (heffect : BundleEffect height m6id state event state') : state'.BundlesHoldWithdrawals := by
  intro other bundle status hget
  obtain ⟨earlier, hearlier⟩ := heffect.known hget
  exact h other bundle earlier hearlier

theorem BundlesHoldWithdrawals.collectEffect (h : state.BundlesHoldWithdrawals)
    (heffect : CollectEffect height state state') : state'.BundlesHoldWithdrawals := by
  cases heffect with
  | unchanged => exact h
  | collected _ _ hbundle =>
    intro other bundle status hget
    rw [Db.get_insert] at hget
    split at hget
    · cases hget
      exact fun entry hentry => (hbundle.withdrawals entry hentry).2
    · exact h other bundle status hget

/-- Names and reservations among the utxos of one state are among those of
another. -/
def AssetsFrom (state' state : State) : Prop :=
  ∀ (outpoint : OutPoint) (output : FilledOutput), state'.utxos[outpoint]? = some output →
    output.isAsset = true → state.utxos[outpoint]? = some output

/-- Where the utxos after an event of a bundle come from. -/
theorem BundleEffect.utxos {m6id : M6id} (heffect : BundleEffect height m6id state event state')
    {outpoint : OutPoint} {output : FilledOutput} (hget : state'.utxos[outpoint]? = some output) :
    state.utxos[outpoint]? = some output ∨
      ∃ bundle status, state.withdrawalBundles[m6id]? = some (.known bundle, status) ∧
        (outpoint, output) ∈ bundle.spendUtxos.toList := by
  have htaken : ∀ keys : List OutPoint, (Db.eraseAll state.utxos keys)[outpoint]? = some output →
      state.utxos[outpoint]? = some output := by
    intro keys h
    by_cases hmem : outpoint ∈ keys
    · rw [Db.get_eraseAll_of_mem hmem] at h
      cases h
    · rwa [Db.get_eraseAll_of_not_mem hmem] at h
  cases heffect with
  | unchanged => exact .inl hget
  | noted => exact .inl hget
  | discovered => exact .inl hget
  | submitted => exact .inl (htaken _ hget)
  | confirmedUnexpected => exact .inl (htaken _ hget)
  | confirmedUnknown =>
    have hempty : (∅ : Db OutPoint FilledOutput)[outpoint]? = some output := hget
    rw [Db.get_empty] at hempty
    cases hempty
  | failed hbundle =>
    rcases Db.get_putAll_cases hget with hmem | ⟨-, hget⟩
    · exact .inr ⟨_, _, hbundle, hmem⟩
    · exact .inl hget

/-- Where the stxos after an event of a bundle come from. -/
theorem BundleEffect.stxos {m6id : M6id} (heffect : BundleEffect height m6id state event state')
    {outpoint : OutPoint} {spent : SpentOutput} (hget : state'.stxos[outpoint]? = some spent) :
    state.stxos[outpoint]? = some spent ∨
      (height = 0 ∧ state.utxos[outpoint]? = some spent.output) ∨
      ∃ bundle status, state.withdrawalBundles[m6id]? = some (.known bundle, status) ∧
        (outpoint, spent.output) ∈ bundle.spendUtxos.toList := by
  have hput : ∀ entries : List (OutPoint × FilledOutput),
      (Db.putAll state.stxos (entries.map fun entry =>
        (entry.1, (⟨entry.2, .withdrawal m6id⟩ : SpentOutput))))[outpoint]? = some spent →
      state.stxos[outpoint]? = some spent ∨ (outpoint, spent.output) ∈ entries := by
    intro entries h
    rcases Db.get_putAll_cases h with hmem | ⟨-, hget⟩
    · obtain ⟨entry, hentry, heq⟩ := List.mem_map.mp hmem
      cases heq
      exact .inr hentry
    · exact .inl hget
  cases heffect with
  | unchanged => exact .inl hget
  | noted => exact .inl hget
  | discovered => exact .inl hget
  | submitted hbundle =>
    exact (hput _ hget).imp_right fun hmem => .inr ⟨_, _, hbundle, hmem⟩
  | confirmedUnexpected hbundle =>
    exact (hput _ hget).imp_right fun hmem => .inr ⟨_, _, hbundle, hmem⟩
  | confirmedUnknown _ _ _ hzero =>
    exact (hput _ hget).imp_right fun hmem =>
      .inl ⟨hzero, Db.mem_toList.mp hmem⟩
  | @failed bundle =>
    have hget : (Db.eraseAll state.stxos (bundle.spendUtxos.toList.map Prod.fst))[outpoint]? =
      some spent := hget
    by_cases hmem : outpoint ∈ bundle.spendUtxos.toList.map Prod.fst
    · rw [Db.get_eraseAll_of_mem hmem] at hget
      cases hget
    · rw [Db.get_eraseAll_of_not_mem hmem] at hget
      exact .inl hget

/-- What holds since a state while two-way peg data is connected: no names and no
reservations are brought in, and the BitName databases are left alone. -/
structure AssetsSince (before state : State) : Prop where
  holds : state.BundlesHoldWithdrawals
  assets : state.AssetsFrom before
  bitnames : state.bitnames = before.bitnames

theorem AssetsSince.refl (h : state.BundlesHoldWithdrawals) : AssetsSince state state :=
  ⟨h, fun _ _ hget _ => hget, rfl⟩

theorem AssetsSince.eventEffect {before : State} {event : BlockEvent} (h : AssetsSince before state)
    (heffect : EventEffect height state event state') : AssetsSince before state' := by
  cases heffect with
  | deposit deposit =>
    refine ⟨h.holds, ?_, h.bitnames⟩
    intro outpoint output hget hasset
    rw [Db.get_insert] at hget
    split at hget
    · cases hget
      cases hasset
    · exact h.assets outpoint output hget hasset
  | withdrawalBundle heffect =>
    refine ⟨h.holds.bundleEffect heffect, ?_, heffect.frame.2.2.1.trans h.bitnames⟩
    intro outpoint output hget hasset
    rcases heffect.utxos hget with hget | ⟨bundle, status, hbundle, hmem⟩
    · exact h.assets outpoint output hget hasset
    · have hnot := FilledOutput.isAsset_of_isWithdrawal
        (h.holds _ bundle status hbundle _ hmem)
      rw [hnot] at hasset
      cases hasset

theorem AssetsSince.collectEffect {before : State} (h : AssetsSince before state)
    (heffect : CollectEffect height state state') : AssetsSince before state' := by
  refine ⟨h.holds.collectEffect heffect, ?_, ?_⟩ <;> cases heffect
  · exact h.assets
  · exact h.assets
  · exact h.bitnames
  · exact h.bitnames

theorem connectTwoWayPegData_assets {data : TwoWayPegData} (hholds : state.BundlesHoldWithdrawals)
    (h : state.connectTwoWayPegData data = .ok state') : AssetsSince state state' := by
  obtain ⟨height, hheight⟩ := exists_height_of_connectTwoWayPegData h
  exact connectTwoWayPegData_history (P := fun _ s => AssetsSince state s) hheight
    (.refl hholds) (fun _ _ _ _ hs heffect => hs.eventEffect heffect)
    (fun _ _ _ _ _ hs => ⟨hs.holds, hs.assets, hs.bitnames⟩)
    (fun _ _ _ hs heffect => hs.collectEffect heffect) h

/-- Every name that a utxo carries is registered. -/
def NamesRegistered (state : State) : Prop :=
  ∀ (outpoint : OutPoint) (output : FilledOutput) (name : BitName),
    state.utxos[outpoint]? = some output → output.bitname = some name →
      name ∈ state.bitnames.bitnames

theorem NamesRegistered.applyBlock {ctxt : BatchVerificationContext} {header : Header} {body : Body}
    (hnames : state.NamesRegistered) (h : state.applyBlock ctxt header body = .ok state') :
    state'.NamesRegistered := by
  obtain ⟨p, coinbase, dbs, hp, -, hcoinbase, hdbs, rfl⟩ := applyBlock_ok h
  intro outpoint output name hget hname
  have hspent : ∀ tx ∈ p.filledTransactions, ∀ input ∈ tx.spentInputs,
      input.2.bitname = some name → name ∈ state.bitnames.bitnames := by
    intro tx htx input hinput
    exact hnames input.1 input.2 name ((hp.fills tx htx).get_of_mem hinput)
  refine mem_bitnames_of_foldlM hdbs ?_
  rcases batch_utxos_cases dbs hget with hmem | ⟨tx, htx, hentry⟩ | ⟨-, -, hget⟩
  · -- a coinbase output carries no name
    have hnot := ((coinbaseUtxos_eq_ok.mp hcoinbase).2.2 _ hmem).1
    rw [FilledOutput.isBitname_of_bitname hname] at hnot
    cases hnot
  · obtain ⟨fee, hvalid⟩ := hp.validated tx htx
    obtain ⟨filled, hfillable⟩ := hvalid.fillable
    rcases hfillable.name_cases hentry hname with ⟨input, hinput, hinputName⟩ | hregistered
    · exact .inl (hspent tx htx input hinput hinputName)
    · exact .inr ⟨tx, htx, hregistered⟩
  · exact .inl (hnames outpoint output name hget hname)

/-- In every state of a run, known bundles hold withdrawals and every name that
a utxo carries is registered. -/
theorem namesRegistered_of_run {steps : List Step} (h : State.empty.run steps = .ok state) :
    state.BundlesHoldWithdrawals ∧ state.NamesRegistered := by
  refine run_history (P := fun _ s => s.BundlesHoldWithdrawals ∧ s.NamesRegistered) ⟨?_, ?_⟩ ?_ h
  · intro m6id bundle status hget
    rw [State.empty, Db.get_empty] at hget
    cases hget
  · intro outpoint output name hget
    rw [State.empty, Db.get_empty] at hget
    cases hget
  · rintro done step s s' ⟨hholds, hnames⟩ hstep
    cases step with
    | block ctxt header body =>
      refine ⟨?_, hnames.applyBlock hstep⟩
      obtain ⟨p, coinbase, dbs, -, -, -, -, rfl⟩ := applyBlock_ok hstep
      exact hholds
    | peg data =>
      have hsince := connectTwoWayPegData_assets hholds hstep
      refine ⟨hsince.holds, ?_⟩
      intro outpoint output name hget hname
      rw [hsince.bitnames]
      exact hnames outpoint output name
        (hsince.assets outpoint output hget (FilledOutput.isAsset_of_bitname hname)) hname

end State

end PlainBitnames
