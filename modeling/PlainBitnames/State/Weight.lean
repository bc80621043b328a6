import PlainBitnames.State.Life

/-!
Weighing the outputs of a state. A weighing gives a weight to every unspent and
to every spent output, and none to outputs that are not protected. Since
protected outputs live once, the total weight of a state changes in a block by
the weights of the outputs that the block creates and spends, and it is kept by
every event of a bundle that moves outputs of equal weight.
-/

namespace PlainBitnames

open Borsh Fallible

variable [Primitives]

/-- Weights of unspent and of spent outputs. -/
structure Weighing (prot : Output → Prop) where
  utxo : OutPoint → FilledOutput → Nat
  stxo : OutPoint → SpentOutput → Nat
  utxo_eq_zero : ∀ outpoint output, ¬ prot output.toOutput → utxo outpoint output = 0
  stxo_eq_zero : ∀ outpoint spent, ¬ prot spent.output.toOutput → stxo outpoint spent = 0

/-- Two transactions of a block with one txid create no protected output. -/
def Distinct (prot : Output → Prop) (p : State.PrevalidatedBlock) : Prop :=
  p.filledTransactions.Pairwise fun tx tx' =>
    tx.txid = tx'.txid → ∀ output ∈ tx.outputs, ¬ prot output

namespace Weighing

variable {prot : Output → Prop} (w : Weighing prot)

/-- The weight of a list of unspent outputs. -/
def sum (entries : List (OutPoint × FilledOutput)) : Nat :=
  (entries.map fun entry => w.utxo entry.1 entry.2).sum

def spentSum (entries : List (OutPoint × SpentOutput)) : Nat :=
  (entries.map fun entry => w.stxo entry.1 entry.2).sum

@[simp] theorem sum_append (l l' : List (OutPoint × FilledOutput)) :
    w.sum (l ++ l') = w.sum l + w.sum l' := by
  simp [sum]

/-- The weight of all outputs of a state. -/
def total (state : State) : Nat := Db.total w.utxo state.utxos + Db.total w.stxo state.stxos

variable {history : History} {state state' : State}

/-- The keys of what a block creates are distinct as far as it is protected. -/
theorem pairwise_created {ctxt : BatchVerificationContext} {header : Header} {body : Body}
    {p : State.PrevalidatedBlock} (hp : State.Prevalid ctxt state header body p)
    (hdistinct : Distinct prot p) {coinbase : List (OutPoint × FilledOutput)}
    (hcoinbase : State.coinbaseUtxos header body = .ok coinbase) :
    (coinbase ++ p.filledTransactions.flatMap FilledTransaction.created).Pairwise fun a b =>
      a.1 = b.1 → w.utxo a.1 a.2 = 0 := by
  have hfillable : ∀ tx ∈ p.filledTransactions, ∃ filled, tx.Fillable filled := by
    intro tx htx
    obtain ⟨fee, hvalid⟩ := hp.validated tx htx
    exact hvalid.fillable
  have hnodup : ∀ {entries : List (OutPoint × FilledOutput)}, (entries.map Prod.fst).Nodup →
      entries.Pairwise fun a b => a.1 = b.1 → w.utxo a.1 a.2 = 0 := by
    intro entries hkeys
    exact (List.pairwise_map.mp hkeys).imp fun hne heq => absurd heq hne
  rw [List.pairwise_append, List.pairwise_flatMap]
  refine ⟨hnodup ?_, ⟨?_, ?_⟩, ?_⟩
  · rw [(State.coinbaseUtxos_eq_ok.mp hcoinbase).1]
    exact nodup_outpointsOf (fun _ _ h => (OutPoint.coinbase.inj h).2) (fits_parts hp.fits_body).2
  · intro tx htx
    refine hnodup ?_
    obtain ⟨filled, hfilled⟩ := hfillable tx htx
    rw [FilledTransaction.map_fst_created (by rw [hfilled.filled_eq]; rfl)]
    exact nodup_outpointsOf (fun _ _ h => (OutPoint.regular.inj h).2)
      (length_outputs_lt (hp.fits_transaction htx))
  · refine List.Pairwise.imp_of_mem ?_ hdistinct
    intro tx tx' htx htx' hne a ha b hb heq
    obtain ⟨filled, hfilled⟩ := hfillable tx htx
    obtain ⟨filled', hfilled'⟩ := hfillable tx' htx'
    obtain ⟨i, hkey, houtput⟩ := hfilled.mem_created ha
    obtain ⟨j, hkey', -⟩ := hfilled'.mem_created hb
    rw [hkey, hkey'] at heq
    exact w.utxo_eq_zero _ _ (hne (OutPoint.regular.inj heq).1 _ (List.mem_of_getElem? houtput))
  · intro a ha b hb heq
    obtain ⟨tx, htx, hb⟩ := List.mem_flatMap.mp hb
    obtain ⟨filled, hfilled⟩ := hfillable tx htx
    obtain ⟨i, hkey, -⟩ := State.mem_coinbaseUtxos hcoinbase ha
    obtain ⟨j, hkey', -⟩ := hfilled.mem_created hb
    rw [hkey, hkey'] at heq
    cases heq

/-- How a block changes the weight of a state. -/
theorem applyBlock (hcf : CollisionFree) (hrespects : Respects prot)
    (h : Live prot history state) (hdeposits : (history.deposits.map Deposit.outpoint).Nodup)
    {ctxt : BatchVerificationContext} {header : Header} {body : Body}
    {p : State.PrevalidatedBlock} (hp : State.Prevalid ctxt state header body p)
    (hguards : Guards prot history p) (hdistinct : Distinct prot p)
    {coinbase : List (OutPoint × FilledOutput)}
    (hcoinbase : State.coinbaseUtxos header body = .ok coinbase) (dbs : Dbs) :
    w.total (state.batch coinbase p.filledTransactions dbs) +
        w.sum (p.filledTransactions.flatMap FilledTransaction.spentInputs) =
      w.total state + w.sum coinbase +
        w.sum (p.filledTransactions.flatMap FilledTransaction.created) +
        w.spentSum (p.filledTransactions.flatMap FilledTransaction.spent) := by
  have hhistory := h.unambiguous hcf hdeposits
  have hkeys : (p.filledTransactions.flatMap FilledTransaction.spent).map Prod.fst =
      p.filledTransactions.flatMap FilledTransaction.inputs := by
    rw [List.map_flatMap]
    exact List.flatMap_congr fun tx htx => State.map_fst_spent (hp.fills tx htx)
  -- what a created output replaces has no weight
  have hput : Db.total w.utxo (state.batch coinbase p.filledTransactions dbs).utxos =
      Db.total w.utxo (Db.eraseAll state.utxos
        (p.filledTransactions.flatMap FilledTransaction.inputs)) +
      w.sum (coinbase ++ p.filledTransactions.flatMap FilledTransaction.created) := by
    refine Db.total_putAll w.utxo ?_ (w.pairwise_created hp hdistinct hcoinbase)
    intro entry hentry output hget
    have hutxo : state.utxos[entry.1]? = some output := by
      by_cases hinput : entry.1 ∈ p.filledTransactions.flatMap FilledTransaction.inputs
      · rw [Db.get_eraseAll_of_mem hinput] at hget
        cases hget
      · rwa [Db.get_eraseAll_of_not_mem hinput] at hget
    refine w.utxo_eq_zero _ _ fun hprot => ?_
    rcases List.mem_append.mp hentry with hentry | hentry
    · exact (h.coinbase_fresh hcf hp.prev_eq hcoinbase hentry).1 (Db.mem_of_get hutxo)
    · obtain ⟨tx, htx, hentry⟩ := List.mem_flatMap.mp hentry
      have halike := History.Explains.alike hcf
        (h.unambiguous_addBlock hcf hdeposits hp.prev_eq hp.fits_body)
        ((h.utxos _ _ hutxo).mono (history.extends_addBlock header body))
        (Traced.explains_created hp history htx hentry)
      exact (h.created_fresh hcf hp hguards htx hentry (hrespects _ _ halike hprot)).1
        (Db.mem_of_get hutxo)
  have herase := Db.total_eraseAll w.utxo state.utxos hp.nodup
  have hstxos : Db.total w.stxo (state.batch coinbase p.filledTransactions dbs).stxos =
      Db.total w.stxo state.stxos +
        w.spentSum (p.filledTransactions.flatMap FilledTransaction.spent) := by
    refine Db.total_putAll w.stxo ?_ ?_
    · intro entry hentry spent hget
      by_contra hne
      have hprot : prot spent.output.toOutput := by
        by_contra hnot
        exact hne (w.stxo_eq_zero _ _ hnot)
      obtain ⟨tx, htx, hentry⟩ := List.mem_flatMap.mp hentry
      obtain ⟨-, hutxo, -⟩ := (hp.fills tx htx).mem_spent hentry
      exact h.not_mem_utxos hcf hrespects hhistory hget hprot (Db.mem_of_get hutxo)
    · have hnodup := hkeys ▸ hp.nodup
      exact (List.pairwise_map.mp hnodup).imp fun hne heq => absurd heq hne
  have hinputs : ((p.filledTransactions.flatMap FilledTransaction.inputs).map
      (Db.weightAt w.utxo state.utxos)).sum =
        w.sum (p.filledTransactions.flatMap FilledTransaction.spentInputs) := by
    rw [sum, List.map_flatMap, List.map_flatMap]
    congr 1
    refine List.flatMap_congr fun tx htx => ?_
    rw [← (hp.fills tx htx).map_fst_spentInputs, List.map_map]
    refine List.map_congr_left fun input hinput => ?_
    rw [Function.comp_apply, Db.weightAt, (hp.fills tx htx).get_of_mem hinput, Option.elim_some]
  rw [sum_append] at hput
  unfold total
  omega

/-- A deposit adds its weight. -/
theorem deposit (h : Live prot history state) {deposit : Deposit}
    (hhistory : (history.addEvent (.deposit deposit)).Unambiguous) :
    w.total { state with
        utxos := state.utxos.insert (.deposit deposit.outpoint) deposit.output } =
      w.total state + w.utxo (.deposit deposit.outpoint) deposit.output := by
  have hfresh := (h.deposit_fresh hhistory).1
  unfold total
  rw [Db.total_insert_of_fresh w.utxo deposit.output hfresh]
  dsimp only
  omega

/-- Moving outputs to the stxos keeps the weight, if each weighs the same before
and after. -/
theorem takeOut (hcf : CollisionFree) (hrespects : Respects prot) (h : Live prot history state)
    (hhistory : history.Unambiguous) (m6id : M6id) {entries : List (OutPoint × FilledOutput)}
    (hnodup : (entries.map Prod.fst).Nodup)
    (hweight : ∀ entry ∈ entries, ∃ output, state.utxos[entry.1]? = some output ∧
      w.utxo entry.1 output = w.stxo entry.1 ⟨entry.2, .withdrawal m6id⟩) :
    w.total (state.takeOut m6id entries) = w.total state := by
  have hkeys : (entries.map fun entry => (entry.1, (⟨entry.2, .withdrawal m6id⟩ : SpentOutput))).map
      Prod.fst = entries.map Prod.fst := by
    rw [List.map_map]
    rfl
  have herase := Db.total_eraseAll w.utxo state.utxos hnodup
  have hput : Db.total w.stxo (state.takeOut m6id entries).stxos =
      Db.total w.stxo state.stxos + w.spentSum (entries.map fun entry =>
        (entry.1, ⟨entry.2, .withdrawal m6id⟩)) := by
    refine Db.total_putAll w.stxo ?_ ?_
    · intro entry hentry spent hget
      obtain ⟨taken, htaken, rfl⟩ := List.mem_map.mp hentry
      obtain ⟨output, hutxo, -⟩ := hweight taken htaken
      refine w.stxo_eq_zero _ _ fun hprot => ?_
      exact h.not_mem_utxos hcf hrespects hhistory hget hprot (Db.mem_of_get hutxo)
    · exact (List.pairwise_map.mp (hkeys ▸ hnodup)).imp fun hne heq => absurd heq hne
  have hsum : ((entries.map Prod.fst).map (Db.weightAt w.utxo state.utxos)).sum =
      w.spentSum (entries.map fun entry => (entry.1, ⟨entry.2, .withdrawal m6id⟩)) := by
    rw [spentSum, List.map_map, List.map_map]
    congr 1
    refine List.map_congr_left fun entry hentry => ?_
    obtain ⟨output, hutxo, heq⟩ := hweight entry hentry
    rw [Function.comp_apply, Function.comp_apply, Db.weightAt, hutxo, Option.elim_some, heq]
  have hutxos : (state.takeOut m6id entries).utxos =
    Db.eraseAll state.utxos (entries.map Prod.fst) := rfl
  unfold total
  rw [hutxos]
  omega

/-- Returning the outputs of a submitted bundle keeps the weight, if each weighs
the same before and after. -/
theorem giveBack (hcf : CollisionFree) (hrespects : Respects prot) (h : Live prot history state)
    (hhistory : history.Unambiguous) {m6id : M6id} {bundle : WithdrawalBundle}
    {status : HeightRollBack WithdrawalBundleStatus}
    (hbundle : state.withdrawalBundles[m6id]? = some (.known bundle, status))
    (hlatest : (HeightRollBack.latest status).value = .submitted)
    (hweight : ∀ entry ∈ bundle.spendUtxos.toList,
      w.utxo entry.1 entry.2 = w.stxo entry.1 ⟨entry.2, .withdrawal m6id⟩) :
    w.total (state.giveBack bundle.spendUtxos.toList) = w.total state := by
  have hnodup := Db.keys_nodup bundle.spendUtxos
  have herase := Db.total_eraseAll w.stxo state.stxos hnodup
  have halike : ∀ entry ∈ bundle.spendUtxos.toList, ∀ spent,
      state.stxos[entry.1]? = some spent → prot spent.output.toOutput →
        prot entry.2.toOutput := by
    intro entry hentry spent hget hprot
    exact hrespects _ _ (History.Explains.alike hcf hhistory (h.stxos _ _ hget)
      (h.bundles m6id bundle status hbundle entry hentry)) hprot
  have hput : Db.total w.utxo (state.giveBack bundle.spendUtxos.toList).utxos =
      Db.total w.utxo state.utxos + w.sum bundle.spendUtxos.toList := by
    refine Db.total_putAll w.utxo ?_ ?_
    · intro entry hentry output hget
      refine w.utxo_eq_zero _ _ fun hprot => ?_
      have hentryProt := hrespects _ _ (History.Explains.alike hcf hhistory (h.utxos _ _ hget)
        (h.bundles m6id bundle status hbundle entry hentry)) hprot
      exact h.disjoint _ _ hget hprot (Db.mem_of_get
        (h.submitted m6id bundle status hbundle hlatest entry hentry hentryProt))
    · exact (List.pairwise_map.mp hnodup).imp fun hne heq => absurd heq hne
  have hsum : ((bundle.spendUtxos.toList.map Prod.fst).map
      (Db.weightAt w.stxo state.stxos)).sum = w.sum bundle.spendUtxos.toList := by
    rw [sum, List.map_map]
    congr 1
    refine List.map_congr_left fun entry hentry => ?_
    rw [Function.comp_apply, hweight entry hentry, Db.weightAt]
    by_cases hprot : prot entry.2.toOutput
    · rw [h.submitted m6id bundle status hbundle hlatest entry hentry hprot, Option.elim_some]
    · rw [w.stxo_eq_zero _ _ hprot]
      cases hget : state.stxos[entry.1]? with
      | none => rfl
      | some spent =>
        rw [Option.elim_some]
        exact w.stxo_eq_zero _ _ fun hspent => hprot (halike entry hentry spent hget hspent)
  have hstxos : (state.giveBack bundle.spendUtxos.toList).stxos =
    Db.eraseAll state.stxos (bundle.spendUtxos.toList.map Prod.fst) := rfl
  unfold total
  rw [hstxos]
  omega

/-- A withdrawal output weighs the same unspent and spent by a bundle, and so do
alike withdrawal outputs. -/
structure MovesWithdrawals : Prop where
  moves : ∀ outpoint output m6id, output.content.isWithdrawal = true →
    w.utxo outpoint output = w.stxo outpoint ⟨output, .withdrawal m6id⟩
  alike : ∀ outpoint (a b : FilledOutput), a.toOutput.Alike b.toOutput →
    b.content.isWithdrawal = true → w.utxo outpoint a = w.utxo outpoint b

variable {w}

/-- An event of a bundle keeps the weight. When an unknown bundle is confirmed,
all outputs must weigh the same unspent and spent. -/
theorem MovesWithdrawals.bundleEffect (hw : w.MovesWithdrawals) (hcf : CollisionFree)
    (hrespects : Respects prot) (h : Live prot history state) (hhistory : history.Unambiguous)
    (hholds : state.BundlesHoldWithdrawals) {height : Nat} {m6id : M6id}
    {event : WithdrawalBundleEventStatus}
    (hzero : height = 0 → ∀ (outpoint : OutPoint) (output : FilledOutput),
      state.utxos[outpoint]? = some output →
        w.utxo outpoint output = w.stxo outpoint ⟨output, .withdrawal m6id⟩)
    (heffect : State.BundleEffect height m6id state event state') :
    w.total state' = w.total state := by
  -- what a known bundle takes is a withdrawal alike to the one it recorded
  have htake : ∀ {bundle : WithdrawalBundle} {status},
      state.withdrawalBundles[m6id]? = some (.known bundle, status) →
      (∀ outpoint ∈ bundle.spendUtxos.toList.map Prod.fst, outpoint ∈ state.utxos) →
      w.total (state.takeOut m6id bundle.spendUtxos.toList) = w.total state := by
    intro bundle status hbundle hmem
    refine w.takeOut hcf hrespects h hhistory m6id (Db.keys_nodup _) ?_
    intro entry hentry
    obtain ⟨output, hutxo⟩ := (Db.mem_iff _ _).mp (hmem _ (List.mem_map_of_mem hentry))
    have hwithdrawal := hholds m6id bundle status hbundle entry hentry
    have halike := History.Explains.alike hcf hhistory (h.utxos _ _ hutxo)
      (h.bundles m6id bundle status hbundle entry hentry)
    exact ⟨output, hutxo, (hw.alike _ _ _ halike hwithdrawal).trans (hw.moves _ _ _ hwithdrawal)⟩
  cases heffect with
  | unchanged => rfl
  | noted => rfl
  | discovered => rfl
  | submitted hbundle _ _ _ hmem => exact htake hbundle hmem
  | confirmedUnexpected hbundle _ _ hmem => exact htake hbundle hmem
  | confirmedUnknown _ _ _ hheight =>
    have hall := w.takeOut hcf hrespects h hhistory m6id (Db.keys_nodup state.utxos) (by
      intro entry hentry
      have hutxo := Db.mem_toList.mp hentry
      exact ⟨entry.2, hutxo, hzero hheight entry.1 entry.2 hutxo⟩)
    rw [← State.spendAll_eq_takeOut] at hall
    exact hall
  | failed hbundle hlatest =>
    exact w.giveBack hcf hrespects h hhistory hbundle hlatest fun entry hentry =>
      hw.moves _ _ _ (hholds m6id _ _ hbundle entry hentry)

/-- The weight of the deposits among some events. -/
def depositSum (w : Weighing prot) (events : List BlockEvent) : Nat :=
  ((events.filterMap BlockEvent.deposit?).map fun deposit =>
    w.utxo (.deposit deposit.outpoint) deposit.output).sum

/-- Two-way peg data adds the weight of its deposits. -/
theorem MovesWithdrawals.connectTwoWayPegData (hw : w.MovesWithdrawals) (hcf : CollisionFree)
    (hrespects : Respects prot) (h : Live prot history state)
    (hholds : state.BundlesHoldWithdrawals) {data : TwoWayPegData}
    (hhistory : ((data.events.map Prod.snd).foldl History.addEvent history).Unambiguous)
    (hzero : state.height = some 0 → ∀ (outpoint : OutPoint) (output : FilledOutput) m6id,
      (output.isAsset = true → state.utxos[outpoint]? = some output) →
        w.utxo outpoint output = w.stxo outpoint ⟨output, .withdrawal m6id⟩)
    (hok : state.connectTwoWayPegData data = .ok state') :
    w.total state' = w.total state + w.depositSum (data.events.map Prod.snd) := by
  obtain ⟨height, hheight⟩ := State.exists_height_of_connectTwoWayPegData hok
  refine (State.connectTwoWayPegData_history
    (P := fun done s => (done.foldl History.addEvent history).Unambiguous →
      Live prot (done.foldl History.addEvent history) s ∧ State.AssetsSince state s ∧
        w.total s = w.total state + w.depositSum done) hheight
    (fun _ => ⟨h, .refl hholds, by simp [depositSum]⟩) ?_ ?_ ?_ hok hhistory).2.2
  · intro done event s s' hs heffect hhistory
    rw [List.foldl_append, List.foldl_cons, List.foldl_nil] at hhistory ⊢
    have hbefore := hhistory.of_extends (History.extends_addEvent _ event)
    obtain ⟨hlive, hsince, htotal⟩ := hs hbefore
    refine ⟨hlive.eventEffect hcf hrespects hhistory heffect, hsince.eventEffect heffect, ?_⟩
    cases heffect with
    | deposit deposit =>
      rw [w.deposit hlive hhistory, htotal]
      simp [depositSum, BlockEvent.deposit?, Nat.add_assoc]
    | withdrawalBundle heffect =>
      rw [hw.bundleEffect hcf hrespects hlive hhistory hsince.holds ?_ heffect, htotal]
      · simp [depositSum, List.filterMap_cons, BlockEvent.deposit?]
      · rintro rfl outpoint output hget
        exact hzero hheight outpoint output _ (hsince.assets outpoint output hget)
  · intro done s _ _ _ hs hhistory
    obtain ⟨hlive, hsince, htotal⟩ := hs hhistory
    exact ⟨⟨⟨hlive.chain, hlive.fits_body, hlive.utxos, hlive.stxos, hlive.bundles,
      hlive.inputs⟩, hlive.disjoint, hlive.submitted, hlive.spent⟩,
      ⟨hsince.holds, hsince.assets, hsince.bitnames⟩, htotal⟩
  · intro done s s' hs heffect hhistory
    obtain ⟨hlive, hsince, htotal⟩ := hs hhistory
    refine ⟨hlive.collectEffect heffect, hsince.collectEffect heffect, ?_⟩
    rw [← htotal]
    cases heffect <;> rfl

end Weighing

end PlainBitnames
