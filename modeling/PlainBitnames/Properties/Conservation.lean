import PlainBitnames.Instance
import PlainBitnames.State.Weight

/-!
Conservation of value. In every run the sidechain wealth is the value of all
utxos and of the fees that no coinbase has claimed. Outputs without value may
live twice; outputs with a value cannot, since a transaction that creates value
spends some.
-/

namespace PlainBitnames

open Borsh Fallible

section

variable [Primitives]

def FilledOutput.valueNat (output : FilledOutput) : Nat := output.getValue.toNat

def Valued (output : Output) : Prop := output.getValue.toNat ≠ 0

theorem Output.Alike.getValue_eq {a b : Output} (h : a.Alike b) : a.getValue = b.getValue := by
  obtain ⟨address, content, memo⟩ := a
  obtain ⟨address', content', memo'⟩ := b
  obtain ⟨-, hcontent, -⟩ := h
  cases content <;> cases content' <;> try exact hcontent.elim
  · exact hcontent
  · rfl
  · rfl
  · obtain ⟨hvalue, hfee, -⟩ := hcontent
    simp only [Output.getValue, Content.getValue, WithdrawalContent.getValue, hvalue, hfee]

theorem respects_valued : Respects Valued := by
  intro a b halike hvalued
  rwa [Valued, ← halike.getValue_eq]

namespace FilledTransaction

theorem fee_balance {tx : FilledTransaction} {fee : Amount} (h : tx.fee = .ok fee) :
    (tx.spentUtxos.map FilledOutput.valueNat).sum =
      (tx.outputs.map fun output => output.getValue.toNat).sum + fee.toNat := by
  obtain ⟨spent, hspent, h⟩ := bind_eq_ok.mp h
  obtain ⟨out, hout, h⟩ := bind_eq_ok.mp h
  have hspent := Checked.sum?_eq_some.mp (okOr_eq_ok.mp hspent)
  have hout := Checked.sum?_eq_some.mp (okOr_eq_ok.mp hout)
  rw [List.map_map] at hspent hout
  split at h
  · cases h
  case isFalse hle =>
    cases h
    have hle : out.toNat ≤ spent.toNat := by
      rw [UInt64.lt_iff_toNat_lt] at hle
      omega
    rw [UInt64.toNat_sub_of_le _ _ (UInt64.le_iff_toNat_le.mpr hle)]
    have hspent' : (tx.spentUtxos.map FilledOutput.valueNat).sum = spent.toNat := hspent
    have hout' : (tx.outputs.map fun output => output.getValue.toNat).sum = out.toNat := hout
    omega

end FilledTransaction

variable {state : State}

theorem exists_valued_input {tx : FilledTransaction} {fee : Amount} (hfills : state.Fills tx)
    (hfee : tx.fee = .ok fee) {output : Output} (houtput : output ∈ tx.outputs)
    (hvalued : Valued output) : ∃ input ∈ tx.spentInputs, Valued input.2.toOutput := by
  by_contra hnone
  have hzero : (tx.spentUtxos.map FilledOutput.valueNat).sum = 0 := by
    rw [List.sum_eq_zero_iff, ← hfills.map_snd_spentInputs]
    intro value hvalue
    simp only [List.mem_map] at hvalue
    obtain ⟨utxo, ⟨input, hinput, rfl⟩, rfl⟩ := hvalue
    by_contra hne
    exact hnone ⟨input, hinput, hne⟩
  have hle := List.single_le_sum (fun _ _ => Nat.zero_le _) _
    (List.mem_map_of_mem (f := fun output : Output => output.getValue.toNat) houtput)
  have hbalance := FilledTransaction.fee_balance hfee
  exact hvalued (by omega)

variable {ctxt : BatchVerificationContext} {header : Header} {p : State.PrevalidatedBlock}

theorem guards_valued {body : Body} (hp : State.Prevalid ctxt state header body p)
    (history : History) : Guards Valued history p := by
  rintro tx htx ⟨output, houtput, hvalued⟩
  obtain ⟨fee, hvalid⟩ := hp.validated tx htx
  exact .inl (exists_valued_input (hp.fills tx htx) hvalid.fee_eq houtput hvalued)

theorem distinct_valued (hcf : CollisionFree) {body : Body}
    (hp : State.Prevalid ctxt state header body p) : Distinct Valued p := by
  have hnodup := hp.nodup
  rw [List.nodup_flatMap] at hnodup
  refine List.Pairwise.imp_of_mem ?_ hnodup.2
  intro tx tx' htx htx' hdisjoint htxid output houtput hvalued
  obtain ⟨fee, hvalid⟩ := hp.validated tx htx
  obtain ⟨input, hinput, -⟩ :=
    exists_valued_input (hp.fills tx htx) hvalid.fee_eq houtput hvalued
  have halike := alike_of_txid_eq hcf (hp.fits_transaction htx) (hp.fits_transaction htx') htxid
  have hinputs : tx.inputs = tx'.inputs := halike.1
  have hinput := (hp.fills tx htx).mem_inputs hinput
  exact hdisjoint hinput (hinputs ▸ hinput)

/-- The value of unspent outputs, and of outputs spent by bundles. -/
def valueWeighing : Weighing Valued where
  utxo _ output := output.valueNat
  stxo _ spent :=
    match spent.inpoint with
    | .withdrawal _ => spent.output.valueNat
    | .regular _ _ => 0
  utxo_eq_zero _ _ h := not_not.mp h
  stxo_eq_zero _ spent h := by
    split
    · exact not_not.mp h
    · rfl

/-- The value of deposits, unspent and spent. -/
def depositWeighing : Weighing Valued where
  utxo outpoint output :=
    match outpoint with
    | .deposit _ => output.valueNat
    | _ => 0
  stxo outpoint spent :=
    match outpoint with
    | .deposit _ => spent.output.valueNat
    | _ => 0
  utxo_eq_zero outpoint _ h := by
    split
    · exact not_not.mp h
    · rfl
  stxo_eq_zero outpoint _ h := by
    split
    · exact not_not.mp h
    · rfl

theorem valueNat_eq_of_alike {a b : FilledOutput} (h : a.toOutput.Alike b.toOutput) :
    a.valueNat = b.valueNat :=
  congrArg UInt64.toNat h.getValue_eq

theorem movesWithdrawals_value : valueWeighing.MovesWithdrawals :=
  ⟨fun _ _ _ _ => rfl, fun _ _ _ halike _ => valueNat_eq_of_alike halike⟩

theorem movesWithdrawals_deposit : depositWeighing.MovesWithdrawals := by
  refine ⟨fun _ _ _ _ => rfl, ?_⟩
  intro outpoint a b halike _
  cases outpoint with
  | deposit => exact valueNat_eq_of_alike halike
  | regular => rfl
  | coinbase => rfl

/-- A block leaves the deposits where they are or spends them. -/
theorem depositWeighing_applyBlock (hcf : CollisionFree) {history : History}
    (h : Live Valued history state) (hdeposits : (history.deposits.map Deposit.outpoint).Nodup)
    {body : Body} (hp : State.Prevalid ctxt state header body p)
    {coinbase : List (OutPoint × FilledOutput)}
    (hcoinbase : State.coinbaseUtxos header body = .ok coinbase) (dbs : Dbs) :
    depositWeighing.total (state.batch coinbase p.filledTransactions dbs) =
      depositWeighing.total state := by
  have hblock := depositWeighing.applyBlock hcf respects_valued h hdeposits hp
    (guards_valued hp history) (distinct_valued hcf hp) hcoinbase dbs
  have hnone : depositWeighing.sum coinbase = 0 := by
    rw [Weighing.sum, List.sum_eq_zero_iff]
    intro weight hweight
    obtain ⟨entry, hentry, rfl⟩ := List.mem_map.mp hweight
    obtain ⟨i, hkey, -⟩ := State.mem_coinbaseUtxos hcoinbase hentry
    rw [hkey]
    rfl
  have hcreated : depositWeighing.sum
      (p.filledTransactions.flatMap FilledTransaction.created) = 0 := by
    rw [Weighing.sum, List.sum_eq_zero_iff]
    intro weight hweight
    obtain ⟨entry, hentry, rfl⟩ := List.mem_map.mp hweight
    obtain ⟨tx, -, hentry⟩ := List.mem_flatMap.mp hentry
    obtain ⟨_, -, rfl⟩ := List.mem_map.mp hentry
    rfl
  have hspent : depositWeighing.spentSum (p.filledTransactions.flatMap FilledTransaction.spent) =
      depositWeighing.sum (p.filledTransactions.flatMap FilledTransaction.spentInputs) := by
    rw [Weighing.spentSum, Weighing.sum, List.map_flatMap, List.map_flatMap]
    congr 1
    refine List.flatMap_congr fun tx _ => ?_
    have hfst := List.zipIdx_map_fst 0 tx.spentInputs
    conv_rhs => rw [← hfst]
    rw [FilledTransaction.spent, List.map_map, List.map_map]
    rfl
  omega

/-- The fees of a block are what its inputs carry beyond its outputs. -/
theorem fees_balance {txs : List FilledTransaction} {start total : Amount}
    (h : txs.foldlM state.addFee start = .ok total) :
    start.toNat + (txs.map fun tx => (tx.spentUtxos.map FilledOutput.valueNat).sum).sum =
      total.toNat +
        (txs.map fun tx => (tx.outputs.map fun output => output.getValue.toNat).sum).sum := by
  induction txs generalizing start with
  | nil =>
    cases foldlM_nil_eq_ok.mp h
    rfl
  | cons tx txs ih =>
    obtain ⟨next, hnext, h⟩ := foldlM_cons_eq_ok.mp h
    obtain ⟨fee, hfee, hnext⟩ := bind_eq_ok.mp hnext
    have hadd := Checked.add?_eq_some.mp (okOr_eq_ok.mp hnext)
    have hbalance := FilledTransaction.fee_balance
      (State.validateFilledTransaction_ok hfee).fee_eq
    have hrest := ih h
    simp only [List.map_cons, List.sum_cons]
    omega

/-- A block takes its fees out and puts the value of its coinbase in. -/
theorem valueWeighing_applyBlock (hcf : CollisionFree) {history : History}
    (h : Live Valued history state) (hdeposits : (history.deposits.map Deposit.outpoint).Nodup)
    {body : Body} (hp : State.Prevalid ctxt state header body p)
    {coinbase : List (OutPoint × FilledOutput)}
    (hcoinbase : State.coinbaseUtxos header body = .ok coinbase) (dbs : Dbs) :
    valueWeighing.total (state.batch coinbase p.filledTransactions dbs) + p.totalFees.toNat =
      valueWeighing.total state + p.coinbaseValue.toNat := by
  have hblock := valueWeighing.applyBlock hcf respects_valued h hdeposits hp
    (guards_valued hp history) (distinct_valued hcf hp) hcoinbase dbs
  have hvalue : valueWeighing.sum coinbase = p.coinbaseValue.toNat := by
    have hsum := Checked.sum?_eq_some.mp hp.coinbaseValue_eq
    rw [← hsum, ← (State.coinbaseUtxos_eq_ok.mp hcoinbase).2.1, List.map_map, List.map_map]
    rfl
  have hspent : valueWeighing.spentSum
      (p.filledTransactions.flatMap FilledTransaction.spent) = 0 := by
    rw [Weighing.spentSum, List.sum_eq_zero_iff]
    intro weight hweight
    obtain ⟨entry, hentry, rfl⟩ := List.mem_map.mp hweight
    obtain ⟨tx, -, hentry⟩ := List.mem_flatMap.mp hentry
    obtain ⟨_, -, rfl⟩ := List.mem_map.mp hentry
    rfl
  have hinputs : valueWeighing.sum
      (p.filledTransactions.flatMap FilledTransaction.spentInputs) =
        (p.filledTransactions.map fun tx => (tx.spentUtxos.map FilledOutput.valueNat).sum).sum := by
    rw [Weighing.sum, List.map_flatMap, List.flatMap_def, List.sum_flatten, List.map_map]
    congr 1
    refine List.map_congr_left fun tx htx => ?_
    rw [← (hp.fills tx htx).map_snd_spentInputs, List.map_map]
    rfl
  have hcreated : valueWeighing.sum (p.filledTransactions.flatMap FilledTransaction.created) =
      (p.filledTransactions.map fun tx =>
        (tx.outputs.map fun output => output.getValue.toNat).sum).sum := by
    rw [Weighing.sum, List.map_flatMap, List.flatMap_def, List.sum_flatten, List.map_map]
    congr 1
    refine List.map_congr_left fun tx htx => ?_
    obtain ⟨fee, hvalid⟩ := hp.validated tx htx
    obtain ⟨filled, hfilled⟩ := hvalid.fillable
    rw [← hfilled.toOutput_eq, ← hfilled.created_eq, List.map_map, List.map_map]
    rfl
  have hfees := fees_balance hp.fees_eq
  have hstart : (0 : Amount).toNat = 0 := rfl
  omega

/-- The fees and the coinbase value of a step, if it applies a block. -/
def stepFees (state : State) : Step → List (Amount × Amount)
  | .block ctxt header body =>
    (state.prevalidate ctxt header body).toOption.toList.map fun p =>
      (p.totalFees, p.coinbaseValue)
  | .peg _ => []

/-- The fees and the coinbase values of the blocks of a run. -/
def blockFees : State → List Step → List (Amount × Amount)
  | _, [] => []
  | state, step :: steps =>
    stepFees state step ++ ((state.step step).toOption.map fun next => blockFees next steps).getD []

theorem blockFees_append {start : State} {steps : List Step} (hrun : start.run steps = .ok state)
    (step : Step) :
    blockFees start (steps ++ [step]) = blockFees start steps ++ stepFees state step := by
  induction steps generalizing start with
  | nil =>
    cases foldlM_nil_eq_ok.mp hrun
    simp only [List.nil_append, blockFees]
    cases state.step step <;> simp [Except.toOption]
  | cons first steps ih =>
    obtain ⟨next, hnext, hrest⟩ := foldlM_cons_eq_ok.mp hrun
    simp only [List.cons_append, blockFees, hnext, Except.toOption, Option.map_some,
      Option.getD_some]
    rw [ih hrest, List.append_assoc]

def utxoValue (state : State) : Nat :=
  (state.utxos.toList.map fun entry => entry.2.getValue.toNat).sum

def depositValue (steps : List Step) : Nat :=
  ((depositsOf steps).map fun deposit => deposit.value.toNat).sum

theorem live_valued_of_run (hcf : CollisionFree) {steps : List Step}
    (hrun : State.empty.run steps = .ok state) (hdeposits : DepositsDistinct steps) :
    Live Valued (History.ofSteps steps) state := by
  refine live_of_run hcf respects_valued hrun hdeposits ?_
  intro done ctxt header body rest _ s p _ _ hp
  exact guards_valued hp _

theorem depositValue_peg (steps : List Step) (data : TwoWayPegData) {w : Weighing Valued}
    (hw : ∀ deposit : Deposit,
      w.utxo (.deposit deposit.outpoint) deposit.output = deposit.value.toNat) :
    depositValue (steps ++ [.peg data]) =
      depositValue steps + w.depositSum (data.events.map Prod.snd) := by
  have hdeposits : depositsOf (steps ++ [.peg data]) = depositsOf steps ++
      (data.events.map Prod.snd).filterMap BlockEvent.deposit? := by
    have hhistory := congrArg History.deposits (History.ofSteps_peg steps data)
    rwa [History.foldl_addEvent] at hhistory
  rw [depositValue, hdeposits, List.map_append, List.sum_append, depositValue,
    Weighing.depositSum]
  congr 2
  exact List.map_congr_left fun deposit _ => (hw deposit).symm

/-- What a run keeps: all deposits are unspent or spent, and they are worth the
utxos, what bundles have paid out, and the fees that no coinbase has claimed. -/
structure Conserved (steps : List Step) (state : State) : Prop where
  deposits : depositWeighing.total state = depositValue steps
  value : valueWeighing.total state +
    ((blockFees State.empty steps).map fun fees => fees.1.toNat - fees.2.toNat).sum =
      depositValue steps
  claimed : ∀ fees ∈ blockFees State.empty steps, fees.2 ≤ fees.1

theorem conserved_of_run (hcf : CollisionFree) {steps : List Step}
    (hrun : State.empty.run steps = .ok state) (hdeposits : DepositsDistinct steps) :
    Conserved steps state := by
  induction steps using List.reverseRecOn generalizing state with
  | nil =>
    cases foldlM_nil_eq_ok.mp hrun
    refine ⟨?_, ?_, by simp [blockFees]⟩
    · simp [Weighing.total, State.empty, depositValue, depositsOf]
    · simp [Weighing.total, State.empty, depositValue, depositsOf, blockFees]
  | append_singleton steps step ih =>
    have hlive' := live_valued_of_run hcf hrun hdeposits
    obtain ⟨s, hs, hlast⟩ := foldlM_append_eq_ok.mp hrun
    obtain ⟨_, hstep, hnil⟩ := foldlM_cons_eq_ok.mp hlast
    obtain rfl := foldlM_nil_eq_ok.mp hnil
    have hconserved := ih hs hdeposits.of_append
    have hlive := live_valued_of_run hcf hs hdeposits.of_append
    have hfees := blockFees_append hs step
    cases step with
    | block ctxt header body =>
      have hsame : depositValue (steps ++ [.block ctxt header body]) = depositValue steps := by
        simp [depositValue, depositsOf]
      obtain ⟨p, coinbase, dbs, hprevalidate, -, hcoinbase, -, rfl⟩ :=
        State.applyBlock_prevalidated hstep
      have hp := State.prevalidate_ok hprevalidate
      have hstepFees : stepFees s (.block ctxt header body) =
          [(p.totalFees, p.coinbaseValue)] := by
        rw [stepFees, hprevalidate]
        rfl
      rw [hstepFees] at hfees
      have hblockDeposit := depositWeighing_applyBlock hcf hlive hdeposits.of_append hp
        hcoinbase dbs
      have hblockValue := valueWeighing_applyBlock hcf hlive hdeposits.of_append hp
        hcoinbase dbs
      have hle := UInt64.le_iff_toNat_le.mp hp.fees_le
      refine ⟨?_, ?_, ?_⟩
      · rw [hsame, ← hconserved.deposits]
        exact hblockDeposit
      · have htotal : valueWeighing.total
            ((s.batch coinbase p.filledTransactions dbs).setTip header p.nextHeight) =
          valueWeighing.total (s.batch coinbase p.filledTransactions dbs) := rfl
        rw [hsame, hfees, List.map_append, List.sum_append, ← hconserved.value, htotal]
        simp only [List.map_cons, List.map_nil, List.sum_cons, List.sum_nil]
        omega
      · rw [hfees]
        intro fees hmem
        rcases List.mem_append.mp hmem with hmem | hmem
        · exact hconserved.claimed fees hmem
        · rw [List.mem_singleton.mp hmem]
          exact hp.fees_le
    | peg data =>
      rw [History.ofSteps_peg] at hlive'
      have hhistory := hlive'.unambiguous hcf (by
        rw [← History.ofSteps_peg]
        exact hdeposits)
      have hholds := (State.namesRegistered_of_run hs).1
      have hpegDeposit := movesWithdrawals_deposit.connectTwoWayPegData hcf respects_valued
        hlive hholds hhistory (fun _ _ _ _ _ => rfl) hstep
      have hpegValue := movesWithdrawals_value.connectTwoWayPegData hcf respects_valued
        hlive hholds hhistory (fun _ _ _ _ _ => rfl) hstep
      have hsum := depositValue_peg steps data (w := depositWeighing) fun _ => rfl
      have hsum' := depositValue_peg steps data (w := valueWeighing) fun _ => rfl
      have hsame : blockFees State.empty (steps ++ [.peg data]) =
          blockFees State.empty steps := by
        rw [hfees]
        exact List.append_nil _
      refine ⟨?_, ?_, hsame ▸ hconserved.claimed⟩
      · rw [hpegDeposit, hsum, hconserved.deposits]
      · rw [hsame, hpegValue, hsum', ← hconserved.value]
        omega

omit [Primitives] in
/-- The checked sum over the entries of a store is their weight, if it is in
range. -/
theorem sum?_filterMap {K V : Type} {cmp : K → K → Ordering} [Std.TransCmp cmp]
    {d : SortedMap K V cmp} {g : K × V → Option Amount} {f : K → V → Nat}
    (hweight : ∀ k v, (g (k, v)).elim 0 UInt64.toNat = f k v) (hlt : Db.total f d < 2 ^ 64) :
    ∃ value, Checked.sum? (d.toList.filterMap g) = some value ∧ value.toNat = Db.total f d := by
  have hsum : ∀ l : List (K × V), ((l.filterMap g).map UInt64.toNat).sum =
      (l.map fun entry => f entry.1 entry.2).sum := by
    intro l
    induction l with
    | nil => rfl
    | cons entry l ih =>
      have hentry := hweight entry.1 entry.2
      rw [List.filterMap_cons, List.map_cons, List.sum_cons, ← hentry]
      cases g (entry.1, entry.2) with
      | none => rw [ih, Option.elim_none, Nat.zero_add]
      | some value => rw [List.map_cons, List.sum_cons, ih, Option.elim_some]
  have hvalue : (UInt64.ofNat (Db.total f d)).toNat = Db.total f d := by
    rw [UInt64.toNat_ofNat', Nat.mod_eq_of_lt hlt]
  exact ⟨_, Checked.sum?_eq_some.mpr ((hsum d.toList).trans hvalue.symm), hvalue⟩

/-- The wealth, when nothing overflows. -/
theorem sidechainWealth_eq_ok (state : State) (hlt : depositWeighing.total state < 2 ^ 64)
    (hle : Db.total valueWeighing.stxo state.stxos ≤ depositWeighing.total state) :
    ∃ wealth, state.sidechainWealth = .ok wealth ∧
      depositWeighing.total state =
        Db.total valueWeighing.stxo state.stxos + wealth.toNat := by
  unfold Weighing.total at hlt hle ⊢
  obtain ⟨utxos, hutxos, hutxosNat⟩ := sum?_filterMap (d := state.utxos)
    (g := State.depositUtxoValue) (f := depositWeighing.utxo)
    (fun outpoint _ => by cases outpoint <;> rfl) (by omega)
  obtain ⟨stxos, hstxos, hstxosNat⟩ := sum?_filterMap (d := state.stxos)
    (g := State.depositStxoValue) (f := depositWeighing.stxo)
    (fun outpoint _ => by cases outpoint <;> rfl) (by omega)
  obtain ⟨spent, hspent, hspentNat⟩ := sum?_filterMap (d := state.stxos)
    (g := State.withdrawalStxoValue) (f := valueWeighing.stxo)
    (fun _ spent => by cases spent with | mk output inpoint => cases inpoint <;> rfl) (by omega)
  have hadd : Checked.add? utxos stxos = some (utxos + stxos) := if_pos (by omega)
  have haddNat := Checked.add?_eq_some.mp hadd
  have hsub : Checked.sub? (utxos + stxos) spent = some (utxos + stxos - spent) :=
    if_pos (by omega)
  have hsubNat := Checked.sub?_eq_some.mp hsub
  refine ⟨utxos + stxos - spent, ?_, by omega⟩
  rw [State.sidechainWealth, hutxos, okOr_some, ok_bind, hstxos, okOr_some, ok_bind, hspent,
    okOr_some, ok_bind, hadd, okOr_some, ok_bind, hsub, okOr_some]

/-- In every run the wealth is the value of all utxos and of the fees that no
coinbase has claimed, none of which is negative; so the utxos never claim more
than the wealth. -/
theorem sidechainWealth_conserved (hcf : CollisionFree) {steps : List Step} {state : State}
    (hrun : State.empty.run steps = .ok state) (hdeposits : DepositsDistinct steps)
    (htotal : depositValue steps < 2 ^ 64) :
    ∃ wealth, state.sidechainWealth = .ok wealth ∧
      (wealth.toNat : Int) = utxoValue state +
        ((blockFees State.empty steps).map fun fees =>
          (fees.1.toNat : Int) - fees.2.toNat).sum ∧
      (∀ fees ∈ blockFees State.empty steps, 0 ≤ (fees.1.toNat : Int) - fees.2.toNat) ∧
      utxoValue state ≤ wealth.toNat := by
  obtain ⟨hdeposit, hvalue, hclaimed⟩ := conserved_of_run hcf hrun hdeposits
  have hnonneg : ∀ fees ∈ blockFees State.empty steps, fees.2.toNat ≤ fees.1.toNat :=
    fun fees hmem => UInt64.le_iff_toNat_le.mp (hclaimed fees hmem)
  have hutxos : valueWeighing.total state =
      utxoValue state + Db.total valueWeighing.stxo state.stxos := rfl
  obtain ⟨wealth, hwealth, hwealthNat⟩ := sidechainWealth_eq_ok state (by omega) (by omega)
  have hsum : ((blockFees State.empty steps).map fun fees =>
      (fees.1.toNat : Int) - fees.2.toNat).sum =
        (((blockFees State.empty steps).map fun fees => fees.1.toNat - fees.2.toNat).sum : Nat) := by
    generalize blockFees State.empty steps = all at hnonneg
    induction all with
    | nil => rfl
    | cons fees all ih =>
      obtain ⟨hhead, hrest⟩ := List.forall_mem_cons.mp hnonneg
      rw [List.map_cons, List.sum_cons, ih hrest, List.map_cons, List.sum_cons]
      omega
  refine ⟨wealth, hwealth, ?_, ?_, ?_⟩
  · rw [hsum]
    omega
  · intro fees hmem
    have := hnonneg fees hmem
    omega
  · omega

end

namespace Instance

/-- A deposit of 100 for key 7. -/
def deposit : Deposit := ⟨⟨0, 0⟩, 7, 100⟩

/-- A transaction that spends the deposit and leaves a fee of 10. -/
def spendDeposit : Transaction := ⟨[.deposit deposit.outpoint], [⟨7, .bitcoin 90, []⟩], [], none⟩

/-- A block with the transaction, whose coinbase claims 4 of the fee. -/
def spendDepositBody : Body := ⟨⟨[], [⟨7, .bitcoin 4, []⟩]⟩, [spendDeposit], [⟨7, 7⟩]⟩

def depositActs : List (Body ⊕ TwoWayPegData) :=
  [.inl ⟨⟨[], []⟩, [], []⟩, .inr ⟨[(0, ⟨[.deposit deposit]⟩)]⟩, .inl spendDepositBody,
    .inr ⟨[]⟩]

theorem sidechainWealth_conserved_deposit :
    State.empty.run (stepsOf depositActs) = .ok (after depositActs) ∧
      blockFees State.empty (stepsOf depositActs) = [(0, 0), (10, 4)] ∧
      ∃ wealth, (after depositActs).sidechainWealth = .ok wealth ∧
        (wealth.toNat : Int) = utxoValue (after depositActs) +
          ((blockFees State.empty (stepsOf depositActs)).map fun fees =>
            (fees.1.toNat : Int) - fees.2.toNat).sum := by
  have hrun : State.empty.run (stepsOf depositActs) = .ok (after depositActs) :=
    eq_ok_getD State.empty (by decide +kernel)
  have hdeposits : DepositsDistinct (stepsOf depositActs) := by
    unfold DepositsDistinct
    decide +kernel
  obtain ⟨wealth, hwealth, hsum, -, -⟩ :=
    sidechainWealth_conserved collisionFree hrun hdeposits (by decide +kernel)
  exact ⟨hrun, by decide +kernel, wealth, hwealth, hsum⟩

end Instance

end PlainBitnames
