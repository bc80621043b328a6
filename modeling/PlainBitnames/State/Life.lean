import PlainBitnames.State.History

/-!
The life of an outpoint. A state is traced by a history if the history accounts
for all its outputs. Outputs of a protected kind (all outputs, outputs with a
value, names, or reservations) live once: they are never unspent and spent at
the same time, and an input that has spent one keeps it spent. This holds in
every run in which a transaction that creates a protected output either spends
one or was not included before.
-/

namespace PlainBitnames

open Borsh Fallible

variable [Primitives]

/-- A history accounts for all outputs of a state. -/
structure Traced (history : History) (state : State) : Prop where
  chain : Chain (history.blocks.map Prod.fst) state.tip
  fits_body : ∀ block ∈ history.blocks, fits block.2 = true
  utxos : ∀ (outpoint : OutPoint) (output : FilledOutput),
    state.utxos[outpoint]? = some output → history.Explains outpoint output.toOutput
  stxos : ∀ (outpoint : OutPoint) (spent : SpentOutput),
    state.stxos[outpoint]? = some spent → history.Explains outpoint spent.output.toOutput
  bundles : ∀ (m6id : M6id) bundle status,
    state.withdrawalBundles[m6id]? = some (.known bundle, status) →
      ∀ entry ∈ bundle.spendUtxos.toList, history.Explains entry.1 entry.2.toOutput
  inputs : ∀ tx ∈ history.included, ∀ input ∈ tx.inputs, ∃ output, history.Explains input output

namespace Traced

theorem empty : Traced ⟨[], []⟩ State.empty where
  chain := .nil
  fits_body := by simp
  utxos outpoint output h := by
    rw [State.empty, Db.get_empty] at h
    cases h
  stxos outpoint spent h := by
    rw [State.empty, Db.get_empty] at h
    cases h
  bundles m6id bundle status h := by
    rw [State.empty, Db.get_empty] at h
    cases h
  inputs := by simp [History.included]

variable {history : History} {state : State}

theorem unambiguous (hcf : CollisionFree) (h : Traced history state)
    (hdeposits : (history.deposits.map Deposit.outpoint).Nodup) : history.Unambiguous :=
  ⟨h.fits_body, h.chain.nodup hcf, hdeposits⟩

variable {header : Header}

/-- A block on top of the tip leaves the history unambiguous. -/
theorem unambiguous_addBlock (hcf : CollisionFree) (h : Traced history state)
    (hdeposits : (history.deposits.map Deposit.outpoint).Nodup) {body : Body}
    (hprev : header.prevSideHash = state.tip) (hfits : fits body = true) :
    (history.addBlock header body).Unambiguous := by
  refine ⟨?_, ?_, hdeposits⟩
  · intro block hblock
    rcases List.mem_append.mp hblock with hblock | hblock
    · exact h.fits_body block hblock
    · rw [List.mem_singleton.mp hblock]
      exact hfits
  · rw [History.addBlock, List.map_append]
    exact (Chain.snoc h.chain hprev).nodup hcf

theorem not_mem (h : Traced history state) {outpoint : OutPoint}
    (hnone : ∀ output, ¬ history.Explains outpoint output) :
    outpoint ∉ state.utxos ∧ outpoint ∉ state.stxos := by
  constructor
  · intro hmem
    obtain ⟨output, hget⟩ := (Db.mem_iff _ _).mp hmem
    exact hnone _ (h.utxos _ _ hget)
  · intro hmem
    obtain ⟨spent, hget⟩ := (Db.mem_iff _ _).mp hmem
    exact hnone _ (h.stxos _ _ hget)

/-- The outputs that a block creates are accounted for by the block. -/
theorem explains_created {ctxt : BatchVerificationContext} {body : Body}
    {p : State.PrevalidatedBlock} (hp : State.Prevalid ctxt state header body p) (history : History)
    {tx : FilledTransaction} (htx : tx ∈ p.filledTransactions) {entry : OutPoint × FilledOutput}
    (hentry : entry ∈ tx.created) :
    (history.addBlock header body).Explains entry.1 entry.2.toOutput := by
  obtain ⟨fee, hvalid⟩ := hp.validated tx htx
  obtain ⟨filled, hfillable⟩ := hvalid.fillable
  obtain ⟨i, hkey, houtput⟩ := hfillable.mem_created hentry
  rw [hkey]
  refine ⟨tx.transaction, List.mem_flatMap.mpr ⟨(header, body), ?_, ?_⟩, rfl, i, rfl, houtput⟩
  · exact List.mem_append_right _ (List.mem_singleton_self _)
  · rw [hp.transactions_eq]
    exact List.mem_map_of_mem htx

theorem explains_coinbase {body : Body} {coinbase : List (OutPoint × FilledOutput)}
    (h : State.coinbaseUtxos header body = .ok coinbase) (history : History)
    {entry : OutPoint × FilledOutput} (hentry : entry ∈ coinbase) :
    (history.addBlock header body).Explains entry.1 entry.2.toOutput := by
  obtain ⟨i, hkey, houtput⟩ := State.mem_coinbaseUtxos h hentry
  rw [hkey]
  exact ⟨(header, body), List.mem_append_right _ (List.mem_singleton_self _), rfl, i, rfl, houtput⟩

theorem applyBlock {ctxt : BatchVerificationContext} {state' : State} {body : Body}
    (h : Traced history state) (hok : state.applyBlock ctxt header body = .ok state') :
    Traced (history.addBlock header body) state' := by
  obtain ⟨p, coinbase, dbs, hp, -, hcoinbase, -, rfl⟩ := State.applyBlock_ok hok
  have hextends := history.extends_addBlock header body
  refine ⟨?_, ?_, ?_, ?_, ?_, ?_⟩
  · rw [History.addBlock, List.map_append]
    exact .snoc h.chain hp.prev_eq
  · intro block hblock
    rcases List.mem_append.mp hblock with hblock | hblock
    · exact h.fits_body block hblock
    · rw [List.mem_singleton.mp hblock]
      exact hp.fits_body
  · intro outpoint output hget
    rcases State.batch_utxos_cases dbs hget with hmem | ⟨tx, htx, hmem⟩ | ⟨-, -, hget⟩
    · exact explains_coinbase hcoinbase history hmem
    · exact explains_created hp history htx hmem
    · exact (h.utxos outpoint output hget).mono hextends
  · intro outpoint spent hget
    rcases Db.get_putAll_cases hget with hmem | ⟨-, hget⟩
    · obtain ⟨tx, htx, hentry⟩ := List.mem_flatMap.mp hmem
      obtain ⟨-, hutxo, -⟩ := (hp.fills tx htx).mem_spent hentry
      exact (h.utxos outpoint spent.output hutxo).mono hextends
    · exact (h.stxos outpoint spent hget).mono hextends
  · intro m6id bundle status hget entry hentry
    exact (h.bundles m6id bundle status hget entry hentry).mono hextends
  · intro tx htx input hinput
    rcases History.mem_included_addBlock.mp htx with htx | htx
    · obtain ⟨output, hexplains⟩ := h.inputs tx htx input hinput
      exact ⟨output, hexplains.mono hextends⟩
    · rw [hp.transactions_eq] at htx
      obtain ⟨filled, hfilled, rfl⟩ := List.mem_map.mp htx
      obtain ⟨output, hget⟩ := (Db.mem_iff _ _).mp ((hp.fills filled hfilled).mem_utxos hinput)
      exact ⟨_, (h.utxos _ _ hget).mono hextends⟩

theorem eventEffect {state' : State} {height : Nat} {event : BlockEvent} (h : Traced history state)
    (heffect : State.EventEffect height state event state') :
    Traced (history.addEvent event) state' := by
  cases heffect with
  | deposit deposit =>
    have hextends := history.extends_addEvent (.deposit deposit)
    refine ⟨h.chain, h.fits_body, ?_, ?_, ?_, ?_⟩
    · intro outpoint output hget
      rw [Db.get_insert] at hget
      split at hget
      case isTrue heq =>
        cases hget
        subst heq
        exact ⟨deposit, by simp [History.addEvent], rfl, rfl⟩
      case isFalse => exact (h.utxos outpoint output hget).mono hextends
    · intro outpoint spent hget
      exact (h.stxos outpoint spent hget).mono hextends
    · intro m6id bundle status hget entry hentry
      exact (h.bundles m6id bundle status hget entry hentry).mono hextends
    · intro tx htx input hinput
      obtain ⟨output, hexplains⟩ := h.inputs tx htx input hinput
      exact ⟨output, hexplains.mono hextends⟩
  | withdrawalBundle heffect =>
    refine ⟨?_, h.fits_body, ?_, ?_, ?_, h.inputs⟩
    · rw [heffect.frame.1]
      exact h.chain
    · intro outpoint output hget
      rcases heffect.utxos hget with hget | ⟨bundle, status, hbundle, hmem⟩
      · exact h.utxos outpoint output hget
      · exact h.bundles _ bundle status hbundle _ hmem
    · intro outpoint spent hget
      rcases heffect.stxos hget with hget | ⟨-, hget⟩ | ⟨bundle, status, hbundle, hmem⟩
      · exact h.stxos outpoint spent hget
      · exact h.utxos outpoint spent.output hget
      · exact h.bundles _ bundle status hbundle _ hmem
    · intro m6id bundle status hget
      obtain ⟨earlier, hearlier⟩ := heffect.known hget
      exact h.bundles m6id bundle earlier hearlier

theorem collectEffect {state' : State} {height : Nat} (h : Traced history state)
    (heffect : State.CollectEffect height state state') : Traced history state' := by
  cases heffect with
  | unchanged => exact h
  | collected _ _ hbundle =>
    refine ⟨h.chain, h.fits_body, h.utxos, h.stxos, ?_, h.inputs⟩
    intro m6id bundle status hget entry hentry
    rw [Db.get_insert] at hget
    split at hget
    · cases hget
      exact h.utxos _ _ (hbundle.withdrawals entry hentry).1
    · exact h.bundles m6id bundle status hget entry hentry

end Traced

/-- The outpoints of a coinbase are fresh. -/
theorem Traced.coinbase_fresh (hcf : CollisionFree) {history : History} {state : State}
    (h : Traced history state) {header : Header} {body : Body}
    (hprev : header.prevSideHash = state.tip) {coinbase : List (OutPoint × FilledOutput)}
    (hcoinbase : State.coinbaseUtxos header body = .ok coinbase)
    {entry : OutPoint × FilledOutput} (hentry : entry ∈ coinbase) :
    entry.1 ∉ state.utxos ∧ entry.1 ∉ state.stxos := by
  obtain ⟨i, hkey, -⟩ := State.mem_coinbaseUtxos hcoinbase hentry
  have hnone : ∀ output, ¬ history.Explains entry.1 output := by
    intro output hexplains
    rw [hkey] at hexplains
    obtain ⟨block, hblock, htxid, -⟩ := hexplains
    have hheader := Header.computeCoinbaseTxid_injective hcf htxid
    exact h.chain.not_mem hcf hprev (hheader ▸ List.mem_map_of_mem hblock)
  exact h.not_mem hnone

/-- The outpoint of a new deposit is fresh. -/
theorem Traced.deposit_fresh {history : History} {state : State} (h : Traced history state)
    {deposit : Deposit} (hhistory : (history.addEvent (.deposit deposit)).Unambiguous) :
    OutPoint.deposit deposit.outpoint ∉ state.utxos ∧
      OutPoint.deposit deposit.outpoint ∉ state.stxos := by
  refine h.not_mem ?_
  rintro output ⟨earlier, hearlier, houtpoint, -⟩
  have hnodup := hhistory.deposits_nodup
  rw [History.addEvent, List.map_append, List.nodup_append] at hnodup
  exact hnodup.2.2 _ (List.mem_map_of_mem hearlier) deposit.outpoint (by simp) houtpoint

/-- Protected outputs live once. -/
structure Live (prot : Output → Prop) (history : History) (state : State) : Prop
    extends Traced history state where
  /-- A protected output is not unspent and spent at the same time. -/
  disjoint : ∀ (outpoint : OutPoint) (output : FilledOutput),
    state.utxos[outpoint]? = some output → prot output.toOutput → outpoint ∉ state.stxos
  /-- The protected outputs of a submitted bundle are spent by it. -/
  submitted : ∀ (m6id : M6id) bundle status,
    state.withdrawalBundles[m6id]? = some (.known bundle, status) →
      (HeightRollBack.latest status).value = .submitted →
        ∀ entry ∈ bundle.spendUtxos.toList, prot entry.2.toOutput →
          state.stxos[entry.1]? = some ⟨entry.2, .withdrawal m6id⟩
  /-- The protected inputs of an included transaction are spent by it. -/
  spent : ∀ tx ∈ history.included, ∀ input ∈ tx.inputs, ∀ output,
    history.Explains input output → prot output →
      ∃ spent vin, state.stxos[input]? = some spent ∧ spent.inpoint = .regular tx.txid vin

/-- A transaction of the block that creates a protected output spends one, or
was not included before. -/
def Guards (prot : Output → Prop) (history : History) (p : State.PrevalidatedBlock) : Prop :=
  ∀ tx ∈ p.filledTransactions, (∃ output ∈ tx.outputs, prot output) →
    (∃ input ∈ tx.spentInputs, prot input.2.toOutput) ∨
      ∀ earlier ∈ history.included, earlier.txid ≠ tx.txid

def Respects (prot : Output → Prop) : Prop := ∀ a b : Output, a.Alike b → prot a → prot b

namespace Live

theorem empty (prot : Output → Prop) : Live prot ⟨[], []⟩ State.empty where
  toTraced := .empty
  disjoint outpoint output h := by
    rw [State.empty, Db.get_empty] at h
    cases h
  submitted m6id bundle status h := by
    rw [State.empty, Db.get_empty] at h
    cases h
  spent := by simp [History.included]

section

variable {prot : Output → Prop} {history : History} {state state' : State}

/-- A protected output is created at a fresh outpoint. -/
theorem created_fresh (hcf : CollisionFree) (h : Live prot history state)
    {ctxt : BatchVerificationContext} {header : Header} {body : Body}
    {p : State.PrevalidatedBlock} (hp : State.Prevalid ctxt state header body p)
    (hguards : Guards prot history p) {tx : FilledTransaction} (htx : tx ∈ p.filledTransactions)
    {entry : OutPoint × FilledOutput} (hentry : entry ∈ tx.created)
    (hprot : prot entry.2.toOutput) : entry.1 ∉ state.utxos ∧ entry.1 ∉ state.stxos := by
  obtain ⟨fee, hvalid⟩ := hp.validated tx htx
  obtain ⟨filled, hfillable⟩ := hvalid.fillable
  obtain ⟨i, hkey, houtput⟩ := hfillable.mem_created hentry
  -- an earlier output at this outpoint would come from an earlier inclusion
  have hnone : ∀ output, ¬ history.Explains entry.1 output := by
    intro output hexplains
    rw [hkey] at hexplains
    obtain ⟨earlier, hearlier, htxid, -⟩ := hexplains
    rcases hguards tx htx ⟨_, List.mem_of_getElem? houtput, hprot⟩ with ⟨input, hinput, hin⟩ | hnew
    · obtain ⟨block, hblock, hmem⟩ := List.mem_flatMap.mp hearlier
      have halike := alike_of_txid_eq hcf
        ((fits_parts (h.fits_body block hblock)).1 earlier hmem) (hp.fits_transaction htx) htxid
      have hutxo := (hp.fills tx htx).get_of_mem hinput
      have hinputs : input.1 ∈ earlier.inputs := by
        rw [halike.1]
        exact (hp.fills tx htx).mem_inputs hinput
      obtain ⟨spent, vin, hspent, -⟩ := h.spent earlier hearlier input.1 hinputs _
        (h.utxos _ _ hutxo) hin
      exact h.disjoint _ _ hutxo hin (Db.mem_of_get hspent)
    · exact hnew earlier hearlier htxid
  exact h.not_mem hnone

/-- A protected output that was ever at an outpoint shows that the outpoint is
not both unspent and spent. -/
theorem not_mem_utxos (hcf : CollisionFree) (hrespects : Respects prot)
    (h : Live prot history state) (hhistory : history.Unambiguous) {outpoint : OutPoint}
    {spent : SpentOutput} (hget : state.stxos[outpoint]? = some spent)
    (hprot : prot spent.output.toOutput) : outpoint ∉ state.utxos := by
  intro hmem
  obtain ⟨output, hutxo⟩ := (Db.mem_iff _ _).mp hmem
  have halike := History.Explains.alike hcf hhistory (h.stxos _ _ hget) (h.utxos _ _ hutxo)
  exact h.disjoint outpoint output hutxo (hrespects _ _ halike hprot) (Db.mem_of_get hget)

/-- Inputs stay spent in a later state that keeps what transactions have
spent. -/
theorem spent_of_keep (hcf : CollisionFree) (hrespects : Respects prot)
    (h : Live prot history state) {history' : History} (hextends : history'.Extends history)
    (hhistory' : history'.Unambiguous)
    (hkeep : ∀ (outpoint : OutPoint) (spent : SpentOutput) (txid : Txid) (vin : UInt32),
      state.stxos[outpoint]? = some spent → prot spent.output.toOutput →
        spent.inpoint = .regular txid vin → state'.stxos[outpoint]? = some spent) :
    ∀ tx ∈ history.included, ∀ input ∈ tx.inputs, ∀ output,
      history'.Explains input output → prot output →
        ∃ spent vin, state'.stxos[input]? = some spent ∧ spent.inpoint = .regular tx.txid vin := by
  intro tx htx input hinput output hexplains hprot
  obtain ⟨earlier, hearlier⟩ := h.inputs tx htx input hinput
  have hprotEarlier := hrespects _ _
    (History.Explains.alike hcf hhistory' hexplains (hearlier.mono hextends)) hprot
  obtain ⟨spent, vin, hget, hinpoint⟩ := h.spent tx htx input hinput _ hearlier hprotEarlier
  have halike := History.Explains.alike hcf hhistory' (hearlier.mono hextends)
    ((h.stxos _ _ hget).mono hextends)
  exact ⟨spent, vin, hkeep input spent tx.txid vin hget (hrespects _ _ halike hprotEarlier)
    hinpoint, hinpoint⟩

/-- A block keeps protected outputs alive once. -/
theorem applyBlock (hcf : CollisionFree) (hrespects : Respects prot) (h : Live prot history state)
    {ctxt : BatchVerificationContext} {header : Header} {body : Body}
    (hok : state.applyBlock ctxt header body = .ok state')
    (hguards : ∀ p, State.Prevalid ctxt state header body p → Guards prot history p)
    (hdeposits : (history.deposits.map Deposit.outpoint).Nodup) :
    Live prot (history.addBlock header body) state' := by
  have htraced := h.toTraced.applyBlock hok
  have hunambiguous := htraced.unambiguous hcf hdeposits
  obtain ⟨p, coinbase, dbs, hp, -, hcoinbase, -, rfl⟩ := State.applyBlock_ok hok
  have hextends := history.extends_addBlock header body
  have hinputs : ∀ outpoint ∈ p.filledTransactions.flatMap FilledTransaction.inputs,
      outpoint ∈ state.utxos := by
    intro outpoint hmem
    obtain ⟨tx, htx, hinput⟩ := List.mem_flatMap.mp hmem
    exact (hp.fills tx htx).mem_utxos hinput
  have hkeys : (p.filledTransactions.flatMap FilledTransaction.spent).map Prod.fst =
      p.filledTransactions.flatMap FilledTransaction.inputs := by
    rw [List.map_flatMap]
    exact List.flatMap_congr fun tx htx => State.map_fst_spent (hp.fills tx htx)
  -- what is spent and protected is not an input of the block
  have hkeep : ∀ (outpoint : OutPoint) (spent : SpentOutput),
      state.stxos[outpoint]? = some spent → prot spent.output.toOutput →
        (Db.putAll state.stxos (p.filledTransactions.flatMap FilledTransaction.spent))[outpoint]? =
          some spent := by
    intro outpoint spent hget hprot
    rw [Db.get_putAll_of_not_mem]
    · exact hget
    · rw [hkeys]
      exact fun hmem => h.not_mem_utxos hcf hrespects (hunambiguous.of_extends hextends) hget hprot
        (hinputs outpoint hmem)
  refine ⟨htraced, ?_, ?_, ?_⟩
  · intro outpoint output hget hprot hmem
    rcases Db.mem_putAll.mp hmem with hspent | hold
    · -- an input of the block that the block creates again
      rw [hkeys] at hspent
      have hutxo := hinputs outpoint hspent
      rcases State.batch_utxos_cases dbs hget with hmem | ⟨tx, htx, hmem⟩ | ⟨hnot, -, -⟩
      · exact (h.coinbase_fresh hcf hp.prev_eq hcoinbase hmem).1 hutxo
      · exact (h.created_fresh hcf hp (hguards p hp) htx hmem hprot).1 hutxo
      · exact hnot hspent
    · rcases State.batch_utxos_cases dbs hget with hmem | ⟨tx, htx, hmem⟩ | ⟨-, -, hget⟩
      · exact (h.coinbase_fresh hcf hp.prev_eq hcoinbase hmem).2 hold
      · exact (h.created_fresh hcf hp (hguards p hp) htx hmem hprot).2 hold
      · exact h.disjoint outpoint output hget hprot hold
  · intro m6id bundle status hget hlatest entry hentry hprot
    exact hkeep _ _ (h.submitted m6id bundle status hget hlatest entry hentry hprot) hprot
  · intro tx htx input hinput output hexplains hprot
    rcases History.mem_included_addBlock.mp htx with htx | htx
    · exact h.spent_of_keep hcf hrespects hextends hunambiguous
        (fun outpoint spent _ _ hget hprot _ => hkeep outpoint spent hget hprot)
        tx htx input hinput output hexplains hprot
    · rw [hp.transactions_eq] at htx
      obtain ⟨filled, hfilled, rfl⟩ := List.mem_map.mp htx
      have hinput : input ∈ filled.spent.map Prod.fst := by
        rw [State.map_fst_spent (hp.fills filled hfilled)]
        exact hinput
      obtain ⟨entry, hentry, rfl⟩ := List.mem_map.mp hinput
      obtain ⟨-, -, vin, hinpoint⟩ := (hp.fills filled hfilled).mem_spent hentry
      refine ⟨entry.2, vin, ?_, hinpoint⟩
      exact Db.get_putAll_of_mem (hkeys ▸ hp.nodup) (List.mem_flatMap.mpr ⟨filled, hfilled, hentry⟩)

/-- Moving outputs from the utxos to the stxos keeps protected outputs alive
once. -/
theorem takeOut (hcf : CollisionFree) (hrespects : Respects prot) (h : Live prot history state)
    (hhistory : history.Unambiguous) (m6id : M6id) (entries : List (OutPoint × FilledOutput))
    (hmem : ∀ outpoint ∈ entries.map Prod.fst, outpoint ∈ state.utxos) :
    (∀ (outpoint : OutPoint) (output : FilledOutput),
      (state.takeOut m6id entries).utxos[outpoint]? = some output → prot output.toOutput →
        outpoint ∉ (state.takeOut m6id entries).stxos) ∧
      ∀ (outpoint : OutPoint) (spent : SpentOutput), state.stxos[outpoint]? = some spent →
        prot spent.output.toOutput →
          (state.takeOut m6id entries).stxos[outpoint]? = some spent := by
  have hkeys : (entries.map fun entry => (entry.1, (⟨entry.2, .withdrawal m6id⟩ : SpentOutput))).map
      Prod.fst = entries.map Prod.fst := by
    rw [List.map_map]
    rfl
  constructor
  · intro outpoint output hget hprot hspent
    have hnot : outpoint ∉ entries.map Prod.fst := by
      intro htaken
      rw [State.takeOut, Db.get_eraseAll_of_mem htaken] at hget
      cases hget
    rw [State.takeOut, Db.get_eraseAll_of_not_mem hnot] at hget
    rcases Db.mem_putAll.mp hspent with hspent | hspent
    · exact hnot (hkeys ▸ hspent)
    · exact h.disjoint outpoint output hget hprot hspent
  · intro outpoint spent hget hprot
    rw [State.takeOut, Db.get_putAll_of_not_mem]
    · exact hget
    · rw [hkeys]
      exact fun htaken => h.not_mem_utxos hcf hrespects hhistory hget hprot (hmem outpoint htaken)

/-- Returning the outputs of a submitted bundle keeps protected outputs alive
once. -/
theorem giveBack (hcf : CollisionFree) (hrespects : Respects prot) (h : Live prot history state)
    (hhistory : history.Unambiguous) {m6id : M6id} {bundle : WithdrawalBundle}
    {status : HeightRollBack WithdrawalBundleStatus}
    (hbundle : state.withdrawalBundles[m6id]? = some (.known bundle, status))
    (hlatest : (HeightRollBack.latest status).value = .submitted) :
    (∀ (outpoint : OutPoint) (output : FilledOutput),
      (state.giveBack bundle.spendUtxos.toList).utxos[outpoint]? = some output →
        prot output.toOutput → outpoint ∉ (state.giveBack bundle.spendUtxos.toList).stxos) ∧
      ∀ (outpoint : OutPoint) (spent : SpentOutput), state.stxos[outpoint]? = some spent →
        prot spent.output.toOutput → spent.inpoint ≠ .withdrawal m6id →
          (state.giveBack bundle.spendUtxos.toList).stxos[outpoint]? = some spent := by
  constructor
  · intro outpoint output hget hprot hspent
    obtain ⟨hnot, hspent⟩ := Db.mem_eraseAll.mp hspent
    rcases Db.get_putAll_cases hget with hmem | ⟨-, hget⟩
    · exact hnot (List.mem_map_of_mem hmem)
    · exact h.disjoint outpoint output hget hprot hspent
  · intro outpoint spent hget hprot hinpoint
    rw [State.giveBack, Db.get_eraseAll_of_not_mem]
    · exact hget
    · intro hmem
      obtain ⟨entry, hentry, rfl⟩ := List.mem_map.mp hmem
      have halike := History.Explains.alike hcf hhistory (h.stxos _ _ hget)
        (h.bundles m6id bundle status hbundle entry hentry)
      have hown := h.submitted m6id bundle status hbundle hlatest entry hentry
        (hrespects _ _ halike hprot)
      rw [hget] at hown
      cases hown
      exact hinpoint rfl

/-- The outputs of submitted bundles stay spent when one bundle gets a new
entry, given what holds of its own outputs. -/
theorem submitted_of_insert (h : Live prot history state) {m6id : M6id}
    {info : WithdrawalBundleInfo} {status : HeightRollBack WithdrawalBundleStatus}
    (hinsert : state'.withdrawalBundles = state.withdrawalBundles.insert m6id (info, status))
    (hkeep : ∀ (outpoint : OutPoint) (spent : SpentOutput), state.stxos[outpoint]? = some spent →
      prot spent.output.toOutput → spent.inpoint ≠ .withdrawal m6id →
        state'.stxos[outpoint]? = some spent)
    (hown : ∀ bundle, info = .known bundle → (HeightRollBack.latest status).value = .submitted →
      ∀ entry ∈ bundle.spendUtxos.toList, prot entry.2.toOutput →
        state'.stxos[entry.1]? = some ⟨entry.2, .withdrawal m6id⟩) :
    ∀ (other : M6id) bundle history,
      state'.withdrawalBundles[other]? = some (.known bundle, history) →
        (HeightRollBack.latest history).value = .submitted →
          ∀ entry ∈ bundle.spendUtxos.toList, prot entry.2.toOutput →
            state'.stxos[entry.1]? = some ⟨entry.2, .withdrawal other⟩ := by
  intro other bundle history hget hlatest entry hentry hprot
  rw [hinsert, Db.get_insert] at hget
  split at hget
  case isTrue heq =>
    cases hget
    subst heq
    exact hown bundle rfl hlatest entry hentry hprot
  case isFalse hne =>
    refine hkeep _ _ (h.submitted other bundle history hget hlatest entry hentry hprot) hprot ?_
    rintro heq
    cases heq
    exact hne rfl

/-- An event of a bundle keeps protected outputs alive once. -/
theorem bundleEffect (hcf : CollisionFree) (hrespects : Respects prot)
    (h : Live prot history state) (hhistory : history.Unambiguous) {height : Nat}
    {event : WithdrawalBundleEvent}
    (heffect : State.BundleEffect height event.m6id state event.status state') :
    Live prot history state' := by
  have htraced : Traced history state' :=
    h.toTraced.eventEffect (.withdrawalBundle heffect)
  generalize event.m6id = m6id, event.status = status at heffect
  have htake := h.takeOut hcf hrespects hhistory m6id
  cases heffect with
  | unchanged => exact h
  | noted hget hnoted =>
    refine ⟨htraced, h.disjoint, ?_, h.spent⟩
    refine h.submitted_of_insert rfl (fun _ _ hget _ _ => hget) ?_
    intro bundle _ hlatest
    rw [HeightRollBack.latest, NonEmpty.last_push] at hlatest
    exact absurd hlatest hnoted.ne_submitted
  | discovered =>
    refine ⟨htraced, h.disjoint, ?_, h.spent⟩
    exact h.submitted_of_insert rfl (fun _ _ hget _ _ => hget) (fun _ hinfo => nomatch hinfo)
  | @submitted bundle status _ _ _ _ hmem =>
    obtain ⟨hdisjoint, hkeep⟩ := htake _ hmem
    refine ⟨htraced, hdisjoint, ?_, ?_⟩
    · refine h.submitted_of_insert rfl (fun _ _ hget hprot _ => hkeep _ _ hget hprot) ?_
      intro bundle' hinfo _ entry hentry _
      cases hinfo
      refine Db.get_putAll_of_mem ?_ (List.mem_map.mpr ⟨entry, hentry, rfl⟩)
      rw [List.map_map]
      exact Db.keys_nodup bundle.spendUtxos
    · exact h.spent_of_keep hcf hrespects (.refl _) hhistory
        (fun _ _ _ _ hget hprot _ => hkeep _ _ hget hprot)
  | confirmedUnexpected _ _ _ hmem =>
    obtain ⟨hdisjoint, hkeep⟩ := htake _ hmem
    refine ⟨htraced, hdisjoint, ?_, ?_⟩
    · refine h.submitted_of_insert rfl (fun _ _ hget hprot _ => hkeep _ _ hget hprot) ?_
      intro bundle _ hlatest
      rw [HeightRollBack.latest, NonEmpty.last_push] at hlatest
      cases hlatest
    · exact h.spent_of_keep hcf hrespects (.refl _) hhistory
        (fun _ _ _ _ hget hprot _ => hkeep _ _ hget hprot)
  | confirmedUnknown =>
    have hall := htake state.utxos.toList (by
      intro outpoint hmem
      obtain ⟨entry, hentry, rfl⟩ := List.mem_map.mp hmem
      exact Db.mem_of_get (Db.mem_toList.mp hentry))
    rw [← State.spendAll_eq_takeOut] at hall
    obtain ⟨hdisjoint, hkeep⟩ := hall
    refine ⟨htraced, hdisjoint, ?_, ?_⟩
    · exact h.submitted_of_insert rfl (fun _ _ hget hprot _ => hkeep _ _ hget hprot)
        (fun _ hinfo => nomatch hinfo)
    · exact h.spent_of_keep hcf hrespects (.refl _) hhistory
        (fun _ _ _ _ hget hprot _ => hkeep _ _ hget hprot)
  | failed hget hlatest =>
    obtain ⟨hdisjoint, hkeep⟩ := h.giveBack hcf hrespects hhistory hget hlatest
    refine ⟨htraced, hdisjoint, ?_, ?_⟩
    · refine h.submitted_of_insert rfl hkeep ?_
      intro bundle _ hlatest
      rw [HeightRollBack.latest, NonEmpty.last_push] at hlatest
      cases hlatest
    · refine h.spent_of_keep hcf hrespects (.refl _) hhistory ?_
      intro outpoint spent txid vin hget hprot hinpoint
      exact hkeep _ _ hget hprot (by rw [hinpoint]; exact fun h => nomatch h)

theorem eventEffect (hcf : CollisionFree) (hrespects : Respects prot)
    (h : Live prot history state) {height : Nat} {event : BlockEvent}
    (hhistory : (history.addEvent event).Unambiguous)
    (heffect : State.EventEffect height state event state') :
    Live prot (history.addEvent event) state' := by
  have htraced := h.toTraced.eventEffect heffect
  cases heffect with
  | withdrawalBundle heffect => exact h.bundleEffect hcf hrespects hhistory heffect
  | deposit deposit =>
    have hextends := history.extends_addEvent (.deposit deposit)
    have hfresh := (h.deposit_fresh hhistory).2
    refine ⟨htraced, ?_, h.submitted, ?_⟩
    · intro outpoint output hget hprot
      rw [Db.get_insert] at hget
      split at hget
      case isTrue heq => exact heq ▸ hfresh
      case isFalse => exact h.disjoint outpoint output hget hprot
    · exact h.spent_of_keep hcf hrespects hextends hhistory (fun _ _ _ _ hget _ _ => hget)

theorem collectEffect (h : Live prot history state) {height : Nat}
    (heffect : State.CollectEffect height state state') : Live prot history state' := by
  have htraced := h.toTraced.collectEffect heffect
  cases heffect with
  | unchanged => exact h
  | @collected bundle status _ _ _ hstatus =>
    refine ⟨htraced, h.disjoint, ?_, h.spent⟩
    refine h.submitted_of_insert rfl (fun _ _ hget _ _ => hget) ?_
    intro _ _ hlatest
    rcases hstatus with ⟨-, rfl⟩ | ⟨_, earlier, -, -, rfl⟩
    · cases hlatest
    · rw [HeightRollBack.latest, NonEmpty.last_push] at hlatest
      cases hlatest

theorem connectTwoWayPegData (hcf : CollisionFree) (hrespects : Respects prot)
    (h : Live prot history state) {data : TwoWayPegData}
    (hhistory : ((data.events.map Prod.snd).foldl History.addEvent history).Unambiguous)
    (hok : state.connectTwoWayPegData data = .ok state') :
    Live prot ((data.events.map Prod.snd).foldl History.addEvent history) state' := by
  obtain ⟨height, hheight⟩ := State.exists_height_of_connectTwoWayPegData hok
  refine State.connectTwoWayPegData_history
    (P := fun done s => (done.foldl History.addEvent history).Unambiguous →
      Live prot (done.foldl History.addEvent history) s) hheight (fun _ => h) ?_ ?_ ?_ hok hhistory
  · intro done event s s' hs heffect hhistory
    rw [List.foldl_append, List.foldl_cons, List.foldl_nil] at hhistory ⊢
    exact (hs (hhistory.of_extends (History.extends_addEvent _ event))).eventEffect hcf hrespects
      hhistory heffect
  · intro done s _ _ _ hs hhistory
    have hlive := hs hhistory
    exact ⟨⟨hlive.chain, hlive.fits_body, hlive.utxos, hlive.stxos, hlive.bundles, hlive.inputs⟩,
      hlive.disjoint, hlive.submitted, hlive.spent⟩
  · intro done s s' hs heffect hhistory
    exact (hs hhistory).collectEffect heffect

end

end Live

/-- The steps before each block meet a condition on that block. -/
def EachBlock (P : List Step → BatchVerificationContext → Header → Body → Prop)
    (steps : List Step) : Prop :=
  ∀ done ctxt header body rest, steps = done ++ .block ctxt header body :: rest →
    P done ctxt header body

variable {P : List Step → BatchVerificationContext → Header → Body → Prop} {steps : List Step}

theorem EachBlock.of_append {more : List Step} (h : EachBlock P (steps ++ more)) :
    EachBlock P steps := by
  intro done ctxt header body rest hsplit
  refine h done ctxt header body (rest ++ more) ?_
  rw [hsplit, List.append_assoc]
  rfl

theorem EachBlock.nil : EachBlock P [] := by
  intro done ctxt header body rest hsplit
  simp at hsplit

theorem EachBlock.cons {step : Step}
    (hhead : ∀ ctxt header body, step = .block ctxt header body → P [] ctxt header body)
    (htail : EachBlock (fun done => P (step :: done)) steps) : EachBlock P (step :: steps) := by
  intro done ctxt header body rest hsplit
  cases done with
  | nil =>
    obtain ⟨rfl, -⟩ := List.cons.inj hsplit
    exact hhead ctxt header body rfl
  | cons first done =>
    obtain ⟨rfl, htl⟩ := List.cons.inj hsplit
    exact htail done ctxt header body rest htl

theorem DepositsDistinct.of_append {more : List Step} (h : DepositsDistinct (steps ++ more)) :
    DepositsDistinct steps := by
  unfold DepositsDistinct at h ⊢
  rw [depositsOf, List.flatMap_append, List.map_append] at h
  exact (List.nodup_append.mp h).1

/-- In every state of a run whose blocks are guarded, protected outputs live
once. -/
theorem live_of_run {prot : Output → Prop} (hcf : CollisionFree) (hrespects : Respects prot)
    {state : State} (hrun : State.empty.run steps = .ok state) (hdeposits : DepositsDistinct steps)
    (hguards : EachBlock (fun done ctxt header body => ∀ s p, State.empty.run done = .ok s →
      Live prot (History.ofSteps done) s → State.Prevalid ctxt s header body p →
        Guards prot (History.ofSteps done) p) steps) : Live prot (History.ofSteps steps) state := by
  induction steps using List.reverseRecOn generalizing state with
  | nil =>
    cases foldlM_nil_eq_ok.mp hrun
    exact Live.empty prot
  | append_singleton steps step ih =>
    obtain ⟨s, hs, hlast⟩ := foldlM_append_eq_ok.mp hrun
    obtain ⟨_, hstep, hnil⟩ := foldlM_cons_eq_ok.mp hlast
    obtain rfl := foldlM_nil_eq_ok.mp hnil
    have hlive := ih hs hdeposits.of_append hguards.of_append
    cases step with
    | block ctxt header body =>
      rw [History.ofSteps_block]
      exact hlive.applyBlock hcf hrespects hstep
        (fun p hp => hguards steps ctxt header body [] rfl s p hs hlive hp)
        hdeposits.of_append
    | peg data =>
      have hdeposits' : ((History.ofSteps (steps ++ [.peg data])).deposits.map
        Deposit.outpoint).Nodup := hdeposits
      rw [History.ofSteps_peg] at hdeposits' ⊢
      refine hlive.connectTwoWayPegData hcf hrespects ?_ hstep
      rw [History.foldl_addEvent] at hdeposits' ⊢
      exact ⟨hlive.fits_body, hlive.chain.nodup hcf, hdeposits'⟩


end PlainBitnames
