import PlainBitnames.Properties.TemplateBlocks

/-!
How many authorizations a transaction needs. Block validation and the validation of one
transaction require one for each spent output that is not exempt by a declared ICANN name,
and both verify one for each input. A transaction with an exempt input satisfies none of
them.
-/

namespace PlainBitnames

open Borsh Fallible

section

variable [Primitives]

namespace FilledTransaction

/-- The first name that a transaction declares as an ICANN name is one that it spends. -/
def Exempts (tx : FilledTransaction) : Prop :=
  ∃ data name names, tx.transaction.batchIcannData = some data ∧
    data.nameHashes = name :: names ∧ ∃ utxo ∈ tx.spentUtxos, utxo.bitname = some name

theorem retainRequiringAuth_nil (utxos : List FilledOutput) : retainRequiringAuth [] utxos = utxos := by
  induction utxos with
  | nil => rfl
  | cons o os ih => rw [retainRequiringAuth, ih]

theorem retainRequiringAuth_of_not_mem {name : BitName} {names : List BitName}
    {utxos : List FilledOutput} (h : ∀ utxo ∈ utxos, utxo.bitname ≠ some name) :
    retainRequiringAuth (name :: names) utxos = utxos := by
  induction utxos with
  | nil => rfl
  | cons o os ih =>
    obtain ⟨ho, hos⟩ := List.forall_mem_cons.mp h
    rw [retainRequiringAuth]
    split
    · rw [ih hos]
    next spentBitname hname =>
      have hne : spentBitname ≠ name := by
        rintro rfl
        exact ho hname
      rw [if_neg hne, ih hos]

variable {tx : FilledTransaction}

theorem Exempts.length_lt (h : tx.Exempts) :
    tx.spentUtxosRequiringAuth.length < tx.spentUtxos.length := by
  obtain ⟨data, name, names, hdata, hnames, utxo, hutxo, hname⟩ := h
  unfold spentUtxosRequiringAuth
  rw [hdata]
  dsimp only
  rw [hnames]
  exact length_retainRequiringAuth_lt hutxo hname

theorem requiringAuth_of_not_exempts (h : ¬ tx.Exempts) :
    tx.spentUtxosRequiringAuth = tx.spentUtxos := by
  unfold spentUtxosRequiringAuth
  cases hdata : tx.transaction.batchIcannData with
  | none => rfl
  | some data =>
    dsimp only
    cases hnames : data.nameHashes with
    | nil => exact retainRequiringAuth_nil _
    | cons name names =>
      refine retainRequiringAuth_of_not_mem fun utxo hutxo hname => ?_
      exact h ⟨data, name, names, hdata, hnames, utxo, hutxo, hname⟩

end FilledTransaction

namespace State

variable {ctxt : BatchVerificationContext} {state : State} {tx : FilledTransaction}

theorem not_exempts_of_validateTransaction {authorizations : List Authorization} {fee : Amount}
    (hfills : state.Fills tx)
    (h : state.validateTransaction ctxt ⟨tx.transaction, authorizations⟩ = .ok fee) :
    ¬ tx.Exempts := by
  obtain ⟨filled, hfilled, -, hadmitted⟩ := validateTransaction_ok h
  obtain rfl : tx = filled :=
    Except.ok.inj ((fillTransaction_eq_ok.mpr ⟨rfl, hfills⟩).symm.trans hfilled)
  intro hexempts
  have hlt := hexempts.length_lt
  rw [hadmitted.requiringAuth_eq] at hlt
  exact hlt.false

theorem not_exempts_of_validate {header : Header} {body : Body} {filled : List FilledTransaction}
    {result : Amount × MerkleRoot}
    (hfilled : body.transactions.mapM state.fillTransaction = .ok filled)
    (h : state.validate ctxt header body = .ok result) : ∀ tx ∈ filled, ¬ tx.Exempts := by
  obtain ⟨checked, hchecked, -⟩ := bind_eq_ok.mp h
  have hc := checkBody_ok hchecked 0
  obtain rfl : filled = checked.filledTransactions := by
    have hagain := mapM_fillTransaction_eq_ok.mpr ⟨hc.transactions_eq, hc.fills⟩
    exact Except.ok.inj (hfilled.symm.trans hagain)
  intro tx htx hexempts
  have hlt := hexempts.length_lt
  rw [hc.requiringAuth_eq tx htx] at hlt
  exact hlt.false

end State

/-- The checks count the authorizations of a body alike, in the body and in each of its
transactions, and pair them with the same outputs, if no transaction has an exempt input. A
transaction that has one is accepted on no path, with whatever authorizations. -/
theorem authorization_counts_iff {state : State} {body : Body} {filled : List FilledTransaction}
    (hfilled : body.transactions.mapM state.fillTransaction = .ok filled) :
    (((filled.map fun tx => tx.spentUtxosRequiringAuth.length).sum =
        (body.transactions.map fun tx => tx.inputs.length).sum ∧
      ∀ tx ∈ filled, tx.spentUtxosRequiringAuth.length = tx.transaction.inputs.length ∧
        ∀ authorizations : List Authorization,
          authorizations.length = tx.spentUtxosRequiringAuth.length →
          authorizations.zip tx.spentUtxos = authorizations.zip tx.spentUtxosRequiringAuth) ↔
      ∀ tx ∈ filled, ¬ tx.Exempts) ∧
    (∀ tx ∈ filled, tx.Exempts → ∀ ctxt authorizations fee,
      state.validateTransaction ctxt ⟨tx.transaction, authorizations⟩ ≠ .ok fee) ∧
    ((∃ tx ∈ filled, tx.Exempts) → ∀ ctxt header authorizations result,
      state.validate ctxt header { body with authorizations } ≠ .ok result) := by
  obtain ⟨htransactions, hfills⟩ := State.mapM_fillTransaction_eq_ok.mp hfilled
  have hlength : ∀ tx ∈ filled, tx.transaction.inputs.length = tx.spentUtxos.length :=
    fun tx htx => (hfills tx htx).length_eq
  refine ⟨⟨fun h tx htx hexempts => ?_, fun h => ?_⟩, fun tx htx hexempts ctxt _ fee hvalid => ?_, ?_⟩
  · have hlt := hexempts.length_lt
    rw [(h.2 tx htx).1, hlength tx htx] at hlt
    exact hlt.false
  · have heq : ∀ tx ∈ filled, tx.spentUtxosRequiringAuth = tx.spentUtxos :=
      fun tx htx => FilledTransaction.requiringAuth_of_not_exempts (h tx htx)
    have hcount : ∀ tx ∈ filled,
        tx.spentUtxosRequiringAuth.length = tx.transaction.inputs.length := by
      intro tx htx
      rw [heq tx htx, hlength tx htx]
    refine ⟨?_, fun tx htx => ⟨hcount tx htx, fun _ _ => by rw [heq tx htx]⟩⟩
    rw [htransactions, List.map_map]
    exact congrArg List.sum (List.map_congr_left hcount)
  · exact State.not_exempts_of_validateTransaction (hfills tx htx) hvalid hexempts
  · rintro ⟨tx, htx, hexempts⟩ ctxt header authorizations result hvalid
    have hfilled : ({ body with authorizations } : Body).transactions.mapM state.fillTransaction =
        .ok filled := hfilled
    exact State.not_exempts_of_validate hfilled hvalid tx htx hexempts

end

namespace Instance

/-- The key that signs batch ICANN registrations is valid. -/
@[reducible]
def keyed : Primitives := { primitives with verifyingKeyTryFrom := fun _ => some 0 }

section

attribute [local instance] keyed

/-- A batch that declares one name, with a valid signature. -/
def keyedBatch : BatchIcannRegistrationData := ⟨["a"], 0⟩

/-- Spend the declared name, and return it. -/
def keyedTx : Transaction :=
  ⟨[.regular zeroHash 0], [⟨7, .bitName, []⟩], [], some (.batchIcann keyedBatch)⟩

/-- A state with an output that holds the name. -/
def keyedState : State :=
  { State.empty with
    utxos := keyedBatch.nameHashes.foldl
      (fun utxos name => utxos.insert (.regular zeroHash 0) ⟨7, .bitName name, []⟩) ∅ }

def keyedFilled : FilledTransaction :=
  ⟨keyedTx, keyedBatch.nameHashes.map fun name => ⟨7, .bitName name, []⟩⟩

def keyedBody (authorizations : List Authorization) : Body :=
  ⟨⟨[], []⟩, [keyedTx], authorizations⟩

def keyedHeader : Header :=
  ⟨(Body.computeMerkleRoot ⟨[], []⟩ [keyedFilled]).toOption.getD zeroHash, none, 0⟩

/-- The only input of a valid transaction is exempt. No authorization is required, but one
for each input is verified: it is accepted on neither path. -/
theorem exempt_input_rejected :
    (keyedBody []).transactions.mapM keyedState.fillTransaction = .ok [keyedFilled] ∧
      (keyedState.validateFilledTransaction keyedFilled).isOk = true ∧
      keyedFilled.spentUtxosRequiringAuth = [] ∧
      keyedState.validateTransaction 0 ⟨keyedTx, []⟩ = .error (.error .authorizationError) ∧
      keyedState.validate 0 keyedHeader (keyedBody []) = .error (.error .authorizationError) := by
  refine ⟨?_, ?_, ?_, ?_, ?_⟩ <;> decide +kernel

end

def spendFilled : FilledTransaction := ⟨spendMint, [⟨7, .bitcoin 0, []⟩]⟩

theorem authorization_counts_iff_spend :
    spendBody.transactions.mapM minted.fillTransaction = .ok [spendFilled] ∧
      spendFilled.spentUtxosRequiringAuth.length = spendMint.inputs.length := by
  have hfilled : spendBody.transactions.mapM minted.fillTransaction = .ok [spendFilled] := by
    decide +kernel
  have hnot : ¬ spendFilled.Exempts := by
    rintro ⟨data, _, _, hdata, -⟩
    cases hdata
  have hcounts := (authorization_counts_iff hfilled).1.mpr (List.forall_mem_singleton.mpr hnot)
  exact ⟨hfilled, (hcounts.2 spendFilled List.mem_cons_self).1⟩

end Instance

end PlainBitnames
