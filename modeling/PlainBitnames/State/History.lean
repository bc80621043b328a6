import PlainBitnames.State.Invariants

/-!
Where the outputs of a state come from. The steps of a run explain every output
that the run has ever seen: an output at a regular outpoint is an output of an
included transaction, one at a coinbase outpoint is an output of a coinbase, and
one at a deposit outpoint is a deposit. Headers never repeat, since each names
the hash of the one before; so without collisions and with distinct deposits
all outputs ever seen at one outpoint are alike.
-/

namespace PlainBitnames

open Borsh Fallible

variable [Primitives]

/-! Chains of headers. -/

/-- Headers each of which names the hash of the one before, and the hash of the
last one. -/
inductive Chain : List Header → Option BlockHash → Prop
  | nil : Chain [] none
  | snoc {headers tip header} (hchain : Chain headers tip) (hprev : header.prevSideHash = tip) :
      Chain (headers ++ [header]) (some header.hash)

variable {headers : List Header} {tip : Option BlockHash}

theorem Chain.prev_cases (h : Chain headers tip) {header : Header} (hheader : header ∈ headers) :
    header.prevSideHash = none ∨ ∃ earlier ∈ headers.dropLast,
      header.prevSideHash = some earlier.hash := by
  induction h with
  | nil => cases hheader
  | @snoc headers tip last hchain hprev ih =>
    rw [List.dropLast_concat]
    rcases List.mem_append.mp hheader with hmem | hmem
    · rcases ih hmem with hnone | ⟨earlier, hearlier, heq⟩
      · exact .inl hnone
      · exact .inr ⟨earlier, List.mem_of_mem_dropLast hearlier, heq⟩
    · obtain rfl := List.mem_singleton.mp hmem
      cases hchain with
      | nil => exact .inl hprev
      | @snoc _ _ earlier => exact .inr ⟨earlier, by simp, hprev⟩

theorem Chain.not_mem (hcf : CollisionFree) (h : Chain headers tip) {header : Header}
    (hprev : header.prevSideHash = tip) : header ∉ headers := by
  induction h generalizing header with
  | nil => simp
  | @snoc headers tip last hchain hlast ih =>
    intro hmem
    rcases (Chain.snoc hchain hlast).prev_cases hmem with hnone | ⟨earlier, hearlier, heq⟩
    · rw [hprev] at hnone
      cases hnone
    · -- the header before would be the last one, which is not among the others
      rw [List.dropLast_concat] at hearlier
      rw [hprev, Option.some.injEq] at heq
      exact ih hlast (Header.hash_injective hcf heq ▸ hearlier)

theorem Chain.nodup (hcf : CollisionFree) (h : Chain headers tip) : headers.Nodup := by
  induction h with
  | nil => exact List.nodup_nil
  | snoc hchain hprev ih =>
    exact List.nodup_append.mpr ⟨ih, by simp, by
      rintro a ha b hb rfl
      exact hchain.not_mem hcf hprev (List.mem_singleton.mp hb ▸ ha)⟩

theorem Output.Alike.refl (output : Output) : output.Alike output := by
  obtain ⟨address, content, memo⟩ := output
  refine ⟨rfl, ?_, rfl⟩
  cases content <;> first | exact rfl | exact trivial | exact ⟨rfl, rfl, rfl⟩

theorem fits_parts {body : Body} (h : fits body = true) :
    (∀ tx ∈ body.transactions, fits tx = true) ∧ body.coinbase.outputs.length < 2 ^ 32 := by
  have h : ((fits body.coinbase.memo && fits body.coinbase.outputs) &&
    fits body.transactions && fits body.authorizations) = true := h
  simp only [Bool.and_eq_true] at h
  exact ⟨(fits_list.mp h.1.2).2, (fits_list.mp h.1.1.2).1⟩

theorem State.Prevalid.fits_transaction {ctxt : BatchVerificationContext} {state : State}
    {header : Header} {body : Body} {p : State.PrevalidatedBlock}
    (hp : State.Prevalid ctxt state header body p) {tx : FilledTransaction}
    (htx : tx ∈ p.filledTransactions) : fits tx.transaction = true := by
  refine (fits_parts hp.fits_body).1 _ ?_
  rw [hp.transactions_eq]
  exact List.mem_map_of_mem htx

theorem length_outputs_lt {tx : Transaction} (h : fits tx = true) :
    tx.outputs.length < 2 ^ 32 := by
  have h : (fits tx.inputs && fits tx.outputs && fits tx.memo && fits tx.data) = true := h
  simp only [Bool.and_eq_true] at h
  exact (fits_list.mp h.1.1.2).1

omit [Primitives] in
theorem ofNat_inj {i j : Nat} (hi : i < 2 ^ 32) (hj : j < 2 ^ 32)
    (h : UInt32.ofNat i = UInt32.ofNat j) : i = j := by
  have hval := congrArg UInt32.toNat h
  rwa [UInt32.toNat_ofNat', UInt32.toNat_ofNat', Nat.mod_eq_of_lt hi, Nat.mod_eq_of_lt hj] at hval

theorem nodup_outpointsOf {outpoint : UInt32 → OutPoint} (hinj : Function.Injective outpoint)
    {outputs : List Output} (hlength : outputs.length < 2 ^ 32) :
    (outpointsOf outpoint outputs).Nodup := by
  refine List.Nodup.map_on ?_ List.nodup_range
  intro i hi j hj heq
  have hi := List.mem_range.mp hi
  have hj := List.mem_range.mp hj
  exact ofNat_inj (by omega) (by omega) (hinj heq)

/-! The history of a run. -/

/-- The blocks that were applied and the deposits that were connected. -/
structure History where
  blocks : List (Header × Body)
  deposits : List Deposit

namespace History

/-- The transactions of all blocks. -/
def included (history : History) : List Transaction :=
  history.blocks.flatMap fun block => block.2.transactions

def addBlock (history : History) (header : Header) (body : Body) : History :=
  { history with blocks := history.blocks ++ [(header, body)] }

variable {history : History}

theorem mem_included_addBlock {header : Header} {body : Body} {tx : Transaction} :
    tx ∈ (history.addBlock header body).included ↔
      tx ∈ history.included ∨ tx ∈ body.transactions := by
  simp only [included, addBlock, List.flatMap_append, List.mem_append, List.flatMap_cons,
    List.flatMap_nil, List.append_nil]

def addEvent (history : History) : BlockEvent → History
  | .deposit deposit => { history with deposits := history.deposits ++ [deposit] }
  | .withdrawalBundle _ => history

def ofSteps (steps : List Step) : History := ⟨blocksOf steps, depositsOf steps⟩

theorem ofSteps_block (steps : List Step) (ctxt : BatchVerificationContext) (header : Header)
    (body : Body) :
    ofSteps (steps ++ [.block ctxt header body]) = (ofSteps steps).addBlock header body := by
  simp [ofSteps, addBlock, blocksOf, depositsOf]

theorem foldl_addEvent (history : History) (events : List BlockEvent) :
    events.foldl addEvent history = { history with
      deposits := history.deposits ++ events.filterMap BlockEvent.deposit? } := by
  induction events generalizing history with
  | nil => simp
  | cons event events ih =>
    rw [List.foldl_cons, ih]
    cases event <;> simp [addEvent, List.filterMap_cons, BlockEvent.deposit?]

theorem ofSteps_peg (steps : List Step) (data : TwoWayPegData) :
    ofSteps (steps ++ [.peg data]) =
      (data.events.map Prod.snd).foldl addEvent (ofSteps steps) := by
  rw [foldl_addEvent, List.filterMap_map]
  simp only [ofSteps, blocksOf, depositsOf, List.filterMap_append, List.flatMap_append]
  simp only [List.filterMap_cons, List.filterMap_nil, List.append_nil, List.flatMap_cons,
    List.flatMap_nil]
  rfl

/-- One history continues another. -/
structure Extends (history' history : History) : Prop where
  blocks : history.blocks <+: history'.blocks
  deposits : history.deposits <+: history'.deposits

theorem Extends.refl (history : History) : history.Extends history :=
  ⟨List.prefix_refl _, List.prefix_refl _⟩

theorem extends_addBlock (history : History) (header : Header) (body : Body) :
    (history.addBlock header body).Extends history :=
  ⟨List.prefix_append _ _, List.prefix_refl _⟩

theorem extends_addEvent (history : History) (event : BlockEvent) :
    (history.addEvent event).Extends history := by
  cases event with
  | deposit deposit => exact ⟨List.prefix_refl _, List.prefix_append _ _⟩
  | withdrawalBundle event => exact .refl _

/-- The output with a given index in a list. -/
def OutputAt (outputs : List Output) (vout : UInt32) (output : Output) : Prop :=
  ∃ i, vout = UInt32.ofNat i ∧ outputs[i]? = some output

/-- The history accounts for an output at an outpoint. -/
def Explains (history : History) (outpoint : OutPoint) (output : Output) : Prop :=
  match outpoint with
  | .regular txid vout =>
    ∃ tx ∈ history.included, tx.txid = txid ∧ OutputAt tx.outputs vout output
  | .coinbase txid vout => ∃ block ∈ history.blocks, block.1.computeCoinbaseTxid = txid ∧
      OutputAt block.2.coinbase.outputs vout output
  | .deposit outpoint => ∃ deposit ∈ history.deposits, deposit.outpoint = outpoint ∧
      deposit.output.toOutput = output

theorem Extends.included {history' : History} (h : history'.Extends history) {tx : Transaction}
    (htx : tx ∈ history.included) : tx ∈ history'.included := by
  obtain ⟨block, hblock, hmem⟩ := List.mem_flatMap.mp htx
  exact List.mem_flatMap.mpr ⟨block, h.blocks.subset hblock, hmem⟩

theorem Explains.mono {history' : History} {outpoint : OutPoint} {output : Output}
    (h : history.Explains outpoint output) (hextends : history'.Extends history) :
    history'.Explains outpoint output := by
  cases outpoint with
  | regular txid vout =>
    obtain ⟨tx, htx, hrest⟩ := h
    exact ⟨tx, hextends.included htx, hrest⟩
  | coinbase txid vout =>
    obtain ⟨block, hblock, hrest⟩ := h
    exact ⟨block, hextends.blocks.subset hblock, hrest⟩
  | deposit outpoint =>
    obtain ⟨deposit, hdeposit, hrest⟩ := h
    exact ⟨deposit, hextends.deposits.subset hdeposit, hrest⟩

/-- What makes outpoints unambiguous: bodies can be encoded, headers do not
repeat, and neither do deposits. -/
structure Unambiguous (history : History) : Prop where
  fits_body : ∀ block ∈ history.blocks, fits block.2 = true
  headers_nodup : (history.blocks.map Prod.fst).Nodup
  deposits_nodup : (history.deposits.map Deposit.outpoint).Nodup

theorem Unambiguous.of_extends {history' : History} (h : history'.Unambiguous)
    (hextends : history'.Extends history) : history.Unambiguous :=
  ⟨fun block hblock => h.fits_body block (hextends.blocks.subset hblock),
    h.headers_nodup.sublist (hextends.blocks.sublist.map _),
    h.deposits_nodup.sublist (hextends.deposits.sublist.map _)⟩

theorem OutputAt.alike {outputs outputs' : List Output} {vout : UInt32} {a b : Output}
    (halike : List.Forall₂ Output.Alike outputs outputs') (hlength : outputs.length < 2 ^ 32)
    (ha : OutputAt outputs vout a) (hb : OutputAt outputs' vout b) : a.Alike b := by
  obtain ⟨i, hi, hai⟩ := ha
  obtain ⟨j, hj, hbj⟩ := hb
  obtain ⟨hilt, rfl⟩ := List.getElem?_eq_some_iff.mp hai
  obtain ⟨hjlt, rfl⟩ := List.getElem?_eq_some_iff.mp hbj
  have hlen := halike.length_eq
  obtain rfl := ofNat_inj (by omega) (by omega) (hi.symm.trans hj)
  exact halike.get hilt hjlt

theorem Explains.alike (hcf : CollisionFree) (hhistory : history.Unambiguous) {outpoint : OutPoint}
    {a b : Output} (ha : history.Explains outpoint a) (hb : history.Explains outpoint b) :
    a.Alike b := by
  cases outpoint with
  | regular txid vout =>
    obtain ⟨tx, htx, rfl, ha⟩ := ha
    obtain ⟨tx', htx', htxid, hb⟩ := hb
    obtain ⟨block, hblock, hmem⟩ := List.mem_flatMap.mp htx
    obtain ⟨block', hblock', hmem'⟩ := List.mem_flatMap.mp htx'
    have hfits := (fits_parts (hhistory.fits_body block hblock)).1 tx hmem
    have hfits' := (fits_parts (hhistory.fits_body block' hblock')).1 tx' hmem'
    have halike := alike_of_txid_eq hcf hfits hfits' htxid.symm
    exact ha.alike halike.2.1 (length_outputs_lt hfits) hb
  | coinbase txid vout =>
    obtain ⟨block, hblock, rfl, ha⟩ := ha
    obtain ⟨block', hblock', htxid, hb⟩ := hb
    have hheader := Header.computeCoinbaseTxid_injective hcf htxid
    obtain rfl := List.inj_on_of_nodup_map hhistory.headers_nodup hblock' hblock hheader
    exact ha.alike (List.forall₂_same.mpr fun o _ => Output.Alike.refl o)
      (fits_parts (hhistory.fits_body block' hblock)).2 hb
  | deposit outpoint =>
    obtain ⟨deposit, hdeposit, rfl, rfl⟩ := ha
    obtain ⟨deposit', hdeposit', houtpoint, rfl⟩ := hb
    obtain rfl := List.inj_on_of_nodup_map hhistory.deposits_nodup hdeposit' hdeposit houtpoint
    exact Output.Alike.refl _

end History

end PlainBitnames
