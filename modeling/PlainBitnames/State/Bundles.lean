import PlainBitnames.State.PegSpec

/-!
How a bundle is collected. The withdrawal outputs of a state are grouped by their
destination, the groups are sorted by fee, value and address, and the first groups for
which the predicted weight allows it are paid out.
-/

namespace PlainBitnames

open Borsh Fallible

variable [Primitives]

/-- The withdrawal of an output, if it is one. -/
def FilledContent.withdrawal : FilledContent → Option WithdrawalContent
  | .bitcoinWithdrawal w => some w
  | _ => none

/-- An unspent output with its outpoint. -/
abbrev Utxo := OutPoint × FilledOutput

namespace Utxo

/-- The mainchain address that an output is withdrawn to. -/
def destination (utxo : Utxo) : Option MainAddress :=
  utxo.2.content.withdrawal.map WithdrawalContent.mainAddress

/-- What an output pays to its destination. -/
def payout (utxo : Utxo) : Nat := utxo.2.content.withdrawal.elim 0 fun w => w.value.toNat

/-- What an output pays to the miners of the mainchain. -/
def mainFee (utxo : Utxo) : Nat := utxo.2.content.withdrawal.elim 0 fun w => w.mainFee.toNat

/-- What an output is worth, with the fee of a withdrawal. -/
def worth (utxo : Utxo) : Nat :=
  match utxo.2.content with
  | .bitcoin value => value.toNat
  | .bitcoinWithdrawal w => w.value.toNat + w.mainFee.toNat
  | .bitName _ | .bitNameReservation _ _ => 0

section

variable {utxo : Utxo} {w : WithdrawalContent} (h : utxo.2.content = .bitcoinWithdrawal w)

include h

theorem destination_of : utxo.destination = some w.mainAddress := by
  rw [destination, h]
  rfl

theorem payout_of : utxo.payout = w.value.toNat := by
  rw [payout, h]
  rfl

theorem mainFee_of : utxo.mainFee = w.mainFee.toNat := by
  rw [mainFee, h]
  rfl

end

theorem payout_add_mainFee_le (utxo : Utxo) : utxo.payout + utxo.mainFee ≤ utxo.worth := by
  unfold payout mainFee worth
  cases utxo.2.content with
  | bitcoin => exact Nat.zero_le _
  | bitcoinWithdrawal => exact Nat.le_refl _
  | bitName => exact Nat.zero_le _
  | bitNameReservation => exact Nat.zero_le _

end Utxo

/-- The outputs that are withdrawn to an address. -/
def withdrawalsTo (utxos : List Utxo) (address : MainAddress) : List Utxo :=
  utxos.filter fun utxo => utxo.destination = some address

def valueTo (utxos : List Utxo) (address : MainAddress) : Nat :=
  ((withdrawalsTo utxos address).map Utxo.payout).sum

def feeTo (utxos : List Utxo) (address : MainAddress) : Nat :=
  ((withdrawalsTo utxos address).map Utxo.mainFee).sum

def AggregatedWithdrawal.ofAddress (utxos : List Utxo) (address : MainAddress) :
    AggregatedWithdrawal :=
  ⟨withdrawalsTo utxos address, address, UInt64.ofNat (valueTo utxos address),
    UInt64.ofNat (feeTo utxos address)⟩

variable {utxos : List Utxo} {utxo : Utxo} {address : MainAddress}

theorem mem_withdrawalsTo :
    utxo ∈ withdrawalsTo utxos address ↔ utxo ∈ utxos ∧ utxo.destination = some address := by
  rw [withdrawalsTo, List.mem_filter, decide_eq_true_eq]

theorem withdrawalsTo_concat (h : utxo.destination = some address) :
    withdrawalsTo (utxos ++ [utxo]) address = withdrawalsTo utxos address ++ [utxo] := by
  rw [withdrawalsTo, List.filter_append, List.filter_singleton, decide_eq_true h]
  rfl

theorem withdrawalsTo_concat_ne (h : utxo.destination ≠ some address) :
    withdrawalsTo (utxos ++ [utxo]) address = withdrawalsTo utxos address := by
  rw [withdrawalsTo, List.filter_append, List.filter_singleton, decide_eq_false h]
  exact List.append_nil _

theorem ofAddress_concat_ne (h : utxo.destination ≠ some address) :
    AggregatedWithdrawal.ofAddress (utxos ++ [utxo]) address =
      AggregatedWithdrawal.ofAddress utxos address := by
  rw [AggregatedWithdrawal.ofAddress, valueTo, feeTo, withdrawalsTo_concat_ne h]
  rfl

theorem valueTo_concat (h : utxo.destination = some address) :
    valueTo (utxos ++ [utxo]) address = valueTo utxos address + utxo.payout := by
  simp [valueTo, withdrawalsTo_concat h]

theorem feeTo_concat (h : utxo.destination = some address) :
    feeTo (utxos ++ [utxo]) address = feeTo utxos address + utxo.mainFee := by
  simp [feeTo, withdrawalsTo_concat h]

theorem valueTo_add_feeTo_le (utxos : List Utxo) (address : MainAddress) :
    valueTo utxos address + feeTo utxos address ≤ (utxos.map Utxo.worth).sum := by
  induction utxos using List.reverseRecOn with
  | nil => exact Nat.zero_le _
  | append_singleton utxos utxo ih =>
    rw [List.map_append, List.sum_append, List.map_singleton, List.sum_singleton]
    by_cases h : utxo.destination = some address
    · have hworth := utxo.payout_add_mainFee_le
      rw [valueTo_concat h, feeTo_concat h]
      omega
    · rw [valueTo, feeTo, withdrawalsTo_concat_ne h]
      exact ih.trans (Nat.le_add_right _ _)

omit [Primitives] in
theorem add?_ofNat {n : Nat} {a : UInt64} (h : n + a.toNat < 2 ^ 64) :
    Checked.add? (UInt64.ofNat n) a = some (UInt64.ofNat (n + a.toNat)) := by
  rw [Checked.add?_eq_some, UInt64.toNat_ofNat', UInt64.toNat_ofNat', Nat.mod_eq_of_lt h,
    Nat.mod_eq_of_lt (by omega)]

variable {addresses : List MainAddress}

/-- A withdrawal is added to the group of its destination. -/
theorem addWithdrawal_ofAddress {outpoint : OutPoint} {output : FilledOutput}
    {w : WithdrawalContent} (hcontent : output.content = .bitcoinWithdrawal w)
    (hnodup : addresses.Nodup) (hnew : w.mainAddress ∉ addresses →
      withdrawalsTo utxos w.mainAddress = [])
    (hbound : ((utxos ++ [(outpoint, output)]).map Utxo.worth).sum < 2 ^ 64) :
    addWithdrawal outpoint output w (addresses.map (.ofAddress utxos)) =
      some ((if w.mainAddress ∈ addresses then addresses else addresses ++ [w.mainAddress]).map
        (.ofAddress (utxos ++ [(outpoint, output)]))) := by
  have hdestination : Utxo.destination (outpoint, output) = some w.mainAddress :=
    Utxo.destination_of hcontent
  have hvalueTo : valueTo (utxos ++ [(outpoint, output)]) w.mainAddress =
      valueTo utxos w.mainAddress + w.value.toNat := by
    rw [valueTo_concat hdestination, Utxo.payout_of hcontent]
  have hfeeTo : feeTo (utxos ++ [(outpoint, output)]) w.mainAddress =
      feeTo utxos w.mainAddress + w.mainFee.toNat := by
    rw [feeTo_concat hdestination, Utxo.mainFee_of hcontent]
  have hle := valueTo_add_feeTo_le (utxos ++ [(outpoint, output)]) w.mainAddress
  have hother : ∀ {addresses : List MainAddress}, w.mainAddress ∉ addresses →
      addresses.map (AggregatedWithdrawal.ofAddress (utxos ++ [(outpoint, output)])) =
        addresses.map (.ofAddress utxos) := by
    intro addresses hnot
    refine List.map_congr_left fun address haddress => ofAddress_concat_ne ?_
    rw [hdestination]
    exact fun heq => hnot (Option.some.inj heq ▸ haddress)
  induction addresses with
  | nil =>
    have hempty := hnew List.not_mem_nil
    rw [if_neg List.not_mem_nil, List.map_nil, addWithdrawal, List.nil_append, List.map_singleton,
      AggregatedWithdrawal.ofAddress, hvalueTo, hfeeTo, withdrawalsTo_concat hdestination, valueTo,
      feeTo, hempty]
    simp
  | cons address addresses ih =>
    obtain ⟨hfresh, hnodup⟩ := List.nodup_cons.mp hnodup
    rw [List.map_cons, addWithdrawal]
    by_cases heq : address = w.mainAddress
    · subst heq
      rw [if_pos List.mem_cons_self, List.map_cons, hother hfresh, if_pos (show
        (AggregatedWithdrawal.ofAddress utxos w.mainAddress).mainAddress = w.mainAddress from rfl)]
      dsimp only [AggregatedWithdrawal.ofAddress]
      rw [add?_ofNat (by omega), add?_ofNat (by omega), hvalueTo, hfeeTo,
        withdrawalsTo_concat hdestination]
      rfl
    · have hmem : w.mainAddress ∈ address :: addresses ↔ w.mainAddress ∈ addresses :=
        List.mem_cons.trans (or_iff_right fun h => heq h.symm)
      rw [show (AggregatedWithdrawal.ofAddress utxos address).mainAddress = address from rfl,
        if_neg heq, ih hnodup fun hnot => hnew fun h => hnot (hmem.mp h)]
      simp only [hmem, Option.map_some]
      split
      · rw [List.map_cons, ofAddress_concat_ne fun h =>
          heq (Option.some.inj (hdestination.symm.trans h)).symm]
      · rw [List.cons_append, List.map_cons, ofAddress_concat_ne fun h =>
          heq (Option.some.inj (hdestination.symm.trans h)).symm]

/-- The aggregated withdrawals are one group for each destination. -/
structure Grouped (utxos : List Utxo) (addresses : List MainAddress) : Prop where
  nodup : addresses.Nodup
  mem : ∀ address, address ∈ addresses ↔ withdrawalsTo utxos address ≠ []

theorem Grouped.nil : Grouped [] [] := ⟨.nil, fun _ => ⟨nofun, fun h => absurd rfl h⟩⟩

/-- One more output keeps the groups, or adds one. -/
theorem Grouped.aggregate (h : Grouped utxos addresses)
    (hbound : ((utxos ++ [utxo]).map Utxo.worth).sum < 2 ^ 64) :
    ∃ addresses', Grouped (utxos ++ [utxo]) addresses' ∧
      aggregate (addresses.map (.ofAddress utxos)) utxo =
        some (addresses'.map (.ofAddress (utxos ++ [utxo]))) := by
  obtain ⟨outpoint, output⟩ := utxo
  unfold PlainBitnames.aggregate
  split
  case h_1 w hcontent =>
    have hdestination : Utxo.destination (outpoint, output) = some w.mainAddress :=
      Utxo.destination_of hcontent
    have hnew : w.mainAddress ∉ addresses → withdrawalsTo utxos w.mainAddress = [] :=
      fun hnot => not_not.mp fun hne => hnot ((h.mem _).mpr hne)
    refine ⟨_, ⟨?_, fun address => ?_⟩,
      addWithdrawal_ofAddress hcontent h.nodup hnew hbound⟩
    · split
      case isTrue => exact h.nodup
      case isFalse hfresh =>
        exact List.nodup_append'.mpr ⟨h.nodup, List.nodup_singleton _,
          List.disjoint_singleton.mpr hfresh⟩
    · by_cases heq : address = w.mainAddress
      · subst heq
        rw [withdrawalsTo_concat hdestination]
        split
        case isTrue hmem => simp [hmem]
        case isFalse => simp
      · have hne : Utxo.destination (outpoint, output) ≠ some address := fun h =>
          heq (Option.some.inj (hdestination.symm.trans h)).symm
        rw [withdrawalsTo_concat_ne hne, ← h.mem]
        split
        case isTrue => rfl
        case isFalse => simp [heq]
  case h_2 hcontent =>
    have hdestination : Utxo.destination (outpoint, output) = none := by
      unfold Utxo.destination FilledContent.withdrawal
      split
      case h_1 w hw => exact absurd hw (hcontent w)
      case h_2 => rfl
    have hne : ∀ address, Utxo.destination (outpoint, output) ≠ some address := by
      rw [hdestination]
      exact fun _ hsome => by cases hsome
    refine ⟨addresses, ⟨h.nodup, fun address => ?_⟩, congrArg some ?_⟩
    · rw [withdrawalsTo_concat_ne (hne address), h.mem]
    · exact List.map_congr_left fun address _ => (ofAddress_concat_ne (hne address)).symm

/-- All outputs after some are aggregated, if their worth fits. -/
theorem Grouped.foldlM {later : List Utxo} (h : Grouped utxos addresses)
    (hbound : ((utxos ++ later).map Utxo.worth).sum < 2 ^ 64) :
    ∃ addresses', Grouped (utxos ++ later) addresses' ∧
      later.foldlM PlainBitnames.aggregate (addresses.map (.ofAddress utxos)) =
        some (addresses'.map (.ofAddress (utxos ++ later))) := by
  induction later generalizing utxos addresses with
  | nil => exact ⟨addresses, by rwa [List.append_nil], by rw [List.append_nil]; rfl⟩
  | cons utxo later ih =>
    rw [List.append_cons] at hbound ⊢
    have hstep : ((utxos ++ [utxo]).map Utxo.worth).sum < 2 ^ 64 := by
      rw [List.map_append, List.sum_append] at hbound
      omega
    obtain ⟨next, hnext, hagg⟩ := h.aggregate hstep
    obtain ⟨addresses', haddresses', hrest⟩ := ih hnext hbound
    refine ⟨addresses', haddresses', ?_⟩
    rw [List.foldlM_cons, hagg]
    exact hrest

theorem exists_grouped (hbound : (utxos.map Utxo.worth).sum < 2 ^ 64) :
    ∃ addresses, Grouped utxos addresses ∧
      utxos.foldlM aggregate [] = some (addresses.map (.ofAddress utxos)) := by
  rw [← List.nil_append utxos] at hbound
  exact Grouped.nil.foldlM hbound

/-! The order of the groups. -/

namespace AggregatedWithdrawal

/-- What aggregated withdrawals are sorted by: fee, value, address. -/
def key (a : AggregatedWithdrawal) : Nat ×ₗ (Nat ×ₗ MainAddress) :=
  toLex (a.mainFee.toNat, toLex (a.value.toNat, a.mainAddress))

theorem le_iff {a b : AggregatedWithdrawal} : a.le b ↔ a.key ≤ b.key := by
  rw [key, key, Prod.Lex.toLex_le_toLex, Prod.Lex.toLex_le_toLex, le, UInt64.lt_iff_toNat_lt,
    UInt64.lt_iff_toNat_lt, ← UInt64.toNat_inj, ← UInt64.toNat_inj]

instance : Std.Total fun a b : AggregatedWithdrawal => b.le a :=
  ⟨fun a b => by simpa only [le_iff] using le_total b.key a.key⟩

instance : IsTrans AggregatedWithdrawal fun a b => b.le a :=
  ⟨fun _ _ _ hab hbc => le_iff.mpr ((le_iff.mp hbc).trans (le_iff.mp hab))⟩

theorem mainAddress_eq_of_key {a b : AggregatedWithdrawal} (h : a.key = b.key) :
    a.mainAddress = b.mainAddress :=
  congrArg (fun k => (ofLex (ofLex k).2).2) h

end AggregatedWithdrawal

/-! Weights. A transaction without inputs is serialized with a marker and a flag. -/

/-- The bytes of a txout: amount, script length, script. -/
def TxOut.size (o : TxOut) : Nat := 8 + varIntSize o.scriptPubkey.length + o.scriptPubkey.length

/-- The weight of a transaction without inputs. The marker and the flag count once, all
other bytes four times. -/
def BitcoinTransaction.serializedWeight (tx : BitcoinTransaction) : Nat :=
  4 * (4 + varIntSize 0 + varIntSize tx.output.length + (tx.output.map TxOut.size).sum + 4) + 2

omit [Primitives] in
theorem checkedAdd32_eq_some {a b c : Nat} : checkedAdd32 a b = some c ↔ a + b = c ∧ c < 2 ^ 32 := by
  unfold checkedAdd32
  split
  case isTrue h => exact ⟨fun heq => ⟨Option.some.inj heq, Option.some.inj heq ▸ h⟩,
    fun heq => congrArg some heq.1⟩
  case isFalse h => exact ⟨nofun, fun heq => absurd (heq.1 ▸ heq.2) h⟩

omit [Primitives] in
theorem varIntSize_le (n : Nat) : varIntSize n ≤ 9 := by
  unfold varIntSize
  split
  · decide
  split
  · decide
  split <;> decide

omit [Primitives] in
theorem WithdrawalBundle.txoutSize_eq {n : Nat} (h : n < 2 ^ 31) :
    txoutSize n = some (8 + varIntSize n + n) := by
  have hle := varIntSize_le n
  rw [txoutSize, checkedAdd32_eq_some.mpr ⟨rfl, by omega⟩]
  exact checkedAdd32_eq_some.mpr ⟨rfl, by omega⟩

omit [Primitives] in
/-- The prediction counts the treasury input, which the transaction does not have. -/
theorem WithdrawalBundle.predictWeight_eq_some {n size weight : Nat}
    (h : predictWeight n size = some weight) :
    weight = 4 * (112 + varIntSize (n + 2) + size) ∧ weight ≤ maxStandardTxWeight := by
  have hcommitment : txoutSize 34 = some 43 := by decide
  have hfee : txoutSize 10 = some 19 := by decide
  have hvin : checkedAdd32 (varIntSize 1) (36 + varIntSize 0 + 0 + 4) = some 42 := by decide
  have hversion : checkedAdd32 4 42 = some 46 := by decide
  simp only [predictWeight, hcommitment, hfee, hvin, hversion, Option.bind_eq_bind,
    Option.bind_some, Option.bind_eq_some_iff, checkedAdd32_eq_some] at h
  obtain ⟨_, ⟨rfl, -⟩, _, ⟨rfl, -⟩, _, ⟨rfl, -⟩, _, ⟨rfl, -⟩, _, ⟨rfl, -⟩, h⟩ := h
  split at h
  case isTrue hle =>
    cases h
    exact ⟨by omega, hle⟩
  case isFalse => nomatch h

/-! Filling a bundle. -/

/-- The txout that pays to a destination. -/
def AggregatedWithdrawal.txout (a : AggregatedWithdrawal) : TxOut :=
  ⟨a.value, Primitives.scriptPubkey a.mainAddress⟩

/-- The size of the payouts is counted, and their predicted weight is allowed. -/
structure BundleDraft.Fits (draft : BundleDraft) : Prop where
  size : draft.bundleTxoutsSize = (draft.bundleOutputs.map TxOut.size).sum
  weight : draft.bundleOutputs = [] ∨
    WithdrawalBundle.predictWeight draft.bundleOutputs.length draft.bundleTxoutsSize ≠ none

/-- A draft is another one with the payouts of some groups. -/
structure BundleDraft.Pays (draft : BundleDraft) (taken : List AggregatedWithdrawal)
    (draft' : BundleDraft) : Prop where
  fee : draft'.fee.toNat = draft.fee.toNat + (taken.map fun a => a.mainFee.toNat).sum
  spendUtxos : draft'.spendUtxos =
    Db.putAll draft.spendUtxos (taken.flatMap AggregatedWithdrawal.spendUtxos)
  bundleOutputs : draft'.bundleOutputs = draft.bundleOutputs ++ taken.map AggregatedWithdrawal.txout

theorem BundleDraft.Pays.refl (draft : BundleDraft) : draft.Pays [] draft :=
  ⟨rfl, rfl, (List.append_nil _).symm⟩

/-- The first groups are paid out, as far as the predicted weight allows it. -/
theorem exists_fillBundle
    (hscripts : ∀ address, (Primitives.scriptPubkey address).length < 2 ^ 31)
    {withdrawals : List AggregatedWithdrawal} {draft : BundleDraft} (hfits : draft.Fits)
    (hfee : draft.fee.toNat + (withdrawals.map fun a => a.mainFee.toNat).sum < 2 ^ 64) :
    ∃ taken left draft', withdrawals = taken ++ left ∧
      fillBundle withdrawals draft = .ok draft' ∧ draft.Pays taken draft' ∧ draft'.Fits := by
  induction withdrawals generalizing draft with
  | nil => exact ⟨[], [], draft, rfl, rfl, .refl draft, hfits⟩
  | cons a withdrawals ih =>
    have hstop : ∃ taken left draft', a :: withdrawals = taken ++ left ∧
        Except.ok draft = (.ok draft' : Result BundleDraft) ∧ draft.Pays taken draft' ∧
          draft'.Fits :=
      ⟨[], a :: withdrawals, draft, rfl, rfl, .refl draft, hfits⟩
    have hlength := hscripts a.mainAddress
    rw [List.map_cons, List.sum_cons, ← Nat.add_assoc] at hfee
    unfold fillBundle
    dsimp only
    rw [if_neg (show ¬ 2 ^ 32 ≤ (Primitives.scriptPubkey a.mainAddress).length by omega),
      WithdrawalBundle.txoutSize_eq hlength]
    dsimp only
    split
    case isTrue => exact hstop
    split
    case h_1 => exact hstop
    case h_2 size hsize =>
    split
    case isTrue => exact hstop
    case isFalse hpredicted =>
    have hsize := (checkedAdd32_eq_some.mp hsize).1
    have hadd : Checked.add? draft.fee a.mainFee = some (draft.fee + a.mainFee) :=
      if_pos (by omega)
    have hsum := Checked.add?_eq_some.mp hadd
    rw [addOrPanic, hadd, okOr_some, ok_bind]
    have hnext : BundleDraft.Fits ⟨draft.fee + a.mainFee, Db.putAll draft.spendUtxos a.spendUtxos,
        draft.bundleOutputs ++ [a.txout], size⟩ := by
      refine ⟨?_, .inr ?_⟩
      · rw [← hsize, hfits.size, List.map_append, List.sum_append, List.map_singleton,
          List.sum_singleton]
        rfl
      · rw [List.length_append, List.length_singleton]
        exact hpredicted
    obtain ⟨taken, left, draft', rfl, hfill, hpays, hfits'⟩ := ih hnext (by
      dsimp only
      omega)
    refine ⟨a :: taken, left, draft', rfl, hfill, ⟨?_, ?_, ?_⟩, hfits'⟩
    · rw [hpays.fee, List.map_cons, List.sum_cons, ← Nat.add_assoc, hsum]
    · rw [hpays.spendUtxos, List.flatMap_cons, Db.putAll_append]
    · rw [hpays.bundleOutputs, List.append_assoc, List.map_cons]
      rfl

omit [Primitives] in
theorem size_opReturn (bytes : List UInt8) (h : bytes.length < 251) :
    TxOut.size ⟨0, WithdrawalBundle.opReturn bytes⟩ = 11 + bytes.length := by
  rw [TxOut.size, WithdrawalBundle.opReturn, List.length_cons, List.length_cons, varIntSize,
    if_pos (by omega)]
  omega

/-- The txouts of a bundle: the fee, the commitment to what it spends, the payouts. -/
def WithdrawalBundle.txouts (blockHeight : Nat) (fee : Amount) (spendUtxos : SpendUtxos)
    (payouts : List TxOut) : List TxOut :=
  [⟨0, opReturn (ser fee).reverse⟩,
    ⟨0, opReturn (ser (inputsCommitment blockHeight spendUtxos))⟩] ++ payouts

/-- A transaction whose predicted weight is allowed is not too heavy. -/
theorem BundleDraft.Fits.serializedWeight_le {draft : BundleDraft} (h : draft.Fits)
    (hhash : ∀ digest : Hash, (ser digest).length = 32) (version lockTime blockHeight : Nat) :
    BitcoinTransaction.serializedWeight ⟨version, lockTime,
      WithdrawalBundle.txouts blockHeight draft.fee draft.spendUtxos draft.bundleOutputs⟩ ≤
        maxStandardTxWeight := by
  have hfee : (ser draft.fee).reverse.length = 8 := rfl
  have hcommitment := hhash (WithdrawalBundle.inputsCommitment blockHeight draft.spendUtxos)
  rw [BitcoinTransaction.serializedWeight, WithdrawalBundle.txouts, List.map_append,
    List.sum_append, List.length_append, List.map_cons, List.map_singleton, List.sum_cons,
    List.sum_singleton, size_opReturn _ (by omega), size_opReturn _ (by omega), hfee, hcommitment,
    ← h.size, show ∀ a b : TxOut, [a, b].length = 2 from fun _ _ => rfl]
  rcases h.weight with hnil | hpredicted
  · rw [h.size, hnil]
    decide
  · obtain ⟨weight, hweight⟩ := Option.ne_none_iff_exists'.mp hpredicted
    obtain ⟨rfl, hle⟩ := WithdrawalBundle.predictWeight_eq_some hweight
    rw [Nat.add_comm 2, show varIntSize 0 = 1 from rfl]
    omega

/-- A bundle whose predicted weight is allowed is made. -/
theorem BundleDraft.Fits.new {draft : BundleDraft} (h : draft.Fits)
    (hhash : ∀ digest : Hash, (ser digest).length = 32)
    (hweight : ∀ tx, Primitives.weight tx = tx.serializedWeight) (blockHeight : Nat) :
    ∃ bundle, WithdrawalBundle.new blockHeight draft.fee draft.spendUtxos draft.bundleOutputs =
        .ok bundle ∧
      bundle.spendUtxos = draft.spendUtxos ∧ bundle.tx.output =
        WithdrawalBundle.txouts blockHeight draft.fee draft.spendUtxos draft.bundleOutputs ∧
      Primitives.weight bundle.tx ≤ maxStandardTxWeight := by
  have hle := h.serializedWeight_le hhash 2 0 blockHeight
  rw [← hweight] at hle
  exact ⟨_, ensure_bind_eq_ok.mpr ⟨hle, rfl⟩, rfl, rfl, hle⟩

end PlainBitnames
