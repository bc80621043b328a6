import PlainBitnames.Instance
import PlainBitnames.State.Bundles

/-!
The bundle that is collected from a state. It pays out all withdrawals to the first
destinations in the order by fee, value and address, and it does not depend on the order
in which the hash maps of the aggregation return their entries.
-/

namespace PlainBitnames

open Borsh Fallible

section

variable [Primitives]

/-- `collect_withdrawal_bundle` from the aggregated withdrawals on, which it has in the
order of a hash map. -/
def State.bundleFrom (blockHeight : Nat) (aggregated : List AggregatedWithdrawal) :
    Result (Option WithdrawalBundle) :=
  if aggregated = [] then .ok none
  else do
    let draft ← fillBundle (aggregated.insertionSort fun a b => b.le a) ⟨0, ∅, [], 0⟩
    let bundle ← mapFailure .withdrawalBundle
      (WithdrawalBundle.new blockHeight draft.fee draft.spendUtxos draft.bundleOutputs)
    ensure (Primitives.weight bundle.tx ≤ maxStandardTxWeight)
      (.error (.bundleTooHeavy (Primitives.weight bundle.tx) maxStandardTxWeight))
    .ok (some bundle)

theorem State.collectWithdrawalBundle_eq (state : State) (blockHeight : Nat) :
    state.collectWithdrawalBundle blockHeight = (do
      let aggregated ← okOr (state.utxos.toList.foldlM aggregate []) (.error .amountOverflow)
      State.bundleFrom blockHeight aggregated) := rfl

/-- Withdrawals to one address with their outputs in another order. -/
structure AggregatedWithdrawal.Same (a b : AggregatedWithdrawal) : Prop where
  mainAddress : a.mainAddress = b.mainAddress
  value : a.value = b.value
  mainFee : a.mainFee = b.mainFee
  spendUtxos : a.spendUtxos.Perm b.spendUtxos

/-- The entries of a hash map of aggregated withdrawals in another order. -/
def Reordered (withdrawals withdrawals' : List AggregatedWithdrawal) : Prop :=
  ∃ other, withdrawals.Perm other ∧ List.Forall₂ AggregatedWithdrawal.Same other withdrawals'

theorem AggregatedWithdrawal.Same.le_iff {a a' b b' : AggregatedWithdrawal} (ha : a.Same a')
    (hb : b.Same b') : a.le b ↔ a'.le b' := by
  rw [le, le, ha.mainFee, ha.value, ha.mainAddress, hb.mainFee, hb.value, hb.mainAddress]

variable {l l' : List AggregatedWithdrawal}

theorem same_orderedInsert {a a' : AggregatedWithdrawal} (ha : a.Same a')
    (hl : List.Forall₂ AggregatedWithdrawal.Same l l') :
    List.Forall₂ AggregatedWithdrawal.Same (l.orderedInsert (fun a b => b.le a) a)
      (l'.orderedInsert (fun a b => b.le a) a') := by
  induction hl with
  | nil => exact .cons ha .nil
  | @cons b b' l l' hb hl ih =>
    rw [List.orderedInsert_cons, List.orderedInsert_cons]
    by_cases hle : b.le a
    · rw [if_pos hle, if_pos ((hb.le_iff ha).mp hle)]
      exact .cons ha (.cons hb hl)
    · rw [if_neg hle, if_neg fun hle' => hle ((hb.le_iff ha).mpr hle')]
      exact .cons hb ih

theorem same_insertionSort (hl : List.Forall₂ AggregatedWithdrawal.Same l l') :
    List.Forall₂ AggregatedWithdrawal.Same (l.insertionSort fun a b => b.le a)
      (l'.insertionSort fun a b => b.le a) := by
  induction hl with
  | nil => exact .nil
  | cons ha hl ih => exact same_orderedInsert ha ih

theorem putAll_perm {d : SpendUtxos} {l l' : List Utxo} (h : l.Perm l')
    (hnodup : (l.map Prod.fst).Nodup) : Db.putAll d l = Db.putAll d l' := by
  have hnodup' := (h.map Prod.fst).nodup_iff.mp hnodup
  refine Db.ext fun outpoint => ?_
  by_cases hmem : outpoint ∈ l.map Prod.fst
  · obtain ⟨utxo, hutxo, rfl⟩ := List.mem_map.mp hmem
    rw [Db.get_putAll_of_mem hnodup hutxo, Db.get_putAll_of_mem hnodup' (h.mem_iff.mp hutxo)]
  · rw [Db.get_putAll_of_not_mem hmem, Db.get_putAll_of_not_mem fun hmem' =>
      hmem ((h.map Prod.fst).mem_iff.mpr hmem')]

theorem fillBundle_congr (hl : List.Forall₂ AggregatedWithdrawal.Same l l')
    (hnodup : ∀ a ∈ l, (a.spendUtxos.map Prod.fst).Nodup) (draft : BundleDraft) :
    fillBundle l draft = fillBundle l' draft := by
  induction hl generalizing draft with
  | nil => rfl
  | cons ha hl ih =>
    obtain ⟨hhead, hrest⟩ := List.forall_mem_cons.mp hnodup
    simp only [fillBundle, ha.mainAddress, ha.value, ha.mainFee,
      putAll_perm ha.spendUtxos hhead, ih hrest]

variable {utxos : List Utxo} {addresses : List MainAddress}

theorem nodup_spendUtxos (hnodup : (utxos.map Prod.fst).Nodup) (address : MainAddress) :
    ((AggregatedWithdrawal.ofAddress utxos address).spendUtxos.map Prod.fst).Nodup :=
  hnodup.sublist (List.filter_sublist.map _)

/-- The bundle does not depend on the order of the hash maps. -/
theorem bundleFrom_reordered (hnodup : (utxos.map Prod.fst).Nodup) (blockHeight : Nat)
    {withdrawals : List AggregatedWithdrawal}
    (h : Reordered (addresses.map (.ofAddress utxos)) withdrawals) :
    State.bundleFrom blockHeight withdrawals =
      State.bundleFrom blockHeight (addresses.map (.ofAddress utxos)) := by
  obtain ⟨other, hperm, hsame⟩ := h
  have hmem : ∀ a ∈ other, ∃ address, a = .ofAddress utxos address := by
    intro a ha
    obtain ⟨address, -, rfl⟩ := List.mem_map.mp (hperm.mem_iff.mpr ha)
    exact ⟨address, rfl⟩
  have hempty : withdrawals = [] ↔ addresses.map (AggregatedWithdrawal.ofAddress utxos) = [] := by
    rw [← List.length_eq_zero_iff, ← List.length_eq_zero_iff, hperm.length_eq, hsame.length_eq]
  -- groups with the same key are the same, since the key holds the address
  have hsorted : other.insertionSort (fun a b => b.le a) =
      (addresses.map (AggregatedWithdrawal.ofAddress utxos)).insertionSort fun a b => b.le a := by
    refine List.Perm.eq_of_pairwise ?_ (List.pairwise_insertionSort _ _)
      (List.pairwise_insertionSort _ _)
      (((List.perm_insertionSort _ _).trans hperm.symm).trans (List.perm_insertionSort _ _).symm)
    intro a b ha hb hab hba
    obtain ⟨address, rfl⟩ := hmem a (List.mem_insertionSort _ |>.mp ha)
    obtain ⟨address', -, rfl⟩ := List.mem_map.mp (List.mem_insertionSort _ |>.mp hb)
    have hkey := le_antisymm (AggregatedWithdrawal.le_iff.mp hba)
      (AggregatedWithdrawal.le_iff.mp hab)
    obtain rfl : address = address' := AggregatedWithdrawal.mainAddress_eq_of_key hkey
    rfl
  have hfill := fillBundle_congr (same_insertionSort hsame) (fun a ha => by
    obtain ⟨address, rfl⟩ := hmem a (List.mem_insertionSort _ |>.mp ha)
    exact nodup_spendUtxos hnodup address) ⟨0, ∅, [], 0⟩
  rw [State.bundleFrom, State.bundleFrom, ← hfill, hsorted]
  simp only [hempty]

/-! The amounts of the groups. -/

/-- What an address is ranked by: fee, value, address. -/
def rank (utxos : List Utxo) (address : MainAddress) : Nat ×ₗ (Nat ×ₗ MainAddress) :=
  toLex (feeTo utxos address, toLex (valueTo utxos address, address))

theorem value_ofAddress (hbound : (utxos.map Utxo.worth).sum < 2 ^ 64) (address : MainAddress) :
    (AggregatedWithdrawal.ofAddress utxos address).value.toNat = valueTo utxos address := by
  have hle := valueTo_add_feeTo_le utxos address
  exact UInt64.toNat_ofNat_of_lt' (show valueTo utxos address < 2 ^ 64 by omega)

theorem mainFee_ofAddress (hbound : (utxos.map Utxo.worth).sum < 2 ^ 64) (address : MainAddress) :
    (AggregatedWithdrawal.ofAddress utxos address).mainFee.toNat = feeTo utxos address := by
  have hle := valueTo_add_feeTo_le utxos address
  exact UInt64.toNat_ofNat_of_lt' (show feeTo utxos address < 2 ^ 64 by omega)

theorem key_ofAddress (hbound : (utxos.map Utxo.worth).sum < 2 ^ 64) (address : MainAddress) :
    (AggregatedWithdrawal.ofAddress utxos address).key = rank utxos address := by
  rw [AggregatedWithdrawal.key, value_ofAddress hbound, mainFee_ofAddress hbound]
  rfl

theorem sum_withdrawalsTo (utxos : List Utxo) (addresses : List MainAddress) :
    ((addresses.flatMap (withdrawalsTo utxos)).map fun utxo => utxo.payout + utxo.mainFee).sum =
      (addresses.map (valueTo utxos)).sum + (addresses.map (feeTo utxos)).sum := by
  induction addresses with
  | nil => rfl
  | cons address addresses ih =>
    have hgroup : ((withdrawalsTo utxos address).map fun utxo => utxo.payout + utxo.mainFee).sum =
        valueTo utxos address + feeTo utxos address := List.sum_map_add
    rw [List.flatMap_cons, List.map_append, List.sum_append, ih, hgroup, List.map_cons,
      List.sum_cons, List.map_cons, List.sum_cons]
    omega

theorem nodup_withdrawalsTo (hnodup : (utxos.map Prod.fst).Nodup) (haddresses : addresses.Nodup) :
    ((addresses.flatMap (withdrawalsTo utxos)).map Prod.fst).Nodup := by
  have hinj := List.inj_on_of_nodup_map hnodup
  refine List.Nodup.map_on (fun a ha b hb heq => ?_) ?_
  · obtain ⟨_, -, ha⟩ := List.mem_flatMap.mp ha
    obtain ⟨_, -, hb⟩ := List.mem_flatMap.mp hb
    exact hinj (mem_withdrawalsTo.mp ha).1 (mem_withdrawalsTo.mp hb).1 heq
  · refine List.nodup_flatMap.mpr ⟨fun _ _ => hnodup.of_map.filter _, haddresses.imp ?_⟩
    intro address address' hne utxo hutxo hutxo'
    exact hne (Option.some.inj ((mem_withdrawalsTo.mp hutxo).2.symm.trans
      (mem_withdrawalsTo.mp hutxo').2))

theorem sum_withdrawalsTo_le (hnodup : (utxos.map Prod.fst).Nodup) (haddresses : addresses.Nodup) :
    (addresses.map (valueTo utxos)).sum + (addresses.map (feeTo utxos)).sum ≤
      (utxos.map Utxo.worth).sum := by
  have hsubset : addresses.flatMap (withdrawalsTo utxos) ⊆ utxos := by
    intro utxo hutxo
    obtain ⟨_, -, hutxo⟩ := List.mem_flatMap.mp hutxo
    exact (mem_withdrawalsTo.mp hutxo).1
  obtain ⟨l, hperm, hsub⟩ := (nodup_withdrawalsTo hnodup haddresses).of_map.subperm hsubset
  rw [← sum_withdrawalsTo, ← (hperm.map _).sum_eq]
  calc (l.map fun utxo : Utxo => utxo.payout + utxo.mainFee).sum
      ≤ (l.map Utxo.worth).sum :=
        List.sum_le_sum fun utxo _ => Utxo.payout_add_mainFee_le utxo
    _ ≤ (utxos.map Utxo.worth).sum := (hsub.map _).sum_le_sum fun _ _ => Nat.zero_le _

theorem getValue_of_destination {utxo : Utxo} {address : MainAddress}
    (h : utxo.destination = some address) (hbound : utxo.worth < 2 ^ 64) :
    utxo.2.getValue.toNat = utxo.payout + utxo.mainFee := by
  unfold Utxo.worth at hbound
  cases hcontent : utxo.2.content with
  | bitcoinWithdrawal w =>
    rw [hcontent] at hbound
    have hadd : Checked.add? w.value w.mainFee = some (w.value + w.mainFee) := if_pos hbound
    rw [FilledOutput.getValue, hcontent, Utxo.payout_of hcontent, Utxo.mainFee_of hcontent,
      Checked.add?_eq_some.mp hadd]
    exact congrArg (fun sum => (sum.getD (UInt64.ofNat (2 ^ 64 - 1))).toNat) hadd
  | bitcoin | bitName | bitNameReservation =>
    rw [Utxo.destination, hcontent] at h
    cases h

/-- A bundle of some outputs, with the fee and the payouts in its transaction, the
addresses that are paid and those that are left out. -/
structure CanonicalBundle (utxos : List Utxo) (blockHeight : Nat) (bundle : WithdrawalBundle)
    (fee : Amount) (payouts : List TxOut) (paid left : List MainAddress) : Prop where
  txouts : bundle.tx.output = WithdrawalBundle.txouts blockHeight fee bundle.spendUtxos payouts
  balance : (payouts.map fun payout => payout.value.toNat).sum + fee.toNat =
    Db.total (fun _ output => output.getValue.toNat) bundle.spendUtxos
  /-- All destinations are ranked by fee, value and address, and the first are paid. -/
  ranked : (paid ++ left).Pairwise fun address address' =>
    rank utxos address' < rank utxos address
  destinations : ∀ address, address ∈ paid ++ left ↔
    ∃ utxo ∈ utxos, utxo.destination = some address
  spends : ∀ utxo : Utxo, utxo ∈ bundle.spendUtxos.toList ↔
    utxo ∈ utxos ∧ ∃ address ∈ paid, utxo.destination = some address
  pays : List.Forall₂ (fun address payout =>
    payout.value.toNat = valueTo utxos address ∧
      payout.scriptPubkey = Primitives.scriptPubkey address) paid payouts
  weight : Primitives.weight bundle.tx ≤ maxStandardTxWeight

theorem nil_ne_withdrawalsTo {address : MainAddress} :
    withdrawalsTo utxos address ≠ [] ↔ ∃ utxo ∈ utxos, utxo.destination = some address := by
  constructor
  · intro hne
    obtain ⟨utxo, hutxo⟩ := List.exists_mem_of_ne_nil _ hne
    exact ⟨utxo, mem_withdrawalsTo.mp hutxo⟩
  · rintro ⟨utxo, hutxo⟩
    exact List.ne_nil_of_mem (mem_withdrawalsTo.mpr hutxo)

/-- The groups in the order in which they are paid. -/
theorem Grouped.exists_sorted (h : Grouped utxos addresses)
    (hbound : (utxos.map Utxo.worth).sum < 2 ^ 64) :
    ∃ sorted : List MainAddress, sorted.Perm addresses ∧
      sorted.map (.ofAddress utxos) =
        (addresses.map (AggregatedWithdrawal.ofAddress utxos)).insertionSort (fun a b => b.le a) ∧
      sorted.Pairwise fun address address' => rank utxos address' < rank utxos address := by
  let before := fun address address' : MainAddress =>
    (AggregatedWithdrawal.ofAddress utxos address').le (.ofAddress utxos address)
  have hperm := List.perm_insertionSort before addresses
  have hmap : (addresses.insertionSort before).map (AggregatedWithdrawal.ofAddress utxos) =
      (addresses.map (AggregatedWithdrawal.ofAddress utxos)).insertionSort fun a b => b.le a :=
    List.map_insertionSort _ _ _ _ fun _ _ _ _ => Iff.rfl
  refine ⟨addresses.insertionSort before, hperm, hmap, ?_⟩
  have hsorted := List.pairwise_insertionSort (fun a b : AggregatedWithdrawal => b.le a)
    (addresses.map (.ofAddress utxos))
  rw [← hmap, List.pairwise_map] at hsorted
  refine (hsorted.and (hperm.nodup_iff.mpr h.nodup)).imp fun hle => ?_
  have hkey := AggregatedWithdrawal.le_iff.mp hle.1
  rw [key_ofAddress hbound, key_ofAddress hbound] at hkey
  exact lt_of_le_of_ne hkey fun heq => hle.2 (congrArg (fun k => (ofLex (ofLex k).2).2) heq).symm

/-- The value of what a draft spends is what it pays and its fee. -/
theorem balance_of_pays {draft : BundleDraft} {paid : List MainAddress} (hpaid : paid.Nodup)
    (hnodup : (utxos.map Prod.fst).Nodup) (hbound : (utxos.map Utxo.worth).sum < 2 ^ 64)
    (h : BundleDraft.Pays ⟨0, ∅, [], 0⟩ (paid.map (.ofAddress utxos)) draft) :
    (draft.bundleOutputs.map fun payout => payout.value.toNat).sum + draft.fee.toNat =
      Db.total (fun _ output => output.getValue.toNat) draft.spendUtxos := by
  have hentries : (paid.map (AggregatedWithdrawal.ofAddress utxos)).flatMap
      AggregatedWithdrawal.spendUtxos = paid.flatMap (withdrawalsTo utxos) := List.flatMap_map ..
  have hvalues : (draft.bundleOutputs.map fun payout => payout.value.toNat) =
      paid.map (valueTo utxos) := by
    rw [h.bundleOutputs, List.nil_append, List.map_map, List.map_map]
    exact List.map_congr_left fun address _ => value_ofAddress hbound address
  have hfees : ((paid.map (AggregatedWithdrawal.ofAddress utxos)).map fun a => a.mainFee.toNat) =
      paid.map (feeTo utxos) := by
    rw [List.map_map]
    exact List.map_congr_left fun address _ => mainFee_ofAddress hbound address
  have hkeys := nodup_withdrawalsTo hnodup hpaid
  have hworth : ∀ utxo ∈ utxos, utxo.worth < 2 ^ 64 := fun utxo hutxo =>
    lt_of_le_of_lt (List.single_le_sum (fun _ _ => Nat.zero_le _) _ (List.mem_map_of_mem hutxo))
      hbound
  have htotal : Db.total (fun _ output => output.getValue.toNat) draft.spendUtxos =
      ((paid.flatMap (withdrawalsTo utxos)).map fun utxo => utxo.2.getValue.toNat).sum := by
    rw [h.spendUtxos, hentries, Db.total_putAll, Db.total_empty, Nat.zero_add]
    · intro utxo _ output hget
      cases (Db.get_empty _).symm.trans hget
    · exact (List.pairwise_map.mp hkeys).imp fun hne heq => absurd heq hne
  rw [hvalues, h.fee, hfees, UInt64.toNat_zero, Nat.zero_add, ← sum_withdrawalsTo, htotal]
  congr 1
  refine List.map_congr_left fun utxo hutxo => ?_
  obtain ⟨address, -, hutxo⟩ := List.mem_flatMap.mp hutxo
  obtain ⟨hmem, hdestination⟩ := mem_withdrawalsTo.mp hutxo
  exact (getValue_of_destination hdestination (hworth utxo hmem)).symm

/-- The bundle that is made of all groups. -/
theorem Grouped.exists_bundle (hhash : ∀ digest : Hash, (ser digest).length = 32)
    (hscripts : ∀ address, (Primitives.scriptPubkey address).length < 2 ^ 31)
    (hweight : ∀ tx, Primitives.weight tx = tx.serializedWeight) (h : Grouped utxos addresses)
    (hnodup : (utxos.map Prod.fst).Nodup) (hbound : (utxos.map Utxo.worth).sum < 2 ^ 64)
    (hne : addresses ≠ []) (blockHeight : Nat) :
    ∃ bundle fee payouts paid left,
      State.bundleFrom blockHeight (addresses.map (.ofAddress utxos)) = .ok (some bundle) ∧
        CanonicalBundle utxos blockHeight bundle fee payouts paid left := by
  obtain ⟨sorted, hperm, hsorted, hranked⟩ := h.exists_sorted hbound
  have hsortedNodup : sorted.Nodup := hperm.nodup_iff.mpr h.nodup
  have hfees : ((sorted.map (AggregatedWithdrawal.ofAddress utxos)).map fun a =>
      a.mainFee.toNat) = sorted.map (feeTo utxos) := by
    rw [List.map_map]
    exact List.map_congr_left fun address _ => mainFee_ofAddress hbound address
  have hempty : BundleDraft.Fits ⟨0, ∅, [], 0⟩ := ⟨rfl, .inl rfl⟩
  have hfeeBound : (0 : Amount).toNat + ((sorted.map (AggregatedWithdrawal.ofAddress utxos)).map
      fun a => a.mainFee.toNat).sum < 2 ^ 64 := by
    have hle := sum_withdrawalsTo_le hnodup hsortedNodup
    rw [hfees, UInt64.toNat_zero]
    omega
  obtain ⟨taken, rest, draft, hsplit, hfill, hpays, hfits⟩ :=
    exists_fillBundle hscripts hempty hfeeBound
  obtain ⟨paid, left, rfl, rfl, rfl⟩ := List.map_eq_append_iff.mp hsplit
  obtain ⟨bundle, hnew, hspend, htxouts, hlight⟩ := hfits.new hhash hweight blockHeight
  have hmade : State.bundleFrom blockHeight (addresses.map (.ofAddress utxos)) =
      .ok (some bundle) := by
    rw [State.bundleFrom, if_neg (by simpa using hne), ← hsorted, hfill, ok_bind,
      mapFailure_eq_ok.mpr hnew, ok_bind, ensure_of hlight, ok_bind]
  have hpaid : paid.Nodup := hsortedNodup.sublist (List.sublist_append_left _ _)
  refine ⟨bundle, draft.fee, draft.bundleOutputs, paid, left, hmade, ?_, ?_, hranked, ?_, ?_, ?_,
    hlight⟩
  · rw [htxouts, hspend]
  · rw [hspend, balance_of_pays hpaid hnodup hbound hpays]
  · intro address
    rw [hperm.mem_iff, h.mem, nil_ne_withdrawalsTo]
  · rintro ⟨outpoint, output⟩
    rw [hspend, Db.mem_toList, hpays.spendUtxos,
      List.flatMap_map]
    constructor
    · intro hget
      rcases Db.get_putAll_cases hget with hmem | ⟨-, hget⟩
      · obtain ⟨address, haddress, hmem⟩ := List.mem_flatMap.mp hmem
        exact ⟨(mem_withdrawalsTo.mp hmem).1, address, haddress, (mem_withdrawalsTo.mp hmem).2⟩
      · cases (Db.get_empty _).symm.trans hget
    · rintro ⟨hmem, address, haddress, hdestination⟩
      exact Db.get_putAll_of_mem (nodup_withdrawalsTo hnodup hpaid)
        (List.mem_flatMap.mpr ⟨address, haddress, mem_withdrawalsTo.mpr ⟨hmem, hdestination⟩⟩)
  · rw [hpays.bundleOutputs, List.nil_append, List.map_map, List.forall₂_map_right_iff,
      List.forall₂_same]
    exact fun address _ => ⟨value_ofAddress hbound address, rfl⟩

/-- From every state with a withdrawal output whose supply fits, a bundle is collected.
Its payouts and its fee are the value of what it spends. It pays all withdrawals to the
first destinations in the order by fee, value and address, descending, with one payout
for each, and it is not over the weight limit. It is the same for every order in which
the hash maps return their entries. -/
theorem collected_bundle_canonical (hhash : ∀ digest : Hash, (ser digest).length = 32)
    (hscripts : ∀ address, (Primitives.scriptPubkey address).length < 2 ^ 31)
    (hweight : ∀ tx, Primitives.weight tx = tx.serializedWeight) {state : State}
    (hsupply : (state.utxos.toList.map Utxo.worth).sum < 2 ^ 64)
    (hwithdrawal : ∃ (outpoint : OutPoint) (output : FilledOutput),
      state.utxos[outpoint]? = some output ∧ output.content.isWithdrawal = true)
    (blockHeight : Nat) :
    ∃ bundle, state.collectWithdrawalBundle blockHeight = .ok (some bundle) ∧
      (∃ fee payouts paid left,
        CanonicalBundle state.utxos.toList blockHeight bundle fee payouts paid left) ∧
      ∀ aggregated withdrawals, state.utxos.toList.foldlM aggregate [] = some aggregated →
        Reordered aggregated withdrawals →
        State.bundleFrom blockHeight withdrawals = .ok (some bundle) := by
  have hnodup := Db.keys_nodup state.utxos
  obtain ⟨addresses, hgrouped, haggregated⟩ := exists_grouped hsupply
  have hne : addresses ≠ [] := by
    obtain ⟨outpoint, output, hget, hcontent⟩ := hwithdrawal
    obtain ⟨w, hw⟩ : ∃ w, output.content = .bitcoinWithdrawal w := by
      cases hc : output.content with
      | bitcoinWithdrawal w => exact ⟨w, rfl⟩
      | bitcoin | bitName | bitNameReservation =>
        rw [hc] at hcontent
        cases hcontent
    have hmem : (outpoint, output) ∈ state.utxos.toList :=
      Db.mem_toList.mpr hget
    have hdestination : Utxo.destination (outpoint, output) = some w.mainAddress :=
      Utxo.destination_of hw
    exact List.ne_nil_of_mem ((hgrouped.mem _).mpr
      (nil_ne_withdrawalsTo.mpr ⟨_, hmem, hdestination⟩))
  obtain ⟨bundle, fee, payouts, paid, left, hbundle, hcanonical⟩ :=
    hgrouped.exists_bundle hhash hscripts hweight hnodup hsupply hne blockHeight
  refine ⟨bundle, ?_, ⟨fee, payouts, paid, left, hcanonical⟩,
    fun aggregated withdrawals h hother => ?_⟩
  · rw [State.collectWithdrawalBundle_eq]
    exact bind_eq_ok.mpr ⟨_, okOr_eq_ok.mpr haggregated, hbundle⟩
  · cases haggregated.symm.trans h
    rw [bundleFrom_reordered hnodup blockHeight hother, hbundle]

end

namespace Instance

theorem ser_append_inj (x y : BitVec 256) (s t : List UInt8) (h : ser x ++ s = ser y ++ t) :
    x = y ∧ s = t :=
  reads_bitVec 256 rfl rfl h

/-- Digests have 32 bytes, and transactions are weighed by their bytes. -/
@[reducible]
def weighed : Primitives where
  Hash := BitVec 256
  hashDecEq := inferInstance
  hashBytes := ser
  hashBytes_append := ser_append_inj
  zeroHash := 0
  blake3 _ := 0
  keyedHash key _ := key
  blake3Xof _ := 0
  MainAddress := Nat
  mainAddressOrder := inferInstance
  scriptPubkey address := [UInt8.ofNat address]
  computeTxid _ := 0
  weight := BitcoinTransaction.serializedWeight
  verifyingKeyTryFrom _ := none
  verifySignature _ _ _ := true
  verifyBatch _ _ := true
  parseDomainName _ := true

section

attribute [local instance] weighed

def withdrawalOf (value mainFee : Amount) (address : Nat) : FilledOutput :=
  ⟨0, .bitcoinWithdrawal ⟨value, mainFee, address⟩, []⟩

/-- Two withdrawals to one address and one to another. -/
def withdrawnState : State :=
  { State.empty with
    utxos := Db.putAll ∅ [(.regular zeroHash 0, withdrawalOf 5 1 7),
      (.regular zeroHash 1, withdrawalOf 6 1 7), (.regular zeroHash 2, withdrawalOf 4 3 8)] }

theorem collected_bundle_canonical_withdrawn :
    ∃ bundle, withdrawnState.collectWithdrawalBundle 9 = .ok (some bundle) ∧
      ∃ fee payouts paid left, CanonicalBundle withdrawnState.utxos.toList 9 bundle fee payouts
        paid left := by
  have hsupply : (withdrawnState.utxos.toList.map Utxo.worth).sum < 2 ^ 64 := by decide +kernel
  have hget : withdrawnState.utxos[OutPoint.regular zeroHash 0]? = some (withdrawalOf 5 1 7) := by
    decide +kernel
  obtain ⟨bundle, hcollect, hcanonical, -⟩ := collected_bundle_canonical (fun _ => rfl)
    (fun _ => show 1 < 2 ^ 31 by decide) (fun _ => rfl) hsupply ⟨_, _, hget, rfl⟩ 9
  exact ⟨bundle, hcollect, hcanonical⟩

end

end Instance

end PlainBitnames
