import PlainBitnames.Lib.Avoids
import PlainBitnames.Wallet.Basic

/-!
The transactions of a wallet balance. Coin selection takes eligible coins until
the amount is reached, so it fails only if all of them together are worth less,
and without its largest coin a selection is worth less than the amount. What is
left after the payment and the fee is the change, whose computation cannot
underflow.
-/

namespace PlainBitnames

open Fallible

section

variable [Primitives] [WalletKeys]

namespace Wallet

/-- A coin that may pay: a bitcoin value that is not zero and not spent by a
pending transaction. -/
def Eligible (w : Wallet) (coin : Coin) : Prop :=
  ∃ value, coin.2.content = .bitcoin value ∧ value ≠ 0 ∧ coin.1 ∉ w.pendingInputs

variable {w : Wallet}

theorem skips_eq_false_iff {coin : Coin} : w.skips coin = false ↔ w.Eligible coin := by
  obtain ⟨outpoint, address, content, memo⟩ := coin
  cases content <;>
    simp [skips, Eligible, FilledContent.isWithdrawal, FilledOutput.isBitname,
      FilledContent.isBitname, FilledOutput.isReservation, FilledContent.isReservation,
      FilledOutput.getValue, FilledContent.getValue, FilledContent.toContent, Content.getValue,
      and_comm]

instance (w : Wallet) (coin : Coin) : Decidable (w.Eligible coin) :=
  decidable_of_iff _ skips_eq_false_iff

def worth (w : Wallet) : Nat := Greedy.total coinValue w.utxos.toList

/-- The coins of a list that may pay. -/
def candidates (w : Wallet) (coins : List Coin) : List Coin :=
  coins.filter fun coin => decide (w.Eligible coin)

/-- The value of the coins that may pay. -/
def available (w : Wallet) : Nat := Greedy.total coinValue (w.candidates w.utxos.toList)

/-- A selection of coins for an amount. -/
structure Selects (w : Wallet) (amount total : Amount) (coins : List Coin) : Prop where
  held : ∀ coin ∈ coins, w.utxos[coin.1]? = some coin.2 ∧ w.Eligible coin
  nodup : (coins.map Prod.fst).Nodup
  total_eq : total.toNat = Greedy.total coinValue coins
  enough : amount ≤ total
  /-- Without its largest coin the selection falls below the amount. -/
  minimal : ∀ coin ∈ coins, (∀ other ∈ coins, coinValue other ≤ coinValue coin) →
    total.toNat - coinValue coin < amount.toNat

/-- Coin selection for an amount: it fails exactly if the eligible coins are worth
less, and returns a selection otherwise. -/
def SelectsExactly (sort : UnstableSort coinValue) (w : Wallet) (amount : Amount) : Prop :=
  (w.available < amount.toNat ∧ w.selectCoins sort amount = .error (.error .notEnoughFunds)) ∨
    (amount.toNat ≤ w.available ∧ ∃ total coins,
      w.selectCoins sort amount = .ok (total, coins) ∧ w.Selects amount total coins)

/-- A call that makes a transaction does not panic, and a transaction that it
makes spends outputs of the wallet and pays exactly the fee. -/
def Balanced (w : Wallet) (fee : Amount) : Result (Transaction × Wallet) → Prop :=
  Meets fun made => ∃ spent,
    List.Forall₂ (fun input output => w.utxos[input]? = some output) made.1.inputs spent ∧
      (FilledTransaction.mk made.1 spent).fee = .ok fee

/-! ### Coin selection -/

theorem candidates_cons_of_eligible {coin : Coin} (h : w.Eligible coin) (coins : List Coin) :
    w.candidates (coin :: coins) = coin :: w.candidates coins :=
  List.filter_cons_of_pos (by simpa using h)

theorem candidates_cons_of_not {coin : Coin} (h : ¬ w.Eligible coin) (coins : List Coin) :
    w.candidates (coin :: coins) = w.candidates coins :=
  List.filter_cons_of_neg (by simpa using h)

/-- The loop takes eligible coins from the front until the amount is reached. -/
theorem selectLoop_eq (w : Wallet) (value total : Amount) (selected coins : List Coin)
    (hlt : total.toNat + Greedy.total coinValue (w.candidates coins) < 2 ^ 64) :
    ∃ total', w.selectLoop value total selected coins = .ok (total', selected ++
        Greedy.takeUntil coinValue value.toNat total.toNat (w.candidates coins)) ∧
      total'.toNat = total.toNat + Greedy.total coinValue
        (Greedy.takeUntil coinValue value.toNat total.toNat (w.candidates coins)) := by
  induction coins generalizing total selected with
  | nil => exact ⟨total, by rw [selectLoop]; simp [candidates, Greedy.takeUntil], rfl⟩
  | cons coin coins ih =>
    rw [selectLoop]
    by_cases heligible : w.Eligible coin
    · have hskip := skips_eq_false_iff.mpr heligible
      rw [candidates_cons_of_eligible heligible] at hlt ⊢
      rw [Greedy.total_cons] at hlt
      rw [if_neg (by rw [hskip]; decide), Greedy.takeUntil]
      by_cases hle : value ≤ total
      · rw [if_pos hle, if_pos (UInt64.le_iff_toNat_le.mp hle)]
        exact ⟨total, by rw [List.append_nil], rfl⟩
      · have hadd : total.toNat + coin.2.getValue.toNat < 2 ^ 64 := by
          have hvalue : coinValue coin = coin.2.getValue.toNat := rfl
          omega
        have hsum : (total + coin.2.getValue).toNat = total.toNat + coinValue coin := by
          rw [UInt64.toNat_add, Nat.mod_eq_of_lt hadd]
          rfl
        rw [if_neg hle, if_neg (fun h => hle (UInt64.le_iff_toNat_le.mpr h)), Checked.add?,
          if_pos hadd, okOr_some, ok_bind]
        obtain ⟨total', hloop, htotal⟩ :=
          ih (total + coin.2.getValue) (selected ++ [coin]) (by omega)
        rw [hsum] at hloop htotal
        refine ⟨total', ?_, ?_⟩
        · rw [hloop, List.append_assoc, List.singleton_append]
        · rw [htotal, Greedy.total_cons]
          omega
    · have hskip : w.skips coin = true := by
        rw [← Bool.not_eq_false, skips_eq_false_iff]
        exact heligible
      rw [candidates_cons_of_not heligible] at hlt ⊢
      rw [if_pos hskip]
      exact ih total selected hlt

variable {coins : List Coin}

theorem candidates_perm (w : Wallet) {coins' : List Coin} (h : coins.Perm coins') :
    (w.candidates coins).Perm (w.candidates coins') :=
  h.filter _

theorem mem_candidates {coin : Coin} :
    coin ∈ w.candidates coins ↔ coin ∈ coins ∧ w.Eligible coin := by
  rw [candidates, List.mem_filter, decide_eq_true_eq]

theorem available_le_worth (w : Wallet) : w.available ≤ w.worth :=
  Greedy.total_sublist List.filter_sublist

theorem selects_takeUntil {amount total : Amount} (hperm : coins.Perm (w.candidates w.utxos.toList))
    (htotal : total.toNat =
      Greedy.total coinValue (Greedy.takeUntil coinValue amount.toNat 0 coins))
    (henough : amount ≤ total) :
    w.Selects amount total (Greedy.takeUntil coinValue amount.toNat 0 coins) := by
  have htaken : Greedy.takeUntil coinValue amount.toNat 0 coins <+: coins :=
    Greedy.takeUntil_prefix ..
  refine ⟨?_, ?_, htotal, henough, ?_⟩
  · intro coin hcoin
    obtain ⟨hmem, heligible⟩ := mem_candidates.mp (hperm.mem_iff.mp (htaken.subset hcoin))
    exact ⟨Db.mem_toList.mp hmem, heligible⟩
  · have hnodup : ((w.candidates w.utxos.toList).map Prod.fst).Nodup :=
      (Db.keys_nodup w.utxos).sublist (List.filter_sublist.map _)
    exact ((hperm.map Prod.fst).nodup_iff.mpr hnodup).sublist (htaken.sublist.map _)
  · intro coin hcoin hlargest
    have hminimal := Greedy.takeUntil_minimal (List.ne_nil_of_mem hcoin) hlargest
    have hcoinLe : coinValue coin ≤ _ := Greedy.weight_le_total hcoin
    omega

theorem selectCoins_exact (sort : UnstableSort coinValue) (hworth : w.worth < 2 ^ 64)
    (amount : Amount) : w.SelectsExactly sort amount := by
  have hperm := w.candidates_perm (sort.perm w.utxos.toList)
  have havailable : Greedy.total coinValue (w.candidates (sort.run w.utxos.toList)) =
      w.available := Greedy.total_perm hperm
  have hle := w.available_le_worth
  obtain ⟨total, hloop, htotal⟩ := w.selectLoop_eq amount 0 [] (sort.run w.utxos.toList) (by
    rw [havailable, UInt64.toNat_zero]
    omega)
  rw [List.nil_append, UInt64.toNat_zero] at hloop
  rw [UInt64.toNat_zero, Nat.zero_add] at htotal
  have hmost : Greedy.total coinValue (Greedy.takeUntil coinValue amount.toNat 0
      (w.candidates (sort.run w.utxos.toList))) ≤ w.available :=
    havailable ▸ Greedy.total_sublist (Greedy.takeUntil_prefix ..).sublist
  rw [SelectsExactly, selectCoins, hloop, ok_bind]
  dsimp only
  by_cases henough : amount.toNat ≤ w.available
  · have hmet : amount.toNat ≤ 0 + Greedy.total coinValue (Greedy.takeUntil coinValue
        amount.toNat 0 (w.candidates (sort.run w.utxos.toList))) :=
      Greedy.target_le_takeUntil (by omega)
    have hlt : amount ≤ total := UInt64.le_iff_toNat_le.mpr (by omega)
    refine .inr ⟨henough, total, _, ?_, selects_takeUntil hperm htotal hlt⟩
    rw [ensure_of hlt, ok_bind]
  · refine .inl ⟨by omega, ?_⟩
    have hlt : ¬ amount ≤ total := by
      rw [UInt64.le_iff_toNat_le]
      omega
    rw [ensure, if_neg hlt]
    rfl

/-! ### Transactions -/

omit [Primitives] [WalletKeys] in
theorem subAmount_of_le {a b : Amount} (h : b.toNat ≤ a.toNat) :
    ∃ c, subAmount a b = .ok c ∧ c.toNat = a.toNat - b.toNat := by
  have hsub : Checked.sub? a b = some (a - b) := if_pos h
  refine ⟨a - b, by rw [subAmount, hsub, okOr_some], ?_⟩
  rw [UInt64.toNat_sub_of_le _ _ (UInt64.le_iff_toNat_le.mpr h)]

def outputValue (outputs : List Output) : Nat := (outputs.map fun o => o.getValue.toNat).sum

omit [WalletKeys] in
theorem outputValue_cons (o : Output) (outputs : List Output) :
    outputValue (o :: outputs) = o.getValue.toNat + outputValue outputs := rfl

omit [WalletKeys] in
theorem outputValue_append (outputs outputs' : List Output) :
    outputValue (outputs ++ outputs') = outputValue outputs + outputValue outputs' := by
  rw [outputValue, List.map_append, List.sum_append, outputValue, outputValue]

omit [WalletKeys] in
theorem outputValue_bitcoin (address : Address) (value : Amount) (memo : List UInt8) :
    outputValue [⟨address, .bitcoin value, memo⟩] = value.toNat := rfl

omit [WalletKeys] in
/-- A transaction whose inputs are worth its outputs and a fee pays that fee. -/
theorem fee_of_balance {tx : Transaction} {spent : List FilledOutput} {total fee : Amount}
    (htotal : (spent.map fun o => o.getValue.toNat).sum = total.toNat)
    (hbalance : total.toNat = outputValue tx.outputs + fee.toNat) :
    (FilledTransaction.mk tx spent).fee = .ok fee := by
  have hfee : fee ≤ total := UInt64.le_iff_toNat_le.mpr (by omega)
  have hnat := UInt64.toNat_sub_of_le _ _ hfee
  have hin : (FilledTransaction.mk tx spent).spentValue = some total := by
    refine Checked.sum?_eq_some.mpr ?_
    rw [List.map_map]
    exact htotal
  have hout : (FilledTransaction.mk tx spent).valueOut = some (total - fee) := by
    refine Checked.sum?_eq_some.mpr ?_
    rw [List.map_map, hnat]
    show outputValue tx.outputs = _
    omega
  rw [FilledTransaction.fee, hin, hout, okOr_some, ok_bind, okOr_some, ok_bind, if_neg,
    Except.ok.injEq, ← UInt64.toNat_inj]
  · rw [UInt64.toNat_sub_of_le _ _ (UInt64.le_iff_toNat_le.mpr (by omega))]
    omega
  · rw [UInt64.lt_iff_toNat_lt]
    omega

/-- The inputs made from a selection, in whatever order, spend its coins. -/
theorem Selects.spends {amount total : Amount} (h : w.Selects amount total coins)
    (order : Shuffle OutPoint) :
    ∃ spent, List.Forall₂ (fun input output => w.utxos[input]? = some output)
        (order.run (coins.map Prod.fst)) spent ∧
      (spent.map fun o => o.getValue.toNat).sum = total.toNat := by
  have hcoins : List.Forall₂ (fun input output => w.utxos[input]? = some output)
      (coins.map Prod.fst) (coins.map Prod.snd) := by
    rw [List.forall₂_map_left_iff, List.forall₂_map_right_iff, List.forall₂_same]
    intro coin hcoin
    exact (h.held coin hcoin).1
  obtain ⟨spent, hspent, hperm⟩ := List.perm_comp_forall₂ (order.perm _) hcoins
  refine ⟨spent, hspent, ?_⟩
  rw [(hperm.map _).sum_nat, List.map_map, h.total_eq]
  rfl

theorem selectCoins_meets (sort : UnstableSort coinValue) (hworth : w.worth < 2 ^ 64)
    (amount : Amount) :
    Meets (fun selection => w.Selects amount selection.1 selection.2)
      (w.selectCoins sort amount) := by
  rcases selectCoins_exact sort hworth amount with ⟨-, herror⟩ | ⟨-, total, coins, hok, hselects⟩
  · rw [herror]
    exact .error _
  · rw [hok]
    exact .ok hselects

theorem getNewAddress_meets (w : Wallet) : Meets (fun _ => True) w.getNewAddress := by
  have hkey : ∀ index, Meets (fun _ => True) (w.getTxSigningKey index) := by
    intro index
    refine Meets.bind (P := fun _ => True) (.okOr fun _ _ => trivial) ?_
    intro seed _
    exact .ok trivial
  refine (hkey _).bind ?_
  intro signingKey _
  exact .ok trivial

omit [Primitives] [WalletKeys] in
theorem subAmount_meets {a b : Amount} (h : b.toNat ≤ a.toNat) :
    Meets (fun c : Amount => c.toNat = a.toNat - b.toNat) (subAmount a b) := by
  obtain ⟨c, hc, hnat⟩ := subAmount_of_le h
  rw [hc]
  exact .ok hnat

section

variable (sort : UnstableSort coinValue) (order : Shuffle OutPoint) {w : Wallet}

theorem createRegularTransaction_balanced (hworth : w.worth < 2 ^ 64) (fee : Amount) :
    w.Balanced fee (w.createRegularTransaction sort order fee) := by
  refine (selectCoins_meets sort hworth fee).bind ?_
  rintro ⟨total, coins⟩ (hselects : w.Selects fee total coins)
  have henough := UInt64.le_iff_toNat_le.mp hselects.enough
  refine (subAmount_meets henough).bind ?_
  intro change hchange
  refine w.getNewAddress_meets.bind ?_
  rintro ⟨address, w'⟩ -
  obtain ⟨spent, hspent, htotal⟩ := hselects.spends order
  refine .ok ⟨spent, hspent, fee_of_balance htotal ?_⟩
  rw [newTransaction, newOutput, outputValue_bitcoin]
  omega

theorem createWithdrawal_balanced (hworth : w.worth < 2 ^ 64) (mainAddress : MainAddress)
    (value mainFee fee : Amount) :
    w.Balanced fee (w.createWithdrawal sort order mainAddress value mainFee fee) := by
  refine (Meets.okOr fun _ => Checked.add?_eq_some.mp).bind ?_
  intro valueAndFee hvalueAndFee
  refine (Meets.okOr fun _ => Checked.add?_eq_some.mp).bind ?_
  intro amount hamount
  refine (selectCoins_meets sort hworth amount).bind ?_
  rintro ⟨total, coins⟩ (hselects : w.Selects amount total coins)
  have henough : amount.toNat ≤ total.toNat := UInt64.le_iff_toNat_le.mp hselects.enough
  refine (subAmount_meets (by omega)).bind ?_
  intro rest hrest
  refine (subAmount_meets (by omega)).bind ?_
  intro rest' hrest'
  refine (subAmount_meets (by omega)).bind ?_
  intro change hchange
  refine w.getNewAddress_meets.bind ?_
  rintro ⟨address, w₁⟩ -
  refine w₁.getNewAddress_meets.bind ?_
  rintro ⟨changeAddress, w₂⟩ -
  obtain ⟨spent, hspent, htotal⟩ := hselects.spends order
  refine .ok ⟨spent, hspent, fee_of_balance htotal ?_⟩
  -- the withdrawal removes both the payout and the mainchain fee
  have hvalue : (newOutput address (.withdrawal ⟨value, mainFee, mainAddress⟩)).getValue.toNat =
      value.toNat + mainFee.toNat := by
    have hadd : value.toNat + mainFee.toNat < 2 ^ 64 := by
      have := amount.toNat_lt
      omega
    show ((Checked.add? value mainFee).getD _).toNat = _
    rw [Checked.add?, if_pos hadd, Option.getD_some, UInt64.toNat_add, Nat.mod_eq_of_lt hadd]
  rw [newTransaction, outputValue_cons, hvalue, newOutput, outputValue_bitcoin]
  omega

theorem withChange_balanced {amount total fee change : Amount} {coins : List Coin}
    (hselects : w.Selects amount total coins) {outputs : List Output}
    (hbalance : total.toNat = outputValue outputs + fee.toNat + change.toNat) :
    w.Balanced fee (w.withChange (order.run (coins.map Prod.fst)) outputs change) := by
  obtain ⟨spent, hspent, htotal⟩ := hselects.spends order
  rw [withChange]
  split
  next =>
    refine w.getNewAddress_meets.bind ?_
    rintro ⟨address, w'⟩ -
    refine .ok ⟨spent, hspent, fee_of_balance htotal ?_⟩
    rw [newTransaction, newOutput, outputValue_append, outputValue_bitcoin]
    omega
  next hzero =>
    obtain rfl : change = 0 := not_not.mp hzero
    refine .ok ⟨spent, hspent, fee_of_balance htotal ?_⟩
    rw [newTransaction]
    exact hbalance

theorem createTransfer_balanced (hworth : w.worth < 2 ^ 64) (address : Address)
    (value fee : Amount) (memo : Option (List UInt8)) :
    w.Balanced fee (w.createTransfer sort order address value fee memo) := by
  refine (Meets.okOr fun _ => Checked.add?_eq_some.mp).bind ?_
  intro amount hamount
  refine (selectCoins_meets sort hworth amount).bind ?_
  rintro ⟨total, coins⟩ (hselects : w.Selects amount total coins)
  have henough : amount.toNat ≤ total.toNat := UInt64.le_iff_toNat_le.mp hselects.enough
  refine (subAmount_meets (by omega)).bind ?_
  intro rest hrest
  refine (subAmount_meets (by omega)).bind ?_
  intro change hchange
  refine withChange_balanced order hselects ?_
  rw [outputValue_bitcoin]
  omega

theorem createTransferMany_balanced (hworth : w.worth < 2 ^ 64)
    (dests : List (Address × Amount)) (fee : Amount) :
    w.Balanced fee (w.createTransferMany sort order dests fee) := by
  refine Meets.ensure.bind ?_
  intro _ _
  refine (Meets.okOr fun _ => Checked.sum?_eq_some.mp).bind ?_
  intro value hvalue
  refine (Meets.okOr fun _ => Checked.add?_eq_some.mp).bind ?_
  intro amount hamount
  refine (selectCoins_meets sort hworth amount).bind ?_
  rintro ⟨total, coins⟩ (hselects : w.Selects amount total coins)
  have henough : amount.toNat ≤ total.toNat := UInt64.le_iff_toNat_le.mp hselects.enough
  refine (subAmount_meets (by omega)).bind ?_
  intro rest hrest
  refine (subAmount_meets (by omega)).bind ?_
  intro change hchange
  refine withChange_balanced order hselects ?_
  have hout : outputValue (dests.map fun dest => newOutput dest.1 (.bitcoin dest.2)) =
      value.toNat := by
    rw [outputValue, List.map_map, ← hvalue, List.map_map]
    rfl
  omega

end

/-- For a wallet whose outputs are worth less than `2 ^ 64`: coin selection is
exact, and each transaction that the wallet makes pays exactly its fee. -/
theorem transactions_balance (sort : UnstableSort coinValue) (order : Shuffle OutPoint)
    (w : Wallet) (hworth : w.worth < 2 ^ 64) :
    (∀ amount, w.SelectsExactly sort amount) ∧
      (∀ fee, w.Balanced fee (w.createRegularTransaction sort order fee)) ∧
      (∀ mainAddress value mainFee fee,
        w.Balanced fee (w.createWithdrawal sort order mainAddress value mainFee fee)) ∧
      (∀ address value fee memo,
        w.Balanced fee (w.createTransfer sort order address value fee memo)) ∧
      ∀ dests fee, w.Balanced fee (w.createTransferMany sort order dests fee) :=
  ⟨selectCoins_exact sort hworth, createRegularTransaction_balanced sort order hworth,
    createWithdrawal_balanced sort order hworth, createTransfer_balanced sort order hworth,
    createTransferMany_balanced sort order hworth⟩

end Wallet

end

namespace Instance

/-- A wallet with the addresses 0 and 1 and a coin at each. -/
def twoCoins : Wallet where
  seed := some ()
  addressToIndex := Db.putAll ∅ [(0, 0), (1, 1)]
  indexToAddress := Db.putAll ∅ [(0, 0), (1, 1)]
  utxos := Db.putAll ∅ [(.regular [9] 0, ⟨0, .bitcoin 700, []⟩),
    (.regular [9] 1, ⟨1, .bitcoin 500, []⟩)]
  pendingInputs := []
  stxos := ∅
  bitnameReservations := ∅
  knownBitnames := ∅

theorem transactions_balance_twoCoins :
    twoCoins.worth < 2 ^ 64 ∧
      twoCoins.Balanced 10 (twoCoins.createTransfer mergeOrder (insertionOrder _) 5 600 10 none) := by
  have hworth : twoCoins.worth < 2 ^ 64 := by decide +kernel
  exact ⟨hworth, (Wallet.transactions_balance mergeOrder (insertionOrder _) twoCoins
    hworth).2.2.2.1 5 600 10 none⟩

end Instance

end PlainBitnames
