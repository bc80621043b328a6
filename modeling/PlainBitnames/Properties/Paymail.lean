import PlainBitnames.Properties.NameHistory
import PlainBitnames.Properties.TxIndex
import PlainBitnames.State.Sources
import PlainBitnames.Wallet.Paymail

/-!
Looking up paymail does not panic for a wallet in sync with its node, unless a block
producer pays it. The heights of blocks are only looked up for outputs of
transactions; those are the only ones that can be BitNames, and deposits have no
memo. A coinbase output with a memo at the address of an inbox has no height, and
indexing the heights with it panics.
-/

namespace PlainBitnames

open Fallible

section

variable [Primitives]

namespace Paymail

open Wallet (Coin)

variable {node : Node} {tip : BlockHash} {heights : List (OutPoint × Option Nat)}

theorem inclusionHeight_meets (hstored : node.archive.SideStored) (txid : Txid) :
    Meets (fun _ => True) (node.inclusionHeight tip txid) := by
  refine Meets.bind (Meets.mapFailure _ (Meets.findM? fun blockHash _ =>
    Lineage.Index.isDescendant_meets hstored.describes blockHash tip)) fun found _ => ?_
  cases found with
  | none => exact .ok trivial
  | some blockHash =>
    have hheight : Meets (fun _ => True) (node.archive.getHeight blockHash) :=
      .okOr fun _ _ => trivial
    exact (hheight.mapFailure _).bind fun _ _ => .ok trivial

omit [Primitives] in
theorem exists_lookup {K V : Type} [DecidableEq K] {entries : List (K × V)} {entry : K × V}
    (h : entry ∈ entries) : ∃ value, entries.lookup entry.1 = some value := by
  induction entries with
  | nil => cases h
  | cons first entries ih =>
    rw [List.lookup_cons]
    split
    · exact ⟨first.2, rfl⟩
    next hne =>
      rcases List.mem_cons.mp h with rfl | h
      · simp at hne
      · exact ih h

theorem index_meets {K : Type} [DecidableEq K] {heights : List (K × Option Nat)} {key : K}
    (h : ∃ height, heights.lookup key = some height) :
    Meets (fun _ => True) (index heights key) := by
  obtain ⟨height, hheight⟩ := h
  rw [index, hheight]
  exact .ok trivial

/-- The outpoints of transactions have entries. -/
def Covers (heights : List (OutPoint × Option Nat)) (outpoints : List OutPoint) : Prop :=
  ∀ txid vout, .regular txid vout ∈ outpoints →
    ∃ height, heights.lookup (.regular txid vout) = some height

theorem outpointHeights_meets (hstored : node.archive.SideStored) (outpoints : List OutPoint) :
    Meets (Covers · outpoints) (outpointHeights node tip outpoints) := by
  refine (Meets.mapM (R := fun x entry => entry.1 = x.1) fun x _ => ?_).imp ?_
  · exact (inclusionHeight_meets hstored x.2).bind fun _ _ => .ok rfl
  · rintro heights ⟨hheights, -⟩ txid vout hmem
    obtain ⟨entry, hentry, hkey⟩ := hheights (.regular txid vout, txid)
      (List.mem_filterMap.mpr ⟨_, hmem, rfl⟩)
    have hkey : entry.1 = .regular txid vout := hkey
    exact hkey ▸ exists_lookup hentry

theorem inpointHeights_meets (hstored : node.archive.SideStored)
    {spent : List (OutPoint × SpentOutput)}
    (hspent : ∀ entry ∈ spent, ∃ txid vin, entry.2.inpoint = .regular txid vin) :
    Meets (fun heights => ∀ entry ∈ spent, ∃ height,
        heights.lookup entry.2.inpoint = some height)
      (spent.mapM fun entry => inpointHeight node tip entry.2.inpoint) := by
  refine (Meets.mapM (R := fun x entry => entry.1 = x.2.inpoint) fun x hx => ?_).imp ?_
  · obtain ⟨txid, vin, hinpoint⟩ := hspent x hx
    rw [hinpoint]
    exact (inclusionHeight_meets hstored txid).bind fun _ _ => .ok rfl
  · rintro heights ⟨hheights, -⟩ x hx
    obtain ⟨entry, hentry, hkey⟩ := hheights x hx
    exact hkey ▸ exists_lookup hentry

theorem owned_meets {coin : Coin} (h : ∃ height, heights.lookup coin.1 = some height) :
    Meets (fun owner => ∀ o, owner = some o → o.address = coin.2.address)
      (owned node heights coin) := by
  rw [owned]
  split
  · exact .ok nofun
  · refine Meets.bind (P := fun _ => True) (.okOr fun _ _ => trivial) fun data _ => ?_
    refine (index_meets h).bind fun height _ => .ok fun o ho => ?_
    obtain ⟨_, -, rfl⟩ := Option.map_eq_some_iff.mp ho
    rfl

variable {entry : OutPoint × SpentOutput}

theorem ownedBefore_meets {inpointHeights : List (InPoint × Option Nat)}
    (h : ∃ height, heights.lookup entry.1 = some height)
    (hspent : ∃ height, inpointHeights.lookup entry.2.inpoint = some height) :
    Meets (fun owner => ∀ o, owner = some o → o.address = entry.2.output.address)
      (ownedBefore node heights inpointHeights entry) := by
  rw [ownedBefore]
  split
  · exact .ok nofun
  · refine (index_meets h).bind fun height _ => ?_
    cases height with
    | none => exact .ok nofun
    | some acquired =>
      refine (index_meets hspent).bind fun spent _ => ?_
      refine Meets.bind (P := fun _ => True) ?_ fun data _ => .ok fun o ho => ?_
      · exact Meets.bind (P := fun _ => True) (.okOr fun _ _ => trivial)
          fun _ _ => .okOr fun _ _ => trivial
      · cases ho
        rfl

theorem retains_meets {owners : List Ownership} {coin : Coin}
    (h : coin.2.memo ≠ [] → (∃ owner ∈ owners, owner.address = coin.2.address) →
      ∃ height, heights.lookup coin.1 = some height) :
    Meets (fun _ => True) (retains owners heights coin) := by
  rw [retains]
  split
  · exact .ok trivial
  next hnot =>
    obtain ⟨hmemo, howners⟩ := not_or.mp hnot
    obtain ⟨owner, howner⟩ := List.exists_mem_of_ne_nil _ howners
    obtain ⟨hmem, haddress⟩ := List.mem_filter.mp howner
    exact (index_meets (h hmemo ⟨owner, hmem, by simpa using haddress⟩)).bind
      fun _ _ => .ok trivial

variable [WalletKeys]

/-- The wallet has the utxos and stxos of the node at its addresses. -/
structure InSync (state : State) (w : Wallet) : Prop where
  utxos_iff : ∀ (outpoint : OutPoint) (output : FilledOutput),
    w.utxos[outpoint]? = some output ↔
      state.utxos[outpoint]? = some output ∧ output.address ∈ w.getAddresses
  stxos_iff : ∀ (outpoint : OutPoint) (spent : SpentOutput),
    w.stxos[outpoint]? = some spent ↔
      state.stxos[outpoint]? = some spent ∧ spent.output.address ∈ w.getAddresses

/-- An inbox at an address: a BitName that the wallet has or had there. -/
def Inbox (w : Wallet) (inboxWhitelist : Option (List BitName)) (address : Address) : Prop :=
  ∃ (outpoint : OutPoint) (output : FilledOutput), output.isBitname = true ∧ listed inboxWhitelist output = true ∧
    output.address = address ∧ (w.utxos[outpoint]? = some output ∨
      ∃ inpoint, w.stxos[outpoint]? = some (SpentOutput.mk output inpoint))

/-- No coinbase output with a memo is at the address of an inbox. -/
def NoCoinbaseMail (w : Wallet) (inboxWhitelist : Option (List BitName)) : Prop :=
  ∀ txid vout output, w.utxos[(.coinbase txid vout : OutPoint)]? = some output →
    output.memo ≠ [] → ¬ Inbox w inboxWhitelist output.address

theorem InSync.coin_fits {state : State} {w : Wallet} (h : InSync state w) (hs : state.Sourced)
    {coin : Coin} (hget : w.utxos[coin.1]? = some coin.2) : coin.1.Fits coin.2 :=
  hs.utxos _ _ ((h.utxos_iff _ _).mp hget).1

theorem InSync.spent_regular {state : State} {w : Wallet} (h : InSync state w) (hs : state.Sourced)
    (hentry : entry ∈ w.getSpentBitnames) :
    (∃ txid vout, entry.1 = .regular txid vout) ∧
      ∃ txid vin, entry.2.inpoint = .regular txid vin := by
  obtain ⟨hmem, hname⟩ := List.mem_filter.mp hentry
  have hget := Db.mem_toList.mp hmem
  obtain ⟨hfits, hspender⟩ := hs.stxos _ _ ((h.stxos_iff _ _).mp hget).1
  exact ⟨hfits.regular hname, hspender hname⟩

theorem Inbox.of_coin {w : Wallet} {inboxWhitelist : Option (List BitName)} {coin : Coin}
    (h : coin ∈ w.getBitnames.filter fun coin => listed inboxWhitelist coin.2) :
    Inbox w inboxWhitelist coin.2.address := by
  obtain ⟨hmem, hlisted⟩ := List.mem_filter.mp h
  obtain ⟨hmem, hname⟩ := List.mem_filter.mp hmem
  have hget := Db.mem_toList.mp hmem
  exact ⟨coin.1, coin.2, hname, hlisted, rfl, .inl hget⟩

theorem Inbox.of_spent {w : Wallet} {inboxWhitelist : Option (List BitName)}
    (h : entry ∈ w.getSpentBitnames.filter fun entry => listed inboxWhitelist entry.2.output) :
    Inbox w inboxWhitelist entry.2.output.address := by
  obtain ⟨hmem, hlisted⟩ := List.mem_filter.mp h
  obtain ⟨hmem, hname⟩ := List.mem_filter.mp hmem
  have hget := Db.mem_toList.mp hmem
  exact ⟨entry.1, entry.2.output, hname, hlisted, rfl, .inr ⟨entry.2.inpoint, hget⟩⟩

/-- On every chain of accepted blocks and for every archive, no lookup of paymail
panics as long as no coinbase output with a memo is at the address of an inbox. -/
theorem getPaymail_no_panic (hcf : CollisionFree) {m : Mainchain}
    {Allowed : Node → NodeOp → Prop} {other : Node} (hreaches : other.Reaches m Allowed)
    {steps : List Step} {state : State} (hrun : State.empty.run steps = .ok state) {w : Wallet}
    (hsync : InSync state w) (inboxWhitelist : Option (List BitName))
    (hmail : NoCoinbaseMail w inboxWhitelist) (order : Shuffle Coin)
    (spentOrder : Shuffle (OutPoint × SpentOutput)) (message : String) :
    getPaymail order spentOrder ⟨other.archive, state⟩ w inboxWhitelist ≠
      .error (.panic message) := by
  have hstored := (hreaches.stored hcf).side
  have hsourced := State.sourced_of_run hrun
  suffices h : Meets (fun _ => True)
      (getPaymail order spentOrder ⟨other.archive, state⟩ w inboxWhitelist) from h.1 message
  rw [getPaymail]
  cases state.tip with
  | none => exact .ok trivial
  | some tip =>
    have hcoins : ∀ coin, coin ∈ order.run w.utxos.toList ↔ w.utxos[coin.1]? = some coin.2 :=
      fun coin => (order.perm _).mem_iff.trans Db.mem_toList
    have hspent : ∀ entry ∈ spentOrder.run (w.getSpentBitnames.filter
        fun entry => listed inboxWhitelist entry.2.output),
        entry ∈ w.getSpentBitnames ∧ Inbox w inboxWhitelist entry.2.output.address := by
      intro entry hentry
      have hentry := (spentOrder.perm _).mem_iff.mp hentry
      exact ⟨List.mem_of_mem_filter hentry, .of_spent hentry⟩
    dsimp only
    refine (outpointHeights_meets hstored _).bind fun heights hheights => ?_
    have hheight : ∀ {coin : Coin}, coin ∈ order.run w.utxos.toList →
        (∃ txid vout, coin.1 = .regular txid vout) →
          ∃ height, heights.lookup coin.1 = some height := by
      rintro coin hmem ⟨txid, vout, hkey⟩
      have hmem := List.mem_map_of_mem (f := Prod.fst) hmem
      rw [hkey] at hmem ⊢
      exact hheights txid vout (List.mem_append_left _ hmem)
    refine (inpointHeights_meets hstored fun entry hentry =>
      (hsync.spent_regular hsourced (hspent entry hentry).1).2).bind fun inpointHeights hinpoints => ?_
    -- every owner is at the address of an inbox
    refine (Meets.mapM (R := fun _ owner => ∀ o, owner = some o →
      Inbox w inboxWhitelist o.address) fun coin hcoin => ?_).bind fun now hnow => ?_
    · have hcoin := (order.perm _).mem_iff.mp hcoin
      obtain ⟨hmem, hname⟩ := List.mem_filter.mp (List.mem_of_mem_filter hcoin)
      have hget := Db.mem_toList.mp hmem
      have hregular := (hsync.coin_fits hsourced hget).regular hname
      refine (owned_meets (hheight ((hcoins coin).mpr hget) hregular)).imp ?_
      exact fun owner howner o ho => howner o ho ▸ .of_coin hcoin
    refine (Meets.mapM (R := fun _ owner => ∀ o, owner = some o →
      Inbox w inboxWhitelist o.address) fun entry hentry => ?_).bind fun before hbefore => ?_
    · obtain ⟨hmem, hinbox⟩ := hspent entry hentry
      obtain ⟨txid, vout, hkey⟩ := (hsync.spent_regular hsourced hmem).1
      have hlookup : ∃ height, heights.lookup entry.1 = some height := by
        have hmem := List.mem_map_of_mem (f := Prod.fst) hentry
        rw [hkey] at hmem ⊢
        exact hheights txid vout (List.mem_append_right _ hmem)
      refine (ownedBefore_meets hlookup (hinpoints entry hentry)).imp ?_
      exact fun owner howner o ho => howner o ho ▸ hinbox
    refine Meets.filterM fun coin hcoin => retains_meets fun hmemo howner => ?_
    obtain ⟨owner, howner, haddress⟩ := howner
    obtain ⟨found, hfound, rfl : found = some owner⟩ := List.mem_filterMap.mp howner
    have hinbox : Inbox w inboxWhitelist coin.2.address := by
      rw [← haddress]
      rcases List.mem_append.mp hfound with hfound | hfound
      · obtain ⟨_, -, hinbox⟩ := hnow.2 _ hfound
        exact hinbox owner rfl
      · obtain ⟨_, -, hinbox⟩ := hbefore.2 _ hfound
        exact hinbox owner rfl
    have hget := (hcoins coin).mp hcoin
    have hfits := hsync.coin_fits hsourced hget
    refine hheight hcoin ?_
    obtain ⟨outpoint, output⟩ := coin
    cases outpoint with
    | regular txid vout => exact ⟨txid, vout, rfl⟩
    | coinbase txid vout => exact absurd hinbox (hmail txid vout output hget hmemo)
    | deposit => exact absurd hfits.2 hmemo

end Paymail

end

namespace Instance

open Paymail

/-- A BitName is registered at address 7, and then a block pays that address. -/
def mailActs (memo : List UInt8) : List (Body ⊕ TwoWayPegData) :=
  [.inl ⟨⟨[], []⟩, [reserveTx], []⟩, .inl ⟨⟨[], []⟩, [registerTx], [⟨7, 7⟩]⟩,
    .inl ⟨⟨[], [⟨7, .bitcoin 0, memo⟩]⟩, [], []⟩]

/-- The blocks are stored by a node. -/
def mailOps (memo : List UInt8) : List NodeOp :=
  (blocksOf (stepsOf (mailActs memo))).flatMap fun (header, body) =>
    [.header header, .body header.hash body]

def mailArchive (memo : List UInt8) : Archive := (Node.new.run (mailOps memo)).archive

/-- A wallet with address 7 that has everything a state has. -/
def watching (state : State) : Wallet :=
  { Wallet.fresh with
    indexToAddress := (∅ : Db Nat Address).insert 0 7
    utxos := state.utxos
    stxos := state.stxos }

theorem watching_inSync {state : State}
    (hutxos : ∀ entry ∈ state.utxos.toList, entry.2.address = 7)
    (hstxos : ∀ entry ∈ state.stxos.toList, entry.2.output.address = 7) :
    InSync state (watching state) := by
  have haddress : (7 : Address) ∈ (watching state).getAddresses := by
    show (7 : Address) ∈ ((∅ : Db Nat Address).insert 0 7).toList.map Prod.snd
    decide +kernel
  constructor
  · refine fun outpoint output => ⟨fun hget => ⟨hget, ?_⟩, fun h => h.1⟩
    exact hutxos _ (Db.mem_toList.mpr hget) ▸ haddress
  · refine fun outpoint spent => ⟨fun hget => ⟨hget, ?_⟩, fun h => h.1⟩
    exact hstxos _ (Db.mem_toList.mpr hget) ▸ haddress

theorem noCoinbaseMail_watching {state : State}
    (hmemo : ∀ entry ∈ state.utxos.toList, entry.2.memo = []) :
    NoCoinbaseMail (watching state) none := by
  intro txid vout output hget hne
  exact absurd (hmemo _ (Db.mem_toList.mpr hget)) hne

/-- A coinbase output with a memo makes the lookup panic. -/
theorem coinbase_mail_panics :
    State.empty.run (stepsOf (mailActs [1])) = .ok (after (mailActs [1])) ∧
      (Node.new.run (mailOps [1])).Reaches mintMain (fun _ _ => True) ∧
      InSync (after (mailActs [1])) (watching (after (mailActs [1]))) ∧
      getPaymail (insertionOrder _) (insertionOrder _) ⟨mailArchive [1], after (mailActs [1])⟩
        (watching (after (mailActs [1]))) none = .error (.panic "no entry found for key") := by
  refine ⟨eq_ok_getD State.empty (by decide +kernel),
    .run .new (by decide +kernel) (Node.permits_true .new _),
    watching_inSync (by decide +kernel) (by decide +kernel), by decide +kernel⟩

theorem getPaymail_no_panic_noMemo :
    InSync (after (mailActs [])) (watching (after (mailActs []))) ∧
      getPaymail (insertionOrder _) (insertionOrder _) ⟨mailArchive [], after (mailActs [])⟩
        (watching (after (mailActs []))) none ≠ .error (.panic "no entry found for key") := by
  have hrun : State.empty.run (stepsOf (mailActs [])) = .ok (after (mailActs [])) :=
    eq_ok_getD State.empty (by decide +kernel)
  have hreaches : (Node.new.run (mailOps [])).Reaches mintMain (fun _ _ => True) :=
    .run .new (by decide +kernel) (Node.permits_true .new _)
  have hsync : InSync (after (mailActs [])) (watching (after (mailActs []))) :=
    watching_inSync (by decide +kernel) (by decide +kernel)
  exact ⟨hsync, getPaymail_no_panic collisionFree hreaches hrun hsync none
    (noCoinbaseMail_watching (by decide +kernel)) _ _ _⟩

end Instance

end PlainBitnames
