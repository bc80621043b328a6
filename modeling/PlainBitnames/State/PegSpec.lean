import PlainBitnames.State.Run

/-!
What connecting two-way peg data can do. Every event of a withdrawal bundle has
one of the effects of `BundleEffect`; the effect says which bundle it is about,
in which status it was, and which outputs leave the utxos or return to them.
After the events at most one bundle is collected. All invariants of runs are
derived from these effects.
-/

namespace PlainBitnames

open Fallible

variable [Primitives]

namespace State

/-- The outputs of a bundle leave the utxos. -/
def takeOut (state : State) (m6id : M6id) (entries : List (OutPoint × FilledOutput)) : State :=
  { state with
    utxos := Db.eraseAll state.utxos (entries.map Prod.fst)
    stxos := Db.putAll state.stxos (entries.map fun entry =>
      (entry.1, ⟨entry.2, .withdrawal m6id⟩)) }

theorem spendAll_eq_takeOut (state : State) (m6id : M6id) :
    state.spendAll m6id = state.takeOut m6id state.utxos.toList := by
  have hempty : Db.eraseAll state.utxos (state.utxos.toList.map Prod.fst) = ∅ := by
    apply Db.ext
    intro outpoint
    rw [Db.get_empty, ← Db.not_mem_iff, Db.mem_eraseAll]
    rintro ⟨hnot, hmem⟩
    obtain ⟨output, hget⟩ := (Db.mem_iff _ _).mp hmem
    exact hnot (List.mem_map.mpr
      ⟨_, Db.mem_toList.mpr hget, rfl⟩)
  rw [spendAll, takeOut, hempty]

/-- The outputs of a bundle return to the utxos. -/
def giveBack (state : State) (entries : List (OutPoint × FilledOutput)) : State :=
  { state with
    stxos := Db.eraseAll state.stxos (entries.map Prod.fst)
    utxos := Db.putAll state.utxos entries }

variable {m6id : M6id} {state state' : State}

theorem foldlM_spendForBundle {missing : OutPoint → Error}
    {entries : List (OutPoint × FilledOutput)} (hnodup : (entries.map Prod.fst).Nodup) :
    entries.foldlM (spendForBundle m6id missing) state = .ok state' ↔
      (∀ outpoint ∈ entries.map Prod.fst, outpoint ∈ state.utxos) ∧
        state' = state.takeOut m6id entries := by
  induction entries generalizing state with
  | nil =>
    rw [foldlM_nil_eq_ok]
    constructor
    · rintro rfl
      exact ⟨by simp, rfl⟩
    · rintro ⟨-, rfl⟩
      rfl
  | cons entry entries ih =>
    obtain ⟨hfresh, hnodup⟩ := List.nodup_cons.mp hnodup
    simp only [foldlM_cons_eq_ok, spendForBundle, ensure_bind_eq_ok, ih hnodup,
      List.map_cons, List.forall_mem_cons]
    constructor
    · rintro ⟨_, ⟨hmem, hstep⟩, hrest, rfl⟩
      cases hstep
      refine ⟨⟨hmem, fun outpoint houtpoint => ?_⟩, rfl⟩
      exact ((Db.mem_erase _ _ _).mp (hrest outpoint houtpoint)).2
    · rintro ⟨⟨hmem, hrest⟩, rfl⟩
      refine ⟨_, ⟨hmem, rfl⟩, fun outpoint houtpoint => ?_, rfl⟩
      refine (Db.mem_erase _ _ _).mpr ⟨?_, hrest outpoint houtpoint⟩
      rintro rfl
      exact hfresh houtpoint

theorem foldl_unspendFromBundle (state : State) (entries : List (OutPoint × FilledOutput)) :
    entries.foldl unspendFromBundle state = state.giveBack entries := by
  induction entries generalizing state with
  | nil => rfl
  | cons entry entries ih => exact ih _

def noteStatus (state : State) (m6id : M6id) (bundle : WithdrawalBundleInfo)
    (status : HeightRollBack WithdrawalBundleStatus) (value : WithdrawalBundleStatus)
    (height : Nat) : State :=
  { state with
    withdrawalBundles :=
      state.withdrawalBundles.insert m6id (bundle, NonEmpty.push status ⟨value, height⟩) }

variable {height : Nat}

theorem pushStatus_eq_ok {bundle : WithdrawalBundleInfo}
    {status : HeightRollBack WithdrawalBundleStatus} {value : WithdrawalBundleStatus} :
    state.pushStatus m6id bundle status value height = .ok state' ↔
      (HeightRollBack.latest status).height ≤ height ∧
        state' = state.noteStatus m6id bundle status value height := by
  unfold pushStatus
  rw [bind_eq_ok]
  simp only [okOr_eq_ok, HeightRollBack.push_eq_some]
  constructor
  · rintro ⟨_, ⟨hheight, rfl⟩, h⟩
    cases h
    exact ⟨hheight, rfl⟩
  · rintro ⟨hheight, rfl⟩
    exact ⟨_, ⟨hheight, rfl⟩, rfl⟩

/-- An event that changes nothing but the status of a bundle: which event it is
and from which status it leads to which. -/
inductive Noted : WithdrawalBundleEventStatus → WithdrawalBundleInfo →
    WithdrawalBundleStatus → WithdrawalBundleStatus → Prop
  | droppedSubmitted (bundle) : Noted .submitted (.known bundle) .dropped .submittedUnexpected
  | failedSubmitted (bundle) : Noted .submitted (.known bundle) .failed .submittedUnexpected
  | unknownFailedSubmitted : Noted .submitted .unknown .failed .submittedUnexpected
  | confirmed (bundle) : Noted .confirmed (.known bundle) .submitted .confirmed
  | unexpectedFailed (bundle) :
      Noted .failed (.known bundle) .submittedUnexpected .failed
  | unknownFailed (latest) (hlatest : isSubmitted latest = true) :
      Noted .failed .unknown latest .failed
  | unknownConfirmedFailed (spendUtxos latest) (hlatest : isSubmitted latest = true) :
      Noted .failed (.unknownConfirmed spendUtxos) latest .failed

theorem Noted.ne_submitted {event : WithdrawalBundleEventStatus} {bundle : WithdrawalBundleInfo}
    {latest value : WithdrawalBundleStatus} (h : Noted event bundle latest value) :
    value ≠ .submitted := by
  cases h <;> exact fun heq => nomatch heq

/-- What the event of a bundle can do to a state. -/
inductive BundleEffect (height : Nat) (m6id : M6id) (state : State) :
    WithdrawalBundleEventStatus → State → Prop
  /-- The event is already applied. -/
  | unchanged {event bundle status} (hget : state.withdrawalBundles[m6id]? = some (bundle, status))
      (hlatest : event = .confirmed ∧ (HeightRollBack.latest status).value = .confirmed ∨
        event = .failed ∧ (HeightRollBack.latest status).value = .failed) :
      BundleEffect height m6id state event state
  /-- Only the status changes. -/
  | noted {event bundle status value}
      (hget : state.withdrawalBundles[m6id]? = some (bundle, status))
      (hnoted : Noted event bundle (HeightRollBack.latest status).value value)
      (hheight : (HeightRollBack.latest status).height ≤ height)
      (hpending : event = .submitted → state.pendingWithdrawalBundle ≠ some m6id) :
      BundleEffect height m6id state event
        (state.noteStatus m6id bundle status value height)
  /-- A bundle that was not made here is submitted. -/
  | discovered (hget : state.withdrawalBundles[m6id]? = none)
      (hpending : state.pendingWithdrawalBundle ≠ some m6id) :
      BundleEffect height m6id state .submitted { state with
        withdrawalBundles := state.withdrawalBundles.insert m6id
          (.unknown, HeightRollBack.new .submitted height) }
  /-- The pending bundle is submitted: its outputs are spent. -/
  | submitted {bundle status}
      (hget : state.withdrawalBundles[m6id]? = some (.known bundle, status))
      (hpending : state.pendingWithdrawalBundle = some m6id)
      (hlatest : (HeightRollBack.latest status).value = .pending)
      (hheight : (HeightRollBack.latest status).height ≤ height)
      (hmem : ∀ outpoint ∈ bundle.spendUtxos.toList.map Prod.fst, outpoint ∈ state.utxos) :
      BundleEffect height m6id state .submitted
        { (state.takeOut m6id bundle.spendUtxos.toList).noteStatus m6id (.known bundle) status
            .submitted height with pendingWithdrawalBundle := none }
  /-- A bundle that was submitted unexpectedly is confirmed: its outputs are
  spent. -/
  | confirmedUnexpected {bundle status}
      (hget : state.withdrawalBundles[m6id]? = some (.known bundle, status))
      (hlatest : (HeightRollBack.latest status).value = .submittedUnexpected)
      (hheight : (HeightRollBack.latest status).height ≤ height)
      (hmem : ∀ outpoint ∈ bundle.spendUtxos.toList.map Prod.fst, outpoint ∈ state.utxos) :
      BundleEffect height m6id state .confirmed
        ((state.takeOut m6id bundle.spendUtxos.toList).noteStatus m6id (.known bundle) status
          .confirmed height)
  /-- An unknown bundle is confirmed at height zero: all outputs are spent. -/
  | confirmedUnknown {status}
      (hget : state.withdrawalBundles[m6id]? = some (.unknown, status))
      (hlatest : isSubmitted (HeightRollBack.latest status).value = true)
      (hheight : (HeightRollBack.latest status).height ≤ height) (hzero : height = 0) :
      BundleEffect height m6id state .confirmed
        ((state.spendAll m6id).noteStatus m6id
          (.unknownConfirmed (Db.putAll ∅ state.utxos.toList)) status .confirmed height)
  /-- A submitted bundle fails: its outputs return. -/
  | failed {bundle status latestFailed}
      (hget : state.withdrawalBundles[m6id]? = some (.known bundle, status))
      (hlatest : (HeightRollBack.latest status).value = .submitted)
      (hheight : (HeightRollBack.latest status).height ≤ height)
      (hfailed : pushLatestFailed state.latestFailedWithdrawalBundle m6id height =
        .ok latestFailed) :
      BundleEffect height m6id state .failed
        ({ state.giveBack bundle.spendUtxos.toList with
            latestFailedWithdrawalBundle := some latestFailed }.noteStatus m6id
          (.known bundle) status .failed height)

/-- An event of a bundle touches the outputs, the bundles and the latest failure
only. -/
theorem BundleEffect.frame {event : WithdrawalBundleEventStatus}
    (h : BundleEffect height m6id state event state') :
    state'.tip = state.tip ∧ state'.height = state.height ∧ state'.bitnames = state.bitnames ∧
      state'.blockIndexEvents = state.blockIndexEvents ∧
      state'.depositBlocks = state.depositBlocks ∧
      state'.withdrawalBundleEventBlocks = state.withdrawalBundleEventBlocks := by
  cases h <;> exact ⟨rfl, rfl, rfl, rfl, rfl, rfl⟩

variable {hash : MainBlockHash} {bundle : WithdrawalBundleInfo}

theorem checkResubmission_ok {latest : HeightStamped WithdrawalBundleStatus} {u : Unit}
    (h : checkResubmission hash m6id bundle latest = .ok u) :
    Noted .submitted bundle latest.value .submittedUnexpected := by
  unfold checkResubmission at h
  generalize latest.value = value at h ⊢
  cases bundle with
  | known bundle =>
    cases value with
    | dropped => exact .droppedSubmitted bundle
    | failed => exact .failedSubmitted bundle
    | _ => cases h
  | unknown =>
    cases value with
    | failed => exact .unknownFailedSubmitted
    | _ => cases h
  | unknownConfirmed spendUtxos => cases value <;> cases h

theorem connectWithdrawalBundleSubmitted_ok {indexEvents indexEvents' : BlockIndexEvents}
    (h : state.connectWithdrawalBundleSubmitted height indexEvents hash m6id =
      .ok (state', indexEvents')) : BundleEffect height m6id state .submitted state' := by
  unfold connectWithdrawalBundleSubmitted at h
  split at h
  case isTrue hpending =>
    unfold connectPendingSubmitted at h
    split at h
    case h_1 bundle status hget =>
      obtain ⟨_, hspend, h⟩ := bind_eq_ok.mp h
      obtain ⟨hmem, rfl⟩ := (foldlM_spendForBundle (Db.keys_nodup _)).mp hspend
      obtain ⟨hlatest, h⟩ := ensure_bind_eq_ok.mp h
      obtain ⟨_, hpush, h⟩ := bind_eq_ok.mp h
      obtain ⟨hheight, rfl⟩ := pushStatus_eq_ok.mp hpush
      cases h
      exact .submitted hget hpending hlatest hheight hmem
    case h_2 => cases h
  case isFalse hpending =>
    split at h
    case h_1 bundle status hget =>
      obtain ⟨_, hcheck, h⟩ := bind_eq_ok.mp h
      obtain ⟨_, hpush, h⟩ := bind_eq_ok.mp h
      obtain ⟨hheight, rfl⟩ := pushStatus_eq_ok.mp hpush
      cases h
      exact .noted hget (checkResubmission_ok (mapError_eq_ok.mp hcheck)) hheight
        fun _ => hpending
    case h_2 hget =>
      cases h
      exact .discovered hget hpending

theorem connectWithdrawalBundleConfirmed_ok
    (h : state.connectWithdrawalBundleConfirmed height hash m6id = .ok state') :
    BundleEffect height m6id state .confirmed state' := by
  obtain ⟨⟨bundle, status⟩, hget, h⟩ := bind_eq_ok.mp h
  have hget := okOr_eq_ok.mp hget
  dsimp only at h
  split at h
  case isTrue hlatest =>
    cases h
    exact .unchanged hget (.inl ⟨rfl, hlatest⟩)
  case isFalse =>
    obtain ⟨hsubmitted, h⟩ := ensure_bind_eq_ok.mp h
    cases bundle with
    | unknownConfirmed spendUtxos => cases h
    | unknown =>
      obtain ⟨hzero, h⟩ := ensure_bind_eq_ok.mp h
      obtain ⟨hheight, rfl⟩ := pushStatus_eq_ok.mp h
      exact .confirmedUnknown hget hsubmitted hheight hzero
    | known bundle =>
      obtain ⟨_, hspend, h⟩ := bind_eq_ok.mp h
      obtain ⟨hheight, rfl⟩ := pushStatus_eq_ok.mp h
      unfold spendUnexpected at hspend
      split at hspend
      case isTrue hlatest =>
        obtain ⟨hmem, rfl⟩ := (foldlM_spendForBundle (Db.keys_nodup _)).mp hspend
        exact .confirmedUnexpected hget hlatest hheight hmem
      case isFalse hlatest =>
        cases hspend
        have hlatest : (HeightRollBack.latest status).value = .submitted := by
          simpa [isSubmitted, hlatest] using hsubmitted
        exact .noted hget (hlatest ▸ .confirmed _) hheight (fun h => by cases h)

theorem connectWithdrawalBundleFailed_ok
    (h : state.connectWithdrawalBundleFailed height m6id = .ok state') :
    BundleEffect height m6id state .failed state' := by
  obtain ⟨⟨bundle, status⟩, hget, h⟩ := bind_eq_ok.mp h
  have hget := okOr_eq_ok.mp hget
  dsimp only at h
  split at h
  case isTrue hlatest =>
    cases h
    exact .unchanged hget (.inr ⟨rfl, hlatest⟩)
  case isFalse =>
    obtain ⟨hsubmitted, h⟩ := ensure_bind_eq_ok.mp h
    obtain ⟨_, hreturn, h⟩ := bind_eq_ok.mp h
    obtain ⟨hheight, rfl⟩ := pushStatus_eq_ok.mp h
    cases bundle with
    | unknown =>
      cases hreturn
      exact .noted hget (.unknownFailed _ hsubmitted) hheight (fun h => by cases h)
    | unknownConfirmed spendUtxos =>
      cases hreturn
      exact .noted hget (.unknownConfirmedFailed _ _ hsubmitted) hheight (fun h => by cases h)
    | known bundle =>
      unfold returnFailed at hreturn
      dsimp only at hreturn
      split at hreturn
      case isTrue hlatest =>
        cases hreturn
        exact .noted hget (hlatest ▸ .unexpectedFailed _) hheight (fun h => by cases h)
      case isFalse hlatest =>
        obtain ⟨latestFailed, hfailed, hreturn⟩ := bind_eq_ok.mp hreturn
        cases hreturn
        have hlatest : (HeightRollBack.latest status).value = .submitted := by
          simpa [isSubmitted, hlatest] using hsubmitted
        rw [foldl_unspendFromBundle]
        exact .failed hget hlatest hheight hfailed

/-- Every accepted event of a bundle has one of the effects. -/
theorem connectWithdrawalBundleEvent_ok {indexEvents indexEvents' : BlockIndexEvents}
    {event : WithdrawalBundleEvent}
    (h : state.connectWithdrawalBundleEvent height indexEvents hash event =
      .ok (state', indexEvents')) : BundleEffect height event.m6id state event.status state' := by
  unfold connectWithdrawalBundleEvent at h
  split at h
  case h_1 hstatus =>
    rw [hstatus]
    exact connectWithdrawalBundleSubmitted_ok h
  case h_2 hstatus =>
    obtain ⟨_, hconfirmed, h⟩ := bind_eq_ok.mp h
    cases h
    rw [hstatus]
    exact connectWithdrawalBundleConfirmed_ok hconfirmed
  case h_3 hstatus =>
    obtain ⟨_, hfailed, h⟩ := bind_eq_ok.mp h
    cases h
    rw [hstatus]
    exact connectWithdrawalBundleFailed_ok hfailed

/-! Collecting a bundle. All its outputs are withdrawal outputs of the state. -/

/-- The outputs of aggregated withdrawals all have a property, and there are
some for each destination. -/
def Aggregates (Q : OutPoint × FilledOutput → Prop) (withdrawals : List AggregatedWithdrawal) :
    Prop :=
  ∀ aggregated ∈ withdrawals, aggregated.spendUtxos ≠ [] ∧
    ∀ entry ∈ aggregated.spendUtxos, Q entry

variable {Q : OutPoint × FilledOutput → Prop} {withdrawals : List AggregatedWithdrawal}

theorem Aggregates.addWithdrawal {outpoint : OutPoint} {output : FilledOutput}
    {w : WithdrawalContent} {withdrawals' : List AggregatedWithdrawal} (hQ : Q (outpoint, output))
    (hall : Aggregates Q withdrawals)
    (h : addWithdrawal outpoint output w withdrawals = some withdrawals') :
    Aggregates Q withdrawals' := by
  induction withdrawals generalizing withdrawals' with
  | nil =>
    cases h
    simpa [Aggregates] using hQ
  | cons aggregated rest ih =>
    obtain ⟨hhead, hrest⟩ := List.forall_mem_cons.mp hall
    unfold PlainBitnames.addWithdrawal at h
    split at h
    · simp only [Option.bind_eq_bind, Option.bind_eq_some_iff, Option.some.injEq] at h
      obtain ⟨value, -, mainFee, -, rfl⟩ := h
      refine List.forall_mem_cons.mpr ⟨⟨by simp, ?_⟩, hrest⟩
      intro entry hentry
      rcases List.mem_append.mp hentry with hentry | hentry
      · exact hhead.2 entry hentry
      · rwa [List.mem_singleton.mp hentry]
    · obtain ⟨rest', hrest', rfl⟩ := Option.map_eq_some_iff.mp h
      exact List.forall_mem_cons.mpr ⟨hhead, ih hrest hrest'⟩

theorem Aggregates.foldlM {entries : List (OutPoint × FilledOutput)}
    {withdrawals' : List AggregatedWithdrawal}
    (hQ : ∀ entry ∈ entries, entry.2.content.isWithdrawal = true → Q entry)
    (hall : Aggregates Q withdrawals)
    (h : entries.foldlM aggregate withdrawals = some withdrawals') : Aggregates Q withdrawals' := by
  induction entries generalizing withdrawals with
  | nil =>
    cases h
    exact hall
  | cons entry entries ih =>
    obtain ⟨hhead, hrest⟩ := List.forall_mem_cons.mp hQ
    rw [List.foldlM_cons, Option.bind_eq_bind, Option.bind_eq_some_iff] at h
    obtain ⟨next, hnext, h⟩ := h
    refine ih hrest ?_ h
    unfold aggregate at hnext
    split at hnext
    case h_1 w hcontent =>
      exact hall.addWithdrawal (hhead (by rw [hcontent]; rfl)) hnext
    case h_2 =>
      cases hnext
      exact hall

theorem fillBundle_spendUtxos {draft draft' : BundleDraft} (hall : Aggregates Q withdrawals)
    (hdraft : ∀ entry ∈ draft.spendUtxos.toList, Q entry)
    (h : fillBundle withdrawals draft = .ok draft') :
    ∀ entry ∈ draft'.spendUtxos.toList, Q entry := by
  induction withdrawals generalizing draft with
  | nil =>
    cases h
    exact hdraft
  | cons aggregated rest ih =>
    obtain ⟨hhead, hrest⟩ := List.forall_mem_cons.mp hall
    unfold fillBundle at h
    dsimp only at h
    split at h
    · cases h
      exact hdraft
    split at h
    · exact ih hrest hdraft h
    split at h
    · exact ih hrest hdraft h
    split at h
    · cases h
      exact hdraft
    split at h
    · cases h
      exact hdraft
    obtain ⟨fee, -, h⟩ := bind_eq_ok.mp h
    refine ih hrest ?_ h
    rintro ⟨outpoint, output⟩ hentry
    rw [Db.mem_toList] at hentry
    rcases Db.get_putAll_cases hentry with hentry | ⟨-, hentry⟩
    · exact hhead.2 _ hentry
    · exact hdraft _ (Db.mem_toList.mpr hentry)

structure Collected (state : State) (height : Nat) (bundle : WithdrawalBundle) : Prop where
  withdrawals : ∀ entry ∈ bundle.spendUtxos.toList,
    state.utxos[entry.1]? = some entry.2 ∧ entry.2.content.isWithdrawal = true
  exists_withdrawal : ∃ (outpoint : OutPoint) (output : FilledOutput),
    state.utxos[outpoint]? = some output ∧ output.content.isWithdrawal = true
  made : ∃ fee bundleOutputs,
    WithdrawalBundle.new height fee bundle.spendUtxos bundleOutputs = .ok bundle

theorem WithdrawalBundle.spendUtxos_new {fee : Amount} {spendUtxos : SpendUtxos}
    {bundleOutputs : List TxOut} {bundle : WithdrawalBundle}
    (h : WithdrawalBundle.new height fee spendUtxos bundleOutputs = .ok bundle) :
    bundle.spendUtxos = spendUtxos := by
  obtain ⟨-, h⟩ := ensure_bind_eq_ok.mp h
  cases h
  rfl

theorem collectWithdrawalBundle_ok {bundle : WithdrawalBundle}
    (h : state.collectWithdrawalBundle height = .ok (some bundle)) :
    state.Collected height bundle := by
  let Q := fun entry : OutPoint × FilledOutput =>
    state.utxos[entry.1]? = some entry.2 ∧ entry.2.content.isWithdrawal = true
  obtain ⟨aggregated, haggregated, h⟩ := bind_eq_ok.mp h
  have hall : Aggregates Q aggregated := by
    have hnone : Aggregates Q [] := by simp [Aggregates]
    refine Aggregates.foldlM ?_ hnone (okOr_eq_ok.mp haggregated)
    intro entry hentry hwithdrawal
    exact ⟨Db.mem_toList.mp hentry, hwithdrawal⟩
  split at h
  · cases h
  case isFalse hne =>
    obtain ⟨draft, hdraft, h⟩ := bind_eq_ok.mp h
    obtain ⟨made, hmade, h⟩ := bind_eq_ok.mp h
    obtain ⟨-, h⟩ := ensure_bind_eq_ok.mp h
    cases h
    have hmade := mapFailure_eq_ok.mp hmade
    have hspend := WithdrawalBundle.spendUtxos_new hmade
    have hsorted : Aggregates Q (aggregated.insertionSort fun a b => b.le a) := by
      intro a ha
      exact hall a ((List.perm_insertionSort _ _).mem_iff.mp ha)
    refine ⟨?_, ?_, draft.fee, draft.bundleOutputs, ?_⟩
    · rw [hspend]
      exact fillBundle_spendUtxos hsorted (by simp) hdraft
    · obtain ⟨first, hfirst⟩ := List.exists_mem_of_ne_nil _ hne
      obtain ⟨entry, hentry⟩ := List.exists_mem_of_ne_nil _ (hall first hfirst).1
      exact ⟨entry.1, entry.2, (hall first hfirst).2 entry hentry⟩
    · rw [hspend]
      exact hmade

/-- The history of a bundle that becomes pending. -/
def PendingStatus (state : State) (m6id : M6id) (height : Nat)
    (status : HeightRollBack WithdrawalBundleStatus) : Prop :=
  state.withdrawalBundles[m6id]? = none ∧ status = HeightRollBack.new .pending height ∨
    ∃ bundle earlier, state.withdrawalBundles[m6id]? = some (bundle, earlier) ∧
      (HeightRollBack.latest earlier).height ≤ height ∧
      status = NonEmpty.push earlier ⟨.pending, height⟩

theorem pendingStatus_ok {status : HeightRollBack WithdrawalBundleStatus}
    (h : state.pendingStatus m6id height = .ok status) :
    state.PendingStatus m6id height status := by
  unfold pendingStatus at h
  split at h
  case h_1 bundle earlier hget =>
    obtain ⟨hheight, rfl⟩ := HeightRollBack.push_eq_some.mp (okOr_eq_ok.mp h)
    exact .inr ⟨bundle, earlier, hget, hheight, rfl⟩
  case h_2 hget =>
    cases h
    exact .inl ⟨hget, rfl⟩

/-- What follows the events of a block: nothing, or a bundle becomes pending. -/
inductive CollectEffect (height : Nat) (state : State) : State → Prop
  | unchanged : CollectEffect height state state
  | collected {bundle status} (hgap : state.failureGapReached height = .ok true)
      (hidle : state.pendingWithdrawalBundle = none)
      (hbundle : state.Collected height bundle)
      (hstatus : state.PendingStatus bundle.computeM6id height status) :
      CollectEffect height state { state with
        pendingWithdrawalBundle := some bundle.computeM6id
        withdrawalBundles :=
          state.withdrawalBundles.insert bundle.computeM6id (.known bundle, status) }

theorem collectPending_ok (h : state.collectPending height = .ok state') :
    CollectEffect height state state' := by
  obtain ⟨gapReached, hgap, h⟩ := bind_eq_ok.mp h
  split at h
  case isTrue hcollect =>
    obtain ⟨hreached, hidle⟩ := hcollect
    obtain ⟨collected, hcollected, h⟩ := bind_eq_ok.mp h
    cases collected with
    | none =>
      cases h
      exact .unchanged
    | some bundle =>
      obtain ⟨status, hstatus, h⟩ := bind_eq_ok.mp h
      cases h
      exact .collected (hreached ▸ hgap) hidle (collectWithdrawalBundle_ok hcollected)
        (pendingStatus_ok hstatus)
  case isFalse =>
    cases h
    exact .unchanged

/-- What an event of a block does to the state. -/
inductive EventEffect (height : Nat) (state : State) : BlockEvent → State → Prop
  | deposit (deposit : Deposit) :
      EventEffect height state (.deposit deposit)
        { state with utxos := state.utxos.insert (.deposit deposit.outpoint) deposit.output }
  | withdrawalBundle {event state'}
      (heffect : BundleEffect height event.m6id state event.status state') :
      EventEffect height state (.withdrawalBundle event) state'

theorem connect2wpdEvent_ok {c c' : Connecting} {event : MainBlockHash × BlockEvent}
    (h : connect2wpdEvent height c event = .ok c') :
    EventEffect height c.state event.2 c'.state := by
  unfold connect2wpdEvent at h
  split at h
  case h_1 deposit hevent =>
    cases h
    rw [hevent]
    exact .deposit deposit
  case h_2 bundleEvent hevent =>
    obtain ⟨⟨state', indexEvents'⟩, hconnect, h⟩ := bind_eq_ok.mp h
    cases h
    rw [hevent]
    exact .withdrawalBundle (connectWithdrawalBundleEvent_ok hconnect)

/-- An invariant of connecting two-way peg data, together with the events
consumed so far: it is kept by every event, by the logs of events, and by the
collection of a bundle. -/
theorem connectTwoWayPegData_history {P : List BlockEvent → State → Prop} {data : TwoWayPegData}
    (hheight : state.height = some height) (hinit : P [] state)
    (hevent : ∀ done event s s', P done s → EventEffect height s event s' → P (done ++ [event]) s')
    (hrecord : ∀ done s blockIndexEvents depositBlocks withdrawalBundleEventBlocks, P done s →
      P done { s with blockIndexEvents, depositBlocks, withdrawalBundleEventBlocks })
    (hcollect : ∀ done s s', P done s → CollectEffect height s s' → P done s')
    (h : state.connectTwoWayPegData data = .ok state') : P (data.events.map Prod.snd) state' := by
  unfold connectTwoWayPegData at h
  rw [hheight, okOr_some, ok_bind] at h
  obtain ⟨c, hfold, h⟩ := bind_eq_ok.mp h
  refine hcollect _ _ _ ?_ (collectPending_ok h)
  refine hrecord _ c.state _ _ _ ?_
  refine foldlM_history
    (P := fun (done : List (MainBlockHash × BlockEvent)) (c : Connecting) =>
      P (done.map Prod.snd) c.state)
    (s := ⟨state, .empty, none, none⟩) hinit ?_ hfold
  intro done event c c' _ hc hstep
  rw [List.map_append]
  exact hevent _ _ _ _ hc (connect2wpdEvent_ok hstep)

theorem exists_height_of_connectTwoWayPegData {data : TwoWayPegData}
    (h : state.connectTwoWayPegData data = .ok state') : ∃ height, state.height = some height := by
  obtain ⟨height, hheight, -⟩ := bind_eq_ok.mp h
  exact ⟨height, okOr_eq_ok.mp hheight⟩

end State

end PlainBitnames
