import PlainBitnames.State.PegSpec

/-!
What disconnecting leaves alone. Taking back two-way peg data leaves the tip and the
height of the state and its names, and takes only entries from the logs of event
blocks. Taking back a block leaves the logs.
-/

namespace PlainBitnames

open Fallible

variable [Primitives]

namespace State

/-- The two states have the same tip, height, names and logs of event blocks. -/
structure PegFrame (state state' : State) : Prop where
  tip : state'.tip = state.tip
  height : state'.height = state.height
  bitnames : state'.bitnames = state.bitnames
  deposits : state'.depositBlocks = state.depositBlocks
  bundles : state'.withdrawalBundleEventBlocks = state.withdrawalBundleEventBlocks

/-- Every entry in the logs of event blocks was there before. -/
structure LogsWithin (state state' : State) : Prop where
  deposits : ∀ {i : SeqIdx} {entry}, state'.depositBlocks[i]? = some entry →
    state.depositBlocks[i]? = some entry
  bundles : ∀ {i : SeqIdx} {entry}, state'.withdrawalBundleEventBlocks[i]? = some entry →
    state.withdrawalBundleEventBlocks[i]? = some entry

/-- What is left of a state when two-way peg data is taken back. -/
structure PegUndone (state state' : State) : Prop where
  tip : state'.tip = state.tip
  height : state'.height = state.height
  bitnames : state'.bitnames = state.bitnames
  logs : LogsWithin state state'

variable {state state' : State} {m6id : M6id} {height : Nat}

theorem PegFrame.refl (state : State) : PegFrame state state := ⟨rfl, rfl, rfl, rfl, rfl⟩

theorem PegFrame.trans {state'' : State} (h : PegFrame state state') (h' : PegFrame state' state'') :
    PegFrame state state'' :=
  ⟨h'.tip.trans h.tip, h'.height.trans h.height, h'.bitnames.trans h.bitnames,
    h'.deposits.trans h.deposits, h'.bundles.trans h.bundles⟩

theorem LogsWithin.trans {state'' : State} (h : LogsWithin state state')
    (h' : LogsWithin state' state'') : LogsWithin state state'' :=
  ⟨fun hentry => h.deposits (h'.deposits hentry), fun hentry => h.bundles (h'.bundles hentry)⟩

theorem LogsWithin.of_eq (hdeposits : state'.depositBlocks = state.depositBlocks)
    (hbundles : state'.withdrawalBundleEventBlocks = state.withdrawalBundleEventBlocks) :
    LogsWithin state state' :=
  ⟨fun hentry => hdeposits ▸ hentry, fun hentry => hbundles ▸ hentry⟩

theorem PegUndone.refl (state : State) : PegUndone state state := ⟨rfl, rfl, rfl, .of_eq rfl rfl⟩

theorem putOrDelete_frame (state : State) (m6id : M6id) (bundle : WithdrawalBundleInfo)
    (status : Option (HeightRollBack WithdrawalBundleStatus)) :
    PegFrame state (state.putOrDelete m6id bundle status) := ⟨rfl, rfl, rfl, rfl, rfl⟩

theorem restoreFromBundle_frame {entries : List (OutPoint × FilledOutput)}
    (h : entries.foldlM restoreFromBundle state = .ok state') : PegFrame state state' := by
  refine foldlM_invariant (P := PegFrame state) (.refl state) (fun _ _ _ _ hframe hstep => ?_) h
  obtain ⟨-, hstep⟩ := ensure_bind_eq_ok.mp hstep
  cases hstep
  exact hframe.trans ⟨rfl, rfl, rfl, rfl, rfl⟩

theorem spendForBundle_frame {missing : OutPoint → Error} {entries : List (OutPoint × FilledOutput)}
    (h : entries.foldlM (spendForBundle m6id missing) state = .ok state') : PegFrame state state' := by
  refine foldlM_invariant (P := PegFrame state) (.refl state) (fun _ _ _ _ hframe hstep => ?_) h
  obtain ⟨-, hstep⟩ := ensure_bind_eq_ok.mp hstep
  cases hstep
  exact hframe.trans ⟨rfl, rfl, rfl, rfl, rfl⟩

theorem restorePending_frame {bundle : WithdrawalBundleInfo}
    {prev : Option (HeightRollBack WithdrawalBundleStatus)}
    (h : state.restorePending m6id bundle prev = .ok state') : PegFrame state state' := by
  unfold restorePending at h
  split at h
  case h_1 | h_2 =>
    cases h
    exact .refl state
  case h_3 =>
    split at h
    case isTrue =>
      obtain ⟨_, hspent, h⟩ := bind_eq_ok.mp h
      cases h
      exact (restoreFromBundle_frame hspent).trans ⟨rfl, rfl, rfl, rfl, rfl⟩
    case isFalse =>
      cases h
      exact .refl state

theorem disconnectWithdrawalBundleSubmitted_frame
    (h : state.disconnectWithdrawalBundleSubmitted height m6id = .ok state') :
    PegFrame state state' := by
  unfold disconnectWithdrawalBundleSubmitted at h
  split at h
  case h_1 =>
    split at h
    case isTrue =>
      cases h
      exact .refl state
    case isFalse => cases h
  case h_2 bundle status _ =>
    obtain ⟨-, h⟩ := ensure_bind_eq_ok.mp h
    obtain ⟨-, h⟩ := ensure_bind_eq_ok.mp h
    obtain ⟨restored, hrestored, h⟩ := bind_eq_ok.mp h
    cases h
    exact (restorePending_frame hrestored).trans (putOrDelete_frame _ _ _ _)

theorem disconnectWithdrawalBundleConfirmed_frame
    (h : state.disconnectWithdrawalBundleConfirmed height m6id = .ok state') :
    PegFrame state state' := by
  obtain ⟨⟨bundle, status⟩, -, h⟩ := bind_eq_ok.mp h
  dsimp only at h
  split at h
  case isTrue =>
    cases h
    exact .refl state
  case isFalse =>
    obtain ⟨-, h⟩ := ensure_bind_eq_ok.mp h
    obtain ⟨-, h⟩ := ensure_bind_eq_ok.mp h
    obtain ⟨prev, -, h⟩ := bind_eq_ok.mp h
    obtain ⟨-, h⟩ := ensure_bind_eq_ok.mp h
    obtain ⟨⟨restored, bundle'⟩, hrestored, h⟩ := bind_eq_ok.mp h
    cases h
    refine PegFrame.trans ?_ (putOrDelete_frame _ _ _ _)
    unfold restoreConfirmed at hrestored
    split at hrestored
    case h_1 =>
      split at hrestored
      case isTrue =>
        obtain ⟨_, hspent, hrestored⟩ := bind_eq_ok.mp hrestored
        cases hrestored
        exact restoreFromBundle_frame hspent
      case isFalse =>
        cases hrestored
        exact .refl state
    case h_2 =>
      obtain ⟨_, hspent, hrestored⟩ := bind_eq_ok.mp hrestored
      cases hrestored
      exact restoreFromBundle_frame hspent
    case h_3 =>
      cases hrestored
      exact .refl state

theorem disconnectWithdrawalBundleFailed_frame
    (h : state.disconnectWithdrawalBundleFailed height m6id = .ok state') :
    PegFrame state state' := by
  obtain ⟨⟨bundle, status⟩, -, h⟩ := bind_eq_ok.mp h
  dsimp only at h
  split at h
  case isTrue =>
    cases h
    exact .refl state
  case isFalse =>
    obtain ⟨-, h⟩ := ensure_bind_eq_ok.mp h
    obtain ⟨-, h⟩ := ensure_bind_eq_ok.mp h
    obtain ⟨prev, -, h⟩ := bind_eq_ok.mp h
    obtain ⟨-, h⟩ := ensure_bind_eq_ok.mp h
    obtain ⟨respent, hrespent, h⟩ := bind_eq_ok.mp h
    cases h
    refine PegFrame.trans ?_ (putOrDelete_frame _ _ _ _)
    unfold respendFailed at hrespent
    split at hrespent
    case h_1 | h_2 =>
      cases hrespent
      exact .refl state
    case h_3 =>
      split at hrespent
      case isTrue =>
        cases hrespent
        exact .refl state
      case isFalse =>
        obtain ⟨_, hspent, hrespent⟩ := bind_eq_ok.mp hrespent
        obtain ⟨latestFailed, -, hrespent⟩ := bind_eq_ok.mp hrespent
        obtain ⟨-, hrespent⟩ := ensure_bind_eq_ok.mp hrespent
        obtain ⟨-, hrespent⟩ := ensure_bind_eq_ok.mp hrespent
        cases hrespent
        exact (spendForBundle_frame hspent).trans ⟨rfl, rfl, rfl, rfl, rfl⟩

theorem disconnectEvent_frame {d d' : Disconnecting} {event : MainBlockHash × BlockEvent}
    (h : disconnectEvent height d event = .ok d') : PegFrame d.state d'.state := by
  unfold disconnectEvent at h
  split at h
  case h_1 =>
    obtain ⟨_, hdelete, h⟩ := bind_eq_ok.mp h
    obtain ⟨-, hdelete⟩ := ensure_bind_eq_ok.mp hdelete
    cases hdelete
    cases h
    exact ⟨rfl, rfl, rfl, rfl, rfl⟩
  case h_2 bundleEvent _ =>
    obtain ⟨_, hevent, h⟩ := bind_eq_ok.mp h
    cases h
    unfold disconnectWithdrawalBundleEvent at hevent
    split at hevent
    case h_1 => exact disconnectWithdrawalBundleSubmitted_frame hevent
    case h_2 => exact disconnectWithdrawalBundleConfirmed_frame hevent
    case h_3 => exact disconnectWithdrawalBundleFailed_frame hevent

theorem dropPending_frame (h : state.dropPending height = .ok state') : PegFrame state state' := by
  obtain ⟨_, -, h⟩ := bind_eq_ok.mp h
  split at h
  case h_1 =>
    split at h
    case isTrue =>
      obtain ⟨_, -, h⟩ := bind_eq_ok.mp h
      dsimp only at h
      split at h <;> cases h <;> exact ⟨rfl, rfl, rfl, rfl, rfl⟩
    case isFalse =>
      cases h
      exact .refl state
  case h_2 =>
    cases h
    exact .refl state

theorem dropEventBlock_get {log log' : Db SeqIdx (MainBlockHash × Nat)} {hash : Option MainBlockHash}
    {missing : Error} (h : dropEventBlock log hash height missing = .ok log') {i : SeqIdx}
    {entry : MainBlockHash × Nat} (hentry : log'[i]? = some entry) : log[i]? = some entry := by
  cases hash with
  | none =>
    cases h
    exact hentry
  | some hash =>
    obtain ⟨⟨last, _⟩, -, h⟩ := bind_eq_ok.mp h
    obtain ⟨-, h⟩ := ensure_bind_eq_ok.mp h
    obtain ⟨-, h⟩ := ensure_bind_eq_ok.mp h
    obtain ⟨-, h⟩ := ensure_bind_eq_ok.mp h
    cases h
    rw [Db.get_erase] at hentry
    split at hentry
    case isTrue => cases hentry
    case isFalse => exact hentry

theorem disconnectTwoWayPegData_undone {data : TwoWayPegData}
    (h : state.disconnectTwoWayPegData data = .ok state') : PegUndone state state' := by
  obtain ⟨_, -, h⟩ := bind_eq_ok.mp h
  obtain ⟨d, hevents, h⟩ := bind_eq_ok.mp h
  obtain ⟨_, hbundles, h⟩ := bind_eq_ok.mp h
  obtain ⟨dropped, hdrop, h⟩ := bind_eq_ok.mp h
  obtain ⟨_, hdeposits, h⟩ := bind_eq_ok.mp h
  cases h
  have hd : PegFrame state d.state :=
    foldlM_invariant (P := fun d : Disconnecting => PegFrame state d.state)
      ⟨rfl, rfl, rfl, rfl, rfl⟩
      (fun _ _ _ _ hframe hstep => hframe.trans (disconnectEvent_frame hstep)) hevents
  have hdropped := dropPending_frame hdrop
  refine ⟨hdropped.tip.trans hd.tip, hdropped.height.trans hd.height,
    hdropped.bitnames.trans hd.bitnames, ⟨fun hentry => ?_, fun hentry => ?_⟩⟩
  · have hentry := dropEventBlock_get hdeposits hentry
    rw [hdropped.deposits] at hentry
    exact hd.deposits ▸ hentry
  · have hentry := dropEventBlock_get hbundles (hdropped.bundles ▸ hentry)
    exact hd.bundles ▸ hentry

theorem deleteUtxo_frame {outpoints : List OutPoint}
    (h : outpoints.foldlM deleteUtxo state = .ok state') : PegFrame state state' := by
  refine foldlM_invariant (P := PegFrame state) (.refl state) (fun _ _ _ _ hframe hstep => ?_) h
  obtain ⟨-, hstep⟩ := ensure_bind_eq_ok.mp hstep
  cases hstep
  exact hframe.trans ⟨rfl, rfl, rfl, rfl, rfl⟩

theorem unspend_frame {outpoints : List OutPoint}
    (h : outpoints.foldlM unspend state = .ok state') : PegFrame state state' := by
  refine foldlM_invariant (P := PegFrame state) (.refl state) (fun _ _ _ _ hframe hstep => ?_) h
  obtain ⟨_, -, hstep⟩ := bind_eq_ok.mp hstep
  cases hstep
  exact hframe.trans ⟨rfl, rfl, rfl, rfl, rfl⟩

theorem disconnectTip_logs {header : Header} {body : Body}
    (h : state.disconnectTip header body = .ok state') : LogsWithin state state' := by
  obtain ⟨_, -, h⟩ := bind_eq_ok.mp h
  obtain ⟨-, h⟩ := ensure_bind_eq_ok.mp h
  obtain ⟨height, -, h⟩ := bind_eq_ok.mp h
  obtain ⟨reverted, hreverted, h⟩ := bind_eq_ok.mp h
  obtain ⟨deleted, hdeleted, h⟩ := bind_eq_ok.mp h
  obtain ⟨_, -, h⟩ := bind_eq_ok.mp h
  obtain ⟨-, h⟩ := ensure_bind_eq_ok.mp h
  have htxs : LogsWithin state reverted.1 := by
    refine foldlM_invariant (P := fun acc : State × List FilledTransaction => LogsWithin state acc.1)
      (.of_eq rfl rfl) ?_ hreverted
    rintro tx ⟨before, filled⟩ after - hbefore hstep
    obtain ⟨_, -, hstep⟩ := bind_eq_ok.mp hstep
    obtain ⟨bitnames, -, hstep⟩ := bind_eq_ok.mp hstep
    obtain ⟨_, hdelete, hstep⟩ := bind_eq_ok.mp hstep
    obtain ⟨_, hunspend, hstep⟩ := bind_eq_ok.mp hstep
    cases hstep
    have hframe := (deleteUtxo_frame hdelete).trans (unspend_frame hunspend)
    exact hbefore.trans (.of_eq hframe.deposits hframe.bundles)
  have hcoinbase := deleteUtxo_frame hdeleted
  have hlogs := htxs.trans (.of_eq hcoinbase.deposits hcoinbase.bundles)
  cases hprev : header.prevSideHash with
  | none =>
    rw [hprev] at h
    cases height with
    | zero =>
      cases h
      exact hlogs.trans (.of_eq rfl rfl)
    | succ => cases h
  | some prev =>
    rw [hprev] at h
    cases height with
    | zero => cases h
    | succ height =>
      cases h
      exact hlogs.trans (.of_eq rfl rfl)

end State

end PlainBitnames
