import PlainBitnames.Lib.AppendLog
import PlainBitnames.State.Invariants

/-!
The two logs of event blocks. Connecting two-way peg data appends the last
mainchain block with a deposit to the one, and the last mainchain block with an
event of a withdrawal bundle to the other, each with the height of the tip. The
keys of a log are numbers stored with the least significant byte first, so the
order of the store is the order of writing for the first 256 entries only.
-/

namespace PlainBitnames

open Borsh Fallible

namespace SeqIdx

/-- The key of the entry written after a number of others. -/
def ofNat (n : Nat) : SeqIdx := ⟨UInt32.ofNat n⟩

theorem bytes_ofNat {n : Nat} (hn : n < 256) : (ofNat n).bytes = [UInt8.ofNat n, 0, 0, 0] := by
  have hval : (UInt32.ofNat n).toNat = n := UInt32.toNat_ofNat_of_lt' (hn.trans (by decide))
  change leBytes 4 (UInt32.ofNat n).toNat = _
  rw [hval]
  simp [leBytes, Nat.div_eq_of_lt hn]

theorem increasing_ofNat : AppendLog.Increasing compare ofNat 256 := by
  intro i j hij hj
  have hlt : UInt8.ofNat i < UInt8.ofNat j := by
    rw [UInt8.lt_iff_toNat_lt, UInt8.toNat_ofNat_of_lt' (hij.trans hj),
      UInt8.toNat_ofNat_of_lt' hj]
    exact hij
  change List.compareLex compare (ofNat i).bytes (ofNat j).bytes = .lt
  rw [bytes_ofNat (hij.trans hj), bytes_ofNat hj, List.compareLex_cons_cons,
    Std.compare_eq_lt.mpr hlt]
  rfl

theorem ofNat_256_lt : compare (ofNat 256) (ofNat 255) = .lt := by decide

end SeqIdx

section

variable [Primitives]

/-- The mainchain block of the last event of a kind. -/
def latestBlock (kind : BlockEvent → Bool) (events : List (MainBlockHash × BlockEvent)) :
    Option MainBlockHash :=
  (events.filter fun event => kind event.2).getLast?.map Prod.fst

def BlockEvent.isDeposit : BlockEvent → Bool
  | .deposit _ => true
  | .withdrawalBundle _ => false

def BlockEvent.isWithdrawalBundle : BlockEvent → Bool
  | .deposit _ => false
  | .withdrawalBundle _ => true

theorem latestBlock_append (kind : BlockEvent → Bool) (events : List (MainBlockHash × BlockEvent))
    (event : MainBlockHash × BlockEvent) :
    latestBlock kind (events ++ [event]) =
      if kind event.2 then some event.1 else latestBlock kind events := by
  unfold latestBlock
  rw [List.filter_append]
  split
  case isTrue hkind => simp [hkind]
  case isFalse hkind => simp [hkind]

/-- One of the two logs of event blocks: where the state keeps it, and which
events it is about. -/
structure EventLog where
  log : State → Db SeqIdx (MainBlockHash × Nat)
  kind : BlockEvent → Bool
  log_empty : log State.empty = ∅
  log_applyBlock : ∀ {ctxt header body} {state state' : State},
    state.applyBlock ctxt header body = .ok state' → log state' = log state
  log_connect : ∀ {data : TwoWayPegData} {height : Nat} {state state' : State},
    state.height = some height → state.connectTwoWayPegData data = .ok state' →
      log state' = State.appendEventBlock (log state) (latestBlock kind data.events) height

namespace State

variable {height : Nat} {state state' : State}

theorem EventEffect.frame {event : BlockEvent} (h : EventEffect height state event state') :
    state'.tip = state.tip ∧ state'.height = state.height ∧ state'.bitnames = state.bitnames ∧
      state'.blockIndexEvents = state.blockIndexEvents ∧
      state'.depositBlocks = state.depositBlocks ∧
      state'.withdrawalBundleEventBlocks = state.withdrawalBundleEventBlocks := by
  cases h with
  | deposit => exact ⟨rfl, rfl, rfl, rfl, rfl, rfl⟩
  | withdrawalBundle heffect => exact heffect.frame

theorem CollectEffect.frame (h : CollectEffect height state state') :
    state'.tip = state.tip ∧ state'.height = state.height ∧ state'.bitnames = state.bitnames ∧
      state'.blockIndexEvents = state.blockIndexEvents ∧
      state'.depositBlocks = state.depositBlocks ∧
      state'.withdrawalBundleEventBlocks = state.withdrawalBundleEventBlocks := by
  cases h <;> exact ⟨rfl, rfl, rfl, rfl, rfl, rfl⟩

/-- The logs and the block hashes seen while the events of some data are
connected. -/
structure LogsDuring (state : State) (done : List (MainBlockHash × BlockEvent))
    (c : Connecting) : Prop where
  height : c.state.height = state.height
  depositBlocks : c.state.depositBlocks = state.depositBlocks
  withdrawalBundleEventBlocks :
    c.state.withdrawalBundleEventBlocks = state.withdrawalBundleEventBlocks
  latestDeposit : c.latestDepositBlockHash = latestBlock BlockEvent.isDeposit done
  latestWithdrawalBundleEvent : c.latestWithdrawalBundleEventBlockHash =
    latestBlock BlockEvent.isWithdrawalBundle done

theorem LogsDuring.step {done : List (MainBlockHash × BlockEvent)} {c c' : Connecting}
    {event : MainBlockHash × BlockEvent} (hc : state.LogsDuring done c)
    (h : connect2wpdEvent height c event = .ok c') : state.LogsDuring (done ++ [event]) c' := by
  obtain ⟨-, hheight, -, -, hdeposits, hbundles⟩ := (connect2wpdEvent_ok h).frame
  have hheight := hheight.trans hc.height
  have hdeposits := hdeposits.trans hc.depositBlocks
  have hbundles := hbundles.trans hc.withdrawalBundleEventBlocks
  obtain ⟨hash, event⟩ := event
  cases event with
  | deposit deposit =>
    cases h
    refine ⟨hheight, hdeposits, hbundles, ?_, ?_⟩
    · rw [latestBlock_append]
      rfl
    · rw [latestBlock_append]
      exact hc.latestWithdrawalBundleEvent
  | withdrawalBundle event =>
    obtain ⟨_, -, h⟩ := bind_eq_ok.mp h
    cases h
    refine ⟨hheight, hdeposits, hbundles, ?_, ?_⟩
    · rw [latestBlock_append]
      exact hc.latestDeposit
    · rw [latestBlock_append]
      rfl

/-- What connecting two-way peg data does to the logs. -/
theorem connectTwoWayPegData_logs {data : TwoWayPegData} (hheight : state.height = some height)
    (h : state.connectTwoWayPegData data = .ok state') :
    state'.height = some height ∧
      state'.depositBlocks = appendEventBlock state.depositBlocks
        (latestBlock BlockEvent.isDeposit data.events) height ∧
      state'.withdrawalBundleEventBlocks = appendEventBlock state.withdrawalBundleEventBlocks
        (latestBlock BlockEvent.isWithdrawalBundle data.events) height := by
  unfold connectTwoWayPegData at h
  rw [hheight, okOr_some, ok_bind] at h
  obtain ⟨c, hfold, h⟩ := bind_eq_ok.mp h
  obtain ⟨-, hheight', -, -, hdeposits, hbundles⟩ := (collectPending_ok h).frame
  have hc : state.LogsDuring data.events c :=
    foldlM_history (P := state.LogsDuring) (s := ⟨state, .empty, none, none⟩)
      ⟨rfl, rfl, rfl, rfl, rfl⟩ (fun _ _ _ _ _ hc hstep => hc.step hstep) hfold
  refine ⟨?_, ?_, ?_⟩
  · rw [hheight', ← hheight]
    exact hc.height
  · rw [hdeposits, ← hc.depositBlocks, ← hc.latestDeposit]
    rfl
  · rw [hbundles, ← hc.withdrawalBundleEventBlocks, ← hc.latestWithdrawalBundleEvent]
    rfl

theorem connectTwoWayPegData_tip {data : TwoWayPegData}
    (h : state.connectTwoWayPegData data = .ok state') : state'.tip = state.tip := by
  obtain ⟨height, -, h⟩ := bind_eq_ok.mp h
  obtain ⟨c, hfold, h⟩ := bind_eq_ok.mp h
  have hc : c.state.tip = state.tip :=
    foldlM_invariant (P := fun c : Connecting => c.state.tip = state.tip)
      (s := ⟨state, .empty, none, none⟩) rfl
      (fun _ _ _ _ hc hstep => (connect2wpdEvent_ok hstep).frame.1.trans hc) hfold
  exact (collectPending_ok h).frame.1.trans hc

end State

namespace EventLog

def depositBlocks : EventLog where
  log := State.depositBlocks
  kind := BlockEvent.isDeposit
  log_empty := rfl
  log_applyBlock h := by
    obtain ⟨_, _, _, -, -, -, -, rfl⟩ := State.applyBlock_ok h
    rfl
  log_connect hheight h := (State.connectTwoWayPegData_logs hheight h).2.1

def withdrawalBundleEventBlocks : EventLog where
  log := State.withdrawalBundleEventBlocks
  kind := BlockEvent.isWithdrawalBundle
  log_empty := rfl
  log_applyBlock h := by
    obtain ⟨_, _, _, -, -, -, -, rfl⟩ := State.applyBlock_ok h
    rfl
  log_connect hheight h := (State.connectTwoWayPegData_logs hheight h).2.2

end EventLog

end

end PlainBitnames
