import PlainBitnames.Instance
import PlainBitnames.State.EventLog
import PlainBitnames.State.Movements

/-!
The block index and the movements outside of block bodies. A confirmation can spend the
outputs of a bundle without a word in the index; the index is exact for the blocks without
such a confirmation.
-/

namespace PlainBitnames

open Fallible

section

variable [Primitives]

namespace State

/-- The state before the events of a block. -/
def connecting (state : State) : Connecting := ⟨state, .empty, none, none⟩

/-- What is connected with some data at a height is what is in the index there, and there is
no entry if nothing moved. -/
def Indexed (state : State) (height : Nat) (moved : BlockIndexEvents) : Prop :=
  (moved = .empty → state.blockIndexEvents[height]? = none) ∧
    (moved ≠ .empty → ∃ entry, state.blockIndexEvents[height]? = some entry ∧ entry.Same moved)

variable {state state' : State}

/-- The entry of the index is what the events have listed, if anything. -/
theorem connectTwoWayPegData_index {data : TwoWayPegData} {height : Nat}
    (hheight : state.height = some height) (h : state.connectTwoWayPegData data = .ok state') :
    ∃ c, data.events.foldlM (connect2wpdEvent height) state.connecting = .ok c ∧
      state'.blockIndexEvents =
        if c.indexEvents.isEmpty then state.blockIndexEvents
        else state.blockIndexEvents.insert height c.indexEvents := by
  unfold connectTwoWayPegData at h
  rw [hheight, okOr_some, ok_bind] at h
  obtain ⟨c, hfold, h⟩ := bind_eq_ok.mp h
  have hframe : c.state.blockIndexEvents = state.blockIndexEvents :=
    foldlM_invariant (P := fun c : Connecting => c.state.blockIndexEvents = state.blockIndexEvents)
      (s := state.connecting) rfl
      (fun _ _ _ _ hc hstep => (connect2wpdEvent_ok hstep).frame.2.2.2.1.trans hc) hfold
  refine ⟨c, hfold, ?_⟩
  rw [(collectPending_ok h).frame.2.2.2.1, ← hframe]
  rfl

/-- All entries of the index are at heights that have been reached. -/
def IndexBelow (state : State) : Prop :=
  ∀ height ∈ state.blockIndexEvents, ∃ top, state.height = some top ∧ height ≤ top

theorem IndexBelow.applyBlock {ctxt : BatchVerificationContext} {header : Header} {body : Body}
    (hbelow : state.IndexBelow) (h : state.applyBlock ctxt header body = .ok state') :
    state'.IndexBelow ∧ ∀ height, state'.height = some height →
      state'.blockIndexEvents[height]? = none := by
  have hheight := applyBlock_height h
  have hindex : state'.blockIndexEvents = state.blockIndexEvents := by
    obtain ⟨_, _, _, -, -, -, -, rfl⟩ := applyBlock_ok h
    rfl
  have hlt : ∀ height ∈ state'.blockIndexEvents, height < heightAfter state.height := by
    intro height hmem
    rw [hindex] at hmem
    obtain ⟨top, htop, hle⟩ := hbelow height hmem
    rw [htop]
    exact Nat.lt_succ_of_le hle
  refine ⟨fun height hmem => ⟨_, hheight, (hlt height hmem).le⟩, ?_⟩
  intro height heq
  rw [← Db.not_mem_iff]
  intro hmem
  cases hheight.symm.trans heq
  exact (hlt _ hmem).false

theorem IndexBelow.connectTwoWayPegData {data : TwoWayPegData} (hbelow : state.IndexBelow)
    (h : state.connectTwoWayPegData data = .ok state') : state'.IndexBelow := by
  obtain ⟨top, hheight⟩ := exists_height_of_connectTwoWayPegData h
  obtain ⟨c, -, hindex⟩ := connectTwoWayPegData_index hheight h
  have hheight' := (connectTwoWayPegData_logs hheight h).1
  intro height hmem
  refine ⟨top, hheight', ?_⟩
  have hkept (hold : height ∈ state.blockIndexEvents) : height ≤ top := by
    obtain ⟨_, htop, hle⟩ := hbelow height hold
    cases hheight.symm.trans htop
    exact hle
  rw [hindex] at hmem
  split at hmem
  · exact hkept hmem
  · rcases (Db.mem_insert _ _ _ _).mp hmem with rfl | hold
    · exact le_rfl
    · exact hkept hold

/-- When a block has been applied in a run of blocks that are each followed by two-way peg
data, its height is not yet in the index. -/
theorem not_indexed_of_rounds {rounds : List Round} {ctxt : BatchVerificationContext}
    {header : Header} {body : Body} {height : Nat}
    (hrun : State.empty.run (roundSteps rounds) = .ok state)
    (h : state.applyBlock ctxt header body = .ok state') (hheight : state'.height = some height) :
    state'.blockIndexEvents[height]? = none := by
  have hbelow : state.IndexBelow := by
    refine foldlM_invariant (P := IndexBelow) ?_ ?_ hrun
    · intro height hmem
      exact absurd hmem (Db.not_mem_empty height)
    · intro step _ s s' hs hstep
      cases step with
      | block => exact (hs.applyBlock hstep).1
      | peg => exact hs.connectTwoWayPegData hstep
  exact (hbelow.applyBlock h).2 height hheight

end State

/-- If the height has no entry in the index, or gets a new one, then the entry after the
connection is exact if and only if no event confirms a bundle whose outputs are not yet
spent. -/
theorem movements_indexed_iff {state state' : State} {data : TwoWayPegData} {height : Nat}
    (hheight : state.height = some height)
    (hfresh : state.blockIndexEvents[height]? = none ∨ state.ListsSome data.events)
    (h : state.connectTwoWayPegData data = .ok state') :
    state'.Indexed height (State.movements height state.connecting data.events) ↔
      State.Expected height state.connecting data.events := by
  obtain ⟨c, hfold, hindex⟩ := State.connectTwoWayPegData_index hheight h
  obtain ⟨listed, hlisted, -, hsame, hlt⟩ := State.foldlM_lists hfold
  have hsome := State.foldlM_listsSome hfold
  have hempty : c.indexEvents = listed :=
    hlisted.trans (BlockIndexEvents.empty_append listed)
  rw [hempty] at hindex hsome
  have hentry : state'.blockIndexEvents[height]? =
      if listed = .empty then none else some listed := by
    rw [hindex]
    by_cases hnone : listed = .empty
    · have hnot : ¬ state.ListsSome data.events := fun hlists => hsome.mpr (.inr hlists) hnone
      rw [if_pos (BlockIndexEvents.isEmpty_iff.mpr hnone), if_pos hnone]
      exact hfresh.resolve_right hnot
    · rw [if_neg (mt BlockIndexEvents.isEmpty_iff.mp hnone), if_neg hnone, Db.get_insert_self]
  unfold State.Indexed
  rw [hentry]
  constructor
  · rintro ⟨-, hexact⟩
    by_contra hnot
    have hshort := hlt hnot
    have hmoved : State.movements height state.connecting data.events ≠ .empty := by
      intro hnone
      rw [hnone] at hshort
      exact Nat.not_lt_zero _ hshort
    obtain ⟨entry, hget, hentrySame⟩ := hexact hmoved
    split at hget
    · cases hget
    · cases hget
      exact hshort.ne hentrySame.bundleSpends_perm.length_eq
  · intro hexpected
    have hlistedSame := hsame hexpected
    have hiff : listed = .empty ↔
        State.movements height state.connecting data.events = .empty := by
      rw [← BlockIndexEvents.isEmpty_iff, ← BlockIndexEvents.isEmpty_iff, hlistedSame.isEmpty_eq]
    constructor
    · exact fun hmoved => if_pos (hiff.mpr hmoved)
    · exact fun hmoved => ⟨listed, if_neg (mt hiff.mp hmoved), hlistedSame⟩

end

namespace Instance

/-- The state after a block without transactions. -/
def unindexed : State := after [.inl ⟨⟨[], []⟩, [], []⟩]

def firstDeposit : BlockEvent := .deposit ⟨⟨0, 0⟩, 7, 100⟩

def pegData (events : List BlockEvent) : TwoWayPegData := ⟨[(0, ⟨events⟩)]⟩

/-- A deposit, and a bundle that was not made here and that is submitted and confirmed. -/
def confirmingData : TwoWayPegData :=
  pegData [firstDeposit, .withdrawalBundle ⟨[5], .submitted⟩, .withdrawalBundle ⟨[5], .confirmed⟩]

def connectedTo (data : TwoWayPegData) : State :=
  (unindexed.connectTwoWayPegData data).toOption.getD unindexed

/-- The bundle removes the deposit, and the index does not say so. -/
theorem confirmed_spend_not_indexed :
    State.empty.run (stepsOf [.inl ⟨⟨[], []⟩, [], []⟩]) = .ok unindexed ∧
      unindexed.height = some 0 ∧ unindexed.blockIndexEvents[0]? = none ∧
      unindexed.connectTwoWayPegData confirmingData = .ok (connectedTo confirmingData) ∧
      ¬ (connectedTo confirmingData).Indexed 0
        (State.movements 0 unindexed.connecting confirmingData.events) := by
  refine ⟨eq_ok_getD State.empty (by decide +kernel), by decide +kernel, by decide +kernel,
    eq_ok_getD unindexed (by decide +kernel), ?_⟩
  rintro ⟨-, hexact⟩
  have hmoved : (State.movements 0 unindexed.connecting
      confirmingData.events).bundleSpends.length = 1 := by decide +kernel
  have hlisted : ((connectedTo confirmingData).blockIndexEvents[0]?.map
      fun entry => entry.bundleSpends.length) = some 0 := by decide +kernel
  obtain ⟨entry, hget, hsame⟩ := hexact fun hnone => by
    rw [hnone] at hmoved
    cases hmoved
  rw [hget] at hlisted
  have hlength := hsame.bundleSpends_perm.length_eq
  rw [hmoved] at hlength
  cases hlength.symm.trans (Option.some.inj hlisted)

theorem movements_indexed_iff_deposit :
    (connectedTo (pegData [firstDeposit])).Indexed 0
      (State.movements 0 unindexed.connecting (pegData [firstDeposit]).events) :=
  have hheight : unindexed.height = some 0 := by decide +kernel
  have hconnect : unindexed.connectTwoWayPegData (pegData [firstDeposit]) =
      .ok (connectedTo (pegData [firstDeposit])) := eq_ok_getD unindexed (by decide +kernel)
  (movements_indexed_iff hheight (.inl (by decide +kernel)) hconnect).mpr
    ((State.expected_cons rfl).mpr ⟨id, State.expected_nil _ _⟩)

end Instance

end PlainBitnames
