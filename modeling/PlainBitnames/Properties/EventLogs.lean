import PlainBitnames.State.EventLog
import PlainBitnames.Instance

/-!
The logs of event blocks as stacks. In a run the entries of a log are read in
the order of writing as long as it has at most 256 of them. The entry after
these is put before the others, and is not found as the last one.
-/

namespace PlainBitnames

open Fallible AppendLog

section

variable [Primitives]

/-- An entry is written under a key not in use, next to the entries already
there, and is then the last one. -/
def StackWrite (log log' : Db SeqIdx (MainBlockHash × Nat)) (entry : MainBlockHash × Nat) : Prop :=
  ∃ key, key ∉ log ∧ log' = log.insert key entry ∧ Db.last log' = some (key, entry)

namespace EventLog

/-- The height and the entries after a further step. -/
def write (L : EventLog) (before : Option Nat × List (MainBlockHash × Nat)) :
    Step → Option Nat × List (MainBlockHash × Nat)
  | .block _ _ _ => (some (State.heightAfter before.1), before.2)
  | .peg data => (before.1, before.2 ++
      ((latestBlock L.kind data.events).map fun hash => (hash, before.1.getD 0)).toList)

/-- The height and the entries after some steps. -/
def writes (L : EventLog) (steps : List Step) : Option Nat × List (MainBlockHash × Nat) :=
  steps.foldl L.write (none, [])

/-- The entries written by some steps, oldest first. -/
def written (L : EventLog) (steps : List Step) : List (MainBlockHash × Nat) := (L.writes steps).2

theorem writes_append (L : EventLog) (steps : List Step) (step : Step) :
    L.writes (steps ++ [step]) = L.write (L.writes steps) step := by
  rw [writes, List.foldl_append]
  rfl

theorem written_block (L : EventLog) (steps : List Step) (ctxt : BatchVerificationContext)
    (header : Header) (body : Body) :
    L.written (steps ++ [.block ctxt header body]) = L.written steps := by
  rw [written, writes_append]
  rfl

theorem written_peg (L : EventLog) (steps : List Step) (data : TwoWayPegData) :
    L.written (steps ++ [.peg data]) = L.written steps ++
      ((latestBlock L.kind data.events).map fun hash =>
        (hash, (L.writes steps).1.getD 0)).toList := by
  rw [written, writes_append]
  rfl

/-- Every write of a run is one on top of a stack, and in every state reached
the log lists what was written, newest first. -/
def Stacked (L : EventLog) (steps : List Step) : Prop :=
  (∀ done data state state' hash height, done ++ [.peg data] <+: steps →
    State.empty.run done = .ok state → state.height = some height →
    latestBlock L.kind data.events = some hash →
    state.connectTwoWayPegData data = .ok state' →
      StackWrite (L.log state) (L.log state') (hash, height)) ∧
  ∀ done state, done <+: steps → State.empty.run done = .ok state →
    ((L.log state).toList.map Prod.snd).reverse = (L.written done).reverse

omit [Primitives] in
/-- The next key of a log that holds some entries. -/
theorem next_of_holds {log : Db SeqIdx (MainBlockHash × Nat)} {entries : List (MainBlockHash × Nat)}
    (h : Holds SeqIdx.ofNat log entries) : SeqIdx.next log = SeqIdx.ofNat entries.length := by
  unfold SeqIdx.next
  cases hentries : entries.getLast? with
  | none =>
    rw [List.getLast?_eq_none_iff] at hentries
    subst hentries
    have hlast : Db.last log = none := by
      rw [Db.last, h]
      rfl
    rw [hlast]
    rfl
  | some entry =>
    obtain ⟨init, rfl⟩ := List.getLast?_eq_some_iff.mp hentries
    rw [h.last, List.length_append]
    simp only [SeqIdx.ofNat, List.length_singleton, UInt32.ofNat_add]
    rfl

variable {steps : List Step}

theorem Stacked.of_prefix {L : EventLog} {steps' : List Step} (hle : steps <+: steps')
    (h : L.Stacked steps') : L.Stacked steps :=
  ⟨fun done data state state' hash height hdone =>
    h.1 done data state state' hash height (hdone.trans hle),
    fun done state hdone => h.2 done state (hdone.trans hle)⟩

theorem holds_of_run (L : EventLog) {state : State} (hrun : State.empty.run steps = .ok state) :
    state.height = (L.writes steps).1 ∧
      ((L.written steps).length ≤ 256 → Holds SeqIdx.ofNat (L.log state) (L.written steps)) := by
  refine State.run_history (P := fun steps state => state.height = (L.writes steps).1 ∧
    ((L.written steps).length ≤ 256 → Holds SeqIdx.ofNat (L.log state) (L.written steps)))
    ⟨rfl, fun _ => L.log_empty ▸ holds_empty⟩ ?_ hrun
  rintro done step state state' ⟨hheight, hholds⟩ hstep
  rw [writes_append]
  cases step with
  | block ctxt header body =>
    rw [written_block, L.log_applyBlock hstep]
    exact ⟨(State.applyBlock_height hstep).trans (by rw [hheight]; rfl), hholds⟩
  | peg data =>
    obtain ⟨height, hsome⟩ := State.exists_height_of_connectTwoWayPegData hstep
    refine ⟨(State.connectTwoWayPegData_logs hsome hstep).1.trans (hsome ▸ hheight), ?_⟩
    rw [written_peg, L.log_connect hsome hstep]
    intro hlength
    rw [List.length_append] at hlength
    have hholds := hholds (by omega)
    cases hlatest : latestBlock L.kind data.events with
    | none =>
      rw [Option.map_none, Option.toList_none, List.append_nil]
      exact hholds
    | some hash =>
      rw [hlatest, Option.map_some, Option.toList_some, List.length_singleton] at hlength
      rw [Option.map_some, Option.toList_some, ← hheight, hsome, State.appendEventBlock,
        next_of_holds hholds]
      exact hholds.insert SeqIdx.increasing_ofNat (by omega) _

theorem length_written_le {L : EventLog} {done : List Step} (hle : done <+: steps) :
    (L.written done).length ≤ (L.written steps).length := by
  obtain ⟨rest, rfl⟩ := hle
  induction rest using List.reverseRecOn with
  | nil => rw [List.append_nil]
  | append_singleton rest step ih =>
    rw [← List.append_assoc]
    cases step with
    | block ctxt header body =>
      rw [written_block]
      exact ih
    | peg data =>
      rw [written_peg, List.length_append]
      omega

theorem stacked_of_length {L : EventLog} (hlength : (L.written steps).length ≤ 256) :
    L.Stacked steps := by
  refine ⟨?_, fun done state hdone hrun => ?_⟩
  · intro done data state state' hash height hdone hrun hheight hlatest hconnect
    have hle := (length_written_le hdone).trans hlength
    obtain ⟨hheight', hholds⟩ := L.holds_of_run hrun
    rw [written_peg, hlatest, List.length_append] at hle
    have hholds := hholds (by omega)
    have hlt : (L.written done).length < 256 := by simpa using hle
    rw [L.log_connect hheight hconnect, hlatest, State.appendEventBlock, next_of_holds hholds]
    exact ⟨_, hholds.fresh SeqIdx.increasing_ofNat hlt, rfl,
      (hholds.insert SeqIdx.increasing_ofNat hlt _).last⟩
  · have hle := (length_written_le hdone).trans hlength
    rw [((L.holds_of_run hrun).2 hle).map_snd]

omit [Primitives] in
/-- The write after 256 entries is not one on top of a stack. -/
theorem not_stackWrite {log : Db SeqIdx (MainBlockHash × Nat)}
    {entries : List (MainBlockHash × Nat)} (hholds : Holds SeqIdx.ofNat log entries)
    (hlength : entries.length = 256) (hash : MainBlockHash) (height : Nat) :
    ¬ StackWrite log (State.appendEventBlock log (some hash) height) (hash, height) := by
  rintro ⟨key, hfresh, -, hlast⟩
  rw [State.appendEventBlock, next_of_holds hholds, hlength] at hlast
  -- the last entry is the new one, so its key is the 257th
  have hmem := Db.mem_of_get (Db.get_of_last hlast)
  obtain rfl : SeqIdx.ofNat 256 = key := by
    rcases (Db.mem_insert _ _ _ _).mp hmem with heq | hold
    · exact heq
    · exact absurd hold hfresh
  have hearlier : SeqIdx.ofNat 255 ∈ log := hholds.mem.mpr ⟨255, by omega, rfl⟩
  have hlt := Db.lt_of_last hlast ((Db.mem_insert _ _ _ _).mpr (.inr hearlier)) (by decide)
  exact nomatch (Std.OrientedCmp.gt_of_lt SeqIdx.ofNat_256_lt).symm.trans hlt

theorem length_of_stacked {L : EventLog} {state : State} (hrun : State.empty.run steps = .ok state)
    (h : L.Stacked steps) : (L.written steps).length ≤ 256 := by
  induction steps using List.reverseRecOn generalizing state with
  | nil => exact Nat.zero_le _
  | append_singleton steps step ih =>
    obtain ⟨before, hbefore, hlast⟩ := foldlM_append_eq_ok.mp hrun
    obtain ⟨after, hstep, -⟩ := foldlM_cons_eq_ok.mp hlast
    have hle := ih hbefore (h.of_prefix (List.prefix_append _ _))
    cases step with
    | block ctxt header body => rwa [written_block]
    | peg data =>
      rw [written_peg]
      cases hlatest : latestBlock L.kind data.events with
      | none => simpa using hle
      | some hash =>
        rw [Option.map_some, Option.toList_some, List.length_append, List.length_singleton]
        by_contra hgt
        have hlength : (L.written steps).length = 256 := by omega
        obtain ⟨height, hheight⟩ := State.exists_height_of_connectTwoWayPegData hstep
        have hwrite := h.1 steps data before after hash height List.prefix_rfl hbefore
          hheight hlatest hstep
        rw [L.log_connect hheight hstep, hlatest] at hwrite
        exact not_stackWrite ((L.holds_of_run hbefore).2 hle) hlength hash height hwrite

end EventLog

/-- The logs of event blocks are stacks exactly in the runs that write at most
256 entries to each. -/
theorem eventLogs_stacked_iff {steps : List Step} {state : State}
    (hrun : State.empty.run steps = .ok state) :
    (EventLog.depositBlocks.Stacked steps ↔
      (EventLog.depositBlocks.written steps).length ≤ 256) ∧
    (EventLog.withdrawalBundleEventBlocks.Stacked steps ↔
      (EventLog.withdrawalBundleEventBlocks.written steps).length ≤ 256) :=
  ⟨⟨EventLog.length_of_stacked hrun, EventLog.stacked_of_length⟩,
    ⟨EventLog.length_of_stacked hrun, EventLog.stacked_of_length⟩⟩

end

namespace Instance

/-- Two-way peg data with one deposit, in a mainchain block of its own. -/
def depositData (i : Nat) : TwoWayPegData :=
  ⟨[(BitVec.ofNat 256 i, ⟨[.deposit ⟨⟨0, UInt32.ofNat i⟩, 7, 100⟩]⟩)]⟩

/-- An empty block and then a number of deposits, each connected for itself. -/
def manyDeposits (n : Nat) : List Step :=
  .block 0 (mine State.empty ⟨⟨[], []⟩, [], []⟩) ⟨⟨[], []⟩, [], []⟩ ::
    (List.range n).map fun i => .peg (depositData i)

def afterDeposits (n : Nat) : State :=
  (State.empty.run (manyDeposits n)).toOption.getD State.empty

/-- The entry of the 257th deposit does not come last. -/
theorem deposits_not_stacked :
    State.empty.run (manyDeposits 257) = .ok (afterDeposits 257) ∧
      ¬ EventLog.depositBlocks.Stacked (manyDeposits 257) := by
  have hrun : State.empty.run (manyDeposits 257) = .ok (afterDeposits 257) :=
    eq_ok_getD State.empty (by decide +kernel)
  refine ⟨hrun, fun hstacked => ?_⟩
  have hlength := EventLog.length_of_stacked hrun hstacked
  have hwritten : (EventLog.depositBlocks.written (manyDeposits 257)).length = 257 := by
    decide +kernel
  omega

theorem deposits_stacked :
    State.empty.run (manyDeposits 256) = .ok (afterDeposits 256) ∧
      EventLog.depositBlocks.Stacked (manyDeposits 256) := by
  have hrun : State.empty.run (manyDeposits 256) = .ok (afterDeposits 256) :=
    eq_ok_getD State.empty (by decide +kernel)
  exact ⟨hrun, (eventLogs_stacked_iff hrun).1.mpr (by decide +kernel)⟩

end Instance

end PlainBitnames
