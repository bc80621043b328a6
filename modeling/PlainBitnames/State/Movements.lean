import PlainBitnames.State.PegSpec

/-!
Movements outside of block bodies. What an event of two-way peg data moves is read off
the states before and after it; what the code lists for the block index is compared with
these observations event by event.
-/

namespace PlainBitnames

open Fallible

variable [Primitives]

namespace BlockIndexEvents

/-- The movements of one part of a block followed by those of another part. -/
def append (e f : BlockIndexEvents) : BlockIndexEvents :=
  ⟨e.deposits ++ f.deposits, e.bundleSpends ++ f.bundleSpends⟩

/-- The same deposits, and the same outputs removed by bundles in some order. -/
structure Same (e f : BlockIndexEvents) : Prop where
  deposits_eq : e.deposits = f.deposits
  bundleSpends_perm : e.bundleSpends.Perm f.bundleSpends

variable {e : BlockIndexEvents}

theorem Same.append {f e' f' : BlockIndexEvents} (h : e.Same f) (h' : e'.Same f') :
    (e.append e').Same (f.append f') := by
  refine ⟨?_, h.bundleSpends_perm.append h'.bundleSpends_perm⟩
  simp only [BlockIndexEvents.append, h.deposits_eq, h'.deposits_eq]

theorem Same.isEmpty_eq {f : BlockIndexEvents} (h : e.Same f) : e.isEmpty = f.isEmpty := by
  unfold isEmpty
  rw [h.deposits_eq, h.bundleSpends_perm.isEmpty_eq]

theorem append_assoc (e f g : BlockIndexEvents) :
    (e.append f).append g = e.append (f.append g) := by
  simp [append]

@[simp] theorem append_empty (e : BlockIndexEvents) : e.append .empty = e := by
  simp [append, empty]

@[simp] theorem empty_append (e : BlockIndexEvents) : BlockIndexEvents.empty.append e = e := by
  simp [append, empty]

theorem append_ne_empty {f : BlockIndexEvents} : e.append f ≠ .empty ↔ e ≠ .empty ∨ f ≠ .empty := by
  obtain ⟨deposits, bundleSpends⟩ := e
  obtain ⟨deposits', bundleSpends'⟩ := f
  simp only [append, empty, ne_eq, mk.injEq, List.append_eq_nil_iff]
  tauto

theorem isEmpty_iff : e.isEmpty = true ↔ e = .empty := by
  obtain ⟨deposits, bundleSpends⟩ := e
  simp [isEmpty, empty]

end BlockIndexEvents

namespace State

/-- The outputs that a bundle removed between two states: those that have left the utxos
and are now spent by the bundle. -/
def removedBy (m6id : M6id) (before after : State) : List (OutPoint × M6id) :=
  (before.utxos.toList.filter fun entry =>
    decide (entry.1 ∉ after.utxos) &&
      decide ((after.stxos[entry.1]?.map SpentOutput.inpoint) = some (.withdrawal m6id))).map
    fun entry => (entry.1, m6id)

/-- What an event moved, read off the states before and after it. -/
def observed (before after : State) : BlockEvent → BlockIndexEvents
  | .deposit deposit =>
    ⟨after.utxos.toList.filter fun entry => decide (entry.1 = .deposit deposit.outpoint), []⟩
  | .withdrawalBundle event => ⟨[], removedBy event.m6id before after⟩

/-- What a sequence of events moved. -/
def movements (height : Nat) : Connecting → List (MainBlockHash × BlockEvent) → BlockIndexEvents
  | _, [] => .empty
  | c, event :: events =>
    match connect2wpdEvent height c event with
    | .ok c' => (observed c.state c'.state event.2).append (movements height c' events)
    | .error _ => .empty

/-- The event confirms a bundle whose outputs are not yet spent: a bundle made here that was
submitted unexpectedly, or one that was not made here. -/
def ConfirmsUnspent (state : State) : BlockEvent → Prop
  | .deposit _ => False
  | .withdrawalBundle event =>
    event.status = .confirmed ∧
      ∃ bundle status, state.withdrawalBundles[event.m6id]? = some (bundle, status) ∧
        match bundle with
        | .known bundle =>
          (HeightRollBack.latest status).value = .submittedUnexpected ∧
            bundle.spendUtxos.toList ≠ []
        | .unknown =>
          (HeightRollBack.latest status).value ≠ .confirmed ∧ state.utxos.toList ≠ []
        | .unknownConfirmed _ => False

/-- The bundle is known under the id. -/
def Knows (state : State) (m6id : M6id) (bundle : WithdrawalBundle) : Prop :=
  ∃ status, state.withdrawalBundles[m6id]? = some (.known bundle, status)

/-- The events contain a deposit, or the submission of the pending bundle and this has
outputs. -/
def ListsSome (state : State) (events : List (MainBlockHash × BlockEvent)) : Prop :=
  (∃ hash deposit, (hash, .deposit deposit) ∈ events) ∨
    ∃ hash m6id bundle, (hash, .withdrawalBundle ⟨m6id, .submitted⟩) ∈ events ∧
      state.pendingWithdrawalBundle = some m6id ∧ state.Knows m6id bundle ∧
      bundle.spendUtxos.toList ≠ []

/-- No event of a sequence confirms a bundle whose outputs are not yet spent when its turn
comes. -/
def Expected (height : Nat) (c : Connecting) (events : List (MainBlockHash × BlockEvent)) : Prop :=
  ∀ earlier event later d, events = earlier ++ event :: later →
    earlier.foldlM (connect2wpdEvent height) c = .ok d → ¬ d.state.ConfirmsUnspent event.2

variable {m6id : M6id} {before after : State}

theorem mem_removedBy {m : M6id} {outpoint : OutPoint} :
    (outpoint, m) ∈ removedBy m6id before after ↔
      m = m6id ∧ outpoint ∈ before.utxos ∧ outpoint ∉ after.utxos ∧
        (after.stxos[outpoint]?.map SpentOutput.inpoint) = some (.withdrawal m6id) := by
  simp only [removedBy, List.mem_map, List.mem_filter, Bool.and_eq_true, decide_eq_true_eq,
    Prod.mk.injEq]
  constructor
  · rintro ⟨entry, ⟨hentry, hgone, hspent⟩, rfl, rfl⟩
    exact ⟨rfl, Db.mem_of_get (Db.mem_toList.mp hentry), hgone,
      hspent⟩
  · rintro ⟨rfl, hmem, hgone, hspent⟩
    obtain ⟨output, hget⟩ := (Db.mem_iff _ _).mp hmem
    exact ⟨(outpoint, output),
      ⟨Db.mem_toList.mpr hget, hgone, hspent⟩, rfl, rfl⟩

theorem removedBy_of_kept (h : ∀ outpoint, outpoint ∈ before.utxos → outpoint ∈ after.utxos) :
    removedBy m6id before after = [] := by
  rw [List.eq_nil_iff_forall_not_mem]
  rintro ⟨outpoint, m⟩ hmem
  obtain ⟨-, hbefore, hgone, -⟩ := mem_removedBy.mp hmem
  exact hgone (h outpoint hbefore)

variable {entries : List (OutPoint × FilledOutput)}

theorem nodup_spends (m6id : M6id) (h : (entries.map Prod.fst).Nodup) :
    (entries.map fun entry => (entry.1, m6id)).Nodup := by
  have hmap := h.map (f := fun outpoint => (outpoint, m6id)) fun _ _ heq => (Prod.mk.inj heq).1
  rwa [List.map_map] at hmap

/-- Taking out entries of the utxos removes exactly them. -/
theorem removedBy_takeOut (hnodup : (entries.map Prod.fst).Nodup)
    (hmem : ∀ outpoint ∈ entries.map Prod.fst, outpoint ∈ before.utxos)
    (hutxos : after.utxos = (before.takeOut m6id entries).utxos)
    (hstxos : after.stxos = (before.takeOut m6id entries).stxos) :
    (entries.map fun entry => (entry.1, m6id)).Perm (removedBy m6id before after) := by
  have hlisted := nodup_spends m6id hnodup
  have hremoved : (removedBy m6id before after).Nodup :=
    nodup_spends m6id ((Db.keys_nodup before.utxos).sublist (List.filter_sublist.map Prod.fst))
  rw [List.perm_ext_iff_of_nodup hlisted hremoved]
  rintro ⟨outpoint, m⟩
  rw [mem_removedBy, hutxos, hstxos]
  constructor
  · intro hlisted
    obtain ⟨entry, hentry, heq⟩ := List.mem_map.mp hlisted
    obtain ⟨rfl, rfl⟩ := Prod.mk.inj heq
    have hkey : entry.1 ∈ entries.map Prod.fst := List.mem_map_of_mem hentry
    refine ⟨rfl, hmem _ hkey, fun hafter => (Db.mem_eraseAll.mp hafter).1 hkey, ?_⟩
    have hput : (before.takeOut m6id entries).stxos[entry.1]? =
        some ⟨entry.2, .withdrawal m6id⟩ := by
      refine Db.get_putAll_of_mem ?_ (List.mem_map_of_mem hentry)
      rwa [List.map_map]
    rw [hput]
    rfl
  · rintro ⟨rfl, hbefore, hgone, -⟩
    have hkey : outpoint ∈ entries.map Prod.fst := by
      by_contra hnot
      exact hgone (Db.mem_eraseAll.mpr ⟨hnot, hbefore⟩)
    obtain ⟨entry, hentry, rfl⟩ := List.mem_map.mp hkey
    exact List.mem_map_of_mem hentry

theorem removedBy_takeOut_ne_nil (hnodup : (entries.map Prod.fst).Nodup)
    (hmem : ∀ outpoint ∈ entries.map Prod.fst, outpoint ∈ before.utxos)
    (hutxos : after.utxos = (before.takeOut m6id entries).utxos)
    (hstxos : after.stxos = (before.takeOut m6id entries).stxos) :
    removedBy m6id before after ≠ [] ↔ entries ≠ [] := by
  have hlength := (removedBy_takeOut hnodup hmem hutxos hstxos).length_eq
  rw [List.length_map] at hlength
  rw [← List.length_pos_iff, ← hlength, List.length_pos_iff]

/-! One event. -/

variable {state state' : State} {height : Nat}

/-- The outputs of the pending bundle are listed when it is submitted, and nothing is listed
otherwise. -/
theorem connectWithdrawalBundleEvent_lists {indexEvents indexEvents' : BlockIndexEvents}
    {hash : MainBlockHash} {event : WithdrawalBundleEvent}
    (h : state.connectWithdrawalBundleEvent height indexEvents hash event =
      .ok (state', indexEvents')) :
    (event.status = .submitted ∧ state.pendingWithdrawalBundle = some event.m6id ∧
      ∃ bundle status, state.withdrawalBundles[event.m6id]? = some (.known bundle, status) ∧
        indexEvents' = indexEvents.append
          ⟨[], bundle.spendUtxos.toList.map fun entry => (entry.1, event.m6id)⟩) ∨
    (¬ (event.status = .submitted ∧ state.pendingWithdrawalBundle = some event.m6id) ∧
      indexEvents' = indexEvents) := by
  unfold connectWithdrawalBundleEvent at h
  split at h
  case h_1 hstatus =>
    unfold connectWithdrawalBundleSubmitted at h
    split at h
    case isTrue hpending =>
      unfold connectPendingSubmitted at h
      split at h
      case h_1 bundle status hget =>
        obtain ⟨_, -, h⟩ := bind_eq_ok.mp h
        obtain ⟨-, h⟩ := ensure_bind_eq_ok.mp h
        obtain ⟨_, -, h⟩ := bind_eq_ok.mp h
        cases h
        refine .inl ⟨hstatus, hpending, bundle, status, hget, ?_⟩
        simp [BlockIndexEvents.append]
      case h_2 => cases h
    case isFalse hpending =>
      refine .inr ⟨fun hboth => hpending hboth.2, ?_⟩
      split at h
      · obtain ⟨_, -, h⟩ := bind_eq_ok.mp h
        obtain ⟨_, -, h⟩ := bind_eq_ok.mp h
        cases h
        rfl
      · cases h
        rfl
  case h_2 hstatus =>
    obtain ⟨_, -, h⟩ := bind_eq_ok.mp h
    cases h
    exact .inr ⟨fun hboth => (nomatch hstatus.symm.trans hboth.1), rfl⟩
  case h_3 hstatus =>
    obtain ⟨_, -, h⟩ := bind_eq_ok.mp h
    cases h
    exact .inr ⟨fun hboth => (nomatch hstatus.symm.trans hboth.1), rfl⟩

/-- The submission of the pending bundle removes its outputs. -/
theorem BundleEffect.removes_pending {bundle : WithdrawalBundle}
    {status : HeightRollBack WithdrawalBundleStatus}
    (h : BundleEffect height m6id state .submitted state')
    (hpending : state.pendingWithdrawalBundle = some m6id)
    (hget : state.withdrawalBundles[m6id]? = some (.known bundle, status)) :
    (bundle.spendUtxos.toList.map fun entry => (entry.1, m6id)).Perm
      (removedBy m6id state state') := by
  cases h with
  | unchanged _ hlatest => simp at hlatest
  | noted _ _ _ hidle => exact absurd hpending (hidle rfl)
  | discovered _ hidle => exact absurd hpending hidle
  | submitted hget' _ _ _ hmem =>
    cases hget.symm.trans hget'
    exact removedBy_takeOut (Db.keys_nodup _) hmem rfl rfl

/-- Unless the pending bundle is submitted, an event removes outputs only if it confirms a
bundle whose outputs are not yet spent, and then it does. -/
theorem BundleEffect.removes {event : WithdrawalBundleEventStatus}
    (h : BundleEffect height m6id state event state')
    (hpending : ¬ (event = .submitted ∧ state.pendingWithdrawalBundle = some m6id)) :
    removedBy m6id state state' ≠ [] ↔ state.ConfirmsUnspent (.withdrawalBundle ⟨m6id, event⟩) := by
  -- an event that keeps the utxos removes nothing
  have hkept (hutxos : ∀ outpoint, outpoint ∈ state.utxos → outpoint ∈ state'.utxos)
      (hnot : ¬ state.ConfirmsUnspent (.withdrawalBundle ⟨m6id, event⟩)) :
      removedBy m6id state state' ≠ [] ↔
        state.ConfirmsUnspent (.withdrawalBundle ⟨m6id, event⟩) :=
    iff_of_false (fun hne => hne (removedBy_of_kept hutxos)) hnot
  cases h with
  | @unchanged _ bundle status hget hlatest =>
    refine hkept (fun _ hmem => hmem) ?_
    rintro ⟨hstatus, _, _, hget', hunspent⟩
    obtain ⟨rfl, rfl⟩ := Prod.mk.inj (Option.some.inj (hget.symm.trans hget'))
    obtain ⟨-, hconfirmed⟩ | ⟨hfailed, -⟩ := hlatest
    · cases bundle <;> simp [hconfirmed] at hunspent
    · cases hstatus.symm.trans hfailed
  | @noted _ bundle status value hget hnoted hheight hidle =>
    refine hkept (fun _ hmem => hmem) ?_
    rintro ⟨hstatus, _, _, hget', hunspent⟩
    obtain ⟨rfl, rfl⟩ := Prod.mk.inj (Option.some.inj (hget.symm.trans hget'))
    cases hstatus
    generalize (HeightRollBack.latest status).value = latest at hnoted hunspent
    cases hnoted with
    | confirmed => exact nomatch hunspent.1
  | discovered hget hidle =>
    refine hkept (fun _ hmem => hmem) ?_
    rintro ⟨hstatus, -⟩
    cases hstatus
  | submitted hget hmade => exact absurd ⟨rfl, hmade⟩ hpending
  | @confirmedUnexpected bundle status hget hlatest hheight hmem =>
    refine Iff.trans (removedBy_takeOut_ne_nil (Db.keys_nodup bundle.spendUtxos) hmem rfl rfl) ?_
    constructor
    · exact fun hne => ⟨rfl, _, _, hget, hlatest, hne⟩
    · rintro ⟨-, _, _, hget', hunspent⟩
      obtain ⟨rfl, rfl⟩ := Prod.mk.inj (Option.some.inj (hget.symm.trans hget'))
      exact hunspent.2
  | @confirmedUnknown status hget hlatest hheight hzero =>
    rw [spendAll_eq_takeOut]
    refine Iff.trans (removedBy_takeOut_ne_nil (Db.keys_nodup state.utxos) ?_ rfl rfl) ?_
    · intro outpoint hmem
      obtain ⟨entry, hentry, rfl⟩ := List.mem_map.mp hmem
      exact Db.mem_of_get (Db.mem_toList.mp hentry)
    · constructor
      · refine fun hne => ⟨rfl, _, _, hget, ?_, hne⟩
        intro hconfirmed
        simp [isSubmitted, hconfirmed] at hlatest
      · rintro ⟨-, _, _, hget', hunspent⟩
        obtain ⟨rfl, rfl⟩ := Prod.mk.inj (Option.some.inj (hget.symm.trans hget'))
        exact hunspent.2
  | failed hget hlatest hheight hfailed =>
    refine hkept (fun _ hmem => Db.mem_putAll.mpr (.inr hmem)) ?_
    rintro ⟨hstatus, -⟩
    cases hstatus

variable {event : MainBlockHash × BlockEvent} {c c' : Connecting}

/-- What an event lists: exactly what it moves, unless it confirms a bundle whose outputs are
not yet spent; such an event lists nothing although it removes outputs. -/
theorem connect2wpdEvent_lists (h : connect2wpdEvent height c event = .ok c') :
    ∃ listed, c'.indexEvents = c.indexEvents.append listed ∧
      (¬ c.state.ConfirmsUnspent event.2 → listed.Same (observed c.state c'.state event.2)) ∧
      (c.state.ConfirmsUnspent event.2 → listed.bundleSpends = [] ∧
        (observed c.state c'.state event.2).bundleSpends ≠ []) := by
  obtain ⟨hash, event⟩ := event
  cases event with
  | deposit deposit =>
    cases h
    refine ⟨⟨[(.deposit deposit.outpoint, deposit.output)], []⟩, ?_, ?_, fun hnot => hnot.elim⟩
    · simp [BlockIndexEvents.append]
    · exact fun _ => ⟨(Db.toList_filter_key (Db.get_insert_self _ _ _)).symm, .refl _⟩
  | withdrawalBundle event =>
    obtain ⟨⟨state', indexEvents'⟩, hconnect, h⟩ := bind_eq_ok.mp h
    cases h
    have heffect := connectWithdrawalBundleEvent_ok hconnect
    obtain ⟨hstatus, hpending, bundle, status, hget, rfl⟩ | ⟨hnot, rfl⟩ :=
      connectWithdrawalBundleEvent_lists hconnect
    · refine ⟨_, rfl, fun _ => ⟨rfl, ?_⟩, ?_⟩
      · rw [hstatus] at heffect
        exact heffect.removes_pending hpending hget
      · rintro ⟨hconfirmed, -⟩
        cases hstatus.symm.trans hconfirmed
    · refine ⟨.empty, (BlockIndexEvents.append_empty _).symm, ?_, ?_⟩
      · intro hspent
        have hnone : removedBy event.m6id c.state state' = [] := by
          by_contra hne
          exact hspent ((heffect.removes hnot).mp hne)
        exact ⟨rfl, .of_eq hnone.symm⟩
      · exact fun hunspent => ⟨rfl, (heffect.removes hnot).mpr hunspent⟩

/-! All events of a block. -/

theorem expected_nil (height : Nat) (c : Connecting) : Expected height c [] := by
  intro earlier event later d heq
  simp at heq

variable {events : List (MainBlockHash × BlockEvent)}

theorem expected_cons (hstep : connect2wpdEvent height c event = .ok c') :
    Expected height c (event :: events) ↔
      ¬ c.state.ConfirmsUnspent event.2 ∧ Expected height c' events := by
  constructor
  · intro h
    refine ⟨h [] event events c rfl rfl, ?_⟩
    intro earlier next later d heq hfold
    exact h (event :: earlier) next later d (by rw [heq]; rfl)
      (foldlM_cons_eq_ok.mpr ⟨c', hstep, hfold⟩)
  · rintro ⟨hfirst, hrest⟩ earlier next later d heq hfold
    cases earlier with
    | nil =>
      cases heq
      cases foldlM_nil_eq_ok.mp hfold
      exact hfirst
    | cons _ earlier =>
      cases heq
      obtain ⟨_, hnext, hfold⟩ := foldlM_cons_eq_ok.mp hfold
      cases hstep.symm.trans hnext
      exact hrest earlier next later d rfl hfold

/-- What a sequence of events lists: never more outputs than it removes, and exactly what it
moves if all events are expected. -/
theorem foldlM_lists (h : events.foldlM (connect2wpdEvent height) c = .ok c') :
    ∃ listed, c'.indexEvents = c.indexEvents.append listed ∧
      listed.bundleSpends.length ≤ (movements height c events).bundleSpends.length ∧
      (Expected height c events → listed.Same (movements height c events)) ∧
      (¬ Expected height c events →
        listed.bundleSpends.length < (movements height c events).bundleSpends.length) := by
  induction events generalizing c with
  | nil =>
    cases foldlM_nil_eq_ok.mp h
    exact ⟨.empty, (BlockIndexEvents.append_empty _).symm, le_rfl, fun _ => ⟨rfl, .refl _⟩,
      fun hnot => absurd (expected_nil height _) hnot⟩
  | cons event events ih =>
    obtain ⟨next, hstep, hrest⟩ := foldlM_cons_eq_ok.mp h
    obtain ⟨first, hfirst, hsame, hunspent⟩ := connect2wpdEvent_lists hstep
    obtain ⟨listed, hlisted, hle, hsame', hlt⟩ := ih hrest
    have hmoves : movements height c (event :: events) =
        (observed c.state next.state event.2).append (movements height next events) := by
      simp only [movements, hstep]
    rw [hmoves, expected_cons hstep]
    refine ⟨first.append listed, ?_, ?_⟩
    · rw [hlisted, hfirst, BlockIndexEvents.append_assoc]
    simp only [BlockIndexEvents.append, List.length_append]
    by_cases hconfirms : c.state.ConfirmsUnspent event.2
    · obtain ⟨hnone, hsome⟩ := hunspent hconfirms
      have hpos := List.length_pos_iff.mpr hsome
      rw [hnone, List.length_nil]
      exact ⟨by omega, fun hall => absurd hconfirms hall.1, fun _ => by omega⟩
    · have hfirstSame := hsame hconfirms
      have hlength := hfirstSame.bundleSpends_perm.length_eq
      refine ⟨by omega, fun hall => hfirstSame.append (hsame' hall.2), ?_⟩
      intro hnot
      have := hlt fun hall => hnot ⟨hconfirms, hall⟩
      omega

/-! Whether anything is listed can be told from the state before the events. -/

theorem knows_noteStatus (state : State) {info : WithdrawalBundleInfo}
    {status : HeightRollBack WithdrawalBundleStatus} {value : WithdrawalBundleStatus}
    (hget : state.withdrawalBundles[m6id]? = some (info, status)) (m : M6id)
    (bundle : WithdrawalBundle) :
    (state.noteStatus m6id info status value height).Knows m bundle ↔ state.Knows m bundle := by
  unfold Knows noteStatus
  by_cases hm : m6id = m
  · subst hm
    rw [Db.get_insert_self, hget]
    simp
  · rw [Db.get_insert_ne _ _ hm]

theorem BundleEffect.knows {event : WithdrawalBundleEventStatus}
    (h : BundleEffect height m6id state event state') (m : M6id) (bundle : WithdrawalBundle) :
    state'.Knows m bundle ↔ state.Knows m bundle := by
  cases h with
  | unchanged => rfl
  | noted hget => exact knows_noteStatus state hget m bundle
  | discovered hget =>
    unfold Knows
    by_cases hm : m6id = m
    · subst hm
      rw [Db.get_insert_self, hget]
      simp
    · rw [Db.get_insert_ne _ _ hm]
  | submitted hget =>
    exact knows_noteStatus (state.takeOut m6id _) hget m bundle
  | confirmedUnexpected hget =>
    exact knows_noteStatus (state.takeOut m6id _) hget m bundle
  | confirmedUnknown hget =>
    unfold Knows noteStatus
    by_cases hm : m6id = m
    · subst hm
      rw [Db.get_insert_self, hget]
      simp
    · rw [Db.get_insert_ne _ _ hm]
      rfl
  | failed hget =>
    exact knows_noteStatus { state.giveBack _ with latestFailedWithdrawalBundle := _ } hget m
      bundle

theorem BundleEffect.pending_eq {event : WithdrawalBundleEventStatus}
    (h : BundleEffect height m6id state event state') :
    state'.pendingWithdrawalBundle =
      if event = .submitted ∧ state.pendingWithdrawalBundle = some m6id then none
      else state.pendingWithdrawalBundle := by
  cases h with
  | submitted hget hpending => exact (if_pos ⟨rfl, hpending⟩).symm
  | unchanged hget hlatest =>
    refine (if_neg ?_).symm
    rintro ⟨rfl, -⟩
    simp at hlatest
  | noted hget hnoted hheight hidle =>
    exact (if_neg fun hboth => hidle hboth.1 hboth.2).symm
  | discovered hget hidle => exact (if_neg fun hboth => hidle hboth.2).symm
  | confirmedUnexpected | confirmedUnknown | failed =>
    exact (if_neg fun hboth => nomatch hboth.1).symm


theorem listsSome_deposit {deposit : Deposit} (h : event.2 = .deposit deposit) :
    state.ListsSome (event :: events) := by
  refine .inl ⟨event.1, deposit, ?_⟩
  rw [← h]
  exact List.mem_cons_self

/-- An event that does not submit the pending bundle leaves open whether later events list
anything. -/
theorem BundleEffect.listsSome {hash : MainBlockHash} {event : WithdrawalBundleEvent}
    (h : BundleEffect height event.m6id state event.status state')
    (hnot : ¬ (event.status = .submitted ∧ state.pendingWithdrawalBundle = some event.m6id)) :
    state'.ListsSome events ↔ state.ListsSome ((hash, .withdrawalBundle event) :: events) := by
  have hpending := h.pending_eq
  rw [if_neg hnot] at hpending
  unfold ListsSome
  simp only [hpending, h.knows, List.mem_cons, Prod.mk.injEq, reduceCtorEq, and_false, false_or,
    BlockEvent.withdrawalBundle.injEq]
  refine or_congr_right ⟨?_, ?_⟩
  · rintro ⟨hash', m6id, bundle, hmem, hrest⟩
    exact ⟨hash', m6id, bundle, .inr hmem, hrest⟩
  · rintro ⟨hash', m6id, bundle, ⟨-, heq⟩ | hmem, hrest⟩
    · exact absurd ⟨by rw [← heq], by rw [← heq]; exact hrest.1⟩ hnot
    · exact ⟨hash', m6id, bundle, hmem, hrest⟩

/-- The submission of the pending bundle lists something if the bundle has outputs; later
events then list something if there is a deposit. -/
theorem BundleEffect.listsSome_pending {hash : MainBlockHash} {bundle : WithdrawalBundle}
    (h : BundleEffect height m6id state .submitted state')
    (hpending : state.pendingWithdrawalBundle = some m6id) (hknows : state.Knows m6id bundle) :
    bundle.spendUtxos.toList ≠ [] ∨ state'.ListsSome events ↔
      state.ListsSome ((hash, .withdrawalBundle ⟨m6id, .submitted⟩) :: events) := by
  have hnone := h.pending_eq
  rw [if_pos ⟨rfl, hpending⟩] at hnone
  constructor
  · rintro (hne | ⟨hash', deposit, hmem⟩ | ⟨_, _, _, -, hsome, -⟩)
    · exact .inr ⟨hash, m6id, bundle, List.mem_cons_self, hpending, hknows, hne⟩
    · exact .inl ⟨hash', deposit, List.mem_cons_of_mem _ hmem⟩
    · cases hnone.symm.trans hsome
  · rintro (⟨hash', deposit, hmem⟩ | ⟨_, m, other, -, hsome, hother, hne⟩)
    · rcases List.mem_cons.mp hmem with heq | hmem
      · cases heq
      · exact .inr (.inl ⟨hash', deposit, hmem⟩)
    · cases hpending.symm.trans hsome
      obtain ⟨_, hget⟩ := hknows
      obtain ⟨_, hget'⟩ := hother
      cases hget.symm.trans hget'
      exact .inl hne

theorem connect2wpdEvent_listsSome (h : connect2wpdEvent height c event = .ok c') :
    c'.indexEvents ≠ .empty ∨ c'.state.ListsSome events ↔
      c.indexEvents ≠ .empty ∨ c.state.ListsSome (event :: events) := by
  obtain ⟨hash, event⟩ := event
  cases event with
  | deposit deposit =>
    cases h
    refine iff_of_true (.inl ?_) (.inr (listsSome_deposit rfl))
    simp [BlockIndexEvents.empty]
  | withdrawalBundle event =>
    obtain ⟨⟨state', indexEvents'⟩, hconnect, h⟩ := bind_eq_ok.mp h
    cases h
    have heffect := connectWithdrawalBundleEvent_ok hconnect
    obtain ⟨hstatus, hpending, bundle, status, hget, rfl⟩ | ⟨hnot, rfl⟩ :=
      connectWithdrawalBundleEvent_lists hconnect
    · obtain ⟨m6id, eventStatus⟩ := event
      cases hstatus
      have hlisted : (⟨[], bundle.spendUtxos.toList.map fun entry => (entry.1, m6id)⟩ :
          BlockIndexEvents) ≠ .empty ↔ bundle.spendUtxos.toList ≠ [] := by
        simp [BlockIndexEvents.empty]
      rw [← heffect.listsSome_pending hpending ⟨status, hget⟩,
        BlockIndexEvents.append_ne_empty, hlisted, or_assoc]
    · rw [heffect.listsSome hnot]

theorem foldlM_listsSome (h : events.foldlM (connect2wpdEvent height) c = .ok c') :
    c'.indexEvents ≠ .empty ↔ c.indexEvents ≠ .empty ∨ c.state.ListsSome events := by
  induction events generalizing c with
  | nil =>
    cases foldlM_nil_eq_ok.mp h
    simp [ListsSome]
  | cons event events ih =>
    obtain ⟨next, hstep, hrest⟩ := foldlM_cons_eq_ok.mp h
    rw [ih hrest, connect2wpdEvent_listsSome hstep]

end State

end PlainBitnames
