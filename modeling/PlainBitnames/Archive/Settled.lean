import PlainBitnames.Archive.Keeps

/-!
Every tip of an archive has a header and a body, and its parent is a tip too. A body
is only stored with its header. An invalidated block has no header as long as it is
not stored again. All of this is kept by the calls of a node, if no tip is invalidated.
-/

namespace PlainBitnames

open Fallible Lineage

variable [Primitives]

namespace Archive

/-- What ties the tips, the bodies and the invalidated blocks to the headers. -/
structure Settled (a : Archive) : Prop where
  grounded : ∀ b ∈ a.sideTips.sidechainTips, a.Grounded b
  bodies : ∀ b ∈ a.bodies, b ∈ a.headers
  out : ∀ b ∈ a.invalidBlocks, b ∉ a.headers

variable {m : Mainchain} {guard : Guard} {a a' : Archive}

theorem Settled.new : Settled .new where
  grounded _ h := absurd h (Db.not_mem_empty _)
  bodies _ h := absurd h (Db.not_mem_empty _)
  out _ h := absurd h (Db.not_mem_empty _)

theorem Grounded.header_mem {b : BlockHash} (h : a.Grounded b) : b ∈ a.headers := by
  obtain ⟨-, header, hheader, -⟩ := h
  exact Db.mem_of_get hheader

theorem Grounded.mono {b : BlockHash} (h : a.Grounded b) (hkeeps : KeepsHeaders a a')
    (hbody : b ∈ a'.bodies) (htips : ∀ x ∈ a.sideTips.sidechainTips, x ∈ a'.sideTips.sidechainTips) :
    a'.Grounded b := by
  obtain ⟨-, header, hheader, hparent⟩ := h
  exact ⟨hbody, header, hkeeps hheader, fun p hp => htips p (hparent p hp)⟩

theorem Settled.ancestor (h : Settled a) {b c : BlockHash} (hb : b ∈ a.sideTips.sidechainTips)
    (hc : Descends a.sideParent c b) : c ∈ a.sideTips.sidechainTips := by
  obtain ⟨n, hn⟩ := hc
  induction n generalizing b with
  | zero => exact Option.some.inj hn ▸ hb
  | succ n ih =>
    obtain ⟨p, hp, hn⟩ := Option.bind_eq_some_iff.mp hn
    obtain ⟨-, header, hheader, hparent⟩ := h.grounded b hb
    exact ih (hparent p ((SideStored.sideParent_eq hheader).symm.trans hp)) hn

theorem mem_disconnectSidechainTip (tips : SideTips) (b x : BlockHash) :
    x ∈ (tips.disconnectSidechainTip b).sidechainTips ↔ x ∈ tips.sidechainTips ∧ x ≠ b := by
  unfold SideTips.disconnectSidechainTip
  split
  case h_1 hnone =>
    refine ⟨fun hx => ⟨hx, ?_⟩, And.left⟩
    rintro rfl
    obtain ⟨info, hinfo⟩ := (Db.mem_iff _ _).mp hx
    cases hnone.symm.trans hinfo
  case h_2 => rw [Db.mem_erase, and_comm, ne_comm]

section Update

theorem Settled.updateSideTips (h : Settled a) {b : BlockHash} {header : Header}
    {queue : List BlockHash} (hbody : b ∈ a.bodies) (hheader : a.headers[b]? = some header)
    (hupdate : a.updateSideTips b header = .ok (a', queue)) : Settled a' := by
  obtain ⟨sideTips, rfl, -⟩ := updateSideTips_tips hupdate
  obtain ⟨⟨next, connected⟩, hfold, hrest⟩ := bind_eq_ok.mp hupdate
  obtain ⟨hmem, -⟩ := connectVerifications_ok hfold
  have hnext : next.sideTips = sideTips := by
    cases connected with
    | false =>
      cases hrest
      rfl
    | true =>
      obtain ⟨_, -, hrest⟩ := bind_eq_ok.mp hrest
      cases hrest
      rfl
  rw [hnext] at hmem
  have hmono : ∀ x ∈ a.sideTips.sidechainTips, x ∈ sideTips.sidechainTips := fun x hx =>
    (hmem x).mpr (.inl hx)
  refine ⟨fun x hx => Grounded.withTips ?_ hmono, h.bodies, h.out⟩
  rcases (hmem x).mp hx with hx | ⟨rfl, result, -, hcounts⟩
  · exact h.grounded x hx
  · exact ⟨hbody, header, hheader, parentIsTip_iff.mp hcounts.2.1⟩

theorem Settled.updateQueue (h : Settled a) {fuel : Nat} {queue : List BlockHash}
    (hupdate : updateQueue fuel a queue = .ok a') : Settled a' := by
  induction fuel generalizing a queue with
  | zero => exact Except.ok.inj hupdate ▸ h
  | succ fuel ih =>
    cases queue with
    | nil => exact Except.ok.inj hupdate ▸ h
    | cons c queue =>
      unfold Archive.updateQueue at hupdate
      split at hupdate
      case isTrue => exact ih h hupdate
      case isFalse hbody =>
        obtain ⟨header, hheader, hupdate⟩ := bind_eq_ok.mp hupdate
        obtain ⟨⟨next, successors⟩, hfirst, hupdate⟩ := bind_eq_ok.mp hupdate
        have hbody : c ∈ a.bodies := by
          rw [Std.ExtTreeMap.mem_iff_contains]
          simpa [containsBody] using hbody
        exact ih (h.updateSideTips hbody (okOr_eq_ok.mp hheader) hfirst) hupdate

theorem Settled.putBody (h : Settled a) {b : BlockHash} {body : Body}
    (hput : a.putBody b body = .ok a') : Settled a' := by
  obtain ⟨header, hheader, hput⟩ := bind_eq_ok.mp hput
  obtain ⟨⟨next, queue⟩, hfirst, hput⟩ := bind_eq_ok.mp hput
  have hheader := okOr_eq_ok.mp hheader
  let stored : Archive := { a with
    bodies := a.bodies.insert b body
    txidToInclusions := a.txidToInclusions.insertBody b body }
  have hstored : Settled stored := by
    refine ⟨fun x hx => ?_, fun x hx => ?_, h.out⟩
    · have hgrounded := h.grounded x hx
      exact hgrounded.mono (.refl a) ((Db.mem_insert _ _ _ _).mpr (.inr hgrounded.1)) fun _ hx => hx
    · rcases (Db.mem_insert _ _ _ _).mp hx with rfl | hx
      · exact Db.mem_of_get hheader
      · exact h.bodies x hx
  have hbody : b ∈ stored.bodies := (Db.mem_insert _ _ _ _).mpr (.inl rfl)
  exact (hstored.updateSideTips hbody hheader hfirst).updateQueue hput

end Update

section Delete

theorem disconnectQueue_nil (fuel : Nat) (a : Archive) : disconnectQueue fuel a [] = .ok a := by
  cases fuel <;> rfl

/-- Disconnecting the tips in a queue with their successors leaves tips that are
grounded, if the tips that were not are in the queue. -/
theorem grounded_disconnectQueue {fuel : Nat} {b : BlockHash} {visited queue : List BlockHash}
    (hside : SideStored a) (hvisiting : Visiting a b visited queue)
    (hfuel : a.headers.size ≤ fuel + visited.length)
    (h : ∀ x ∈ a.sideTips.sidechainTips, x ∈ a.headers ∧ (a.Grounded x ∨ x ∈ queue))
    (hdisconnect : disconnectQueue fuel a queue = .ok a') :
    ∀ x ∈ a'.sideTips.sidechainTips, a'.Grounded x := by
  have hlength := hvisiting.length_le
  have hdone : queue = [] → ∀ x ∈ a.sideTips.sidechainTips, a.Grounded x := by
    rintro rfl x hx
    exact (h x hx).2.resolve_right List.not_mem_nil
  induction fuel generalizing a visited queue with
  | zero =>
    have hempty : queue = [] := List.eq_nil_of_length_eq_zero (by omega)
    exact Except.ok.inj hdisconnect ▸ hdone hempty
  | succ fuel ih =>
    cases queue with
    | nil => exact Except.ok.inj hdisconnect ▸ hdone rfl
    | cons c queue =>
      have hfuel' : a.headers.size ≤ fuel + (visited ++ [c]).length := by
        rw [List.length_append, List.length_singleton]
        omega
      have hother : ∀ {x}, x ≠ c → x ∈ c :: queue → x ∈ queue := fun hne hx =>
        (List.mem_cons.mp hx).resolve_left hne
      unfold disconnectQueue at hdisconnect
      split at hdisconnect
      case isTrue hnot =>
        have hvisit := hvisiting.visit hside .nil (List.forall_mem_nil _)
        rw [List.append_nil] at hvisit
        have h' : ∀ x ∈ a.sideTips.sidechainTips,
            x ∈ a.headers ∧ (a.Grounded x ∨ x ∈ queue) := by
          intro x hx
          refine (h x hx).imp_right (Or.imp_right (hother ?_))
          rintro rfl
          exact hnot hx
        refine ih hside hvisit hfuel' h' hdisconnect hvisit.length_le ?_
        rintro rfl x hx
        exact (h' x hx).2.resolve_right List.not_mem_nil
      case isFalse =>
        obtain ⟨successors, hsuccessors, hdisconnect⟩ := bind_eq_ok.mp hdisconnect
        have hsuccessors : a.successors[some c]? = some successors := okOr_eq_ok.mp hsuccessors
        have hspec : ∀ x, x ∈ successors.keys ↔ a.sideParent x = some c := by
          intro x
          rw [Std.ExtTreeMap.mem_keys, hside.successors hsuccessors, sideParent,
            Option.bind_eq_some_iff]
        let removed : Archive := { a with sideTips := a.sideTips.disconnectSidechainTip c }
        have hvisit := hvisiting.visit hside Std.ExtTreeMap.nodup_keys fun x => (hspec x).mp
        have hvisit' : Visiting removed b (visited ++ [c]) (queue ++ successors.keys) :=
          ⟨hvisit.first, hvisit.traversal, hvisit.mem⟩
        have h' : ∀ x ∈ removed.sideTips.sidechainTips,
            x ∈ removed.headers ∧ (removed.Grounded x ∨ x ∈ queue ++ successors.keys) := by
          intro x hx
          obtain ⟨hx, hne⟩ := (mem_disconnectSidechainTip _ _ _).mp hx
          obtain ⟨hheader, hgrounded⟩ := h x hx
          refine ⟨hheader, ?_⟩
          rcases hgrounded with ⟨hbody, header, hheader, hparent⟩ | hqueue
          · -- a child of the block is next, the parent of any other block stays a tip
            by_cases hchild : header.prevSideHash = some c
            · exact .inr (List.mem_append_right _ ((hspec x).mpr
                ((SideStored.sideParent_eq hheader).trans hchild)))
            · refine .inl ⟨hbody, header, hheader, fun p hp => ?_⟩
              refine (mem_disconnectSidechainTip _ _ _).mpr ⟨hparent p hp, ?_⟩
              rintro rfl
              exact hchild hp
          · exact .inr (List.mem_append_left _ (hother hne hqueue))
        refine ih (a := removed) { hside with describes := hside.describes } hvisit' hfuel' h'
          hdisconnect hvisit'.length_le ?_
        intro hempty x hx
        refine (h' x hx).2.resolve_right ?_
        rw [hempty]
        exact List.not_mem_nil

theorem Settled.deleteBody (hside : SideStored a) (h : Settled a) {b : BlockHash}
    {body : Body} (hdelete : a.deleteBody b body = .ok a') : Settled a' := by
  have hgrounded : ∀ x ∈ a'.sideTips.sidechainTips, a'.Grounded x := by
    let erased : Archive := { a with
      bodies := a.bodies.erase b
      txidToInclusions := a.txidToInclusions.removeBody b body }
    have hother : ∀ x ∈ a.sideTips.sidechainTips, x ≠ b → erased.Grounded x := by
      intro x hx hne
      have hx := h.grounded x hx
      exact hx.mono (.refl a) ((Db.mem_erase _ _ _).mpr ⟨hne.symm, hx.1⟩) fun _ hx => hx
    by_cases hb : b ∈ a.sideTips.sidechainTips
    · refine grounded_disconnectQueue (a := erased) { hside with describes := hside.describes }
        (.start (h.grounded b hb).header_mem) (Nat.le_succ _) (fun x hx => ?_) hdelete
      refine ⟨(h.grounded x hx).header_mem, ?_⟩
      by_cases hne : x = b
      · exact .inr (List.mem_singleton.mpr hne)
      · exact .inl (hother x hx hne)
    · unfold Archive.deleteBody disconnectQueue at hdelete
      dsimp only at hdelete
      rw [if_pos hb, disconnectQueue_nil] at hdelete
      cases hdelete
      refine fun x hx => hother x hx ?_
      rintro rfl
      exact hb hx
  obtain ⟨_, rfl, -⟩ := deleteBody_tips hdelete
  exact ⟨hgrounded, fun x hx => h.bodies x ((Db.mem_erase _ _ _).mp hx).2, h.out⟩

end Delete

/-- No tip is the block or one of its descendants. -/
def NoTipFrom (a : Archive) (b : BlockHash) : Prop :=
  ∀ c ∈ a.sideTips.sidechainTips, ¬ Descends a.sideParent b c

theorem Settled.invalidateBlock (hside : SideStored a) (h : Settled a) {b : BlockHash}
    (hb : b ∈ a.headers) (hnoTip : a.NoTipFrom b) : Settled (a.invalidateBlock b) := by
  obtain ⟨gone, hgone⟩ := exists_invalidating hside hb
  have hsideTips : (a.invalidateBlock b).sideTips = a.sideTips := by rw [hgone.pruned.rest]
  have hkept : ∀ x ∈ a.sideTips.sidechainTips, x ∉ gone := fun x hx hmem =>
    hnoTip x hx (hgone.descends x hmem)
  refine ⟨fun x hx => ?_, fun x hx => ?_, fun x hx hmem => ?_⟩
  · rw [hsideTips] at hx
    obtain ⟨hbody, header, hheader, hparent⟩ := h.grounded x hx
    obtain ⟨body, hbody⟩ := (Db.mem_iff _ _).mp hbody
    refine ⟨Db.mem_of_get (((hgone.pruned.bodies x).trans (if_neg (hkept x hx))).trans hbody),
      header, ((hgone.pruned.headers x).trans (if_neg (hkept x hx))).trans hheader, ?_⟩
    rwa [hsideTips]
  · obtain ⟨body, hbody⟩ := (Db.mem_iff _ _).mp hx
    rw [hgone.pruned.bodies] at hbody
    split at hbody
    case isTrue => cases hbody
    case isFalse hx =>
      obtain ⟨header, hheader⟩ := (Db.mem_iff _ _).mp (h.bodies x (Db.mem_of_get hbody))
      exact Db.mem_of_get (((hgone.pruned.headers x).trans (if_neg hx)).trans hheader)
  · obtain ⟨header, hheader⟩ := (Db.mem_iff _ _).mp hmem
    rw [hgone.pruned.headers] at hheader
    split at hheader
    case isTrue => cases hheader
    case isFalse hnot =>
      exact h.out x (((hgone.pruned.invalid x).mp hx).resolve_left hnot) (Db.mem_of_get hheader)

/-- The calls that a guard allows keep the tips, the bodies and the invalidated blocks
tied to the headers, if no header of an invalidated block is stored and no tip is
invalidated. -/
theorem Settled.call (hcf : CollisionFree) (hstored : Stored m a) (h : Settled a)
    (hstores : ∀ a header, guard.stores a header → header.hash ∉ a.invalidBlocks)
    (hinvalidates : ∀ a b, guard.invalidates a b → a.NoTipFrom b) (hcall : Call m guard a a') :
    Settled a' := by
  have hsame : a'.headers = a.headers ∧ a'.bodies = a.bodies →
      a'.invalidBlocks = a.invalidBlocks → a'.sideTips.sidechainTips = a.sideTips.sidechainTips →
      Settled a' := by
    rintro ⟨hheaders, hbodies⟩ hinvalid htips
    refine ⟨fun x hx => ?_, fun x hx => ?_, fun x hx => ?_⟩
    · have hgrounded := h.grounded x (htips ▸ hx)
      exact hgrounded.mono (.of_eq hheaders) (hbodies ▸ hgrounded.1) fun _ hx => htips ▸ hx
    · exact hheaders ▸ h.bodies x (hbodies ▸ hx)
    · exact hheaders ▸ h.out x (hinvalid ▸ hx)
  cases hcall with
  | @header header _ hallowed hput =>
    obtain ⟨hkeeps, hbodies⟩ := putHeader_keeps hcf hstored.side hput
    have hnot : header.hash ∉ a.invalidBlocks := by
      rcases hallowed with hmem | hallowed
      · exact fun hinvalid => h.out _ hinvalid hmem
      · exact hstores a header hallowed
    obtain ⟨_, _, _, _, -, -, -, -, rfl⟩ := putHeader_ok hput
    refine ⟨fun x hx => ?_, fun x hx => hkeeps.mem (h.bodies x hx), fun x hx hmem => ?_⟩
    · have hgrounded := h.grounded x hx
      exact hgrounded.mono hkeeps hgrounded.1 fun _ hx => hx
    · rcases (Db.mem_insert _ _ _ _).mp hmem with rfl | hmem
      · exact hnot hx
      · exact h.out x hx hmem
  | body hput => exact h.putBody hput
  | deleteBody hdelete => exact h.deleteBody hstored.side hdelete
  | ancestorInfo _ hput =>
    have hrest := putAncestorInfo_rest hput
    obtain ⟨_, hheader, hinfo⟩ := bind_eq_ok.mp hput
    obtain ⟨-, _, _, _, _, -, -, -, -, rfl⟩ := putMainHeaderInfo_ok hheader
    obtain ⟨_, -, -, ⟨rfl, -⟩ | ⟨_, _, _, -, -, -, rfl⟩⟩ := putMainBlockInfo_ok hinfo <;>
      exact hsame hrest rfl rfl
  | connectMainchainTip _ _ hconnect =>
    obtain ⟨-, ⟨sideTips, rfl⟩, -, hmem⟩ := connectMainchainTip_mem hconnect
    refine ⟨fun x hx => ?_, h.bodies, h.out⟩
    have hmono : ∀ x ∈ a.sideTips.sidechainTips, x ∈ sideTips.sidechainTips := fun x hx =>
      (hmem x).mpr (.inl hx)
    rcases (hmem x).mp hx with hx | ⟨-, hgrounded, -⟩
    · exact (h.grounded x hx).withTips hmono
    · exact hgrounded.withTips hmono
  | disconnectBlock _ hdisconnect =>
    obtain ⟨_, -, hdisconnect⟩ := bind_eq_ok.mp hdisconnect
    obtain ⟨_, -, hdisconnect⟩ := bind_eq_ok.mp hdisconnect
    obtain ⟨_, -, hdisconnect⟩ := bind_eq_ok.mp hdisconnect
    obtain ⟨sideTips, hsideTips, hdisconnect⟩ := bind_eq_ok.mp hdisconnect
    cases hdisconnect
    obtain ⟨_, _, disconnected, -, -, hdisconnected, -, rfl⟩ :=
      SideTips.disconnectMainchainTip_ok hsideTips
    refine hsame ⟨rfl, rfl⟩ rfl ?_
    rcases SideTips.disconnectCommitment_ok hdisconnected with ⟨rfl, -⟩ | ⟨_, _, -, -, -, rfl⟩ <;>
      rfl
  | invalidateBlock hb hallowed => exact h.invalidateBlock hstored.side hb (hinvalidates _ _ hallowed)

theorem Settled.calls (hcf : CollisionFree) (hstored : Stored m a) (h : Settled a)
    (hstores : ∀ a header, guard.stores a header → header.hash ∉ a.invalidBlocks)
    (hinvalidates : ∀ a b, guard.invalidates a b → a.NoTipFrom b) (hcalls : Calls m guard a a') :
    Settled a' := by
  induction hcalls with
  | refl => exact h
  | tail hcalls hcall ih =>
    exact ih.call hcf (hstored.calls hcf hcalls).1 hstores hinvalidates hcall

end Archive

end PlainBitnames
