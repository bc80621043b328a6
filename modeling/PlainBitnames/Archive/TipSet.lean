import PlainBitnames.Archive.Calls
import PlainBitnames.Lib.Traversal

/-!
Which blocks are tips. A tip has a body and a header, and its parent is a tip too.
Storing a body visits the descendants of its block, and connects those that can be
tips now; deleting one visits them too, and disconnects the tips among them.
-/

namespace PlainBitnames

open Fallible Lineage Relation

variable [Primitives]

namespace Archive

/-- A block has a body and a header, and its parent is a tip if it has one. -/
def Grounded (a : Archive) (b : BlockHash) : Prop :=
  b ∈ a.bodies ∧ ∃ header : Header, a.headers[b]? = some header ∧
    ∀ p, header.prevSideHash = some p → p ∈ a.sideTips.sidechainTips

/-- A mainchain block up to the recorded mainchain tip verifies a block. -/
def ActiveVerified (m : Mainchain) (a : Archive) (b : BlockHash) : Prop :=
  ∃ mainHash, UpTo m.parent a.mainTip mainHash ∧ a.Verified b mainHash

/-- Every tip is grounded and verified up to the recorded mainchain tip, and so is
no other block, apart from those in a queue. -/
structure TipSet (m : Mainchain) (a : Archive) (queue : List BlockHash) : Prop where
  sound : ∀ b ∈ a.sideTips.sidechainTips, a.Grounded b ∧ a.ActiveVerified m b
  complete : ∀ b, a.Grounded b → a.ActiveVerified m b →
    b ∈ a.sideTips.sidechainTips ∨ b ∈ queue

variable {m : Mainchain} {a a' : Archive} {header : Header}

theorem parentIsTip_iff : a.parentIsTip header.prevSideHash = true ↔
    ∀ p, header.prevSideHash = some p → p ∈ a.sideTips.sidechainTips := by
  unfold parentIsTip
  cases header.prevSideHash with
  | none => exact ⟨fun _ => nofun, fun _ => rfl⟩
  | some p =>
    refine decide_eq_true_iff.trans ⟨fun hp q hq => ?_, fun h => h p rfl⟩
    cases hq
    exact hp

variable {mainHash : MainBlockHash}

/-- The mainchain blocks up to the recorded mainchain tip are its ancestors. -/
theorem TipsStored.isMainDescendant_iff (hstored : Stored m a) (h : TipsStored m a)
    (hmem : mainHash ∈ a.mainHeaderInfos) :
    a.isMainDescendant mainHash a.sideTips.mainchainTip.blockHash = .ok true ↔
      UpTo m.parent a.mainTip mainHash := by
  refine ⟨h.upTo_mainTip hstored hmem, ?_⟩
  rintro ⟨tip, htip, hdescends⟩
  obtain ⟨info, hinfo, rfl⟩ := Option.map_eq_some_iff.mp htip
  rw [MainchainTip.blockHash, hinfo]
  exact (hstored.main.isMainDescendant_eq_true hmem (Db.mem_of_get (h.tip hinfo))).mpr hdescends

variable {b : BlockHash}

theorem mem_connectSidechainTip {tips tips' : SideTips} {work : Nat} {prev : Option BlockHash}
    (h : tips.connectSidechainTip mainHash work b prev = .ok tips') (x : BlockHash) :
    x ∈ tips'.sidechainTips ↔ x ∈ tips.sidechainTips ∨ x = b := by
  rcases SideTips.connectSidechainTip_ok h with ⟨hb, rfl⟩ | ⟨-, height, -, rfl⟩
  · refine ⟨.inl, ?_⟩
    rintro (hx | rfl)
    · exact hx
    · exact hb
  · refine (Db.mem_insert _ _ _ _).trans ?_
    rw [or_comm, eq_comm]

/-- What the results of a block do to the tips. -/
theorem connectVerifications_ok {connected connected' : Bool}
    {results : List (MainBlockHash × BmmResult)}
    (h : results.foldlM (connectVerification b header) (a, connected) = .ok (a', connected')) :
    (∀ x, x ∈ a'.sideTips.sidechainTips ↔ x ∈ a.sideTips.sidechainTips ∨
        x = b ∧ ∃ result ∈ results, a.Counts header result) ∧
      (connected' = true ↔ connected = true ∨ ∃ result ∈ results, a.Counts header result) := by
  induction results generalizing a connected with
  | nil =>
    cases h
    simp
  | cons result results ih =>
    obtain ⟨acc, hfirst, h⟩ := foldlM_cons_eq_ok.mp h
    rcases connectVerification_ok hfirst with
      ⟨hnot, rfl⟩ | ⟨hcounts, work, sideTips, -, hconnect, rfl⟩
    · simp only [List.mem_cons, exists_eq_or_imp, hnot, false_or]
      exact ih h
    · have hfirst := mem_connectSidechainTip hconnect
      obtain ⟨hmem, hconnected⟩ := ih h
      have hexists : ∃ r ∈ result :: results, a.Counts header r :=
        ⟨result, List.mem_cons_self, hcounts⟩
      refine ⟨fun x => ?_, ?_⟩
      · rw [hmem, hfirst]
        simp only [hexists, and_true]
        tauto
      · rw [hconnected]
        simp only [hexists, true_or, or_true]

variable {queue : List BlockHash}

/-- A block that can be a tip becomes one, and its children are next. -/
theorem updateSideTips_ok (hstored : Stored m a) (htips : TipsStored m a)
    (h : a.updateSideTips b header = .ok (a', queue)) :
    (∀ x, x ∈ a'.sideTips.sidechainTips ↔ x ∈ a.sideTips.sidechainTips ∨ x = b ∧
        (∀ p, header.prevSideHash = some p → p ∈ a.sideTips.sidechainTips) ∧
          a.ActiveVerified m b) ∧
      queue.Nodup ∧ (∀ x ∈ queue, a.sideParent x = some b) ∧
      ((∀ p, header.prevSideHash = some p → p ∈ a.sideTips.sidechainTips) →
        a.ActiveVerified m b → ∀ x, a.sideParent x = some b → x ∈ queue) := by
  obtain ⟨sideTips, heq, -⟩ := updateSideTips_tips h
  obtain ⟨⟨next, connected⟩, hfold, h⟩ := bind_eq_ok.mp h
  obtain ⟨hmem, hconnected⟩ := connectVerifications_ok hfold
  have hcounts : (∃ result ∈ (a.getBmmResults b).toList, a.Counts header result) ↔
      (∀ p, header.prevSideHash = some p → p ∈ a.sideTips.sidechainTips) ∧
        a.ActiveVerified m b := by
    constructor
    · rintro ⟨⟨mainHash, result⟩, hmem, hresult, hparent, hactive⟩
      have hget := Db.mem_toList.mp hmem
      cases hresult
      have hmain := hstored.bmm.main_mem hstored.main b mainHash hget
      exact ⟨parentIsTip_iff.mp hparent, mainHash,
        (htips.isMainDescendant_iff hstored hmain).mp hactive, hget⟩
    · rintro ⟨hparent, mainHash, hactive, hverified⟩
      have hmain := hstored.bmm.main_mem hstored.main b mainHash hverified
      exact ⟨(mainHash, .verified), Db.mem_toList.mpr hverified,
        rfl, parentIsTip_iff.mpr hparent, (htips.isMainDescendant_iff hstored hmain).mpr hactive⟩
  simp only [Bool.false_eq_true, false_or, hcounts] at hmem hconnected
  cases connected with
  | false =>
    cases h
    refine ⟨hmem, .nil, nofun, fun hparent hactive => ?_⟩
    cases hconnected.mpr ⟨hparent, hactive⟩
  | true =>
    obtain ⟨successors, hsuccessors, h⟩ := bind_eq_ok.mp h
    cases h
    have hsuccessors : a.successors[some b]? = some successors := by
      rw [heq] at hsuccessors
      exact okOr_eq_ok.mp hsuccessors
    have hspec : ∀ x, x ∈ successors.keys ↔ a.sideParent x = some b := by
      intro x
      rw [Std.ExtTreeMap.mem_keys, hstored.side.successors hsuccessors,
        sideParent, Option.bind_eq_some_iff]
    exact ⟨hmem, Std.ExtTreeMap.nodup_keys, fun x => (hspec x).mp,
      fun _ _ x => (hspec x).mpr⟩

theorem Grounded.withTips {sideTips : SideTips} (h : a.Grounded b)
    (hmono : ∀ x ∈ a.sideTips.sidechainTips, x ∈ sideTips.sidechainTips) :
    { a with sideTips }.Grounded b := by
  obtain ⟨hbody, header, hheader, hparent⟩ := h
  exact ⟨hbody, header, hheader, fun p hp => hmono p (hparent p hp)⟩

/-- A block of the queue is visited. -/
theorem TipSet.updateSideTips (hstored : Stored m a) (htips : TipsStored m a)
    {successors : List BlockHash} (h : TipSet m a (b :: queue)) (hbody : b ∈ a.bodies)
    (hheader : a.headers[b]? = some header)
    (hupdate : a.updateSideTips b header = .ok (a', successors)) :
    TipSet m a' (queue ++ successors) := by
  obtain ⟨sideTips, rfl, htip⟩ := updateSideTips_tips hupdate
  obtain ⟨hmem, -, -, hchildren⟩ := updateSideTips_ok hstored htips hupdate
  have hmono : ∀ x ∈ a.sideTips.sidechainTips, x ∈ sideTips.sidechainTips :=
    fun x hx => (hmem x).mpr (.inl hx)
  have hactive : ∀ x, { a with sideTips }.ActiveVerified m x ↔ a.ActiveVerified m x := by
    intro x
    rw [ActiveVerified, mainTip, htip]
    rfl
  refine ⟨fun x hx => ?_, fun x hgrounded hverified => ?_⟩
  · rcases (hmem x).mp hx with hx | ⟨rfl, hparent, hverified⟩
    · obtain ⟨hgrounded, hverified⟩ := h.sound x hx
      exact ⟨hgrounded.withTips hmono, (hactive x).mpr hverified⟩
    · have hgrounded : a.Grounded x := ⟨hbody, header, hheader, hparent⟩
      exact ⟨hgrounded.withTips hmono, (hactive x).mpr hverified⟩
  · rw [hactive] at hverified
    obtain ⟨hxbody, xheader, hxheader, hparent⟩ := hgrounded
    rw [List.mem_append]
    by_cases hold : ∀ p, xheader.prevSideHash = some p → p ∈ a.sideTips.sidechainTips
    · rcases h.complete x ⟨hxbody, xheader, hxheader, hold⟩ hverified with hx | hx
      · exact .inl (hmono x hx)
      rcases List.mem_cons.mp hx with rfl | hx
      · cases hxheader.symm.trans hheader
        exact .inl ((hmem x).mpr (.inr ⟨rfl, hold, hverified⟩))
      · exact .inr (.inl hx)
    · -- the parent is the block that was visited
      push Not at hold
      obtain ⟨p, hp, hnot⟩ := hold
      obtain ⟨rfl, hbparent, hbverified⟩ := ((hmem p).mp (hparent p hp)).resolve_left hnot
      exact .inr (.inr (hchildren hbparent hbverified x
        ((SideStored.sideParent_eq (a := a) hxheader).trans hp)))

theorem TipSet.drop (h : TipSet m a (b :: queue)) (hbody : b ∉ a.bodies) : TipSet m a queue := by
  refine ⟨h.sound, fun x hgrounded hverified => ?_⟩
  refine (h.complete x hgrounded hverified).imp_right fun hx => ?_
  rcases List.mem_cons.mp hx with rfl | hx
  · exact absurd hgrounded.1 hbody
  · exact hx

/-- A traversal of stored blocks. -/
structure Visiting (a : Archive) (b : BlockHash) (visited queue : List BlockHash) : Prop where
  first : b ∈ a.headers
  traversal : Traversal a.sideParent b visited queue
  mem : ∀ x ∈ visited ++ queue, x ∈ a.headers

theorem Visiting.start (hb : b ∈ a.headers) : Visiting a b [] [b] where
  first := hb
  traversal := .start b
  mem _ hx := List.mem_singleton.mp hx ▸ hb

variable {visited : List BlockHash}

theorem Visiting.visit (hside : SideStored a) {c : BlockHash}
    (h : Visiting a b visited (c :: queue)) {children : List BlockHash} (hnodup : children.Nodup)
    (hchildren : ∀ y ∈ children, a.sideParent y = some c) :
    Visiting a b (visited ++ [c]) (queue ++ children) where
  first := h.first
  traversal :=
    h.traversal.visit hside.describes.rooted (hside.height_of_mem h.first) hnodup hchildren
  mem x hx := by
    rw [← List.append_assoc, List.append_assoc visited, List.mem_append] at hx
    rcases hx with hx | hx
    · exact h.mem x hx
    · obtain ⟨header, hheader, -⟩ := header_of_sideParent (hchildren x hx)
      exact Db.mem_of_get hheader

theorem Visiting.length_le (h : Visiting a b visited queue) :
    visited.length + queue.length ≤ a.headers.size := by
  rw [← Std.ExtTreeMap.length_keys]
  exact h.traversal.length_le fun x hx => Std.ExtTreeMap.mem_keys.mpr (h.mem x hx)

/-- The queue is empty in the end, and every block that can be a tip is one. -/
theorem TipSet.updateQueue (hcf : CollisionFree) {fuel : Nat} (hstored : Stored m a)
    (htips : TipsStored m a) (h : TipSet m a queue) (hvisiting : Visiting a b visited queue)
    (hfuel : a.headers.size ≤ fuel + visited.length) (hupdate : updateQueue fuel a queue = .ok a') :
    TipSet m a' [] := by
  have hlength := hvisiting.length_le
  induction fuel generalizing a visited queue with
  | zero =>
    obtain rfl : queue = [] := List.eq_nil_of_length_eq_zero (by omega)
    exact Except.ok.inj hupdate ▸ h
  | succ fuel ih =>
    cases queue with
    | nil => exact Except.ok.inj hupdate ▸ h
    | cons c queue =>
      have hfuel' : a.headers.size ≤ fuel + (visited ++ [c]).length := by
        rw [List.length_append, List.length_singleton]
        omega
      unfold Archive.updateQueue at hupdate
      split at hupdate
      case isTrue hbody =>
        have hvisit := hvisiting.visit hstored.side .nil (List.forall_mem_nil _)
        rw [List.append_nil] at hvisit
        refine ih hstored htips (h.drop fun hmem => ?_) hvisit hfuel' hupdate hvisit.length_le
        rw [containsBody, Std.ExtTreeMap.mem_iff_contains.mp hmem] at hbody
        cases hbody
      case isFalse hbody =>
        obtain ⟨header, hheader, hupdate⟩ := bind_eq_ok.mp hupdate
        obtain ⟨⟨next, successors⟩, hfirst, hupdate⟩ := bind_eq_ok.mp hupdate
        have hheader := okOr_eq_ok.mp hheader
        have hbody : c ∈ a.bodies := by
          rw [Std.ExtTreeMap.mem_iff_contains]
          simpa [containsBody] using hbody
        obtain ⟨-, hnodup, hchildren, -⟩ := updateSideTips_ok hstored htips hfirst
        have hsteps : Steps m (fun _ _ => False) a next := updateSideTips_steps hfirst hheader
        obtain ⟨sideTips, rfl, -⟩ := updateSideTips_tips hfirst
        have hvisit := hvisiting.visit hstored.side hnodup hchildren
        have hvisit' : Visiting { a with sideTips } b (visited ++ [c]) (queue ++ successors) :=
          ⟨hvisit.first, hvisit.traversal, hvisit.mem⟩
        exact ih (hstored.steps hcf hsteps).1 (htips.steps hcf (fun _ _ h => h.elim) hstored hsteps)
          (h.updateSideTips hstored htips hbody hheader hfirst) hvisit' hfuel' hupdate
          hvisit'.length_le

theorem TipSet.putBody (hcf : CollisionFree) (hstored : Stored m a) (htips : TipsStored m a)
    (h : TipSet m a []) {body : Body} (hput : a.putBody b body = .ok a') : TipSet m a' [] := by
  obtain ⟨header, hheader, hput⟩ := bind_eq_ok.mp hput
  obtain ⟨⟨next, queue⟩, hfirst, hput⟩ := bind_eq_ok.mp hput
  have hheader := okOr_eq_ok.mp hheader
  let stored : Archive := { a with
    bodies := a.bodies.insert b body
    txidToInclusions := a.txidToInclusions.insertBody b body }
  have hstored' : Stored m stored := hstored.withTips _ a.sideTips
  have htips' : TipsStored m stored := { htips with tip := htips.tip }
  have hset : TipSet m stored [b] := by
    refine ⟨fun x hx => ?_, fun x hgrounded hverified => ?_⟩
    · obtain ⟨⟨hbody, hgrounded⟩, hverified⟩ := h.sound x hx
      exact ⟨⟨(Db.mem_insert _ _ _ _).mpr (.inr hbody), hgrounded⟩, hverified⟩
    · rcases (Db.mem_insert _ _ _ _).mp hgrounded.1 with rfl | hbody
      · exact .inr (List.mem_singleton.mpr rfl)
      · exact .inl ((h.complete x ⟨hbody, hgrounded.2⟩ hverified).resolve_right List.not_mem_nil)
  have hbody : b ∈ stored.bodies := (Db.mem_insert _ _ _ _).mpr (.inl rfl)
  have hnext := hset.updateSideTips hstored' htips' hbody hheader hfirst
  obtain ⟨-, hnodup, hchildren, -⟩ := updateSideTips_ok hstored' htips' hfirst
  have hsteps : Steps m (fun _ _ => False) stored next := updateSideTips_steps hfirst hheader
  obtain ⟨sideTips, rfl, -⟩ := updateSideTips_tips hfirst
  have hb : b ∈ stored.headers := Db.mem_of_get hheader
  have hvisit := (Visiting.start hb).visit hstored'.side hnodup hchildren
  have hvisit' : Visiting { stored with sideTips } b [b] queue :=
    ⟨hvisit.first, hvisit.traversal, hvisit.mem⟩
  exact hnext.updateQueue hcf (hstored'.steps hcf hsteps).1 (htips'.steps hcf nofun hstored' hsteps)
    hvisit' (Nat.le_add_right _ _) hput

/-- Results for stored blocks at mainchain blocks whose info is stored do not change. -/
theorem Stored.verified_op_iff (hcf : CollisionFree) (h : Stored m a) {op : ArchiveOp}
    (hop : op.Reported m) (hput : a.op op = .ok a') (hb : b ∈ a.headers)
    (hinfo : mainHash ∈ a.mainBlockInfos) :
    a.Verified b mainHash ↔ a'.Verified b mainHash := by
  cases op with
  | header header => exact BmmStored.verified_putHeader_of_mem hcf h.main h.side h.bmm hput hb _
  | mainHeaderInfo info =>
    obtain ⟨-, _, _, _, _, -, -, -, -, rfl⟩ := putMainHeaderInfo_ok hput
    rfl
  | mainBlockInfo hash info =>
    exact BmmStored.verified_putMainBlockInfo_of_mem h.main h.side h.bmm hop hput hinfo b

theorem SideStored.header_op (hcf : CollisionFree) (h : SideStored a) {op : ArchiveOp}
    (hput : a.op op = .ok a') (hheader : a.headers[b]? = some header) : a'.headers[b]? = some header := by
  cases op with
  | header new =>
    obtain ⟨_, _, _, _, -, -, -, -, rfl⟩ := putHeader_ok hput
    exact Db.get_insert_again (h.header_again hcf) hheader
  | mainHeaderInfo info =>
    obtain ⟨-, _, _, _, _, -, -, -, -, rfl⟩ := putMainHeaderInfo_ok hput
    exact hheader
  | mainBlockInfo hash info =>
    obtain ⟨_, -, -, ⟨rfl, -⟩ | ⟨_, _, _, -, -, -, rfl⟩⟩ := putMainBlockInfo_ok hput <;>
      exact hheader

/-- What is known of an archive that only grows. -/
structure Tracked (m : Mainchain) (a : Archive) : Prop where
  stored : Stored m a
  tips : TipsStored m a
  ranked : a.Ranked
  set : TipSet m a []
  bodies : ∀ b ∈ a.bodies, b ∈ a.headers
  infos : ∀ hash, a.mainTip = some hash → hash ∈ a.mainBlockInfos

theorem Tracked.new (m : Mainchain) : Tracked m .new where
  stored := .new m
  tips := .new m
  ranked := .new
  set := ⟨fun b hb => absurd hb (Db.not_mem_empty b), fun b hb => absurd hb.1 (Db.not_mem_empty b)⟩
  bodies b hb := absurd hb (Db.not_mem_empty b)
  infos := nofun

theorem Tracked.op {op : ArchiveOp} (hcf : CollisionFree) (h : Tracked m a) (hop : op.Reported m)
    (hput : a.op op = .ok a') : Tracked m a' := by
  obtain ⟨htips, hbodies⟩ := op_frame hput
  have hmainTip : a'.mainTip = a.mainTip := by rw [mainTip, mainTip, htips]
  have hstep : Step m (fun _ _ => False) a a' := .op hop hput
  have hinfos : ∀ x ∈ a.mainBlockInfos, x ∈ a'.mainBlockInfos := fun x hx =>
    h.stored.mainBlockInfos_step hstep hx
  obtain ⟨htips', hranked⟩ := h.tips.step hcf (fun _ _ h => h.elim) h.stored hstep
  refine ⟨h.stored.op hcf hop hput, htips', hranked (fun _ _ h => h.elim) h.ranked, ⟨fun b hb => ?_,
    fun b hgrounded hverified => ?_⟩, fun b hb => ?_, fun hash hhash => ?_⟩
  · rw [htips] at hb
    obtain ⟨⟨hbody, header, hheader, hparent⟩, mainHash, hactive, hverified⟩ := h.set.sound b hb
    refine ⟨⟨hbodies ▸ hbody, header, h.stored.side.header_op hcf hput hheader, htips ▸ hparent⟩,
      mainHash, hmainTip ▸ hactive, h.stored.verified_op hop hput hverified⟩
  · obtain ⟨hbody, header, hheader, hparent⟩ := hgrounded
    obtain ⟨mainHash, hactive, hverified⟩ := hverified
    rw [htips] at hparent ⊢
    rw [hmainTip] at hactive
    rw [hbodies] at hbody
    have hb := h.bodies b hbody
    obtain ⟨old, hold⟩ := (Db.mem_iff _ _).mp hb
    cases (h.stored.side.header_op hcf hput hold).symm.trans hheader
    obtain ⟨tip, htip, hdescends⟩ := hactive
    have hinfo := h.stored.main.info_of_descends (h.infos tip htip) hdescends
    exact h.set.complete b ⟨hbody, _, hold, hparent⟩
      ⟨mainHash, ⟨tip, htip, hdescends⟩,
        (h.stored.verified_op_iff hcf hop hput hb hinfo).mpr hverified⟩
  · rw [hbodies] at hb
    obtain ⟨old, hold⟩ := (Db.mem_iff _ _).mp (h.bodies b hb)
    exact Db.mem_of_get (h.stored.side.header_op hcf hput hold)
  · exact hinfos _ (h.infos hash (hmainTip ▸ hhash))

theorem Tracked.putBody (hcf : CollisionFree) (h : Tracked m a) {body : Body}
    (hput : a.putBody b body = .ok a') : Tracked m a' := by
  have hset := h.set.putBody hcf h.stored h.tips hput
  obtain ⟨header, hheader, -⟩ := bind_eq_ok.mp hput
  have hb : b ∈ a.headers := Db.mem_of_get (okOr_eq_ok.mp hheader)
  have hsteps : Steps m (fun _ _ => False) a a' := putBody_steps hput
  obtain ⟨sideTips, rfl, htip⟩ := putBody_tips hput
  refine ⟨(h.stored.steps hcf hsteps).1, h.tips.steps hcf nofun h.stored hsteps,
    h.ranked.steps hcf nofun h.stored h.tips hsteps, hset, fun c hc => ?_, fun hash hhash => ?_⟩
  · rcases (Db.mem_insert _ _ _ _).mp hc with rfl | hc
    · exact hb
    · exact h.bodies c hc
  · rw [mainTip, htip] at hhash
    exact h.infos hash hhash

variable {info : BlockHeaderInfo}

/-- What connecting a mainchain block does to the tips: the block that it commits to
is one, if it can be. -/
theorem connectMainchainTip_mem {commitment : Option BlockHash}
    (h : a.connectMainchainTip info commitment = .ok a') :
    info.prevBlockHash = a.sideTips.mainchainTip.blockHash ∧ (∃ sideTips, a' = { a with sideTips }) ∧
      a'.mainTip = some info.blockHash ∧
      ∀ x, x ∈ a'.sideTips.sidechainTips ↔ x ∈ a.sideTips.sidechainTips ∨
        commitment = some x ∧ a.Grounded x ∧ a.Verified x info.blockHash := by
  obtain ⟨result, hresult, h⟩ := bind_eq_ok.mp h
  obtain ⟨sideTips, hsideTips, h⟩ := bind_eq_ok.mp h
  cases h
  obtain ⟨hprev, -, connected, hconnected, rfl⟩ := SideTips.connectMainchainTip_ok hsideTips
  refine ⟨hprev, ⟨_, rfl⟩, rfl, fun x => ?_⟩
  change x ∈ connected.sidechainTips ↔ _
  rcases tipCommitment_cases hresult with
    ⟨rfl, hnone⟩ | ⟨b, header, hb, rfl, hbody, hheader, hparent, hverified⟩
  · cases hconnected
    refine ⟨.inl, fun hx => hx.resolve_right ?_⟩
    rintro ⟨hx, ⟨hbody, header, hheader, hparent⟩, hverified⟩
    exact hnone x header hx hbody hheader (parentIsTip_iff.mpr hparent) hverified
  · rw [mem_connectSidechainTip hconnected]
    refine or_congr_right ⟨?_, ?_⟩
    · rintro rfl
      exact ⟨hb, ⟨hbody, header, hheader, parentIsTip_iff.mp hparent⟩, hverified⟩
    · rintro ⟨hx, -⟩
      exact Option.some.inj (hx.symm.trans hb)

/-- The tips when the recorded mainchain tip moves to a child. -/
theorem TipSet.connectMainchainTip (hstored : Stored m a) (htips : TipsStored m a)
    (h : TipSet m a []) {blockInfo : MainBlockInfo}
    (hheader : a.mainHeaderInfos[info.blockHash]? = some info)
    (hinfo : a.mainBlockInfos[info.blockHash]? = some blockInfo)
    (hconnect : a.connectMainchainTip info blockInfo.bmmCommitment = .ok a') : TipSet m a' [] := by
  obtain ⟨hprev, ⟨sideTips, rfl⟩, hmainTip, hmem⟩ := connectMainchainTip_mem hconnect
  have hcommitment := congrArg MainBlockInfo.bmmCommitment (hstored.main.info_eq hinfo)
  have hparent := htips.mainTip_eq hstored hheader hprev
  have hmono : ∀ x ∈ a.sideTips.sidechainTips, x ∈ sideTips.sidechainTips :=
    fun x hx => (hmem x).mpr (.inl hx)
  -- the new mainchain tip can only verify the block that it commits to
  have hactive : ∀ x, { a with sideTips }.ActiveVerified m x ↔
      a.Verified x info.blockHash ∨ a.ActiveVerified m x := by
    intro x
    rw [ActiveVerified, hmainTip]
    simp only [upTo_some, descends_iff_upTo_parent, hparent]
    constructor
    · rintro ⟨mainHash, rfl | hup, hverified⟩
      · exact .inl hverified
      · exact .inr ⟨mainHash, hup, hverified⟩
    · rintro (hverified | ⟨mainHash, hup, hverified⟩)
      · exact ⟨_, .inl rfl, hverified⟩
      · exact ⟨mainHash, .inr hup, hverified⟩
  have hcomplete : ∀ x, a.Grounded x → { a with sideTips }.ActiveVerified m x →
      x ∈ sideTips.sidechainTips := by
    intro x hgrounded hverified
    rcases (hactive x).mp hverified with hverified | hverified
    · exact (hmem x).mpr (.inr ⟨hcommitment.trans (hstored.bmm.commit hverified), hgrounded,
        hverified⟩)
    · exact hmono x ((h.complete x hgrounded hverified).resolve_right List.not_mem_nil)
  refine ⟨fun x hx => ?_, fun x hgrounded hverified => .inl ?_⟩
  · rcases (hmem x).mp hx with hx | ⟨-, hgrounded, hverified⟩
    · obtain ⟨hgrounded, hverified⟩ := h.sound x hx
      exact ⟨hgrounded.withTips hmono, (hactive x).mpr (.inr hverified)⟩
    · exact ⟨hgrounded.withTips hmono, (hactive x).mpr (.inl hverified)⟩
  · obtain ⟨hbody, header, hheader, hparents⟩ := hgrounded
    refine hcomplete x ⟨hbody, header, hheader, fun p hp => ?_⟩ hverified
    rcases (hmem p).mp (hparents p hp) with hold | ⟨hcommit, hgrounded, -⟩
    · exact hold
    refine (h.complete p hgrounded ?_).resolve_right List.not_mem_nil
    rcases (hactive x).mp hverified with hverified | ⟨mainHash, hup, hverified⟩
    · -- the new mainchain tip does not commit to a block and its parent
      rw [hcommitment, hstored.bmm.commit hverified] at hcommit
      exact absurd (Option.some.inj hcommit ▸ hp) (hstored.side.ne_parent hheader)
    · rw [← hstored.side.hash_eq hheader] at hverified
      obtain ⟨-, -, hrule⟩ := hstored.bmm.sound hverified
      obtain ⟨earlier, hdescends, hverified⟩ := hrule p hp
      exact ⟨earlier, UpTo.trans hdescends hup, hverified⟩

theorem Tracked.connectMainchainTip (hcf : CollisionFree) (h : Tracked m a)
    {blockInfo : MainBlockInfo} (hheader : a.mainHeaderInfos[info.blockHash]? = some info)
    (hinfo : a.mainBlockInfos[info.blockHash]? = some blockInfo)
    (hconnect : a.connectMainchainTip info blockInfo.bmmCommitment = .ok a') : Tracked m a' := by
  have hset := h.set.connectMainchainTip h.stored h.tips hheader hinfo hconnect
  have hsteps : Steps m (fun _ _ => False) a a' := connectMainchainTip_steps hheader hconnect
  obtain ⟨-, ⟨sideTips, rfl⟩, hmainTip, -⟩ := connectMainchainTip_mem hconnect
  refine ⟨(h.stored.steps hcf hsteps).1, h.tips.steps hcf nofun h.stored hsteps,
    h.ranked.steps hcf nofun h.stored h.tips hsteps, hset, h.bodies, fun hash hhash => ?_⟩
  cases hmainTip.symm.trans hhash
  exact Db.mem_of_get hinfo

end Archive

end PlainBitnames
