import PlainBitnames.Archive.Keeps
import PlainBitnames.Node.Connected
import PlainBitnames.Node.Ops
import PlainBitnames.State.PegUndo

/-!
The active chain: the blocks up to the tip of the state. The tip always has a stored
header, and the height of the state is that of its tip. Disconnecting a block moves
the tip to its parent, and connecting one adds it to the chain.
-/

namespace PlainBitnames

open Fallible Lineage

variable [Primitives]

namespace State

/-- The height of the state is that of its tip. -/
structure Measured (state : State) : Prop where
  tip : ∀ {b}, state.tip = some b → ∃ k, state.height = some k ∧ HeightOf b k
  none : state.tip = none → state.height = none

variable {state state' applied : State} {header : Header} {body : Body}

theorem Measured.empty : State.empty.Measured := ⟨nofun, fun _ => rfl⟩

theorem Measured.connect {ctxt : BatchVerificationContext} {data : TwoWayPegData}
    (h : state.Measured) (happly : state.applyBlock ctxt header body = .ok applied)
    (hconnect : applied.connectTwoWayPegData data = .ok state') : state'.Measured := by
  obtain ⟨htip, hprev⟩ := connect_tip happly hconnect
  have hheight := (connectTwoWayPegData_logs (applyBlock_height happly) hconnect).1
  refine ⟨fun hb => ?_, fun hnone => nomatch htip.symm.trans hnone⟩
  cases htip.symm.trans hb
  refine ⟨_, hheight, ?_⟩
  cases hp : state.tip with
  | none =>
    rw [h.none hp]
    exact .root (hprev.trans hp)
  | some p =>
    obtain ⟨k, hk, hheightOf⟩ := h.tip hp
    rw [hk]
    exact .step (hprev.trans hp) hheightOf

/-- Disconnecting a block moves the tip to its parent. -/
theorem disconnectTip_ok (h : state.disconnectTip header body = .ok state') :
    state.tip = some header.hash ∧ state'.tip = header.prevSideHash ∧
      state.height = some (heightAfter state'.height) ∧
      (state'.height = none ↔ header.prevSideHash = none) := by
  obtain ⟨tip, htip, h⟩ := bind_eq_ok.mp h
  obtain ⟨heq, h⟩ := ensure_bind_eq_ok.mp h
  obtain ⟨height, hheight, h⟩ := bind_eq_ok.mp h
  obtain ⟨_, -, h⟩ := bind_eq_ok.mp h
  obtain ⟨_, -, h⟩ := bind_eq_ok.mp h
  obtain ⟨_, -, h⟩ := bind_eq_ok.mp h
  obtain ⟨-, h⟩ := ensure_bind_eq_ok.mp h
  have hheight := okOr_eq_ok.mp hheight
  refine ⟨heq ▸ okOr_eq_ok.mp htip, ?_⟩
  cases hprev : header.prevSideHash with
  | none =>
    rw [hprev] at h
    cases height with
    | zero =>
      cases h
      exact ⟨rfl, hheight, iff_of_true rfl rfl⟩
    | succ => cases h
  | some prev =>
    rw [hprev] at h
    cases height with
    | zero => cases h
    | succ height =>
      cases h
      exact ⟨rfl, hheight, iff_of_false nofun nofun⟩

theorem Measured.disconnect (hcf : CollisionFree) (h : state.Measured)
    (hdisconnect : state.disconnectTip header body = .ok state') : state'.Measured := by
  obtain ⟨htip, htip', hheight, hnone⟩ := disconnectTip_ok hdisconnect
  obtain ⟨k, hk, hheightOf⟩ := h.tip htip
  cases hk.symm.trans hheight
  refine ⟨fun {p} hp => ?_, fun hp => hnone.mpr (htip'.symm.trans hp)⟩
  rcases hheightOf.of_header hcf with ⟨hroot, -⟩ | ⟨q, j, hq, hj, hsucc⟩
  · cases (htip'.symm.trans hp).symm.trans hroot
  · cases (htip'.symm.trans hp).symm.trans hq
    cases hheight' : state'.height with
    | none => cases (hnone.mp hheight').symm.trans hq
    | some i =>
      rw [hheight'] at hsucc
      exact ⟨i, rfl, Nat.succ.inj hsucc ▸ hj⟩

theorem Measured.undone (h : state.Measured) (hframe : state.PegUndone state') :
    state'.Measured where
  tip hb := by
    obtain ⟨k, hk, hheightOf⟩ := h.tip (hframe.tip.symm.trans hb)
    exact ⟨k, hframe.height.trans hk, hheightOf⟩
  none hb := hframe.height.trans (h.none (hframe.tip.symm.trans hb))

end State

namespace Node

open Archive

/-- The block is in the chain of the state. -/
def Active (node : Node) (b : BlockHash) : Prop := UpTo node.archive.sideParent node.state.tip b

/-- The tip of the state has a stored header, and the height is that of the tip. -/
structure Anchored (node : Node) : Prop where
  measured : node.state.Measured
  mem : ∀ b, node.state.tip = some b → b ∈ node.archive.headers

variable {m : Mainchain} {node node' : Node} {b : BlockHash}

theorem Anchored.new : Node.new.Anchored := ⟨.empty, nofun⟩

/-- The chain of a node from which blocks were disconnected. -/
structure Below (node node' : Node) : Prop where
  archive : node'.archive = node.archive
  active : ∀ b, node'.Active b → node.Active b
  anchored : node.Anchored → node'.Anchored

theorem Below.refl (node : Node) : Below node node := ⟨rfl, fun _ h => h, fun h => h⟩

theorem Below.trans {node'' : Node} (h : Below node node') (h' : Below node' node'') :
    Below node node'' :=
  ⟨h'.archive.trans h.archive, fun b hb => h.active b (h'.active b hb),
    fun hanchored => h'.anchored (h.anchored hanchored)⟩

/-- What disconnecting the tip of a state leaves. -/
theorem below_disconnect (hcf : CollisionFree) (hside : SideStored node.archive)
    {tip : BlockHash} {header : Header} {body : Body} {state state' : State}
    (htip : node.state.tip = some tip) (hheader : node.archive.headers[tip]? = some header)
    (hframe : node.state.PegUndone state) (hdisconnect : state.disconnectTip header body = .ok state') :
    Below node { node with state := state' } := by
  obtain ⟨-, htip', -, -⟩ := State.disconnectTip_ok hdisconnect
  refine ⟨rfl, fun b hb => ?_, fun h => ⟨(h.measured.undone hframe).disconnect hcf hdisconnect, ?_⟩⟩
  · rw [Active, htip, upTo_some, descends_iff_upTo_parent, SideStored.sideParent_eq hheader,
      ← htip']
    exact .inr hb
  · intro p hp
    exact hside.parent_mem hheader (htip'.symm.trans hp)

/-- What disconnecting the tip of a node reads. -/
theorem disconnectTip_ok (h : node.disconnectTip = .ok node') :
    ∃ tip header body state, node.state.tip = some tip ∧
      node.archive.headers[tip]? = some header ∧ node.archive.bodies[tip]? = some body ∧
      node.state.PegUndone state ∧ state.disconnectTip header body = .ok node'.state ∧
      node'.archive = node.archive := by
  have harchive := disconnectTip_archive h
  obtain ⟨tip, htip, h⟩ := bind_eq_ok.mp h
  obtain ⟨header, hheader, h⟩ := bind_eq_ok.mp h
  obtain ⟨body, hbody, h⟩ := bind_eq_ok.mp h
  obtain ⟨_, -, h⟩ := bind_eq_ok.mp h
  obtain ⟨_, -, h⟩ := bind_eq_ok.mp h
  obtain ⟨state, hundo, h⟩ := bind_eq_ok.mp h
  obtain ⟨state', hstate, h⟩ := bind_eq_ok.mp h
  cases h
  rw [mapFailure_eq_ok] at hheader hbody hundo hstate
  exact ⟨tip, header, body, state, okOr_eq_ok.mp htip, okOr_eq_ok.mp hheader, okOr_eq_ok.mp hbody,
    State.disconnectTwoWayPegData_undone hundo, hstate, harchive⟩

theorem below_disconnectTip (hcf : CollisionFree) (hside : SideStored node.archive)
    (h : node.disconnectTip = .ok node') : Below node node' := by
  obtain ⟨tip, header, body, state, htip, hheader, -, hframe, hdisconnect, harchive⟩ :=
    disconnectTip_ok h
  obtain ⟨archive, state'⟩ := node'
  cases harchive
  exact below_disconnect hcf hside htip hheader hframe hdisconnect

theorem below_disconnectTips (hcf : CollisionFree) (hside : SideStored node.archive) {n : Nat}
    (h : node.disconnectTips n = .ok node') : Below node node' := by
  induction n generalizing node with
  | zero => exact Except.ok.inj h ▸ .refl node
  | succ n ih =>
    obtain ⟨next, hnext, h⟩ := bind_eq_ok.mp h
    have hbelow := below_disconnectTip hcf hside hnext
    exact hbelow.trans (ih (hbelow.archive ▸ hside) h)

theorem below_rollBack (hcf : CollisionFree) (hside : SideStored node.archive) {fuel : Nat}
    (h : node.rollBack fuel = .ok node') : Below node node' := by
  induction fuel generalizing node with
  | zero => exact Except.ok.inj h ▸ .refl node
  | succ fuel ih =>
    unfold rollBack at h
    split at h
    case h_1 => exact Except.ok.inj h ▸ .refl node
    case h_2 tip htip =>
      split at h
      case isTrue => exact Except.ok.inj h ▸ .refl node
      case isFalse =>
        obtain ⟨header, hheader, h⟩ := bind_eq_ok.mp h
        obtain ⟨body, -, h⟩ := bind_eq_ok.mp h
        obtain ⟨state, hstate, h⟩ := bind_eq_ok.mp h
        rw [mapFailure_eq_ok] at hheader hstate
        have hbelow := below_disconnect hcf hside htip (okOr_eq_ok.mp hheader) (.refl _) hstate
        exact hbelow.trans (ih hside h)

section Connect

variable {ctxt : BatchVerificationContext} {header : Header} {body : Body} {data : TwoWayPegData}

theorem connectTip_active (hheader : node.archive.headers[header.hash]? = some header)
    (h : node.connectTip ctxt header body data = .ok node') (b : BlockHash) :
    node'.Active b ↔ b = header.hash ∨ node.Active b := by
  obtain ⟨applied, _, happly, hstate, -, -⟩ := connectTip_ok h
  obtain ⟨htip, hprev⟩ := State.connect_tip happly hstate
  have hparent := sideParent_congr (connectTip_same hheader h).1
  rw [Active, Active, htip, hparent, upTo_some, descends_iff_upTo_parent,
    SideStored.sideParent_eq hheader, hprev]

theorem connectTip_bodies (h : node.connectTip ctxt header body data = .ok node') :
    node'.archive.bodies = node.archive.bodies.insert header.hash body := by
  obtain ⟨_, withHeader, -, -, hput, hbody⟩ := connectTip_ok h
  obtain ⟨_, heq, -⟩ := putBody_tips hbody
  obtain ⟨_, _, _, _, -, -, -, -, rfl⟩ := putHeader_ok hput
  rw [heq]
  rfl

theorem Anchored.connectTip (hanchored : node.Anchored)
    (hheader : node.archive.headers[header.hash]? = some header)
    (h : node.connectTip ctxt header body data = .ok node') : node'.Anchored := by
  obtain ⟨applied, _, happly, hstate, -, -⟩ := connectTip_ok h
  refine ⟨hanchored.measured.connect happly hstate, fun b hb => ?_⟩
  cases (State.connect_tip happly hstate).1.symm.trans hb
  exact Db.mem_of_get (((connectTip_same hheader h).1 _).trans hheader)

end Connect

/-- Aborting a reorg can discard the body of one block. -/
theorem abortReorg_keeps (node : Node) (b : BlockHash) (body : Body) (err : Failure NodeError) :
    (node.abortReorg b body err).1.state = node.state ∧
      (node.abortReorg b body err).1.archive.headers = node.archive.headers ∧
      ∀ c, c ≠ b → (node.abortReorg b body err).1.archive.bodies[c]? = node.archive.bodies[c]? := by
  unfold abortReorg
  split
  case isTrue => exact ⟨rfl, rfl, fun _ _ => rfl⟩
  case isFalse =>
    cases hdelete : node.archive.deleteBody b body with
    | error => exact ⟨rfl, rfl, fun _ _ => rfl⟩
    | ok archive =>
      obtain ⟨_, rfl, -⟩ := deleteBody_tips hdelete
      exact ⟨rfl, rfl, fun c hne => Db.get_erase_ne _ hne.symm⟩

theorem Anchored.abortReorg {body : Body} {err : Failure NodeError} (h : node.Anchored) :
    (node.abortReorg b body err).1.Anchored := by
  obtain ⟨hstate, hheaders, -⟩ := abortReorg_keeps node b body err
  exact ⟨hstate ▸ h.measured, fun c hc => hheaders ▸ h.mem c (hstate ▸ hc)⟩

theorem Anchored.reorgToTip (hcf : CollisionFree) (hstored : Stored m node.archive)
    (h : node.Anchored) (ctxt : BatchVerificationContext) (newTip : Tip) :
    (node.reorgToTip ctxt newTip).1.Anchored := by
  refine reorgToTip_invariant (Q := fun reorg pending =>
    Ready pending.archive reorg.blocks ∧ pending.Anchored) ?_ (fun h => h.2)
    (fun _ _ _ _ h => h.abortReorg) h
  intro reorg common header blocks batch hp
  obtain ⟨n, hn⟩ := hp.disconnected
  refine ⟨⟨hp.ready hstored.side, (below_disconnectTips hcf hstored.side hn).anchored h⟩, ?_⟩
  rintro block hblock pending next ⟨hready, hpending⟩ hnext
  have hheader := (hready block hblock).1
  exact ⟨hready.connectTip hheader hnext, hpending.connectTip hheader hnext⟩

theorem blockCount_eq (state : State) : blockCount state = State.heightAfter state.height := by
  unfold blockCount
  split
  case h_1 hheight => rw [hheight]; rfl
  case h_2 height hheight => rw [hheight]; rfl

/-- Disconnecting until a block of the chain ends there. -/
theorem disconnectUntil_tip (hcf : CollisionFree) (hside : SideStored node.archive)
    (hanchored : node.Anchored) {target : Option BlockHash}
    (htarget : ∀ t, target = some t → node.Active t) {fuel : Nat}
    (hfuel : State.heightAfter node.state.height ≤ fuel)
    (h : node.disconnectUntil target fuel = .ok node') :
    Below node node' ∧ node'.state.tip = target := by
  induction fuel generalizing node with
  | zero =>
    rw [← Except.ok.inj h]
    refine ⟨.refl node, ?_⟩
    cases htip : node.state.tip with
    | some tip =>
      obtain ⟨k, hk, -⟩ := hanchored.measured.tip htip
      rw [hk] at hfuel
      exact absurd hfuel (Nat.not_succ_le_zero k)
    | none =>
      cases target with
      | none => rfl
      | some t =>
        have hactive := htarget t rfl
        rw [Active, htip] at hactive
        exact absurd hactive (not_upTo_none t)
  | succ fuel ih =>
    unfold disconnectUntil at h
    split at h
    case isTrue heq => exact Except.ok.inj h ▸ ⟨.refl node, heq⟩
    case isFalse hne =>
      obtain ⟨next, hnext, h⟩ := bind_eq_ok.mp h
      have hbelow := below_disconnectTip hcf hside hnext
      obtain ⟨tip, header, _, state, htip, hheader, -, hframe, hdisconnect, harchive⟩ :=
        disconnectTip_ok hnext
      obtain ⟨-, htip', hheight, -⟩ := State.disconnectTip_ok hdisconnect
      have htarget' : ∀ t, target = some t → next.Active t := by
        rintro t rfl
        have hactive := htarget t rfl
        rw [Active, htip, upTo_some, descends_iff_upTo_parent,
          SideStored.sideParent_eq hheader] at hactive
        rw [Active, htip', harchive]
        exact hactive.resolve_left fun heq => hne (heq ▸ htip)
      rw [← hframe.height, hheight] at hfuel
      obtain ⟨hbelow', htip''⟩ := ih (harchive ▸ hside) (hbelow.anchored hanchored) htarget'
        (Nat.succ_le_succ_iff.mp hfuel) h
      exact ⟨hbelow.trans hbelow', htip''⟩

theorem inActiveChain_eq_ok (hside : SideStored node.archive) (hanchored : node.Anchored)
    (hb : b ∈ node.archive.headers) {active : Bool} (h : node.inActiveChain b = .ok active) :
    active = true ↔ node.Active b := by
  unfold inActiveChain at h
  split at h
  case h_1 htip =>
    cases h
    rw [Active, htip]
    exact iff_of_false nofun (not_upTo_none b)
  case h_2 tip htip =>
    obtain ⟨active', hactive', hiff⟩ := Index.isDescendant_eq_ok hside.describes
      (hside.height_of_mem hb) (hside.height_of_mem (hanchored.mem tip htip))
    cases h.symm.trans hactive'
    rw [hiff, Active, htip, upTo_some]

/-- An invalidation first disconnects the block if it is in the chain. -/
theorem invalidateBlock_ok (hcf : CollisionFree) (hside : SideStored node.archive)
    (hanchored : node.Anchored) (h : node.invalidateBlock b = .ok node') :
    node' = node ∧ b ∉ node.archive.headers ∨
      b ∈ node.archive.headers ∧ ∃ below, Below node below ∧ ¬ below.Active b ∧
        node' = { below with archive := below.archive.invalidateBlock b } := by
  unfold invalidateBlock at h
  split at h
  case h_1 hheader =>
    exact .inl ⟨(Except.ok.inj h).symm, fun hmem => by
      obtain ⟨_, hget⟩ := (Db.mem_iff _ _).mp hmem
      cases hget.symm.trans hheader⟩
  case h_2 header hheader =>
    have hmem := Db.mem_of_get hheader
    obtain ⟨active, hactive, h⟩ := bind_eq_ok.mp h
    have hiff := inActiveChain_eq_ok hside hanchored hmem (mapFailure_eq_ok.mp hactive)
    refine .inr ⟨hmem, ?_⟩
    dsimp only at h
    split at h
    case isTrue htrue =>
      obtain ⟨below, hbelow, h⟩ := bind_eq_ok.mp h
      have hparent := SideStored.sideParent_eq hheader
      have htarget : ∀ t, header.prevSideHash = some t → node.Active t := by
        intro t ht
        exact UpTo.trans (.of_parent (hparent.trans ht)) (hiff.mp htrue)
      obtain ⟨hbelow, htip⟩ := disconnectUntil_tip hcf hside hanchored htarget
        (blockCount_eq node.state ▸ Nat.le_succ _) hbelow
      refine ⟨below, hbelow, ?_, (Except.ok.inj h).symm⟩
      rw [Active, htip, ← hparent, hbelow.archive]
      exact hside.describes.rooted.not_upTo_parent (hside.height_of_mem hmem)
    case isFalse hfalse =>
      exact ⟨node, .refl node, fun hb => hfalse (hiff.mpr hb), (Except.ok.inj h).symm⟩

theorem Anchored.invalidateBlock (hcf : CollisionFree) (hside : SideStored node.archive)
    (hanchored : node.Anchored) (h : node.invalidateBlock b = .ok node') : node'.Anchored := by
  rcases invalidateBlock_ok hcf hside hanchored h with ⟨rfl, -⟩ | ⟨hb, below, hbelow, hnot, rfl⟩
  · exact hanchored
  · have hanchored := hbelow.anchored hanchored
    rw [← hbelow.archive] at hb hside
    obtain ⟨gone, hgone⟩ := exists_invalidating hside hb
    refine ⟨hanchored.measured, fun t ht => ?_⟩
    obtain ⟨header, hheader⟩ := (Db.mem_iff _ _).mp (hanchored.mem t ht)
    have hkept : t ∉ gone := by
      intro hmem
      refine hnot ?_
      rw [Active, show below.state.tip = some t from ht, upTo_some]
      exact hgone.descends t hmem
    exact Db.mem_of_get (((hgone.pruned.headers t).trans (if_neg hkept)).trans hheader)

theorem withArchive_keeps {result : ArchiveResult Archive}
    (h : ∀ archive, result = .ok archive → KeepsHeaders node.archive archive) :
    (node.withArchive result).1.state = node.state ∧
      KeepsHeaders node.archive (node.withArchive result).1.archive := by
  cases result with
  | error => exact ⟨rfl, .refl _⟩
  | ok archive => exact ⟨rfl, h archive rfl⟩

theorem syncMainchainTip_rest {a a' : Archive} {mainHash : MainBlockHash}
    (h : a.syncMainchainTip mainHash = .ok a') : a'.headers = a.headers ∧ a'.bodies = a.bodies := by
  obtain ⟨_, -, h⟩ := bind_eq_ok.mp h
  obtain ⟨_, -, h⟩ := bind_eq_ok.mp h
  exact connectMainchainTip_rest h

theorem Anchored.exec (hcf : CollisionFree) (hstored : Stored m node.archive) (h : node.Anchored)
    (op : NodeOp) : (node.exec op).1.Anchored := by
  have harchive : ∀ result : ArchiveResult Archive,
      (∀ archive, result = .ok archive → KeepsHeaders node.archive archive) →
      (node.withArchive result).1.Anchored := by
    intro result hkeeps
    obtain ⟨hstate, hkeeps⟩ := withArchive_keeps hkeeps
    exact ⟨hstate ▸ h.measured, fun b hb => hkeeps.mem (h.mem b (hstate ▸ hb))⟩
  cases op with
  | header header => exact harchive _ fun _ hput => (putHeader_keeps hcf hstored.side hput).1
  | body b body =>
    refine harchive _ fun _ hput => ?_
    obtain ⟨_, rfl, -⟩ := putBody_tips hput
    exact .refl _
  | ancestorInfo headerInfo blockInfo =>
    exact harchive _ fun _ hput => .of_eq (putAncestorInfo_rest hput).1
  | syncMainchainTip mainHash =>
    exact harchive _ fun _ hsync => .of_eq (syncMainchainTip_rest hsync).1
  | mainchainEvent event => exact harchive _ fun _ hhandle => .of_eq (handleBlockEvent_rest hhandle).1
  | mainchainBlockEvent ctxt =>
    rw [Node.exec, handleMainchainBlockEvent]
    split
    case h_1 => exact h
    case h_2 below hbelow =>
      have hbelow := below_rollBack hcf hstored.side hbelow
      have hanchored := hbelow.anchored h
      rw [← hbelow.archive] at hstored
      split
      case h_1 => exact hanchored
      case h_2 best _ =>
        rw [ignoreInvalid_fst]
        exact hanchored.reorgToTip hcf hstored ctxt best
  | reorg ctxt newTip =>
    rw [Node.exec, ignoreInvalid_fst]
    exact h.reorgToTip hcf hstored ctxt newTip
  | invalidate b =>
    rw [Node.exec]
    cases hinvalidate : node.invalidateBlock b with
    | error => exact h
    | ok next => exact h.invalidateBlock hcf hstored.side hinvalidate

theorem Reaches.anchored (hcf : CollisionFree) {Allowed : Node → NodeOp → Prop}
    (h : Reaches m Allowed node) : node.Anchored := by
  induction h with
  | new => exact .new
  | exec h _ _ ih => exact ih.exec hcf (h.stored hcf) _

end Node

end PlainBitnames
