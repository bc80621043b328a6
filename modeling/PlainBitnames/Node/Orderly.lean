import PlainBitnames.Archive.Lookups
import PlainBitnames.Node.Active

/-!
Nodes on which a reorg finds every record that it looks up. The logs of event blocks
name mainchain blocks that are stored. When invalidated blocks stay out, all that a
reorg between two tips reads is there, so that it stops with a state error at most.
-/

namespace PlainBitnames

open Fallible Lineage Relation

variable [Primitives]

namespace Node

open Archive

variable {m : Mainchain} {guard : Guard} {node node' : Node}

section Logs

/-- The mainchain blocks in the logs of event blocks are stored with their infos. -/
structure Logged (node : Node) : Prop where
  deposits : ∀ {i : SeqIdx} {entry}, node.state.depositBlocks[i]? = some entry →
    entry.1 ∈ node.archive.mainBlockInfos
  bundles : ∀ {i : SeqIdx} {entry}, node.state.withdrawalBundleEventBlocks[i]? = some entry →
    entry.1 ∈ node.archive.mainBlockInfos

theorem Logged.new : Node.new.Logged where
  deposits h := by cases (Db.get_empty _).symm.trans h
  bundles h := by cases (Db.get_empty _).symm.trans h

theorem Logged.within (h : node.Logged) {state : State} (hlogs : node.state.LogsWithin state) :
    Logged { node with state } :=
  ⟨fun hentry => h.deposits (hlogs.deposits hentry), fun hentry => h.bundles (hlogs.bundles hentry)⟩

theorem mem_of_latestBlock {infos : List (MainBlockHash × MainBlockInfo)} {kind : BlockEvent → Bool}
    {hash : MainBlockHash} (h : latestBlock kind (TwoWayPegData.ofInfos infos).events = some hash) :
    ∃ info, (hash, info) ∈ infos := by
  obtain ⟨event, hevent, rfl⟩ := Option.map_eq_some_iff.mp h
  have hmem := (List.mem_filter.mp (List.mem_of_getLast? hevent)).1
  obtain ⟨⟨hash, blockInfo⟩, hinfo, hmem⟩ := List.mem_flatMap.mp hmem
  obtain ⟨_, -, rfl⟩ := List.mem_map.mp hmem
  obtain ⟨⟨hash', info⟩, hentry, heq⟩ := List.mem_map.mp hinfo
  cases heq
  exact ⟨info, hentry⟩

omit [Primitives] in
theorem appendEventBlock_get {log : Db SeqIdx (MainBlockHash × Nat)} {hash : Option MainBlockHash}
    {height : Nat} {i : SeqIdx} {entry : MainBlockHash × Nat}
    (h : (State.appendEventBlock log hash height)[i]? = some entry) :
    hash = some entry.1 ∨ log[i]? = some entry := by
  cases hash with
  | none => exact .inr h
  | some hash =>
    rcases Db.get_insert_cases h with ⟨-, rfl⟩ | ⟨-, h⟩
    · exact .inl rfl
    · exact .inr h

theorem Logged.connect {ctxt : BatchVerificationContext} {header : Header} {body : Body}
    {infos : List (MainBlockHash × MainBlockInfo)} (h : node.Logged)
    (hheader : node.archive.headers[header.hash]? = some header)
    (hinfos : ∀ entry ∈ infos, node.archive.mainBlockInfos[entry.1]? = some entry.2)
    (hconnect : node.connectTip ctxt header body (.ofInfos infos) = .ok node') : node'.Logged := by
  obtain ⟨-, hmain⟩ := connectTip_same hheader hconnect
  obtain ⟨applied, _, happly, hstate, -, -⟩ := connectTip_ok hconnect
  have hheight := State.applyBlock_height happly
  obtain ⟨-, hdeposits, hbundles⟩ := State.connectTwoWayPegData_logs hheight hstate
  obtain ⟨_, _, _, -, -, -, -, rfl⟩ := State.applyBlock_ok happly
  have hlatest : ∀ {kind hash}, latestBlock kind (TwoWayPegData.ofInfos infos).events = some hash →
      hash ∈ node.archive.mainBlockInfos := by
    intro kind hash hhash
    obtain ⟨info, hinfo⟩ := mem_of_latestBlock hhash
    exact Db.mem_of_get (hinfos _ hinfo)
  refine ⟨fun hentry => ?_, fun hentry => ?_⟩
  · rw [hdeposits] at hentry
    rw [hmain]
    exact (appendEventBlock_get hentry).elim hlatest h.deposits
  · rw [hbundles] at hentry
    rw [hmain]
    exact (appendEventBlock_get hentry).elim hlatest h.bundles

theorem Logged.step (hcf : CollisionFree) (hstored : Stored m node.archive) (h : node.Logged)
    (hstep : Step m guard node node') : node'.Logged := by
  cases hstep with
  | archive hcall =>
    have hinfos {x} := (hstored.steps hcf (hcall.steps hstored.main)).2 (x := x)
    exact ⟨fun hentry => hinfos (h.deposits hentry), fun hentry => hinfos (h.bundles hentry)⟩
  | connect hheader hinfos hconnect => exact h.connect hheader hinfos hconnect
  | disconnect hdisconnect =>
    obtain ⟨_, _, _, _, -, -, -, hundone, hdisconnect, harchive⟩ := disconnectTip_ok hdisconnect
    obtain ⟨archive, state⟩ := node'
    cases harchive
    exact h.within (hundone.logs.trans (State.disconnectTip_logs hdisconnect))
  | rollBack _ _ _ _ hdisconnect => exact h.within (State.disconnectTip_logs hdisconnect)

theorem Logged.steps (hcf : CollisionFree) (hstored : Stored m node.archive) (h : node.Logged)
    (hsteps : Steps m guard node node') : node'.Logged := by
  induction hsteps with
  | refl => exact h
  | tail hsteps hstep ih => exact ih.step hcf (stored_steps hcf hstored hsteps) hstep

end Logs

end Node

/-- The guard under which invalidated blocks stay out: their headers are not stored
again, no tip is invalidated, and mainchain blocks are disconnected from the recorded
tip on. -/
def Guard.keepsOut : Guard where
  stores a header := header.hash ∉ a.invalidBlocks
  disconnects a hash := a.mainTip = some hash
  invalidates a b := a.NoTipFrom b

namespace Node

open Archive

variable {m : Mainchain} {node node' : Node}

/-- What is known of a node as long as invalidated blocks stay out. -/
structure Orderly (m : Mainchain) (node : Node) : Prop where
  stored : Stored m node.archive
  tips : TipsStored m node.archive
  settled : Archive.Settled node.archive
  complete : Complete node.archive
  logged : node.Logged

theorem Orderly.new (m : Mainchain) : Orderly m .new :=
  ⟨.new m, .new m, .new, .new, .new⟩

theorem Orderly.steps (hcf : CollisionFree) (h : Orderly m node)
    (hsteps : Steps m .keepsOut node node') : Orderly m node' := by
  have hcalls := hsteps.archive_calls
  exact ⟨stored_steps hcf h.stored hsteps, h.tips.calls hcf (fun _ _ => .inl) h.stored hcalls,
    h.settled.calls hcf h.stored (fun _ _ => id) (fun _ _ => id) hcalls,
    h.complete.calls hcf h.stored hcalls, h.logged.steps hcf h.stored hsteps⟩

theorem Reaches.orderly (hcf : CollisionFree) (h : Reaches m (Guarded .keepsOut) node) :
    Orderly m node := by
  induction h with
  | new => exact .new m
  | exec h hop hallowed ih => exact ih.steps hcf (exec_steps hcf ih.stored hop hallowed)

theorem Orderly.held (h : Orderly m node) {b : BlockHash}
    (hb : b ∈ node.archive.sideTips.sidechainTips) :
    b ∈ node.archive.headers ∧ ∃ mainHash, node.archive.Verified b mainHash := by
  obtain ⟨info, hinfo⟩ := (Db.mem_iff _ _).mp hb
  exact ⟨(h.settled.grounded b hb).header_mem, info.mainBlockHash, h.tips.verified hinfo⟩

def IsArchiveError : Failure NodeError → Prop
  | .error (.archive _) => True
  | _ => False

theorem archive_avoids {α : Type} {x : ArchiveResult α} (h : Avoids Failure.IsError x) :
    Avoids IsArchiveError (mapFailure NodeError.archive x) :=
  h.mapFailure fun e he => by
    cases e with
    | error => trivial
    | panic => exact he

theorem state_avoids {α : Type} (x : Except (Failure Error) α) :
    Avoids IsArchiveError (mapFailure NodeError.state x) := by
  cases x with
  | ok a => exact .ok a
  | error e => cases e <;> exact .error nofun

section Disconnect

/-- The tip of the state is one of the tips of the archive. -/
def Tipped (node : Node) : Prop :=
  ∀ b, node.state.tip = some b → b ∈ node.archive.sideTips.sidechainTips

omit [Primitives] in
theorem lastApplied_mem {log : Db SeqIdx (MainBlockHash × Nat)} {height : Nat}
    {entry : MainBlockHash × Nat} (h : lastApplied log height = some entry) :
    ∃ i : SeqIdx, log[i]? = some entry := by
  obtain ⟨⟨i, _⟩, hfind, rfl⟩ := Option.map_eq_some_iff.mp h
  have hmem := List.mem_reverse.mp (List.mem_of_find?_eq_some hfind)
  exact ⟨i, Db.mem_toList.mp hmem⟩

theorem startBlock_avoids {a : Archive} (h : MainStored m a)
    {deposit withdrawal : Option (MainBlockHash × Nat)}
    (hdeposit : ∀ entry, deposit = some entry → entry.1 ∈ a.mainHeaderInfos)
    (hwithdrawal : ∀ entry, withdrawal = some entry → entry.1 ∈ a.mainHeaderInfos) :
    Avoids Failure.IsError (startBlock a deposit withdrawal) := by
  unfold startBlock
  split
  case h_1 | h_2 | h_3 => exact .ok _
  case h_4 depositBlock _ withdrawalBlock _ =>
    have hd : depositBlock ∈ a.mainHeaderInfos := hdeposit _ rfl
    have hw : withdrawalBlock ∈ a.mainHeaderInfos := hwithdrawal _ rfl
    obtain ⟨first, hfirst, -⟩ := h.exists_isMainDescendant hw hd
    obtain ⟨second, hsecond, -⟩ := h.exists_isMainDescendant hd hw
    split
    case h_1 | h_2 => exact .ok _
    case h_3 =>
      refine .bind (.of_ok ⟨first, hfirst⟩) fun first _ => ?_
      split
      · exact .ok _
      · exact .bind (.of_ok ⟨second, hsecond⟩) fun _ _ =>
          .bind (.ensure fun _ => id) fun _ _ => .ok _

theorem Orderly.undoData_avoids (h : Orderly m node) {prevMainHash : MainBlockHash}
    (hprev : prevMainHash ∈ node.archive.mainHeaderInfos) (height : Nat) :
    Avoids Failure.IsError (node.undoData prevMainHash height) := by
  refine .bind (startBlock_avoids h.stored.main (fun entry hentry => ?_) fun entry hentry => ?_)
    fun start _ => .bind (.of_ok (exists_mainInfosUntil h.stored.main h.complete (.inr hprev)))
      fun _ _ => .ok _
  · obtain ⟨i, hi⟩ := lastApplied_mem hentry
    exact h.stored.main.info_header (h.logged.deposits hi)
  · obtain ⟨i, hi⟩ := lastApplied_mem hentry
    exact h.stored.main.info_header (h.logged.bundles hi)

theorem Orderly.disconnectTip_avoids (hgenesis : m.OneGenesis) (h : Orderly m node)
    (htipped : node.Tipped) : Avoids IsArchiveError node.disconnectTip := by
  refine .bind (.okOr fun _ => id) fun tip htip => ?_
  have hkey := htipped tip (okOr_eq_ok.mp htip)
  obtain ⟨hmem, mainHash, hverified⟩ := h.held hkey
  obtain ⟨body, hbody⟩ := (Db.mem_iff _ _).mp (h.settled.grounded tip hkey).1
  refine .bind (archive_avoids (.of_ok (exists_getHeader hmem))) fun header hheader => ?_
  refine .bind (archive_avoids (.of_ok ⟨body, okOr_eq_ok.mpr hbody⟩)) fun _ _ => ?_
  refine .bind (.okOr fun _ => id) fun height _ => ?_
  have hheader := okOr_eq_ok.mp (mapFailure_eq_ok.mp hheader)
  refine .bind (archive_avoids (h.undoData_avoids (h.stored.prevMain_mem hgenesis hheader hverified)
    height)) fun _ _ => ?_
  exact .bind (state_avoids _) fun _ _ => .bind (state_avoids _) fun _ _ => .ok _

theorem Tipped.disconnectTip (hsettled : Archive.Settled node.archive) (h : node.Tipped)
    (hdisconnect : node.disconnectTip = .ok node') : node'.Tipped := by
  obtain ⟨tip, header, _, _, htip, hheader, -, -, hstate, harchive⟩ := disconnectTip_ok hdisconnect
  obtain ⟨-, htip', -, -⟩ := State.disconnectTip_ok hstate
  obtain ⟨-, header', hheader', hparent⟩ := hsettled.grounded tip (h tip htip)
  cases hheader.symm.trans hheader'
  intro p hp
  rw [harchive]
  exact hparent p (htip'.symm.trans hp)

theorem Tipped.disconnectTips (hsettled : Archive.Settled node.archive) (h : node.Tipped) {n : Nat}
    (hdisconnect : node.disconnectTips n = .ok node') : node'.Tipped := by
  induction n generalizing node with
  | zero => exact Except.ok.inj hdisconnect ▸ h
  | succ n ih =>
    obtain ⟨next, hnext, hdisconnect⟩ := bind_eq_ok.mp hdisconnect
    exact ih (disconnectTip_archive hnext ▸ hsettled) (h.disconnectTip hsettled hnext) hdisconnect

theorem Orderly.disconnectTips_avoids (hcf : CollisionFree) (hgenesis : m.OneGenesis)
    (h : Orderly m node) (htipped : node.Tipped) (n : Nat) :
    Avoids IsArchiveError (node.disconnectTips n) := by
  induction n generalizing node with
  | zero => exact .ok node
  | succ n ih =>
    exact .bind (h.disconnectTip_avoids hgenesis htipped) fun next hnext =>
      ih (h.steps hcf (.single (.disconnect hnext))) (htipped.disconnectTip h.settled hnext)

end Disconnect

section Prepare

theorem Orderly.exists_currentTip (h : Orderly m node) (htipped : node.Tipped) :
    ∃ tip, node.currentTip = .ok tip ∧ tip.map Tip.blockHash = node.state.tip ∧
      ∀ t, tip = some t → node.archive.Held t := by
  unfold currentTip
  split
  case h_1 htip => exact ⟨none, rfl, htip.symm, nofun⟩
  case h_2 b htip =>
    obtain ⟨hmem, mainHash, hverified⟩ := h.held (htipped b htip)
    obtain ⟨best, hbest, hbestVerified⟩ := exists_bestMainVerification h.stored hverified
    refine ⟨some ⟨b, best⟩, ?_, htip.symm, fun t ht => ?_⟩
    · rw [mapFailure_eq_ok.mpr hbest, ok_bind]
    · cases ht
      exact ⟨hmem, hbestVerified⟩

variable {a : Archive}

theorem isBetter_avoids (hgenesis : m.OneGenesis) (h : Stored m a) {tip : Option Tip}
    (htip : ∀ t, tip = some t → a.Held t) {newTip : Tip} (hnew : a.Held newTip) :
    Avoids Failure.IsError (isBetter a tip newTip) := by
  cases tip with
  | none => exact .ok true
  | some tip => exact .bind (betterTip_avoids hgenesis h (htip tip rfl) hnew) fun _ _ => .ok _

/-- The common ancestor is an ancestor of both. -/
theorem exists_commonAncestor (h : SideStored a) {tip : Option Tip}
    (htip : ∀ t, tip = some t → t.blockHash ∈ a.headers) {newTip : Tip}
    (hnew : newTip.blockHash ∈ a.headers) :
    ∃ common, commonAncestor a tip newTip = .ok common ∧
      ∀ c, common = some c → Descends a.sideParent c newTip.blockHash := by
  cases tip with
  | none => exact ⟨none, rfl, nofun⟩
  | some tip =>
    obtain ⟨common, hcommon, hlast, -⟩ := Index.lastCommon?_eq_ok h.describes
      (h.height_of_mem (htip tip rfl)) (h.height_of_mem hnew)
    exact ⟨common, hcommon, fun c hc => ((hlast c hc c).mp (.refl c)).2⟩

theorem exists_blocksToApply (h : Archive.Settled a) {newTip : BlockHash}
    (hnew : newTip ∈ a.sideTips.sidechainTips) (common : Option BlockHash) :
    ∃ blocks, blocksToApply a common newTip = .ok blocks := by
  obtain ⟨hbody, header, hheader, hparent⟩ := h.grounded newTip hnew
  obtain ⟨body, hbody⟩ := (Db.mem_iff _ _).mp hbody
  obtain ⟨blocks, hblocks⟩ : ∃ blocks,
      a.blocksUntil common (a.lineageLength newTip) header.prevSideHash = .ok blocks :=
    exists_blocksUntil h hparent
  rw [blocksToApply, getHeader, hheader, okOr_some, ok_bind, getBody, hbody, okOr_some, ok_bind,
    hblocks, ok_bind]
  exact ⟨_, rfl⟩

theorem disconnects_avoids (h : SideStored a) (tipHeight : Option Nat) {common : Option BlockHash}
    (hcommon : ∀ c, common = some c → c ∈ a.headers) :
    Avoids Failure.IsError (disconnects a tipHeight common) := by
  unfold disconnects
  split
  case h_1 => exact .ok 0
  case h_2 => exact .bind (.ensure fun _ => id) fun _ _ => .ok _
  case h_3 tipHeight c =>
    exact .bind (.of_ok (exists_getHeight h (hcommon c rfl))) fun _ _ =>
      .bind (.ensure fun _ => id) fun _ _ => .ok _

theorem twoWayPegDataBatch_avoids (h : MainStored m a) (hcomplete : Complete a)
    {common : Option BlockHash} (hcommon : ∀ c, common = some c → c ∈ a.headers)
    {prevMainHash : MainBlockHash} (hprev : prevMainHash ∈ a.mainHeaderInfos) :
    Avoids Failure.IsError (twoWayPegDataBatch a common prevMainHash) := by
  have hinfos : ∀ stop, Avoids Failure.IsError (do
      let infos ← a.mainInfosUntil stop (a.mainLineageLength prevMainHash) prevMainHash
      .ok infos.reverse) := fun _ =>
    .bind (.of_ok (exists_mainInfosUntil h hcomplete (.inr hprev))) fun _ _ => .ok _
  cases common with
  | none => exact .bind (.ok none) fun stop _ => hinfos stop
  | some c =>
    exact .bind (.of_ok (exists_getHeader (hcommon c rfl))) fun _ _ =>
      .bind (.ok _) fun stop _ => hinfos stop

/-- A reorg from a tip to a tip can be prepared. -/
theorem Orderly.prepareReorg_avoids (hcf : CollisionFree) (hgenesis : m.OneGenesis)
    (h : Orderly m node) (htipped : node.Tipped) {newTip : Tip}
    (hkey : newTip.blockHash ∈ node.archive.sideTips.sidechainTips)
    (hnew : node.archive.Held newTip) : Avoids IsArchiveError (node.prepareReorg newTip) := by
  obtain ⟨tip, htip, -, hheld⟩ := h.exists_currentTip htipped
  refine .bind (.of_ok ⟨tip, htip⟩) fun tip' htip' => ?_
  cases htip.symm.trans htip'
  refine .bind (archive_avoids (isBetter_avoids hgenesis h.stored hheld hnew)) fun better _ => ?_
  split
  case isTrue => exact .ok none
  case isFalse =>
    obtain ⟨common, hcommon, hancestor⟩ := exists_commonAncestor h.stored.side
      (fun t ht => (hheld t ht).header) hnew.header
    have hmem : ∀ c, common = some c → c ∈ node.archive.headers := fun c hc =>
      (h.held (h.settled.ancestor hkey (hancestor c hc))).1
    refine .bind (archive_avoids (.of_ok ⟨common, hcommon⟩)) fun common' hcommon' => ?_
    cases hcommon.symm.trans (mapFailure_eq_ok.mp hcommon')
    refine .bind (archive_avoids (.of_ok (exists_blocksToApply h.settled hkey common)))
      fun _ _ => ?_
    refine .bind (archive_avoids (disconnects_avoids h.stored.side _ hmem)) fun n _ => ?_
    refine .bind (h.disconnectTips_avoids hcf hgenesis htipped n) fun below hbelow => ?_
    refine .bind (.ensure fun _ => id) fun _ _ => ?_
    rw [disconnectTips_archive hbelow]
    refine .bind (archive_avoids (.of_ok (exists_getHeader hnew.header))) fun header hheader => ?_
    have hheader := okOr_eq_ok.mp (mapFailure_eq_ok.mp hheader)
    have hprev := h.stored.prevMain_mem hgenesis hheader hnew.verified
    exact .bind (archive_avoids (twoWayPegDataBatch_avoids h.stored.main h.complete hmem hprev))
      fun _ _ => .ok _

end Prepare

section Connect

variable {ctxt : BatchVerificationContext} {tip : Option Tip}
  {block : Header × Body × List (MainBlockHash × MainBlockInfo)}
  {blocks : List (Header × Body × List (MainBlockHash × MainBlockInfo))}

theorem connectTip_mainchainTip {header : Header} {body : Body} {data : TwoWayPegData}
    (h : node.connectTip ctxt header body data = .ok node') :
    node'.archive.sideTips.mainchainTip = node.archive.sideTips.mainchainTip := by
  obtain ⟨_, withHeader, -, -, hput, hbody⟩ := connectTip_ok h
  obtain ⟨sideTips, heq, htip⟩ := putBody_tips hbody
  obtain ⟨_, _, _, _, -, -, -, -, rfl⟩ := putHeader_ok hput
  rw [heq]
  exact htip

/-- A node to which verified blocks are connected in a reorg from an old tip. -/
structure Connecting (m : Mainchain) (tip : Option Tip)
    (blocks : List (Header × Body × List (MainBlockHash × MainBlockInfo))) (node : Node) : Prop where
  orderly : Orderly m node
  mainTip : ∃ info, node.archive.sideTips.mainchainTip.tipInfo = some info
  old : ∀ t, tip = some t → node.archive.Held t
  reached : ∀ b, node.state.tip = some b → b ∈ node.archive.headers ∧
    ∃ mainHash, node.archive.Verified b mainHash
  ready : Ready node.archive blocks
  verified : ∀ block ∈ blocks, ∃ mainHash, node.archive.Verified block.1.hash mainHash

theorem Connecting.connectTip_avoids (hcf : CollisionFree) (hgenesis : m.OneGenesis)
    (h : Connecting m tip (block :: blocks) node) (data : TwoWayPegData) :
    Avoids IsArchiveError (node.connectTip ctxt block.1 block.2.1 data) := by
  obtain ⟨hheader, -⟩ := h.ready block List.mem_cons_self
  obtain ⟨mainHash, hverified⟩ := h.verified block List.mem_cons_self
  obtain ⟨info, hinfo⟩ := h.mainTip
  refine .bind (state_avoids _) fun _ _ => .bind (state_avoids _) fun _ _ => ?_
  refine .bind (archive_avoids (.of_ok (exists_putHeader_again hcf hgenesis h.orderly.stored
    h.orderly.complete hheader hverified))) fun withHeader hput => ?_
  have hput := mapFailure_eq_ok.mp hput
  have hcall : Call m .keepsOut node.archive withHeader := .header (.inl (Db.mem_of_get hheader)) hput
  have horderly := h.orderly.steps hcf (.single (.archive hcall))
  obtain ⟨_, _, _, _, -, -, -, -, rfl⟩ := putHeader_ok hput
  refine .bind (archive_avoids (putBody_avoids horderly.stored ?_ horderly.settled
    ((Db.mem_insert _ _ _ _).mpr (.inl rfl)) _)) fun _ _ => .ok _
  have hmem := Db.mem_of_get (h.orderly.tips.tip hinfo)
  change node.archive.sideTips.mainchainTip.blockHash ∈ node.archive.mainHeaderInfos
  rwa [MainchainTip.blockHash, hinfo]

theorem Connecting.connectTip (hcf : CollisionFree) (h : Connecting m tip (block :: blocks) node)
    (hconnect : node.connectTip ctxt block.1 block.2.1 (.ofInfos block.2.2) = .ok node') :
    Connecting m tip blocks node' := by
  obtain ⟨hheader, hinfos⟩ := h.ready block List.mem_cons_self
  have hstep : Step m .keepsOut node node' := .connect hheader hinfos hconnect
  have hverified : ∀ {b mainHash}, node.archive.Verified b mainHash →
      node'.archive.Verified b mainHash := fun hb =>
    h.orderly.stored.verified_steps hcf (h.orderly.stored.calls hcf hstep.archive_calls).2 hb
  have hkeeps : KeepsHeaders node.archive node'.archive := fun _ _ hb =>
    ((connectTip_same hheader hconnect).1 _).trans hb
  refine ⟨h.orderly.steps hcf (.single hstep), ?_, fun t ht => ?_, fun b hb => ?_, ?_,
    fun block hblock => ?_⟩
  · rw [connectTip_mainchainTip hconnect]
    exact h.mainTip
  · exact ⟨hkeeps.mem (h.old t ht).header, hverified (h.old t ht).verified⟩
  · obtain ⟨_, _, happly, hstate, -, -⟩ := connectTip_ok hconnect
    cases (State.connect_tip happly hstate).1.symm.trans hb
    obtain ⟨mainHash, hb⟩ := h.verified block List.mem_cons_self
    exact ⟨hkeeps.mem (Db.mem_of_get hheader), mainHash, hverified hb⟩
  · exact Ready.connectTip hheader hconnect fun block hblock =>
      h.ready block (List.mem_cons_of_mem _ hblock)
  · obtain ⟨mainHash, hb⟩ := h.verified block (List.mem_cons_of_mem _ hblock)
    exact ⟨mainHash, hverified hb⟩

theorem Connecting.reachedBetter_avoids (hgenesis : m.OneGenesis) (h : Connecting m tip blocks node) :
    Avoids IsArchiveError (node.reachedBetter tip) := by
  refine .bind (.okOr fun _ => id) fun b hb => ?_
  obtain ⟨hmem, mainHash, hverified⟩ := h.reached b (okOr_eq_ok.mp hb)
  obtain ⟨best, hbest, hbestVerified⟩ := exists_bestMainVerification h.orderly.stored hverified
  refine .bind (archive_avoids (.of_ok ⟨best, hbest⟩)) fun best' hbest' => ?_
  cases hbest.symm.trans (mapFailure_eq_ok.mp hbest')
  exact archive_avoids (isBetter_avoids hgenesis h.orderly.stored h.old ⟨hmem, hbestVerified⟩)

theorem Orderly.abortReorg_avoids (h : Orderly m node) (b : BlockHash) (body : Body)
    {err : Failure NodeError} (herr : ¬ IsArchiveError err) :
    ¬ IsArchiveError (node.abortReorg b body err).2 := by
  unfold abortReorg
  split
  case isTrue => exact herr
  case isFalse =>
    have havoids := archive_avoids (.of_ok (exists_deleteBody h.stored.side h.settled b body))
    cases hdelete : node.archive.deleteBody b body with
    | ok => exact herr
    | error deleteErr =>
      rw [hdelete] at havoids
      exact havoids rfl

/-- Blocks are applied without an error of the archive. The induction is on the blocks
that are left. -/
theorem Connecting.applyBlocks_avoids (hcf : CollisionFree) (hgenesis : m.OneGenesis)
    {committed : Node} (hcommitted : Orderly m committed) (h : Connecting m tip blocks node) :
    Avoids IsArchiveError (applyBlocks ctxt tip blocks committed node).2 := by
  induction blocks generalizing committed node with
  | nil => exact .ok node
  | cons block blocks ih =>
    obtain ⟨header, body, infos⟩ := block
    have hconnect : Avoids IsArchiveError (node.connectTip ctxt header body (.ofInfos infos)) :=
      h.connectTip_avoids hcf hgenesis _
    rw [applyBlocks_cons]
    cases hresult : node.connectTip ctxt header body (.ofInfos infos) with
    | error err => exact .error (hcommitted.abortReorg_avoids _ _ (hconnect hresult))
    | ok next =>
      have hnext := h.connectTip hcf hresult
      dsimp only
      cases hreached : next.reachedBetter tip with
      | error err => exact .error (hnext.reachedBetter_avoids hgenesis hreached)
      | ok better =>
        cases better with
        | false => exact ih hcommitted hnext
        | true => exact ih hnext.orderly hnext

end Connect

/-- A tip in the order of the tips is stored and verified, and there is a mainchain tip. -/
theorem Orderly.best (h : Orderly m node) {best : Tip}
    (hbest : node.archive.sideTips.bestSideTip = some best) :
    best.blockHash ∈ node.archive.sideTips.sidechainTips ∧ node.archive.Held best ∧
      ∃ info, node.archive.sideTips.mainchainTip.tipInfo = some info := by
  obtain ⟨⟨info, b⟩, hlast, rfl⟩ := Option.map_eq_some_iff.mp hbest
  have hordered := Db.get_of_last hlast
  have hget := h.tips.ordered hordered
  have hkey := Db.mem_of_get hget
  refine ⟨hkey, ⟨(h.held hkey).1, h.tips.verified hget⟩, ?_⟩
  have hactive := h.tips.active hordered
  cases htip : node.archive.sideTips.mainchainTip.tipInfo with
  | some tipInfo => exact ⟨tipInfo, rfl⟩
  | none =>
    rw [mainTip, htip] at hactive
    exact absurd hactive (not_upTo_none _)

/-- A reorg from one tip to another connects verified blocks. -/
theorem Orderly.connecting (hcf : CollisionFree) (h : Orderly m node) (htipped : node.Tipped)
    {newTip : Tip} (hheld : node.archive.Held newTip)
    (hmainTip : ∃ info, node.archive.sideTips.mainchainTip.tipInfo = some info)
    {reorg : Reorg} {common : Option BlockHash} {header : Header} {blocks : List (Header × Body)}
    {batch : List (MainBlockHash × MainBlockInfo)}
    (hprepared : Prepared node newTip reorg common header blocks batch) :
    Connecting m reorg.tip reorg.blocks reorg.node := by
  obtain ⟨n, hn⟩ := hprepared.disconnected
  have horderly := h.steps hcf (disconnectTips_steps hn)
  have harchive := disconnectTips_archive hn
  obtain ⟨tip, htip, -, hold⟩ := h.exists_currentTip htipped
  cases htip.symm.trans hprepared.currentTip
  refine ⟨horderly, harchive ▸ hmainTip, harchive ▸ hold, fun b hb => ?_,
    hprepared.ready h.stored.side, ?_⟩
  · exact horderly.held (htipped.disconnectTips h.settled hn b hb)
  · intro block hblock
    obtain ⟨-, hdescends, -⟩ := hprepared.blocks_spec h.stored.side block hblock
    obtain ⟨earlier, -, hverified⟩ := h.stored.verified_ancestor hheld.verified hdescends
    exact ⟨earlier, harchive ▸ hverified⟩

/-- A reorg to the best tip of the archive from one of its tips stops with no error of
the archive. -/
theorem Orderly.reorgToTip_avoids (hcf : CollisionFree) (hgenesis : m.OneGenesis)
    (h : Orderly m node) (htipped : node.Tipped) {best : Tip}
    (hbest : node.archive.sideTips.bestSideTip = some best) (ctxt : BatchVerificationContext) :
    Avoids IsArchiveError (node.reorgToTip ctxt best).2 := by
  obtain ⟨hkey, hheld, hmainTip⟩ := h.best hbest
  have hprepare := h.prepareReorg_avoids hcf hgenesis htipped hkey hheld
  unfold reorgToTip
  split
  case h_1 err hreorg => exact .error (hprepare hreorg)
  case h_2 => exact .ok false
  case h_3 reorg hreorg =>
    obtain ⟨common, header, blocks, batch, hprepared⟩ := prepareReorg_ok hreorg
    have hconnecting := h.connecting hcf htipped hheld hmainTip hprepared
    have happly : Avoids IsArchiveError (applyBlocks ctxt _ _ _ _).2 :=
      hconnecting.applyBlocks_avoids hcf hgenesis h
    split
    case h_1 committed err heq => exact .error (happly (congrArg Prod.snd heq))
    case h_2 committed next heq =>
      split
      case isTrue => exact .ok true
      case isFalse => exact .error nofun

/-- Blocks are rolled back until the tip is one of the tips of the archive. The fuel
suffices for all blocks of the state. -/
theorem tipped_rollBack (hcf : CollisionFree) (h : node.state.Measured) {fuel : Nat}
    (hfuel : State.heightAfter node.state.height ≤ fuel) (hroll : node.rollBack fuel = .ok node') :
    node'.Tipped := by
  induction fuel generalizing node with
  | zero =>
    cases hroll
    intro b hb
    obtain ⟨k, hk, -⟩ := h.tip hb
    rw [hk] at hfuel
    exact absurd hfuel (Nat.not_succ_le_zero k)
  | succ fuel ih =>
    unfold rollBack at hroll
    split at hroll
    case h_1 htip =>
      cases hroll
      intro b hb
      cases htip.symm.trans hb
    case h_2 tip htip =>
      split at hroll
      case isTrue hmem =>
        cases hroll
        intro b hb
        cases htip.symm.trans hb
        exact hmem
      case isFalse =>
        obtain ⟨header, -, hroll⟩ := bind_eq_ok.mp hroll
        obtain ⟨body, -, hroll⟩ := bind_eq_ok.mp hroll
        obtain ⟨state, hstate, hroll⟩ := bind_eq_ok.mp hroll
        have hstate := mapFailure_eq_ok.mp hstate
        obtain ⟨-, -, hheight, -⟩ := State.disconnectTip_ok hstate
        rw [hheight] at hfuel
        have hfuel : State.heightAfter state.height ≤ fuel := Nat.succ_le_succ_iff.mp hfuel
        exact ih (h.disconnect hcf hstate) hfuel hroll

end Node

end PlainBitnames
