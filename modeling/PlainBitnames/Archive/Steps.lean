import PlainBitnames.Archive.Invalidate

/-!
The steps by which an archive changes while a node runs. Storing and deleting
bodies, and handling mainchain events, are runs of such steps.
-/

namespace PlainBitnames

open Fallible Lineage Relation

variable [Primitives]

/-- What an event tells about a mainchain block is what is reported. -/
def MainchainEvent.Reported (m : Mainchain) : MainchainEvent → Prop
  | .connectBlock headerInfo blockInfo =>
    headerInfo = m.header headerInfo.blockHash ∧ headerInfo.blockHash ≠ .allZeros ∧
      blockInfo = m.info headerInfo.blockHash
  | .disconnectBlock _ => True

namespace Archive

/-- The recorded mainchain tip. -/
def mainTip (a : Archive) : Option MainBlockHash :=
  a.sideTips.mainchainTip.tipInfo.map BlockHeaderInfo.blockHash

/-- A block with its parent can become a tip at a mainchain block. -/
def VerifiedCommitment (a : Archive) (mainHash : MainBlockHash) :
    Option (BlockHash × Option BlockHash) → Prop
  | none => True
  | some (b, prev) => a.Verified b mainHash ∧
      ∃ header, a.headers[b]? = some header ∧ header.prevSideHash = prev

/-- One step of an archive, in a run in which mainchain blocks are disconnected
under a condition. -/
inductive Step (m : Mainchain) (disconnects : Archive → MainBlockHash → Prop) (a : Archive) :
    Archive → Prop
  | op {op : ArchiveOp} {a' : Archive} (hop : op.Reported m) (hput : a.op op = .ok a') :
      Step m disconnects a a'
  | bodies {txidToInclusions : Inclusions} (bodies : Db BlockHash Body) :
      Step m disconnects a { a with bodies, txidToInclusions }
  | connectSidechainTip {b : BlockHash} {header : Header} {mainHash : MainBlockHash} {work : Nat}
      {sideTips : SideTips} (hheader : a.headers[b]? = some header)
      (hverified : a.Verified b mainHash)
      (hactive : a.isMainDescendant mainHash a.sideTips.mainchainTip.blockHash = .ok true)
      (hwork : a.totalWork[mainHash]? = some work)
      (hconnect : a.sideTips.connectSidechainTip mainHash work b header.prevSideHash =
        .ok sideTips) :
      Step m disconnects a { a with sideTips }
  | disconnectSidechainTip (b : BlockHash) :
      Step m disconnects a { a with sideTips := a.sideTips.disconnectSidechainTip b }
  | connectMainchainTip {info : BlockHeaderInfo} {commitment : Option (BlockHash × Option BlockHash)}
      {sideTips : SideTips} (hinfo : a.mainHeaderInfos[info.blockHash]? = some info)
      (hcommitment : a.VerifiedCommitment info.blockHash commitment)
      (hconnect : a.sideTips.connectMainchainTip info commitment = .ok sideTips) :
      Step m disconnects a { a with sideTips }
  | disconnectMainchainTip {prev : Option BlockHeaderInfo} {hash : MainBlockHash}
      {blockInfo : MainBlockInfo} {sideTips : SideTips} (hdisconnects : disconnects a hash)
      (hprev : ∀ info, prev = some info → a.mainHeaderInfos[info.blockHash]? = some info)
      (hinfo : a.mainBlockInfos[hash]? = some blockInfo)
      (hdisconnect : a.sideTips.disconnectMainchainTip prev blockInfo.bmmCommitment =
        .ok sideTips) :
      Step m disconnects a { a with sideTips }
  | invalidateBlock {b : BlockHash} (hb : b ∈ a.headers) : Step m disconnects a (a.invalidateBlock b)

theorem Stored.withTips {m : Mainchain} {a : Archive} (h : Stored m a)
    {txidToInclusions : Inclusions} (bodies : Db BlockHash Body) (sideTips : SideTips) :
    Stored m { a with bodies, sideTips, txidToInclusions } where
  main := { h.main with describes := h.main.describes }
  side := { h.side with describes := h.side.describes }
  bmm := { h.bmm with rule := h.bmm.rule }

variable {disconnects : Archive → MainBlockHash → Prop}

theorem Stored.step (hcf : CollisionFree) {m : Mainchain} {a a' : Archive} (h : Stored m a)
    (hstep : Step m disconnects a a') : Stored m a' := by
  cases hstep with
  | op hop hput => exact h.op hcf hop hput
  | bodies bodies => exact h.withTips bodies a.sideTips
  | connectSidechainTip => exact h.withTips a.bodies _
  | disconnectSidechainTip => exact h.withTips a.bodies _
  | connectMainchainTip => exact h.withTips a.bodies _
  | disconnectMainchainTip => exact h.withTips a.bodies _
  | invalidateBlock hb => exact h.invalidateBlock hb

theorem Stored.mainBlockInfos_step {m : Mainchain} {a a' : Archive} (h : Stored m a)
    (hstep : Step m disconnects a a') {x : MainBlockHash} (hx : x ∈ a.mainBlockInfos) :
    x ∈ a'.mainBlockInfos := by
  cases hstep with
  | @op op _ _ hput =>
    cases op with
    | header header =>
      obtain ⟨_, _, _, _, -, -, -, -, rfl⟩ := putHeader_ok hput
      exact hx
    | mainHeaderInfo info =>
      obtain ⟨-, _, _, _, _, -, -, -, -, rfl⟩ := putMainHeaderInfo_ok hput
      exact hx
    | mainBlockInfo hash info =>
      obtain ⟨_, -, -, ⟨rfl, -⟩ | ⟨_, _, _, -, -, -, rfl⟩⟩ := putMainBlockInfo_ok hput <;>
        exact (Db.mem_insert _ _ _ _).mpr (.inr hx)
  | invalidateBlock hb =>
    obtain ⟨gone, hgone⟩ := exists_invalidating h.side hb
    rw [hgone.pruned.rest]
    exact hx
  | bodies | connectSidechainTip | disconnectSidechainTip | connectMainchainTip
  | disconnectMainchainTip => exact hx

theorem Stored.verified_step {m : Mainchain} {a a' : Archive} (h : Stored m a)
    (hstep : Step m disconnects a a') {b : BlockHash} {mainHash : MainBlockHash}
    (hverified : a.Verified b mainHash) : a'.Verified b mainHash := by
  cases hstep with
  | op hop hput => exact h.verified_op hop hput hverified
  | invalidateBlock hb =>
    obtain ⟨gone, hgone⟩ := exists_invalidating h.side hb
    rw [Verified, hgone.pruned.rest]
    exact hverified
  | bodies | connectSidechainTip | disconnectSidechainTip | connectMainchainTip
  | disconnectMainchainTip => exact hverified

end Archive

namespace SideTips

variable {tips tips' : SideTips}

theorem connectSidechainTip_ok {mainHash : MainBlockHash} {work : Nat} {b : BlockHash}
    {prev : Option BlockHash} (h : tips.connectSidechainTip mainHash work b prev = .ok tips') :
    b ∈ tips.sidechainTips ∧ tips' = tips ∨
      b ∉ tips.sidechainTips ∧ ∃ height, tips.tipHeight prev = .ok height ∧ tips' = { tips with
        sidechainTips := tips.sidechainTips.insert b ⟨height, work, mainHash⟩
        orderedSidechainTips := tips.orderedSidechainTips.insert ⟨height, work, mainHash⟩ b } := by
  obtain ⟨height, hheight, h⟩ := bind_eq_ok.mp h
  split at h
  case isTrue hb => exact .inl ⟨hb, (Except.ok.inj h).symm⟩
  case isFalse hb => exact .inr ⟨hb, height, hheight, (Except.ok.inj h).symm⟩

theorem connectMainchainTip_ok {info : BlockHeaderInfo}
    {commitment : Option (BlockHash × Option BlockHash)}
    (h : tips.connectMainchainTip info commitment = .ok tips') :
    info.prevBlockHash = tips.mainchainTip.blockHash ∧
      checkTipHeight tips.mainchainTip info.height = .ok () ∧ ∃ connected,
      tips.connectCommitment info.blockHash (tips.mainchainTip.cumulativeWork + info.work)
        commitment = .ok connected ∧
      tips' = { connected with
        mainchainTip := ⟨tips.mainchainTip.cumulativeWork + info.work, some info⟩ } := by
  obtain ⟨hprev, h⟩ := ensure_bind_eq_ok.mp h
  obtain ⟨⟨⟩, hheight, h⟩ := bind_eq_ok.mp h
  obtain ⟨-, h⟩ := ensure_bind_eq_ok.mp h
  obtain ⟨connected, hconnected, h⟩ := bind_eq_ok.mp h
  exact ⟨hprev, hheight, connected, hconnected, (Except.ok.inj h).symm⟩

theorem prevTip_ok {tipInfo : BlockHeaderInfo} {prev newTip : Option BlockHeaderInfo}
    (h : prevTip tipInfo prev = .ok newTip) :
    newTip = none ∧ tipInfo.prevBlockHash = .allZeros ∨
      ∃ info, prev = some info ∧ newTip = some info ∧ info.blockHash = tipInfo.prevBlockHash ∧
        tipInfo.prevBlockHash ≠ .allZeros := by
  cases prev with
  | none =>
    obtain ⟨hzeros, h⟩ := ensure_bind_eq_ok.mp h
    exact .inl ⟨(Except.ok.inj h).symm, hzeros⟩
  | some info =>
    obtain ⟨hhash, h⟩ := ensure_bind_eq_ok.mp h
    obtain ⟨-, h⟩ := ensure_bind_eq_ok.mp h
    obtain ⟨-, h⟩ := ensure_bind_eq_ok.mp h
    by_cases hzeros : tipInfo.prevBlockHash = .allZeros
    · rw [if_neg (not_not.mpr hzeros)] at h
      exact .inl ⟨(Except.ok.inj h).symm, hzeros⟩
    · rw [if_pos hzeros] at h
      exact .inr ⟨info, rfl, (Except.ok.inj h).symm, hhash, hzeros⟩

theorem disconnectCommitment_ok {mainHash : MainBlockHash} {commitment : Option BlockHash}
    (h : tips.disconnectCommitment mainHash commitment = .ok tips') :
    tips' = tips ∧ (∀ b, commitment = some b →
        ∃ info, tips.sidechainTips[b]? = some info ∧ info.mainBlockHash ≠ mainHash) ∨
      ∃ b info, commitment = some b ∧ tips.sidechainTips[b]? = some info ∧
        info.mainBlockHash = mainHash ∧
        tips' = { tips with orderedSidechainTips := tips.orderedSidechainTips.erase info } := by
  cases commitment with
  | none => exact .inl ⟨(Except.ok.inj h).symm, nofun⟩
  | some b =>
    obtain ⟨info, hinfo, h⟩ := bind_eq_ok.mp h
    have hinfo := okOr_eq_ok.mp hinfo
    split at h
    case isTrue hmain =>
      obtain ⟨-, h⟩ := ensure_bind_eq_ok.mp h
      exact .inr ⟨b, info, rfl, hinfo, hmain, (Except.ok.inj h).symm⟩
    case isFalse hmain =>
      refine .inl ⟨(Except.ok.inj h).symm, fun c hc => ?_⟩
      cases hc
      exact ⟨info, hinfo, hmain⟩

theorem disconnectMainchainTip_ok {prev : Option BlockHeaderInfo} {commitment : Option BlockHash}
    (h : tips.disconnectMainchainTip prev commitment = .ok tips') :
    ∃ tipInfo newTip disconnected, tips.mainchainTip.tipInfo = some tipInfo ∧
      prevTip tipInfo prev = .ok newTip ∧
      tips.disconnectCommitment tipInfo.blockHash commitment = .ok disconnected ∧
      tipInfo.work ≤ disconnected.mainchainTip.cumulativeWork ∧
      tips' = { disconnected with
        mainchainTip := ⟨disconnected.mainchainTip.cumulativeWork - tipInfo.work, newTip⟩ } := by
  obtain ⟨tipInfo, htipInfo, h⟩ := bind_eq_ok.mp h
  obtain ⟨newTip, hnewTip, h⟩ := bind_eq_ok.mp h
  obtain ⟨disconnected, hdisconnected, h⟩ := bind_eq_ok.mp h
  obtain ⟨hwork, h⟩ := ensure_bind_eq_ok.mp h
  exact ⟨tipInfo, newTip, disconnected, okOr_eq_ok.mp htipInfo, hnewTip, hdisconnected, hwork,
    (Except.ok.inj h).symm⟩

end SideTips

namespace Archive

variable {m : Mainchain} {a a' : Archive}

theorem op_frame {op : ArchiveOp} (h : a.op op = .ok a') :
    a'.sideTips = a.sideTips ∧ a'.bodies = a.bodies := by
  cases op with
  | header header =>
    obtain ⟨_, _, _, _, -, -, -, -, rfl⟩ := putHeader_ok h
    exact ⟨rfl, rfl⟩
  | mainHeaderInfo info =>
    obtain ⟨-, _, _, _, _, -, -, -, -, rfl⟩ := putMainHeaderInfo_ok h
    exact ⟨rfl, rfl⟩
  | mainBlockInfo hash info =>
    obtain ⟨_, -, -, ⟨rfl, -⟩ | ⟨_, _, _, -, -, -, rfl⟩⟩ := putMainBlockInfo_ok h <;>
      exact ⟨rfl, rfl⟩

theorem MainStored.header_op (hmain : MainStored m a) {op : ArchiveOp} (hop : op.Reported m)
    (h : a.op op = .ok a') {hash : MainBlockHash} {info : BlockHeaderInfo}
    (hinfo : a.mainHeaderInfos[hash]? = some info) : a'.mainHeaderInfos[hash]? = some info := by
  cases op with
  | header header =>
    obtain ⟨_, _, _, _, -, -, -, -, rfl⟩ := putHeader_ok h
    exact hinfo
  | mainHeaderInfo new =>
    obtain ⟨-, _, _, _, _, -, -, -, -, rfl⟩ := putMainHeaderInfo_ok h
    exact Db.get_insert_again (fun hget => (hmain.header_eq hget).trans hop.1.symm) hinfo
  | mainBlockInfo hash info =>
    obtain ⟨_, -, -, ⟨rfl, -⟩ | ⟨_, _, _, -, -, -, rfl⟩⟩ := putMainBlockInfo_ok h <;> exact hinfo

section Runs

variable {disconnects : Archive → MainBlockHash → Prop}

/-- A run of steps. -/
abbrev Steps (m : Mainchain) (disconnects : Archive → MainBlockHash → Prop) : Archive → Archive → Prop :=
  ReflTransGen (Step m disconnects)

theorem Stored.steps (hcf : CollisionFree) {m : Mainchain} {disconnects : Archive → MainBlockHash → Prop}
    {a a' : Archive} (h : Stored m a) (hsteps : Steps m disconnects a a') :
    Stored m a' ∧ ∀ {x}, x ∈ a.mainBlockInfos → x ∈ a'.mainBlockInfos := by
  induction hsteps with
  | refl => exact ⟨h, fun hx => hx⟩
  | tail _ hstep ih =>
    obtain ⟨hstored, hmem⟩ := ih
    exact ⟨hstored.step hcf hstep, fun hx => hstored.mainBlockInfos_step hstep (hmem hx)⟩

/-- A result counts for a tip when it is verified at a mainchain block up to the
recorded tip, and the parent is a tip. -/
def Counts (a : Archive) (header : Header) (result : MainBlockHash × BmmResult) : Prop :=
  result.2 = .verified ∧ a.parentIsTip header.prevSideHash = true ∧
    a.isMainDescendant result.1 a.sideTips.mainchainTip.blockHash = .ok true

variable {b : BlockHash} {header : Header} {result : MainBlockHash × BmmResult}

/-- Only a result that counts connects a block. -/
theorem connectVerification_ok {connected : Bool} {acc : Archive × Bool}
    (h : connectVerification b header (a, connected) result = .ok acc) :
    ¬ a.Counts header result ∧ acc = (a, connected) ∨
      a.Counts header result ∧ ∃ work sideTips, a.totalWork[result.1]? = some work ∧
        a.sideTips.connectSidechainTip result.1 work b header.prevSideHash = .ok sideTips ∧
        acc = ({ a with sideTips }, true) := by
  obtain ⟨mainHash, result⟩ := result
  unfold connectVerification at h
  dsimp only at h
  split at h
  case isTrue hfailed =>
    refine .inl ⟨fun hcounts => ?_, (Except.ok.inj h).symm⟩
    cases hfailed.symm.trans hcounts.1
  case isFalse hresult =>
  split at h
  case isTrue hparent =>
    refine .inl ⟨fun hcounts => ?_, (Except.ok.inj h).symm⟩
    rw [hcounts.2.1] at hparent
    cases hparent
  case isFalse hparent =>
  obtain ⟨active, hactive, h⟩ := bind_eq_ok.mp h
  cases active with
  | false =>
    refine .inl ⟨fun hcounts => ?_, (Except.ok.inj h).symm⟩
    cases hactive.symm.trans hcounts.2.2
  | true =>
    obtain ⟨work, hwork, h⟩ := bind_eq_ok.mp h
    obtain ⟨sideTips, hconnect, h⟩ := bind_eq_ok.mp h
    have hverified : result = .verified := by
      cases result with
      | failed => exact absurd rfl hresult
      | verified => rfl
    exact .inr ⟨⟨hverified, by simpa using hparent, hactive⟩, work, sideTips,
      okOr_eq_ok.mp hwork, hconnect, (Except.ok.inj h).symm⟩

/-- Only the sidechain tips change. -/
def TipsChange (a a' : Archive) : Prop :=
  ∃ sideTips : SideTips, a' = { a with sideTips } ∧
    sideTips.mainchainTip = a.sideTips.mainchainTip

theorem TipsChange.refl (a : Archive) : TipsChange a a := ⟨a.sideTips, rfl, rfl⟩

theorem TipsChange.trans {a'' : Archive} (h : TipsChange a a') (h' : TipsChange a' a'') :
    TipsChange a a'' := by
  obtain ⟨sideTips, rfl, htip⟩ := h
  obtain ⟨sideTips', rfl, htip'⟩ := h'
  exact ⟨sideTips', rfl, htip'.trans htip⟩

variable {mainHash : MainBlockHash}

theorem Stored.verified_steps (hcf : CollisionFree) (h : Stored m a)
    (hsteps : Steps m disconnects a a') (hverified : a.Verified b mainHash) :
    a'.Verified b mainHash := by
  induction hsteps with
  | refl => exact hverified
  | tail hsteps hstep ih => exact (h.steps hcf hsteps).1.verified_step hstep ih

theorem connectVerification_tips {acc acc' : Archive × Bool}
    (h : connectVerification b header acc result = .ok acc') : TipsChange acc.1 acc'.1 := by
  obtain ⟨a, connected⟩ := acc
  rcases connectVerification_ok h with ⟨-, rfl⟩ | ⟨-, work, sideTips, -, hconnect, rfl⟩
  · exact .refl a
  · refine ⟨sideTips, rfl, ?_⟩
    rcases SideTips.connectSidechainTip_ok hconnect with ⟨-, rfl⟩ | ⟨-, _, -, rfl⟩ <;> rfl

theorem connectVerification_steps {acc acc' : Archive × Bool}
    (hheader : acc.1.headers[b]? = some header) (hmem : result ∈ (acc.1.getBmmResults b).toList)
    (h : connectVerification b header acc result = .ok acc') :
    Steps m disconnects acc.1 acc'.1 := by
  obtain ⟨a, connected⟩ := acc
  rcases connectVerification_ok h with
    ⟨-, rfl⟩ | ⟨⟨hresult, -, hactive⟩, work, sideTips, hwork, hconnect, rfl⟩
  · exact .refl
  · have hget := Db.mem_toList.mp hmem
    rw [hresult] at hget
    exact .single (.connectSidechainTip hheader hget hactive hwork hconnect)

variable {queue : List BlockHash}

theorem updateSideTips_fold (h : a.updateSideTips b header = .ok (a', queue)) :
    ∃ connected, (a.getBmmResults b).toList.foldlM (connectVerification b header) (a, false) =
      .ok (a', connected) := by
  obtain ⟨⟨a'', connected⟩, hfold, h⟩ := bind_eq_ok.mp h
  refine ⟨connected, ?_⟩
  cases connected with
  | false =>
    cases h
    exact hfold
  | true =>
    obtain ⟨_, -, h⟩ := bind_eq_ok.mp h
    cases h
    exact hfold

theorem updateSideTips_tips (h : a.updateSideTips b header = .ok (a', queue)) :
    TipsChange a a' := by
  obtain ⟨connected, hfold⟩ := updateSideTips_fold h
  exact foldlM_invariant (P := fun acc => TipsChange a acc.1) (.refl a)
    (fun _ _ _ _ hacc hstep => hacc.trans (connectVerification_tips hstep)) hfold

theorem updateSideTips_steps (h : a.updateSideTips b header = .ok (a', queue))
    (hheader : a.headers[b]? = some header) : Steps m disconnects a a' := by
  obtain ⟨connected, hfold⟩ := updateSideTips_fold h
  have hboth := foldlM_invariant (P := fun acc => TipsChange a acc.1 ∧ Steps m disconnects a acc.1)
    ⟨.refl a, .refl⟩ ?_ hfold
  · exact hboth.2
  rintro result acc acc' hmem ⟨htips, hsteps⟩ hstep
  refine ⟨htips.trans (connectVerification_tips hstep), hsteps.trans ?_⟩
  obtain ⟨sideTips, heq, -⟩ := htips
  have hheader' : acc.1.headers[b]? = some header := by
    rw [heq]
    exact hheader
  have hmem' : result ∈ (acc.1.getBmmResults b).toList := by
    rw [heq]
    exact hmem
  exact connectVerification_steps hheader' hmem' hstep

/-- Working off the queue changes an archive as the updates of its blocks do. -/
theorem updateQueue_changes {R : Archive → Archive → Prop} (hrefl : ∀ a, R a a)
    (htrans : ∀ {a b c}, R a b → R b c → R a c)
    (hstep : ∀ {a b header next}, a.headers[b]? = some header →
      a.updateSideTips b header = .ok next → R a next.1) {fuel : Nat}
    (h : updateQueue fuel a queue = .ok a') : R a a' := by
  induction fuel generalizing a queue with
  | zero => exact Except.ok.inj h ▸ hrefl a
  | succ fuel ih =>
    cases queue with
    | nil => exact Except.ok.inj h ▸ hrefl a
    | cons b queue =>
      unfold updateQueue at h
      split at h
      case isTrue => exact ih h
      case isFalse =>
        obtain ⟨header, hheader, h⟩ := bind_eq_ok.mp h
        obtain ⟨⟨next, successors⟩, hupdate, h⟩ := bind_eq_ok.mp h
        exact htrans (hstep (okOr_eq_ok.mp hheader) hupdate) (ih h)

theorem updateQueue_tips {fuel : Nat} (h : updateQueue fuel a queue = .ok a') :
    TipsChange a a' :=
  updateQueue_changes TipsChange.refl TipsChange.trans (fun _ => updateSideTips_tips) h

theorem updateQueue_steps {fuel : Nat} (h : updateQueue fuel a queue = .ok a') :
    Steps m disconnects a a' :=
  updateQueue_changes (fun _ => .refl) Relation.ReflTransGen.trans
    (fun hheader hupdate => updateSideTips_steps hupdate hheader) h

theorem putBody_tips {body : Body} (h : a.putBody b body = .ok a') :
    TipsChange { a with
      bodies := a.bodies.insert b body
      txidToInclusions := a.txidToInclusions.insertBody b body } a' := by
  obtain ⟨header, -, h⟩ := bind_eq_ok.mp h
  obtain ⟨⟨next, queue⟩, hupdate, h⟩ := bind_eq_ok.mp h
  exact (updateSideTips_tips hupdate).trans (updateQueue_tips h)

theorem putBody_steps {body : Body} (h : a.putBody b body = .ok a') : Steps m disconnects a a' := by
  obtain ⟨header, hheader, h⟩ := bind_eq_ok.mp h
  obtain ⟨⟨next, queue⟩, hupdate, h⟩ := bind_eq_ok.mp h
  exact .head (.bodies _) ((updateSideTips_steps hupdate (okOr_eq_ok.mp hheader)).trans
    (updateQueue_steps h))

theorem disconnectSidechainTip_tips (b : BlockHash) :
    TipsChange a { a with sideTips := a.sideTips.disconnectSidechainTip b } := by
  refine ⟨_, rfl, ?_⟩
  unfold SideTips.disconnectSidechainTip
  split <;> rfl

theorem disconnectQueue_tips {fuel : Nat} (h : disconnectQueue fuel a queue = .ok a') :
    TipsChange a a' := by
  induction fuel generalizing a queue with
  | zero => exact Except.ok.inj h ▸ .refl a
  | succ fuel ih =>
    cases queue with
    | nil => exact Except.ok.inj h ▸ .refl a
    | cons b queue =>
      unfold disconnectQueue at h
      split at h
      case isTrue => exact ih h
      case isFalse =>
        obtain ⟨successors, -, h⟩ := bind_eq_ok.mp h
        exact (disconnectSidechainTip_tips b).trans (ih h)

theorem disconnectQueue_steps {fuel : Nat} (h : disconnectQueue fuel a queue = .ok a') :
    Steps m disconnects a a' := by
  induction fuel generalizing a queue with
  | zero => exact Except.ok.inj h ▸ .refl
  | succ fuel ih =>
    cases queue with
    | nil => exact Except.ok.inj h ▸ .refl
    | cons b queue =>
      unfold disconnectQueue at h
      split at h
      case isTrue => exact ih h
      case isFalse =>
        obtain ⟨successors, -, h⟩ := bind_eq_ok.mp h
        exact .head (.disconnectSidechainTip b) (ih h)

theorem deleteBody_tips {body : Body} (h : a.deleteBody b body = .ok a') :
    TipsChange { a with
      bodies := a.bodies.erase b
      txidToInclusions := a.txidToInclusions.removeBody b body } a' :=
  disconnectQueue_tips h

theorem deleteBody_steps {body : Body} (h : a.deleteBody b body = .ok a') :
    Steps m disconnects a a' :=
  .head (.bodies _) (disconnectQueue_steps h)

variable {commitment : Option BlockHash}

/-- The block that a mainchain block commits to can become a tip when it has a body,
its parent is a tip, and the mainchain block verifies it. -/
theorem tipCommitment_cases {result : Option (BlockHash × Option BlockHash)}
    (h : a.tipCommitment mainHash commitment = .ok result) :
    result = none ∧ (∀ b header, commitment = some b → b ∈ a.bodies →
        a.headers[b]? = some header → a.parentIsTip header.prevSideHash = true →
        ¬ a.Verified b mainHash) ∨
      ∃ b header, commitment = some b ∧ result = some (b, header.prevSideHash) ∧ b ∈ a.bodies ∧
        a.headers[b]? = some header ∧ a.parentIsTip header.prevSideHash = true ∧
        a.Verified b mainHash := by
  unfold tipCommitment at h
  split at h
  case h_1 => exact .inl ⟨(Except.ok.inj h).symm, nofun⟩
  case h_2 b =>
  split at h
  case isTrue hbody =>
    refine .inl ⟨(Except.ok.inj h).symm, fun c header hc hmem => ?_⟩
    cases hc
    rw [containsBody, Std.ExtTreeMap.mem_iff_contains.mp hmem] at hbody
    cases hbody
  case isFalse hbody =>
  obtain ⟨header, hheader, h⟩ := bind_eq_ok.mp h
  have hheader := okOr_eq_ok.mp hheader
  split at h
  case isTrue hparent =>
    refine .inl ⟨(Except.ok.inj h).symm, fun c header' hc _ hget htip => ?_⟩
    cases hc
    cases hheader.symm.trans hget
    rw [htip] at hparent
    cases hparent
  case isFalse hparent =>
  obtain ⟨bmmResult, hresult, h⟩ := bind_eq_ok.mp h
  have hresult := okOr_eq_ok.mp hresult
  cases bmmResult with
  | failed =>
    refine .inl ⟨(Except.ok.inj h).symm, fun c header' hc _ _ _ hverified => ?_⟩
    cases hc
    cases hresult.symm.trans hverified
  | verified =>
    refine .inr ⟨b, header, rfl, (Except.ok.inj h).symm, ?_, hheader, by simpa using hparent,
      hresult⟩
    rw [Std.ExtTreeMap.mem_iff_contains]
    simpa [containsBody] using hbody

theorem tipCommitment_ok {result : Option (BlockHash × Option BlockHash)}
    (h : a.tipCommitment mainHash commitment = .ok result) :
    a.VerifiedCommitment mainHash result := by
  rcases tipCommitment_cases h with ⟨rfl, -⟩ | ⟨b, header, -, rfl, -, hheader, -, hverified⟩
  · trivial
  · exact ⟨hverified, header, hheader, rfl⟩

theorem connectMainchainTip_steps {info : BlockHeaderInfo}
    (hinfo : a.mainHeaderInfos[info.blockHash]? = some info)
    (h : a.connectMainchainTip info commitment = .ok a') : Steps m disconnects a a' := by
  obtain ⟨result, hresult, h⟩ := bind_eq_ok.mp h
  obtain ⟨sideTips, hconnect, h⟩ := bind_eq_ok.mp h
  cases h
  exact .single (.connectMainchainTip hinfo (tipCommitment_ok hresult) hconnect)

theorem MainStored.mainParentHeaderInfo_ok (hmain : MainStored m a) {info : BlockHeaderInfo}
    {parentInfo : Option BlockHeaderInfo} (h : a.mainParentHeaderInfo info = .ok parentInfo) :
    ∀ p, parentInfo = some p → a.mainHeaderInfos[p.blockHash]? = some p := by
  rintro p rfl
  unfold mainParentHeaderInfo at h
  split at h
  case isTrue => cases h
  case isFalse =>
    obtain ⟨q, hq, h⟩ := bind_eq_ok.mp h
    cases h
    have hget := okOr_eq_ok.mp hq
    rw [hmain.header_eq hget, hmain.blockHash_eq (Db.mem_of_get hget), hget, hmain.header_eq hget]

theorem disconnectBlock_steps (hmain : MainStored m a) {hash : MainBlockHash}
    (hdisconnects : disconnects a hash) (h : a.handleBlockEvent (.disconnectBlock hash) = .ok a') :
    Steps m disconnects a a' := by
  obtain ⟨headerInfo, hheaderInfo, h⟩ := bind_eq_ok.mp h
  obtain ⟨info, hinfo, h⟩ := bind_eq_ok.mp h
  obtain ⟨parentInfo, hparentInfo, h⟩ := bind_eq_ok.mp h
  obtain ⟨sideTips, hdisconnect, h⟩ := bind_eq_ok.mp h
  cases h
  exact .single (.disconnectMainchainTip hdisconnects (hmain.mainParentHeaderInfo_ok hparentInfo)
    (okOr_eq_ok.mp hinfo) hdisconnect)

end Runs

end Archive

end PlainBitnames
