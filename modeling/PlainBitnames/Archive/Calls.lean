import PlainBitnames.Archive.Tips

/-!
The calls by which a node changes its archive. Each of them is a run of steps. A
guard restricts which headers are stored, which mainchain blocks are disconnected
and which blocks are invalidated in a run.
-/

namespace PlainBitnames

open Fallible Lineage Relation

variable [Primitives]

/-- When a header may be stored that is not stored yet, when a mainchain block may
be disconnected, and when a block may be invalidated. -/
structure Guard where
  stores : Archive → Header → Prop
  disconnects : Archive → MainBlockHash → Prop
  invalidates : Archive → BlockHash → Prop

/-- The guard that allows everything. -/
def Guard.any : Guard := ⟨fun _ _ => True, fun _ _ => True, fun _ _ => True⟩

/-- The guard under which no mainchain block is disconnected that a tip is recorded
with. -/
def Guard.noTips : Guard := { Guard.any with disconnects := fun a _ => a.NoTipAtMainTip }

namespace Archive

/-- The mainchain task stores the header and the info of a mainchain block. -/
def putAncestorInfo (a : Archive) (headerInfo : BlockHeaderInfo) (blockInfo : MainBlockInfo) :
    ArchiveResult Archive := do
  let a ← a.putMainHeaderInfo headerInfo
  a.putMainBlockInfo headerInfo.blockHash blockInfo

/-- One call of a node on its archive. -/
inductive Call (m : Mainchain) (guard : Guard) (a : Archive) : Archive → Prop
  | header {header : Header} {a' : Archive} (hstores : header.hash ∈ a.headers ∨ guard.stores a header)
      (hput : a.putHeader header = .ok a') : Call m guard a a'
  | body {b : BlockHash} {body : Body} {a' : Archive} (hput : a.putBody b body = .ok a') :
      Call m guard a a'
  | deleteBody {b : BlockHash} {body : Body} {a' : Archive}
      (hdelete : a.deleteBody b body = .ok a') : Call m guard a a'
  | ancestorInfo {headerInfo : BlockHeaderInfo} {blockInfo : MainBlockInfo} {a' : Archive}
      (hreported : MainchainEvent.Reported m (.connectBlock headerInfo blockInfo))
      (hput : a.putAncestorInfo headerInfo blockInfo = .ok a') : Call m guard a a'
  | connectMainchainTip {headerInfo : BlockHeaderInfo} {blockInfo : MainBlockInfo} {a' : Archive}
      (hheader : a.mainHeaderInfos[headerInfo.blockHash]? = some headerInfo)
      (hinfo : a.mainBlockInfos[headerInfo.blockHash]? = some blockInfo)
      (hconnect : a.connectMainchainTip headerInfo blockInfo.bmmCommitment = .ok a') :
      Call m guard a a'
  | disconnectBlock {hash : MainBlockHash} {a' : Archive} (hdisconnects : guard.disconnects a hash)
      (hdisconnect : a.handleBlockEvent (.disconnectBlock hash) = .ok a') : Call m guard a a'
  | invalidateBlock {b : BlockHash} (hb : b ∈ a.headers) (hinvalidates : guard.invalidates a b) :
      Call m guard a (a.invalidateBlock b)

abbrev Calls (m : Mainchain) (guard : Guard) : Archive → Archive → Prop :=
  ReflTransGen (Call m guard)

variable {m : Mainchain} {guard : Guard} {a a' : Archive}

theorem Call.steps (hmain : MainStored m a) (h : Call m guard a a') :
    Steps m guard.disconnects a a' := by
  cases h with
  | @header header _ _ hput =>
    have hop : (ArchiveOp.header header).Reported m := trivial
    exact .single (.op hop hput)
  | body hput => exact putBody_steps hput
  | deleteBody hdelete => exact deleteBody_steps hdelete
  | @ancestorInfo headerInfo blockInfo _ hreported hput =>
    obtain ⟨_, hheader, hinfo⟩ := bind_eq_ok.mp hput
    have hheaderOp : (ArchiveOp.mainHeaderInfo headerInfo).Reported m :=
      ⟨hreported.1, hreported.2.1⟩
    have hinfoOp : (ArchiveOp.mainBlockInfo headerInfo.blockHash blockInfo).Reported m :=
      hreported.2.2
    exact .head (.op hheaderOp hheader) (.single (.op hinfoOp hinfo))
  | connectMainchainTip hheader _ hconnect => exact connectMainchainTip_steps hheader hconnect
  | disconnectBlock hdisconnects hdisconnect =>
    exact disconnectBlock_steps hmain hdisconnects hdisconnect
  | invalidateBlock hb => exact .single (.invalidateBlock hb)

theorem Stored.call (hcf : CollisionFree) (h : Stored m a) (hcall : Call m guard a a') :
    Stored m a' :=
  (h.steps hcf (hcall.steps h.main)).1

theorem Stored.calls (hcf : CollisionFree) (h : Stored m a) (hcalls : Calls m guard a a') :
    Stored m a' ∧ Steps m guard.disconnects a a' := by
  induction hcalls with
  | refl => exact ⟨h, .refl⟩
  | tail _ hcall ih =>
    obtain ⟨hstored, hsteps⟩ := ih
    exact ⟨hstored.call hcf hcall, hsteps.trans (hcall.steps hstored.main)⟩

variable {headerInfo : BlockHeaderInfo} {blockInfo : MainBlockInfo}

theorem putAncestorInfo_get (h : a.putAncestorInfo headerInfo blockInfo = .ok a') :
    a'.mainHeaderInfos[headerInfo.blockHash]? = some headerInfo ∧
      a'.mainBlockInfos[headerInfo.blockHash]? = some blockInfo ∧ a'.sideTips = a.sideTips := by
  obtain ⟨a₁, hheader, hinfo⟩ := bind_eq_ok.mp h
  obtain ⟨-, _, _, _, _, -, -, -, -, rfl⟩ := putMainHeaderInfo_ok hheader
  obtain ⟨_, -, -, ⟨rfl, -⟩ | ⟨_, _, _, -, -, -, rfl⟩⟩ := putMainBlockInfo_ok hinfo <;>
    exact ⟨Db.get_insert_self _ _ _, Db.get_insert_self _ _ _, rfl⟩

theorem connectBlock_ok (h : a.handleBlockEvent (.connectBlock headerInfo blockInfo) = .ok a') :
    ∃ stored, a.putAncestorInfo headerInfo blockInfo = .ok stored ∧
      stored.connectMainchainTip headerInfo blockInfo.bmmCommitment = .ok a' := by
  obtain ⟨a₁, hheader, h⟩ := bind_eq_ok.mp h
  obtain ⟨a₂, hinfo, h⟩ := bind_eq_ok.mp h
  exact ⟨a₂, bind_eq_ok.mpr ⟨a₁, hheader, hinfo⟩, h⟩

theorem connectBlock_calls
    (hreported : MainchainEvent.Reported m (.connectBlock headerInfo blockInfo))
    (h : a.handleBlockEvent (.connectBlock headerInfo blockInfo) = .ok a') :
    Calls m guard a a' := by
  obtain ⟨stored, hput, hconnect⟩ := connectBlock_ok h
  obtain ⟨hheader, hinfo, -⟩ := putAncestorInfo_get hput
  exact .head (.ancestorInfo hreported hput) (.single (.connectMainchainTip hheader hinfo hconnect))

/-- What is recorded about the tips stays right along calls that disconnect the
recorded mainchain tip, or one that no tip is recorded with. -/
theorem TipsStored.calls (hcf : CollisionFree)
    (hguard : ∀ a hash, guard.disconnects a hash → a.mainTip = some hash ∨ a.NoTipAtMainTip)
    (hstored : Stored m a) (h : TipsStored m a) (hcalls : Calls m guard a a') :
    TipsStored m a' :=
  h.steps hcf hguard hstored (hstored.calls hcf hcalls).2

/-- Every tip keeps its place in the order, if no tip is recorded with a mainchain
block that is disconnected. -/
theorem Ranked.calls (hcf : CollisionFree)
    (hguard : ∀ a hash, guard.disconnects a hash → a.NoTipAtMainTip) (hstored : Stored m a)
    (h : TipsStored m a) (hranked : a.Ranked) (hcalls : Calls m guard a a') :
    TipsStored m a' ∧ a'.Ranked :=
  have hsteps := (hstored.calls hcf hcalls).2
  ⟨h.steps hcf (fun a hash hd => .inr (hguard a hash hd)) hstored hsteps,
    hranked.steps hcf hguard hstored h hsteps⟩

end Archive

end PlainBitnames
