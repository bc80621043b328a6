import PlainBitnames.Node.Run

/-!
The operations on the databases of a node, as its tasks run them, and the nodes
that they reach. An operation that fails leaves what it has committed.
-/

namespace PlainBitnames

open Fallible Lineage

variable [Primitives]

/-- The operations of the tasks of a node. -/
inductive NodeOp where
  /-- Store a header. -/
  | header (header : Header)
  /-- Store a body. -/
  | body (blockHash : BlockHash) (body : Body)
  /-- The mainchain task stores an ancestor of a requested block. -/
  | ancestorInfo (headerInfo : BlockHeaderInfo) (blockInfo : MainBlockInfo)
  /-- The mainchain task syncs the tips to a block that is stored. -/
  | syncMainchainTip (mainHash : MainBlockHash)
  /-- The mainchain task handles an event. -/
  | mainchainEvent (event : MainchainEvent)
  /-- The net task handles a mainchain event. -/
  | mainchainBlockEvent (ctxt : BatchVerificationContext)
  /-- The net task reorgs to a tip. -/
  | reorg (ctxt : BatchVerificationContext) (newTip : Tip)
  /-- A block is invalidated. -/
  | invalidate (blockHash : BlockHash)

/-- What an operation tells about the mainchain is what is reported. -/
def NodeOp.Reported (m : Mainchain) : NodeOp → Prop
  | .ancestorInfo headerInfo blockInfo =>
    MainchainEvent.Reported m (.connectBlock headerInfo blockInfo)
  | .mainchainEvent event => event.Reported m
  | _ => True

instance (m : Mainchain) : DecidablePred (MainchainEvent.Reported m)
  | .connectBlock _ _ => inferInstanceAs (Decidable (_ ∧ _))
  | .disconnectBlock _ => .isTrue trivial

instance (m : Mainchain) : DecidablePred (NodeOp.Reported m)
  | .ancestorInfo headerInfo blockInfo =>
    inferInstanceAs (Decidable (MainchainEvent.Reported m (.connectBlock headerInfo blockInfo)))
  | .mainchainEvent event => inferInstanceAs (Decidable (event.Reported m))
  | .header _ | .body _ _ | .syncMainchainTip _ | .mainchainBlockEvent _ | .reorg _ _
  | .invalidate _ => .isTrue trivial

namespace Archive

def syncMainchainTip (a : Archive) (mainHash : MainBlockHash) : ArchiveResult Archive := do
  let headerInfo ← a.getMainHeaderInfo mainHash
  let blockInfo ← a.getMainBlockInfo headerInfo.blockHash
  a.connectMainchainTip headerInfo blockInfo.bmmCommitment

end Archive

namespace Node

/-- A transaction that changes only the archive. -/
def withArchive (node : Node) : ArchiveResult Archive → Node × NodeResult Unit
  | .ok archive => ({ node with archive }, .ok ())
  | .error err => (node, .error (err.map .archive))

/-- A transaction that changes nothing when it fails. -/
def commit (node : Node) : NodeResult Node → Node × NodeResult Unit
  | .ok node => (node, .ok ())
  | .error err => (node, .error err)

/-- Run an operation. The node is the one that is committed in the end. -/
def exec (node : Node) : NodeOp → Node × NodeResult Unit
  | .header header => node.withArchive (node.archive.putHeader header)
  | .body blockHash body => node.withArchive (node.archive.putBody blockHash body)
  | .ancestorInfo headerInfo blockInfo =>
    node.withArchive (node.archive.putAncestorInfo headerInfo blockInfo)
  | .syncMainchainTip mainHash => node.withArchive (node.archive.syncMainchainTip mainHash)
  | .mainchainEvent event => node.withArchive (node.archive.handleBlockEvent event)
  | .mainchainBlockEvent ctxt => node.handleMainchainBlockEvent ctxt
  | .reorg ctxt newTip => ignoreInvalid (node.reorgToTip ctxt newTip)
  | .invalidate blockHash => node.commit (node.invalidateBlock blockHash)

/-- Run operations one after the other. -/
def run (node : Node) (ops : List NodeOp) : Node := ops.foldl (fun node op => (node.exec op).1) node

/-- Each operation of a run is allowed where it runs. -/
def Permits (Allowed : Node → NodeOp → Prop) : Node → List NodeOp → Prop
  | _, [] => True
  | node, op :: ops => Allowed node op ∧ Permits Allowed (node.exec op).1 ops

/-- The nodes that operations reach, each of which is allowed where it runs. -/
inductive Reaches (m : Mainchain) (Allowed : Node → NodeOp → Prop) : Node → Prop
  | new : Reaches m Allowed .new
  | exec {node : Node} {op : NodeOp} (h : Reaches m Allowed node) (hop : op.Reported m)
      (hallowed : Allowed node op) : Reaches m Allowed (node.exec op).1

end Node

def Guard.Allows (guard : Guard) (a : Archive) : NodeOp → Prop
  | .header header => header.hash ∈ a.headers ∨ guard.stores a header
  | .mainchainEvent (.disconnectBlock hash) => guard.disconnects a hash
  | .invalidate blockHash => guard.invalidates a blockHash
  | _ => True

theorem Guard.any_allows (a : Archive) (op : NodeOp) : Guard.any.Allows a op := by
  match op with
  | .header _ => exact .inr trivial
  | .mainchainEvent (.disconnectBlock _) => exact trivial
  | .mainchainEvent (.connectBlock _ _) => exact trivial
  | .invalidate _ => exact trivial
  | .body _ _ | .ancestorInfo _ _ | .syncMainchainTip _ | .mainchainBlockEvent _ | .reorg _ _ =>
    exact trivial

namespace Node

variable {m : Mainchain} {guard : Guard} {node node' : Node}

theorem withArchive_steps {result : ArchiveResult Archive}
    (h : ∀ archive, result = .ok archive → Archive.Calls m guard node.archive archive) :
    Steps m guard node (node.withArchive result).1 := by
  cases result with
  | error => exact .refl
  | ok archive => exact steps_archive (h archive rfl)

theorem exec_steps (hcf : CollisionFree) (h : Archive.Stored m node.archive) {op : NodeOp}
    (hop : op.Reported m) (hallowed : guard.Allows node.archive op) :
    Steps m guard node (node.exec op).1 := by
  cases op with
  | header header => exact withArchive_steps fun archive hput => .single (.header hallowed hput)
  | body blockHash body => exact withArchive_steps fun archive hput => .single (.body hput)
  | ancestorInfo headerInfo blockInfo =>
    exact withArchive_steps fun archive hput => .single (.ancestorInfo hop hput)
  | syncMainchainTip mainHash =>
    refine withArchive_steps fun archive hsync => ?_
    obtain ⟨headerInfo, hheader, hsync⟩ := bind_eq_ok.mp hsync
    obtain ⟨blockInfo, hinfo, hsync⟩ := bind_eq_ok.mp hsync
    have hget := okOr_eq_ok.mp hheader
    have hhash : headerInfo.blockHash = mainHash := by
      rw [h.main.header_eq hget, h.main.blockHash_eq (Db.mem_of_get hget)]
    exact .single (.connectMainchainTip (hhash ▸ hget) (okOr_eq_ok.mp hinfo) hsync)
  | mainchainEvent event =>
    refine withArchive_steps fun archive hhandle => ?_
    cases event with
    | disconnectBlock hash => exact .single (.disconnectBlock hallowed hhandle)
    | connectBlock headerInfo blockInfo =>
      exact Archive.connectBlock_calls hop hhandle
  | mainchainBlockEvent ctxt => exact handleMainchainBlockEvent_steps hcf h ctxt
  | reorg ctxt newTip =>
    rw [exec, ignoreInvalid_fst]
    exact reorgToTip_steps h ctxt newTip
  | invalidate blockHash =>
    rw [exec]
    cases hinvalidate : node.invalidateBlock blockHash with
    | error => exact .refl
    | ok next => exact invalidateBlock_steps hallowed hinvalidate

variable {Allowed : Node → NodeOp → Prop}

theorem Reaches.run (h : Reaches m Allowed node) {ops : List NodeOp}
    (hops : ∀ op ∈ ops, op.Reported m) (hallowed : Permits Allowed node ops) :
    Reaches m Allowed (node.run ops) := by
  induction ops generalizing node with
  | nil => exact h
  | cons op ops ih =>
    obtain ⟨hop, hops⟩ := List.forall_mem_cons.mp hops
    exact ih (h.exec hop hallowed.1) hops hallowed.2

theorem permits_of {ops : List NodeOp} (h : ∀ op ∈ ops, ∀ node, Allowed node op) (node : Node) :
    Permits Allowed node ops := by
  induction ops generalizing node with
  | nil => trivial
  | cons op ops ih =>
    obtain ⟨hop, hops⟩ := List.forall_mem_cons.mp h
    exact ⟨hop node, ih hops _⟩

theorem permits_true (node : Node) (ops : List NodeOp) : Permits (fun _ _ => True) node ops :=
  permits_of (fun _ _ _ => trivial) node

theorem Reaches.mono {Allowed' : Node → NodeOp → Prop}
    (himp : ∀ node op, Allowed node op → Allowed' node op) (h : Reaches m Allowed node) :
    Reaches m Allowed' node := by
  induction h with
  | new => exact .new
  | exec _ hop hallowed ih => exact .exec ih hop (himp _ _ hallowed)

theorem Reaches.stored (hcf : CollisionFree) (h : Reaches m Allowed node) :
    Archive.Stored m node.archive := by
  induction h with
  | new => exact .new m
  | exec _ hop _ ih =>
    exact stored_steps hcf ih (exec_steps hcf ih hop (Guard.any_allows _ _))

abbrev Guarded (guard : Guard) (node : Node) (op : NodeOp) : Prop := guard.Allows node.archive op

theorem Reaches.calls (hcf : CollisionFree) (h : Reaches m (Guarded guard) node) :
    Archive.Calls m guard .new node.archive := by
  induction h with
  | new => exact .refl
  | exec h hop hallowed ih =>
    exact ih.trans (exec_steps hcf (h.stored hcf) hop hallowed).archive_calls

end Node

end PlainBitnames
