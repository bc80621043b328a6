import PlainBitnames.Archive.Iter
import PlainBitnames.Node.Basic
import PlainBitnames.Node.Peer

/-!
The requests that a connection sends to its peer. A request is queued unless its
hash is among those of the requests sent before; transactions are always queued.
The hash leaves out what only the requester reads, so that of a request for a
block it keeps the block alone. The state that a peer reports leads to a request
for headers, to requests for missing bodies, or to a notice to the node.
-/

namespace PlainBitnames

open Borsh Fallible

variable [Primitives]

/-- `message::GetBlockRequest`. -/
structure GetBlockRequest where
  blockHash : BlockHash
  descendantTip : Option Tip
  ancestor : Option BlockHash
  peerStateId : Option PeerStateId
deriving DecidableEq

/-- `message::Request`. -/
inductive Request where
  | getBlock (request : GetBlockRequest)
  | getHeaders (request : GetHeadersRequest)
  | pushTransaction (transaction : AuthorizedTransaction)
deriving DecidableEq

/-- Only the block is encoded. -/
instance : Borsh GetBlockRequest where
  ser request := ser request.blockHash
  fits _ := true

/-- The start blocks are a set, which is encoded in the order of its elements. -/
instance : Borsh GetHeadersRequest where
  ser request := ser (request.start.dedup.insertionSort fun a b => (compare a b).isLE) ++
    ser request.endHash
  fits request := fits request.start.dedup

instance {T : Type} [Borsh T] : Borsh (Authorized T) where
  ser authorized := ser authorized.transaction ++ ser authorized.authorizations
  fits authorized := fits authorized.transaction && fits authorized.authorizations

instance : Borsh Request where
  ser
    | .getBlock request => 0 :: ser request
    | .getHeaders request => 1 :: ser request
    | .pushTransaction transaction => 2 :: ser transaction
  fits
    | .getBlock request => fits request
    | .getHeaders request => fits request
    | .pushTransaction transaction => fits transaction

/-- `request_queue::Sender`. The queue holds all requests queued so far, oldest
first; it is not read here, so nothing is taken from it. -/
structure Sender where
  requestHashes : Db Hash Unit
  requestTx : List Request
deriving DecidableEq

namespace Sender

def new : Sender := ⟨∅, []⟩

/-- Queue a request, unless it is one for blocks or headers that was sent
before. -/
def sendRequest {E : Type} (sender : Sender) (request : Request) :
    Except (Failure E) (Bool × Sender) := do
  ensure (fits request) (.panic "failed to serialize with borsh to compute a hash")
  let requestHash := hash request
  match request with
  | .pushTransaction _ => .ok (true, { sender with requestTx := sender.requestTx ++ [request] })
  | _ =>
    if requestHash ∈ sender.requestHashes then .ok (false, sender)
    else .ok (true, ⟨sender.requestHashes.insert requestHash (), sender.requestTx ++ [request]⟩)

end Sender

/-- `Info`, as far as the state of a peer leads to it. -/
inductive Info where
  | needMainchainAncestors (mainHash : MainBlockHash) (peerStateId : PeerStateId)
  | newTipReady (tip : Tip)
deriving DecidableEq

inductive BanReason where
  | bmmVerificationFailed (tip : Tip)
  | incorrectTotalWork (tip : Tip) (totalWork : Nat)
deriving DecidableEq

/-- `blocking_task::TaskError`. -/
inductive TaskError where
  | archive (err : ArchiveError)
  | peerBan (reason : BanReason)
deriving DecidableEq

abbrev TaskResult (α : Type) := Except (Failure TaskError) α

namespace Archive

/-- `iter_missing_bodies(..).take(limit)`: ancestors are read until enough of them
have no body. The fuel bounds the number of ancestors. -/
def takeMissing (a : Archive) :
    Nat → Nat → Batches.Iter BlockHash (BlockHash × Header) → ArchiveResult (List BlockHash)
  | 0, _, _ | _ + 1, 0, _ => .ok []
  | fuel + 1, limit + 1, it => do
      let (item, it) ← it.next a.ancestorsRev
      match item with
      | none => .ok []
      | some (ancestor, _) =>
        if a.containsBody ancestor then takeMissing a fuel (limit + 1) it
        else do
          let missing ← takeMissing a fuel limit it
          .ok (ancestor :: missing)

end Archive

/-- `MAX_BLOCK_REQUESTS`. -/
def maxBlockRequests : Nat := 100

/-- What the state of a peer leads to. -/
inductive PeerAction where
  | nothing
  | notify (info : Info)
  | getHeaders (request : GetHeadersRequest)
  /-- The bodies that are missing above the common ancestor. -/
  | getBodies (commonAncestor : Option BlockHash) (missingBodies : List BlockHash)
deriving DecidableEq

namespace Node

/-- The own tip. -/
def tipInfo (node : Node) : TaskResult (Option TipInfo) :=
  match node.state.tip with
  | none => .ok none
  | some tip => do
      let tipHeight ← okOr node.state.height (.panic "Height should be known for tip")
      let bmmVerification ← mapFailure .archive (node.archive.getBestMainVerification tip)
      let totalWork ← mapFailure .archive (node.archive.getTotalWork bmmVerification)
      .ok (some ⟨⟨tip, bmmVerification⟩, tipHeight, totalWork⟩)

/-- Check the claimed work, and that the mainchain block commits to the tip. -/
def checkClaim (node : Node) (peerTipInfo : TipInfo) : TaskResult Unit := do
  let computedTotalWork ← mapFailure .archive
    (node.archive.getTotalWork peerTipInfo.tip.mainBlockHash)
  ensure (peerTipInfo.totalWork = computedTotalWork)
    (.error (.peerBan (.incorrectTotalWork peerTipInfo.tip peerTipInfo.totalWork)))
  let info ← mapFailure .archive (node.archive.getMainBlockInfo peerTipInfo.tip.mainBlockHash)
  ensure (info.bmmCommitment = some peerTipInfo.tip.blockHash)
    (.error (.peerBan (.bmmVerificationFailed peerTipInfo.tip)))

/-- The bodies missing on the way to a better tip of the peer. -/
def missingBodies (node : Node) (tipInfo : Option TipInfo) (peerTipInfo : TipInfo) :
    TaskResult PeerAction := do
  ensure (node.archive.tryGetBmmResult peerTipInfo.tip.blockHash peerTipInfo.tip.mainBlockHash =
      some .verified)
    (.error (.peerBan (.bmmVerificationFailed peerTipInfo.tip)))
  let commonAncestor ← match tipInfo with
    | some tipInfo =>
      mapFailure .archive
        (node.archive.lastCommonAncestor tipInfo.tip.blockHash peerTipInfo.tip.blockHash)
    | none => .ok none
  let startHeight ← match commonAncestor with
    | some commonAncestor => mapFailure .archive (node.archive.getHeight commonAncestor)
    | none => .ok 0
  let missing ← mapFailure .archive (node.archive.takeMissing
    (node.archive.lineageLength peerTipInfo.tip.blockHash) maxBlockRequests
    (.new peerTipInfo.tip.blockHash startHeight))
  if missing.isEmpty then .ok (.notify (.newTipReady peerTipInfo.tip))
  else .ok (.getBodies commonAncestor missing)

/-- What the node does about the tip that a peer reports. -/
def peerAction (node : Node) (peerTipInfo : Option TipInfo) (peerStateId : PeerStateId) :
    TaskResult PeerAction :=
  match peerTipInfo with
  | none => .ok .nothing
  | some peerTipInfo => do
      let tipInfo ← node.tipInfo
      if peerTipInfo.tip.mainBlockHash ∉ node.archive.mainHeaderInfos then
        .ok (.notify (.needMainchainAncestors peerTipInfo.tip.mainBlockHash peerStateId))
      else do
        node.checkClaim peerTipInfo
        match ← mapFailure .archive
            (node.archive.checkPeerTipAndRequestHeaders tipInfo peerTipInfo peerStateId) with
        | (_, some request) => .ok (.getHeaders request)
        | (some true, none) => node.missingBodies tipInfo peerTipInfo
        | (_, none) => .ok .nothing

end Node

def bodyRequest (peerTipInfo : Option TipInfo) (peerStateId : PeerStateId)
    (commonAncestor : Option BlockHash) (blockHash : BlockHash) : GetBlockRequest where
  blockHash
  descendantTip := peerTipInfo.map TipInfo.tip
  peerStateId := some peerStateId
  ancestor := commonAncestor

/-- Request each missing body; whether the request was queued is not looked at. -/
def Sender.requestBody (peerTipInfo : Option TipInfo) (peerStateId : PeerStateId)
    (commonAncestor : Option BlockHash) (sender : Sender) (blockHash : BlockHash) :
    TaskResult Sender := do
  let (_, sender) ← sender.sendRequest
    (.getBlock (bodyRequest peerTipInfo peerStateId commonAncestor blockHash))
  .ok sender

/-- `handle_peer_state`. -/
def Node.handlePeerState (node : Node) (sender : Sender) (peerTipInfo : Option TipInfo)
    (peerStateId : PeerStateId) : TaskResult (Sender × Option Info) := do
  match ← node.peerAction peerTipInfo peerStateId with
  | .nothing => .ok (sender, none)
  | .notify info => .ok (sender, some info)
  | .getHeaders request => do
      let (_, sender) ← sender.sendRequest (.getHeaders request)
      .ok (sender, none)
  | .getBodies commonAncestor missingBodies => do
      let sender ← missingBodies.foldlM
        (Sender.requestBody peerTipInfo peerStateId commonAncestor) sender
      .ok (sender, none)

end PlainBitnames
