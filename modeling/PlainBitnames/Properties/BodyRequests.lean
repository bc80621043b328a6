import PlainBitnames.Node.Requests
import PlainBitnames.Properties.DiscardedBodies

/-!
Requests for missing bodies on one connection. The hashes of the requests that
were sent are kept as long as the connection lasts, also when a request has been
answered. A missing body is therefore asked for again only if the block was never
asked for on the connection: not after the peer has answered that it has no such
block, and not after the body it sent has been discarded.
-/

namespace PlainBitnames

open Borsh Fallible

section

variable [Primitives]

def Request.block : Request → Option BlockHash
  | .getBlock request => some request.blockHash
  | _ => none

/-- What happens on a connection. -/
inductive ConnectionEvent where
  /-- The state of the peer is handled, on the node as it is then. -/
  | peerState (node : Node) (peerTipInfo : Option TipInfo) (peerStateId : PeerStateId)
  /-- A request of another task is forwarded. -/
  | forwardRequest (request : Request)
  /-- A response to a request has arrived. -/
  | response (request : Request)

/-- A connection: the sender of its requests, and the requests that have been
answered. -/
structure Connection where
  sender : Sender
  answered : List Request

namespace Connection

def new : Connection := ⟨.new, []⟩

/-- The requests that wait for a response. -/
def unanswered (conn : Connection) : List Request := conn.sender.requestTx.diff conn.answered

def step (conn : Connection) : ConnectionEvent → TaskResult Connection
  | .peerState node peerTipInfo peerStateId => do
      let (sender, _) ← node.handlePeerState conn.sender peerTipInfo peerStateId
      .ok { conn with sender }
  | .forwardRequest request => do
      let (_, sender) ← conn.sender.sendRequest request
      .ok { conn with sender }
  | .response request =>
    -- a response belongs to a request that waits for one
    if request ∈ conn.unanswered then .ok { conn with answered := request :: conn.answered }
    else .ok conn

def run (conn : Connection) (events : List ConnectionEvent) : TaskResult Connection :=
  events.foldlM step conn

/-- A request for the block has been sent and not been answered. -/
def Awaits (conn : Connection) (blockHash : BlockHash) : Prop :=
  ∃ request ∈ conn.unanswered, request.block = some blockHash

def Asked (conn : Connection) (blockHash : BlockHash) : Prop :=
  ∃ request ∈ conn.sender.requestTx, request.block = some blockHash

/-- Of the bodies that are missing, each for which no request is unanswered is asked
for: the request is queued. -/
def AsksAgain (conn : Connection) (node : Node) (peerTipInfo : Option TipInfo)
    (peerStateId : PeerStateId) : Prop :=
  ∀ commonAncestor missing,
    node.peerAction peerTipInfo peerStateId = .ok (.getBodies commonAncestor missing) →
    ∀ blockHash ∈ missing, ¬ conn.Awaits blockHash →
      ∃ sender queued, node.handlePeerState conn.sender peerTipInfo peerStateId =
          .ok (sender, none) ∧ sender.requestTx = conn.sender.requestTx ++ queued ∧
        .getBlock (bodyRequest peerTipInfo peerStateId commonAncestor blockHash) ∈ queued

end Connection

namespace Sender

/-- The recorded hashes are those of the requests sent so far, without
transactions. -/
def Tracks (sender : Sender) : Prop :=
  ∀ h, h ∈ sender.requestHashes ↔
    ∃ request ∈ sender.requestTx, (∀ tx, request ≠ .pushTransaction tx) ∧ hash request = h

theorem tracks_new : Tracks .new := by
  intro h
  simp [new]

theorem hash_getBlock_eq_iff (hcf : CollisionFree) {request : GetBlockRequest} {other : Request} :
    hash other = hash (Request.getBlock request) ↔ other.block = some request.blockHash := by
  constructor
  · intro h
    have hser := ser_eq_of_hash_eq hcf h
    cases other with
    | getBlock other =>
      have hbytes : Primitives.hashBytes other.blockHash =
          Primitives.hashBytes request.blockHash := (List.cons.inj hser).2
      exact congrArg some (hashBytes_injective hbytes)
    | getHeaders other => exact absurd (List.cons.inj hser).1 (by decide)
    | pushTransaction tx => exact absurd (List.cons.inj hser).1 (by decide)
  · intro h
    cases other with
    | getBlock other =>
      have hblock : other.blockHash = request.blockHash := Option.some.inj h
      change Primitives.blake3 (0 :: Primitives.hashBytes other.blockHash) =
        Primitives.blake3 (0 :: Primitives.hashBytes request.blockHash)
      rw [hblock]
    | getHeaders other => cases h
    | pushTransaction tx => cases h

variable {sender : Sender}

theorem Tracks.mem_iff (hcf : CollisionFree) (h : sender.Tracks) (request : GetBlockRequest) :
    hash (Request.getBlock request) ∈ sender.requestHashes ↔
      ∃ other ∈ sender.requestTx, other.block = some request.blockHash := by
  rw [h]
  constructor
  · rintro ⟨other, hmem, -, hhash⟩
    exact ⟨other, hmem, (hash_getBlock_eq_iff hcf).mp hhash⟩
  · rintro ⟨other, hmem, hblock⟩
    refine ⟨other, hmem, fun tx htx => ?_, (hash_getBlock_eq_iff hcf).mpr hblock⟩
    rw [htx] at hblock
    cases hblock

/-- A request that is not a transaction is queued unless its hash is recorded. -/
theorem sendRequest_eq {E : Type} (sender : Sender) (request : Request)
    (hfits : fits request = true) (hpush : ∀ tx, request ≠ .pushTransaction tx) :
    (sender.sendRequest request : Except (Failure E) (Bool × Sender)) =
      if hash request ∈ sender.requestHashes then .ok (false, sender)
      else .ok (true,
        ⟨sender.requestHashes.insert (hash request) (), sender.requestTx ++ [request]⟩) := by
  unfold sendRequest
  rw [ensure_of hfits, ok_bind]
  cases request with
  | pushTransaction tx => exact absurd rfl (hpush tx)
  | getBlock request => rfl
  | getHeaders request => rfl

theorem Tracks.queue (h : sender.Tracks) {request : Request}
    (hpush : ∀ tx, request ≠ .pushTransaction tx) :
    Tracks ⟨sender.requestHashes.insert (hash request) (), sender.requestTx ++ [request]⟩ := by
  intro h'
  rw [Db.mem_insert, h h']
  constructor
  · rintro (rfl | ⟨other, hmem, hother, rfl⟩)
    · exact ⟨request, by simp, hpush, rfl⟩
    · exact ⟨other, List.mem_append_left _ hmem, hother, rfl⟩
  · rintro ⟨other, hmem, hother, rfl⟩
    rcases List.mem_append.mp hmem with hmem | hmem
    · exact .inr ⟨other, hmem, hother, rfl⟩
    · rw [List.mem_singleton.mp hmem]
      exact .inl rfl

theorem Tracks.sendRequest {E : Type} {sender' : Sender} (h : sender.Tracks) {request : Request}
    {queued : Bool} (hsend : (sender.sendRequest request : Except (Failure E) (Bool × Sender)) =
      .ok (queued, sender')) : sender'.Tracks := by
  have hfits : fits request = true := (ensure_bind_eq_ok.mp hsend).1
  by_cases hpush : ∃ tx, request = .pushTransaction tx
  · obtain ⟨tx, rfl⟩ := hpush
    obtain ⟨-, hsend⟩ := ensure_bind_eq_ok.mp hsend
    cases hsend
    intro h'
    rw [h h']
    simp only [List.mem_append, List.mem_singleton, or_and_right, exists_or]
    refine ⟨.inl, fun hor => hor.resolve_right ?_⟩
    rintro ⟨other, rfl, hother, -⟩
    exact hother tx rfl
  · have hpush' : ∀ tx, request ≠ .pushTransaction tx := fun tx htx => hpush ⟨tx, htx⟩
    rw [sendRequest_eq sender request hfits hpush'] at hsend
    split at hsend
    · cases hsend
      exact h
    · cases hsend
      exact h.queue hpush'

variable (peerTipInfo : Option TipInfo) (peerStateId : PeerStateId)
  (commonAncestor : Option BlockHash)

/-- Of the missing bodies, exactly those of blocks that were not asked for are. -/
theorem Tracks.requestBodies (hcf : CollisionFree) (h : sender.Tracks) (missing : List BlockHash) :
    ∃ sender' queued, missing.foldlM (requestBody peerTipInfo peerStateId commonAncestor) sender =
        .ok sender' ∧ sender'.Tracks ∧ sender'.requestTx = sender.requestTx ++ queued ∧
      ∀ blockHash, .getBlock (bodyRequest peerTipInfo peerStateId commonAncestor blockHash) ∈ queued ↔
        blockHash ∈ missing ∧
          ¬ ∃ request ∈ sender.requestTx, request.block = some blockHash := by
  induction missing generalizing sender with
  | nil => exact ⟨sender, [], rfl, h, (List.append_nil _).symm, by simp⟩
  | cons first missing ih =>
    have hpush : ∀ tx, Request.getBlock (bodyRequest peerTipInfo peerStateId commonAncestor first) ≠
        .pushTransaction tx := fun _ h => by cases h
    have hsend := sendRequest_eq (E := TaskError) sender
      (.getBlock (bodyRequest peerTipInfo peerStateId commonAncestor first)) rfl hpush
    rw [List.foldlM_cons, requestBody]
    by_cases hasked : ∃ request ∈ sender.requestTx, request.block = some first
    · rw [if_pos ((h.mem_iff hcf _).mpr hasked)] at hsend
      obtain ⟨sender', queued, hfold, htracks, htx, hqueued⟩ := ih h
      refine ⟨sender', queued, ?_, htracks, htx, fun blockHash => ?_⟩
      · rw [hsend]
        exact hfold
      · rw [hqueued, List.mem_cons]
        refine and_congr_left fun hnot => ⟨.inr, fun hmem => hmem.resolve_left ?_⟩
        rintro rfl
        exact hnot hasked
    · rw [if_neg fun hmem => hasked ((h.mem_iff hcf _).mp hmem)] at hsend
      obtain ⟨sender', queued, hfold, htracks, htx, hqueued⟩ := ih (h.queue hpush)
      refine ⟨sender', .getBlock (bodyRequest peerTipInfo peerStateId commonAncestor first) :: queued,
        ?_, htracks, ?_, fun blockHash => ?_⟩
      · rw [hsend]
        exact hfold
      · rw [htx, List.append_assoc, List.singleton_append]
      · rw [List.mem_cons, hqueued, List.mem_cons]
        by_cases hfirst : blockHash = first
        · rw [hfirst]
          exact ⟨fun _ => ⟨.inl rfl, hasked⟩, fun _ => .inl rfl⟩
        · have hne : Request.getBlock (bodyRequest peerTipInfo peerStateId commonAncestor blockHash) ≠
              .getBlock (bodyRequest peerTipInfo peerStateId commonAncestor first) := by
            intro heq
            exact hfirst (congrArg GetBlockRequest.blockHash (Request.getBlock.inj heq))
          have hblock : (Request.getBlock (bodyRequest peerTipInfo peerStateId commonAncestor
              first)).block ≠ some blockHash := fun heq => hfirst (Option.some.inj heq).symm
          simp only [hne, hfirst, false_or, List.mem_append, List.mem_singleton, or_and_right,
            exists_or, exists_eq_left, hblock, or_false]

end Sender

namespace Connection

variable {conn : Connection} {node : Node} {peerTipInfo : Option TipInfo}
  {peerStateId : PeerStateId}

theorem handlePeerState_tracks (hcf : CollisionFree) {sender sender' : Sender}
    (h : sender.Tracks) {info : Option Info}
    (hhandle : node.handlePeerState sender peerTipInfo peerStateId = .ok (sender', info)) :
    sender'.Tracks := by
  obtain ⟨action, -, hhandle⟩ := bind_eq_ok.mp hhandle
  cases action with
  | nothing => cases hhandle; exact h
  | notify info => cases hhandle; exact h
  | getHeaders request =>
    obtain ⟨⟨queued, sender''⟩, hsend, hhandle⟩ := bind_eq_ok.mp hhandle
    cases hhandle
    exact h.sendRequest hsend
  | getBodies commonAncestor missing =>
    obtain ⟨sender'', hfold, hhandle⟩ := bind_eq_ok.mp hhandle
    cases hhandle
    obtain ⟨_, _, hfold', htracks, -⟩ :=
      h.requestBodies peerTipInfo peerStateId commonAncestor hcf missing
    cases hfold.symm.trans hfold'
    exact htracks

theorem step_tracks (hcf : CollisionFree) {conn' : Connection} {event : ConnectionEvent}
    (h : conn.sender.Tracks) (hstep : conn.step event = .ok conn') : conn'.sender.Tracks := by
  cases event with
  | peerState node peerTipInfo peerStateId =>
    obtain ⟨⟨sender, info⟩, hhandle, hstep⟩ := bind_eq_ok.mp hstep
    cases hstep
    exact handlePeerState_tracks hcf h hhandle
  | forwardRequest request =>
    obtain ⟨⟨queued, sender⟩, hsend, hstep⟩ := bind_eq_ok.mp hstep
    cases hstep
    exact h.sendRequest hsend
  | response request =>
    rw [step] at hstep
    split at hstep
    · cases hstep
      exact h
    · cases hstep
      exact h

theorem run_tracks (hcf : CollisionFree) {events : List ConnectionEvent}
    (hrun : Connection.new.run events = .ok conn) : conn.sender.Tracks :=
  foldlM_invariant (P := fun conn : Connection => conn.sender.Tracks) Sender.tracks_new
    (fun _ _ _ _ h hstep => step_tracks hcf h hstep) hrun

/-- What handling the state of a peer queues when bodies are missing. -/
theorem handlePeerState_getBodies (hcf : CollisionFree) {sender : Sender} (h : sender.Tracks)
    {commonAncestor : Option BlockHash} {missing : List BlockHash}
    (haction : node.peerAction peerTipInfo peerStateId =
      .ok (.getBodies commonAncestor missing)) :
    ∃ sender' queued, node.handlePeerState sender peerTipInfo peerStateId = .ok (sender', none) ∧
      sender'.requestTx = sender.requestTx ++ queued ∧
      ∀ blockHash, .getBlock (bodyRequest peerTipInfo peerStateId commonAncestor blockHash) ∈ queued ↔
        blockHash ∈ missing ∧
          ¬ ∃ request ∈ sender.requestTx, request.block = some blockHash := by
  obtain ⟨sender', queued, hfold, -, htx, hqueued⟩ :=
    h.requestBodies peerTipInfo peerStateId commonAncestor hcf missing
  refine ⟨sender', queued, ?_, htx, hqueued⟩
  rw [Node.handlePeerState, haction, ok_bind]
  dsimp only
  rw [hfold, ok_bind]

end Connection

/-- On every connection, missing bodies without an unanswered request are asked for
exactly if their blocks were never asked for on the connection. -/
theorem asks_again_iff (hcf : CollisionFree) {events : List ConnectionEvent} {conn : Connection}
    (hrun : Connection.new.run events = .ok conn) (node : Node) (peerTipInfo : Option TipInfo)
    (peerStateId : PeerStateId) :
    conn.AsksAgain node peerTipInfo peerStateId ↔
      ∀ commonAncestor missing,
        node.peerAction peerTipInfo peerStateId = .ok (.getBodies commonAncestor missing) →
        ∀ blockHash ∈ missing, ¬ conn.Awaits blockHash → ¬ conn.Asked blockHash := by
  have htracks := Connection.run_tracks hcf hrun
  constructor
  · intro hasks commonAncestor missing haction blockHash hmem hawaits
    obtain ⟨sender, queued, hhandle, htx, hqueued⟩ :=
      hasks commonAncestor missing haction blockHash hmem hawaits
    obtain ⟨sender', queued', hhandle', htx', hiff⟩ :=
      Connection.handlePeerState_getBodies hcf htracks haction
    cases hhandle.symm.trans hhandle'
    obtain rfl := List.append_cancel_left (htx.symm.trans htx')
    exact ((hiff blockHash).mp hqueued).2
  · intro hfresh commonAncestor missing haction blockHash hmem hawaits
    obtain ⟨sender, queued, hhandle, htx, hiff⟩ :=
      Connection.handlePeerState_getBodies hcf htracks haction
    exact ⟨sender, queued, hhandle, htx,
      (hiff blockHash).mpr ⟨hmem, hfresh commonAncestor missing haction blockHash hmem hawaits⟩⟩

end

namespace Instance

/-- The header of a block is stored, and its body is missing. -/
def askOps : List NodeOp :=
  [connectMain mintMain 1, connectMain mintMain 2, connectMain mintMain 3, .header mintHeader]

def askNode : Node := Node.new.run askOps

/-- The peer sends the body of another block, which is stored and then discarded. -/
def discardedNode : Node :=
  askNode.run [.body mintHeader.hash spendBody, .reorg 0 ⟨mintHeader.hash, 2⟩]

def mintTipInfo : TipInfo := ⟨⟨mintHeader.hash, 2⟩, 0, 2⟩

def mintRequest : Request :=
  .getBlock (bodyRequest (some mintTipInfo) zeroHash none mintHeader.hash)

/-- The block is asked for, and the peer answers. -/
def askedEvents : List ConnectionEvent :=
  [.peerState askNode (some mintTipInfo) zeroHash, .response mintRequest]

def askedConnection : Connection :=
  (Connection.new.run askedEvents).toOption.getD .new

theorem run_asked : Connection.new.run askedEvents = .ok askedConnection :=
  eq_ok_getD _ (by decide +kernel)

theorem asked_requests : askedConnection.sender.requestTx = [mintRequest] ∧
    askedConnection.answered = [mintRequest] := by
  decide +kernel

theorem askNode_action :
    askNode.peerAction (some mintTipInfo) zeroHash = .ok (.getBodies none [mintHeader.hash]) := by
  decide +kernel

theorem discardedNode_action :
    discardedNode.peerAction (some mintTipInfo) zeroHash =
      .ok (.getBodies none [mintHeader.hash]) := by
  decide +kernel

theorem asked_awaits : ¬ askedConnection.Awaits mintHeader.hash := by
  rintro ⟨request, hmem, -⟩
  rw [Connection.unanswered, asked_requests.1, asked_requests.2, List.diff_cons, List.erase_cons_head, List.diff_nil] at hmem
  cases hmem

/-- A block is asked for and answered. Whether the peer had no such block or sent a body
that was discarded, the body is missing again, and is not asked for. -/
theorem discarded_body_not_asked :
    Connection.new.run askedEvents = .ok askedConnection ∧
      mintHeader.hash ∈ (askNode.run [.body mintHeader.hash spendBody]).archive.bodies ∧
      mintHeader.hash ∉ discardedNode.archive.bodies ∧
      ¬ askedConnection.Awaits mintHeader.hash ∧
      ∀ node ∈ [askNode, discardedNode],
        node.peerAction (some mintTipInfo) zeroHash = .ok (.getBodies none [mintHeader.hash]) ∧
          node.handlePeerState askedConnection.sender (some mintTipInfo) zeroHash =
            .ok (askedConnection.sender, none) ∧
          ¬ askedConnection.AsksAgain node (some mintTipInfo) zeroHash := by
  refine ⟨run_asked, by decide +kernel, by decide +kernel, asked_awaits, fun node hnode => ?_⟩
  have haction : node.peerAction (some mintTipInfo) zeroHash =
      .ok (.getBodies none [mintHeader.hash]) := by
    rcases List.mem_pair.mp hnode with hnode | hnode
    · rw [hnode, askNode_action]
    · rw [hnode, discardedNode_action]
  have hhandle : node.handlePeerState askedConnection.sender (some mintTipInfo) zeroHash =
      .ok (askedConnection.sender, none) := by
    rw [Node.handlePeerState, haction]
    decide +kernel
  refine ⟨haction, hhandle, fun hasks => ?_⟩
  obtain ⟨sender, queued, hhandle', htx, hmem⟩ :=
    hasks none _ haction mintHeader.hash (List.mem_singleton_self _) asked_awaits
  have hsender := (Prod.mk.inj (Except.ok.inj (hhandle.symm.trans hhandle'))).1
  rw [← hsender] at htx
  rw [List.append_right_eq_self.mp htx.symm] at hmem
  exact List.not_mem_nil hmem

theorem asks_again_first :
    Connection.new.run [] = .ok Connection.new ∧
      askNode.peerAction (some mintTipInfo) zeroHash = .ok (.getBodies none [mintHeader.hash]) ∧
      Connection.new.AsksAgain askNode (some mintTipInfo) zeroHash := by
  have hrun : Connection.new.run [] = .ok Connection.new := rfl
  refine ⟨hrun, askNode_action, (asks_again_iff collisionFree hrun askNode _ _).mpr ?_⟩
  intro _ _ _ _ _ _ hasked
  obtain ⟨request, hmem, -⟩ := hasked
  exact List.not_mem_nil hmem

end Instance

end PlainBitnames
