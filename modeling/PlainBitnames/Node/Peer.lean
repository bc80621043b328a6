import PlainBitnames.Archive.BetterTip

/-!
How a connection to a peer judges the tip that the peer reports. The comparison
with the own tip is the one of the fork choice, written out a second time for a
peer tip whose header may still be missing. It has no cases of its own for a
height of zero.
-/

namespace PlainBitnames

open Fallible Lineage

variable [Primitives]

abbrev PeerStateId := Hash

/-- `TipInfo`: a tip with its height and the total work of its mainchain block. -/
structure TipInfo where
  tip : Tip
  blockHeight : Nat
  totalWork : Nat
deriving DecidableEq

/-- `message::GetHeadersRequest`. Of the start blocks only which ones they are is
read. -/
structure GetHeadersRequest where
  start : List BlockHash
  endHash : BlockHash
  height : Option Nat
  peerStateId : Option PeerStateId
deriving DecidableEq

/-- `ResponseMessage`, as far as it answers a request for headers. -/
inductive HeadersResponse where
  | headers (headers : List Header)
  | noHeader (blockHash : BlockHash)
deriving DecidableEq

namespace Archive

/-- The parent of a block and its ancestors at exponential distances. -/
def getBlockLocator (a : Archive) (blockHash : BlockHash) : ArchiveResult (List BlockHash) := do
  let header ← a.getHeader blockHash
  let ancestors ← okOr a.exponentialAncestors[blockHash]? (.error .db)
  .ok (header.prevSideHash.toList ++ ancestors)

/-- A judgement of a peer tip: whether it is better and its header is stored, and
the request that is sent. -/
abbrev PeerTipJudgement := Option Bool × Option GetHeadersRequest

/-- The peer tip is better. Its headers are requested if they are missing. -/
def requestHeaders (a : Archive) (tipInfo : Option TipInfo) (peerTipInfo : TipInfo)
    (peerStateId : PeerStateId) : ArchiveResult PeerTipJudgement :=
  if peerTipInfo.tip.blockHash ∈ a.headers then .ok (some true, none)
  else do
    let start ← match tipInfo with
      | none => .ok []
      | some tipInfo => a.getBlockLocator tipInfo.tip.blockHash
    .ok (some false, some
      { start
        endHash := peerTipInfo.tip.blockHash
        height := some peerTipInfo.blockHeight
        peerStateId := some peerStateId })

/-- The peer tip is compared with the own tip. -/
def comparePeerTip (a : Archive) (tipInfo peerTipInfo : TipInfo) (peerStateId : PeerStateId) :
    ArchiveResult PeerTipJudgement :=
  let tip := tipInfo.tip
  let peerTip := peerTipInfo.tip
  let request := a.requestHeaders (some tipInfo) peerTipInfo peerStateId
  match compare tipInfo.totalWork peerTipInfo.totalWork,
      compare tipInfo.blockHeight peerTipInfo.blockHeight with
  | .lt, .lt | .eq, .lt => request
  | .eq, .gt | .gt, .gt => .ok (none, none)
  | .lt, .eq => do
      -- Within the same mainchain lineage, prefer lower work.
      let shared ← a.sharedMainchainLineage tip.mainBlockHash peerTip.mainBlockHash
      if shared then .ok (none, none) else request
  | .gt, .eq => do
      let shared ← a.sharedMainchainLineage tip.mainBlockHash peerTip.mainBlockHash
      if !shared then .ok (none, none) else request
  | .lt, .gt => do
      let tipAncestorHeight ← a.ancestorHeight tip peerTip tip
      if (compare tipAncestorHeight (some peerTipInfo.blockHeight)).isGE then .ok (none, none)
      else request
  | .gt, .lt =>
    if peerTip.blockHash ∉ a.headers then request
    else do
      let peerTipAncestorHeight ← a.ancestorHeight tip peerTip peerTip
      if (compare peerTipAncestorHeight (some tipInfo.blockHeight)).isLT then .ok (none, none)
      else .ok (some true, none)
  | .eq, .eq =>
    if peerTip.blockHash = tip.blockHash then .ok (none, none)
    else if peerTip.blockHash ∉ a.headers then request
    else do
      let mainAncestor ← a.lastCommonMainAncestor tip.mainBlockHash peerTip.mainBlockHash
      let mainAncestorHeight ← a.getMainHeight mainAncestor
      let tipAncestor ← a.findAncestor (a.heightAndWorkBefore mainAncestor mainAncestorHeight)
        (a.lineageLength tip.blockHash) (some tip.blockHash)
      let peerTipAncestor ← a.findAncestor (a.heightAndWorkBefore mainAncestor mainAncestorHeight)
        (a.lineageLength peerTip.blockHash) (some peerTip.blockHash)
      match compare (tipAncestor.map Prod.snd) (peerTipAncestor.map Prod.snd),
          compare (tipAncestor.map Prod.fst) (peerTipAncestor.map Prod.fst) with
      | .lt, .eq | .eq, .eq | _, .gt => .ok (none, none)
      | .gt, .eq | _, .lt => .ok (some true, none)

/-- Judge the tip of a peer. It is ignored unless its mainchain block is an
ancestor of the recorded mainchain tip. -/
def checkPeerTipAndRequestHeaders (a : Archive) (tipInfo : Option TipInfo) (peerTipInfo : TipInfo)
    (peerStateId : PeerStateId) : ArchiveResult PeerTipJudgement :=
  if peerTipInfo.tip.mainBlockHash ∉ a.mainHeaderInfos then .ok (none, none)
  else
    match a.sideTips.mainchainTip.tipInfo with
    | none => .ok (none, none)
    | some sideTipsTipInfo => do
        let active ← a.isMainDescendant peerTipInfo.tip.mainBlockHash sideTipsTipInfo.blockHash
        if !active then .ok (none, none)
        else
          match tipInfo with
          | none => a.requestHeaders none peerTipInfo peerStateId
          | some tipInfo => a.comparePeerTip tipInfo peerTipInfo peerStateId

/-- The headers of a block and of its ancestors, newest first, up to a start block that
is left out. -/
def headersUntil (a : Archive) (start : List BlockHash) :
    Nat → Option BlockHash → ArchiveResult (List Header)
  | 0, _ | _ + 1, none => .ok []
  | fuel + 1, some blockHash => do
      let header ← a.getHeader blockHash
      if blockHash ∈ start then .ok []
      else do
        let headers ← headersUntil a start fuel header.prevSideHash
        .ok (header :: headers)

/-- The answer to a request for headers. -/
def handleGetHeaders (a : Archive) (start : List BlockHash) (endHash : BlockHash) :
    ArchiveResult HeadersResponse :=
  if endHash ∈ a.headers then do
    let headers ← a.headersUntil start (a.lineageLength endHash) (some endHash)
    .ok (.headers headers.reverse)
  else .ok (.noHeader endHash)

variable {a : Archive} {tipInfo peerTipInfo : TipInfo} {peerStateId : PeerStateId}

theorem comparePeerTip_request {better : Option Bool} {req : GetHeadersRequest}
    (h : a.comparePeerTip tipInfo peerTipInfo peerStateId = .ok (better, some req)) :
    a.requestHeaders (some tipInfo) peerTipInfo peerStateId = .ok (better, some req) := by
  unfold comparePeerTip at h
  dsimp only at h
  split at h
  case h_1 | h_2 => exact h
  case h_3 | h_4 => nomatch h
  case h_5 | h_6 | h_7 =>
    obtain ⟨_, -, h⟩ := bind_eq_ok.mp h
    split at h
    case isTrue => nomatch h
    case isFalse => exact h
  case h_8 =>
    split at h
    case isTrue => exact h
    case isFalse =>
      obtain ⟨_, -, h⟩ := bind_eq_ok.mp h
      split at h <;> nomatch h
  case h_9 =>
    split at h
    case isTrue => nomatch h
    case isFalse =>
      split at h
      case isTrue => exact h
      case isFalse =>
        obtain ⟨_, -, h⟩ := bind_eq_ok.mp h
        obtain ⟨_, -, h⟩ := bind_eq_ok.mp h
        obtain ⟨_, -, h⟩ := bind_eq_ok.mp h
        obtain ⟨_, -, h⟩ := bind_eq_ok.mp h
        split at h <;> nomatch h

/-- What a request asks for: the headers up to the tip of the peer, which is not stored,
from the locator of a block or from the first header on. -/
theorem checkPeerTip_request {tipInfo : Option TipInfo} {better : Option Bool}
    {req : GetHeadersRequest}
    (h : a.checkPeerTipAndRequestHeaders tipInfo peerTipInfo peerStateId = .ok (better, some req)) :
    peerTipInfo.tip.blockHash ∉ a.headers ∧ req.endHash = peerTipInfo.tip.blockHash ∧
      req.height = some peerTipInfo.blockHeight ∧ req.peerStateId = some peerStateId ∧
      (req.start = [] ∨ ∃ b, a.getBlockLocator b = .ok req.start) := by
  obtain ⟨tipInfo, h⟩ : ∃ tipInfo,
      a.requestHeaders tipInfo peerTipInfo peerStateId = .ok (better, some req) := by
    unfold checkPeerTipAndRequestHeaders at h
    split at h
    case isTrue => nomatch h
    case isFalse =>
      split at h
      case h_1 => nomatch h
      case h_2 =>
        obtain ⟨_, -, h⟩ := bind_eq_ok.mp h
        split at h
        case isTrue => nomatch h
        case isFalse =>
          split at h
          case h_1 => exact ⟨_, h⟩
          case h_2 => exact ⟨_, comparePeerTip_request h⟩
  unfold requestHeaders at h
  split at h
  case isTrue => nomatch h
  case isFalse hmem =>
    cases tipInfo with
    | none =>
      cases h
      exact ⟨hmem, rfl, rfl, rfl, .inl rfl⟩
    | some tipInfo =>
      obtain ⟨start, hstart, h⟩ := bind_eq_ok.mp h
      cases h
      exact ⟨hmem, rfl, rfl, rfl, .inr ⟨_, hstart⟩⟩

end Archive

end PlainBitnames
