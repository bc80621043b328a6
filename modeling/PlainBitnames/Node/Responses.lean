import PlainBitnames.Archive.Storable
import PlainBitnames.Node.Peer

/-!
How the net task handles the headers and the blocks that a peer sends. The response
is checked against the request, and the headers that are not stored yet are stored in
one transaction. Of a block, the hash of the header is all that is checked. A peer
whose response is not as requested is removed.
-/

namespace PlainBitnames

open Fallible Lineage

variable [Primitives]

/-- What becomes of a response. -/
inductive HeadersOutcome where
  | available
  | removedPeer
deriving DecidableEq

/-- The block before the first header. -/
def startHash (headers : List Header) : Option BlockHash := headers.head?.bind Header.prevSideHash

/-- The first header has no parent, or one of the start blocks as its parent. -/
def GetHeadersRequest.startsAt (req : GetHeadersRequest) (headers : List Header) : Bool :=
  match startHash headers with
  | none => true
  | some startHash => decide (startHash ∈ req.start)

namespace Archive

/-- The height that the last header must have. The number of headers is cast to 32
bits. -/
def endHeight (a : Archive) (startHash : Option BlockHash) (count : Nat) : ArchiveResult Nat :=
  match startHash with
  | some startHash => do
      let startHeight ← a.getHeight startHash
      ensure (startHeight + count % 2 ^ 32 < 2 ^ 32) (.panic "attempt to add with overflow")
      .ok (startHeight + count % 2 ^ 32)
  | none => do
      ensure (count % 2 ^ 32 ≠ 0) (.panic "attempt to subtract with overflow")
      .ok (count % 2 ^ 32 - 1)

/-- Every header builds on the one before it, and none is invalidated. -/
def sequential (a : Archive) : Option BlockHash → List Header → Bool
  | _, [] => true
  | prevSideHash, header :: headers =>
    decide (header.prevSideHash = prevSideHash) && decide (header.hash ∉ a.invalidBlocks) &&
      a.sequential (some header.hash) headers

def parentMissing (a : Archive) (header : Header) : Bool :=
  match header.prevSideHash with
  | none => false
  | some parent => decide (parent ∉ a.headers)

/-- Store the headers that are not stored yet, until one has no stored parent. -/
def storeHeaders : List Header → Archive → ArchiveResult Archive
  | [], a => .ok a
  | header :: headers, a =>
    if header.hash ∈ a.headers then storeHeaders headers a
    else if a.parentMissing header then .ok a
    else do
      let a ← a.putHeader header
      storeHeaders headers a

/-- Store headers whose end has the requested height and which are sequential. -/
def storeChecked (a : Archive) (height endHeight : Nat) (headers : List Header) :
    ArchiveResult (Archive × HeadersOutcome) :=
  if endHeight ≠ height then .ok (a, .removedPeer)
  else if !a.sequential (startHash headers) headers then .ok (a, .removedPeer)
  else do
    let a ← storeHeaders headers a
    .ok (a, .available)

def checkHeaders (a : Archive) (req : GetHeadersRequest) (height : Nat) (headers : List Header) :
    ArchiveResult (Archive × HeadersOutcome) :=
  if headers.getLast?.map Header.hash ≠ some req.endHash then .ok (a, .removedPeer)
  else if !req.startsAt headers then .ok (a, .removedPeer)
  else do
    let endHeight ← a.endHeight (startHash headers) headers.length
    a.storeChecked height endHeight headers

/-- `handle_response` on the headers that were sent for a request. -/
def handleHeaders (a : Archive) (req : GetHeadersRequest) (headers : List Header) :
    ArchiveResult (Archive × HeadersOutcome) :=
  match req.height, req.peerStateId with
  | some height, some _ => a.checkHeaders req height headers
  | _, _ => .ok (a, .removedPeer)

/-- How the net task stores a block that it has requested. -/
def handleBlock (a : Archive) (blockHash : BlockHash) (header : Header) (body : Body) :
    ArchiveResult Archive :=
  if header.hash ≠ blockHash then .ok a
  else a.putBody blockHash body

variable {m : Mainchain} {guard : Guard} {a a' : Archive}

/-- A block, or none, is followed by headers at a height. -/
def FollowedAt (a : Archive) (prev : Option BlockHash) (height : Nat) : Prop :=
  match prev with
  | none => height = 0
  | some p => ∃ k, a.blockHashToHeight[p]? = some k ∧ height = k + 1

variable {prev : Option BlockHash}

theorem FollowedAt.newHeight {height : Nat} (h : FollowedAt a prev height) {header : Header}
    (hprev : header.prevSideHash = prev) {k : Nat} :
    a.newHeight header = .ok k ↔ k = height ∧ height < 2 ^ 32 := by
  unfold Archive.newHeight
  rw [hprev]
  cases prev with
  | none =>
    obtain rfl : height = 0 := h
    simp [eq_comm]
  | some p =>
    obtain ⟨j, hj, rfl⟩ := h
    dsimp only
    rw [hj, okOr_some, ok_bind, heightPlusOne, ensure_bind_eq_ok, Except.ok.injEq]
    exact ⟨fun h => ⟨h.2.symm, h.1⟩, fun h => ⟨h.2, h.1.symm⟩⟩

theorem FollowedAt.parentMissing {height : Nat} (hside : SideStored a)
    (h : FollowedAt a prev height) {header : Header} (hprev : header.prevSideHash = prev) :
    a.parentMissing header = false := by
  unfold Archive.parentMissing
  rw [hprev]
  cases prev with
  | none => rfl
  | some p =>
    obtain ⟨j, hj, -⟩ := h
    exact decide_eq_false (not_not.mpr (hside.height.mp ⟨j, hj⟩))

theorem FollowedAt.of_mem (hcf : CollisionFree) {height : Nat} (hside : SideStored a)
    (h : FollowedAt a prev height) {header : Header} (hprev : header.prevSideHash = prev)
    (hmem : header.hash ∈ a.headers) : FollowedAt a (some header.hash) (height + 1) := by
  obtain ⟨k, hk⟩ := hside.height_of_mem hmem
  obtain ⟨old, hold⟩ := (Db.mem_iff _ _).mp hmem
  obtain rfl := hside.header_again hcf hold
  refine ⟨k, hk, congrArg Nat.succ (hside.describes.rooted.height_eq hk ?_).symm⟩
  rw [SideStored.sideParent_eq hold, hprev]
  cases prev with
  | none => exact .inl ⟨rfl, h⟩
  | some p =>
    obtain ⟨j, hj, rfl⟩ := h
    exact .inr ⟨p, j, rfl, hj, rfl⟩

end Archive

end PlainBitnames
