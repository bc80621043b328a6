import PlainBitnames.Properties.Ancestry
import PlainBitnames.Properties.HeaderResponses
import PlainBitnames.Properties.PeerTips

/-!
The two ends of a request for headers. The node that asks sends the locator of its tip,
and the peer answers from its own archive with the headers after the first block of the
locator that it meets.
-/

namespace PlainBitnames

open Fallible Lineage

section

variable [Primitives]

namespace Archive

variable {a a' : Archive} {prev : Option BlockHash} {headers : List Header}

def leadTo (prev : Option BlockHash) (headers : List Header) : Option BlockHash :=
  headers.foldl (fun _ header => some header.hash) prev

/-- The height of the last header as the code computes it without overflow checks. -/
def wrappingEndHeight (a : Archive) (startHash : Option BlockHash) (count : Nat) :
    ArchiveResult Nat :=
  match startHash with
  | some startHash => do
      let startHeight ← a.getHeight startHash
      .ok ((startHeight + count) % 2 ^ 32)
  | none => .ok ((count + (2 ^ 32 - 1)) % 2 ^ 32)

/-- A response passes the checks of `handle_response`. With overflow checks the height of
the end is computed unless there are `2 ^ 32` headers. -/
structure Passes (a : Archive) (req : GetHeadersRequest) (height : Nat) (headers : List Header) :
    Prop where
  endHash : headers.getLast?.map Header.hash = some req.endHash
  startsAt : req.startsAt headers = true
  endHeight : a.wrappingEndHeight (startHash headers) headers.length = .ok height
  checkedEndHeight : headers.length ≠ 2 ^ 32 →
    a.endHeight (startHash headers) headers.length = .ok height
  sequential : a.sequential (startHash headers) headers = true

theorem leadTo_concat (prev : Option BlockHash) (headers : List Header) (header : Header) :
    leadTo prev (headers ++ [header]) = some header.hash := by
  rw [leadTo, List.foldl_append]
  rfl

variable {b : BlockHash}

theorem getLast_of_leadTo (h : leadTo prev headers = some b) (hne : headers ≠ []) :
    headers.getLast?.map Header.hash = some b := by
  rcases List.eq_nil_or_concat headers with hnil | ⟨front, header, rfl⟩
  · exact absurd hnil hne
  · rw [List.concat_eq_append, leadTo_concat] at h
    rw [List.concat_eq_append, List.getLast?_concat, Option.map_some, h]

theorem linked_concat {header : Header} (h : LinkedHeaders prev headers)
    (hheader : header.prevSideHash = leadTo prev headers) :
    LinkedHeaders prev (headers ++ [header]) := by
  induction headers generalizing prev with
  | nil => exact ⟨hheader, trivial⟩
  | cons first headers ih => exact ⟨h.1, ih h.2 hheader⟩

theorem sequential_of_linked (h : LinkedHeaders prev headers)
    (hvalid : ∀ header ∈ headers, header.hash ∉ a.invalidBlocks) :
    a.sequential prev headers = true := by
  induction headers generalizing prev with
  | nil => rfl
  | cons header headers ih =>
    obtain ⟨hheader, hvalid⟩ := List.forall_mem_cons.mp hvalid
    rw [Archive.sequential, ih h.2 hvalid, decide_eq_true h.1, decide_eq_true hheader]
    rfl

/-- The walk back from a stored block ends after the first header or at a start block,
which is followed at the height of the first header that is returned. -/
theorem exists_headersUntil (hside : SideStored a) (start : List BlockHash) {k fuel : Nat}
    (hk : a.blockHashToHeight[b]? = some k) (hfuel : k < fuel) :
    ∃ headers prev first, a.headersUntil start fuel (some b) = .ok headers ∧
      LinkedHeaders prev headers.reverse ∧ leadTo prev headers.reverse = some b ∧
      (∀ s, prev = some s → s ∈ start) ∧ FollowedAt a prev first ∧
      first + headers.length = k + 1 := by
  induction fuel generalizing b k with
  | zero => omega
  | succ fuel ih =>
    obtain ⟨header, hheader⟩ := (Db.mem_iff _ _).mp (hside.height.mp ⟨k, hk⟩)
    rw [headersUntil, getHeader, hheader, okOr_some, ok_bind]
    split
    case isTrue hmem =>
      exact ⟨[], some b, k + 1, rfl, trivial, rfl, fun s hs => Option.some.inj hs ▸ hmem,
        ⟨k, hk, rfl⟩, rfl⟩
    case isFalse =>
      have hhash := hside.hash_eq hheader
      have hparent := SideStored.sideParent_eq hheader
      cases k with
      | zero =>
        have hprev : header.prevSideHash = none :=
          hparent.symm.trans (hside.describes.rooted.root hk)
        have hrest : a.headersUntil start fuel none = .ok [] := by cases fuel <;> rfl
        rw [hprev, hrest]
        exact ⟨[header], none, 0, rfl, ⟨hprev, trivial⟩, congrArg some hhash,
          fun _ hsome => (by cases hsome), rfl, rfl⟩
      | succ k =>
        obtain ⟨p, hp, hheight⟩ := hside.describes.rooted.step hk
        have hprev : header.prevSideHash = some p := hparent.symm.trans hp
        obtain ⟨headers, prev, first, hheaders, hlinked, hlead, hstart, hfirst, hlength⟩ :=
          ih hheight (Nat.succ_lt_succ_iff.mp hfuel)
        rw [hprev, hheaders]
        refine ⟨header :: headers, prev, first, rfl, ?_, ?_, hstart, hfirst, ?_⟩
        · rw [List.reverse_cons]
          exact linked_concat hlinked (hprev.trans hlead.symm)
        · rw [List.reverse_cons, leadTo_concat, hhash]
        · rw [List.length_cons, ← Nat.add_assoc, hlength]

theorem sideParent_agrees (hcf : CollisionFree) (hside : SideStored a) (hside' : SideStored a')
    (hb : b ∈ a.headers) (hb' : b ∈ a'.headers) : a.sideParent b = a'.sideParent b := by
  obtain ⟨header, hheader⟩ := (Db.mem_iff _ _).mp hb
  obtain ⟨header', hheader'⟩ := (Db.mem_iff _ _).mp hb'
  obtain rfl := Header.hash_injective hcf
    ((hside.hash_eq hheader).trans (hside'.hash_eq hheader').symm)
  rw [SideStored.sideParent_eq hheader, SideStored.sideParent_eq hheader']

theorem height_agrees (hcf : CollisionFree) (hside : SideStored a) (hside' : SideStored a')
    {k k' : Nat} (hk : a.blockHashToHeight[b]? = some k)
    (hk' : a'.blockHashToHeight[b]? = some k') : k = k' := by
  induction k generalizing b k' with
  | zero =>
    have hparent := sideParent_agrees hcf hside hside' (hside.height.mp ⟨_, hk⟩)
      (hside'.height.mp ⟨_, hk'⟩)
    cases k' with
    | zero => rfl
    | succ k' =>
      obtain ⟨p, hp, -⟩ := hside'.describes.rooted.step hk'
      cases (hside.describes.rooted.root hk).symm.trans (hparent.trans hp)
  | succ k ih =>
    have hparent := sideParent_agrees hcf hside hside' (hside.height.mp ⟨_, hk⟩)
      (hside'.height.mp ⟨_, hk'⟩)
    obtain ⟨p, hp, hheight⟩ := hside.describes.rooted.step hk
    cases k' with
    | zero => cases (hside'.describes.rooted.root hk').symm.trans (hparent.symm.trans hp)
    | succ k' =>
      obtain ⟨p', hp', hheight'⟩ := hside'.describes.rooted.step hk'
      cases hp.symm.trans (hparent.trans hp')
      exact congrArg Nat.succ (ih hheight hheight')

theorem mem_of_getBlockLocator (hside : SideStored a) {start : List BlockHash}
    (h : a.getBlockLocator b = .ok start) {s : BlockHash} (hs : s ∈ start) : s ∈ a.headers := by
  obtain ⟨header, hheader, h⟩ := bind_eq_ok.mp h
  have hheader := okOr_eq_ok.mp hheader
  obtain ⟨ancestors, hancestors, h⟩ := bind_eq_ok.mp h
  cases h
  rcases List.mem_append.mp hs with hparent | hancestor
  · exact hside.parent_mem hheader (Option.mem_toList.mp hparent)
  · obtain ⟨k, hk⟩ := hside.height_of_mem (Db.mem_of_get hheader)
    obtain ⟨skips, hskips, hskip⟩ := hside.describes.skips hk
    cases hskips.symm.trans (okOr_eq_ok.mp hancestors)
    obtain ⟨i, hi⟩ := List.mem_iff_getElem?.mp hancestor
    rw [hskip i] at hi
    split at hi
    case isTrue => exact hside.height.mp ⟨_, (hside.describes.rooted.height_ancestor hk hi).2⟩
    case isFalse => nomatch hi

theorem FollowedAt.agrees (hcf : CollisionFree) (hside : SideStored a) (hside' : SideStored a')
    {first : Nat} (h : FollowedAt a' prev first) (hprev : ∀ s, prev = some s → s ∈ a.headers) :
    FollowedAt a prev first := by
  cases prev with
  | none => exact h
  | some s =>
    obtain ⟨k, hk, rfl⟩ := h
    obtain ⟨j, hj⟩ := hside.height_of_mem (hprev s rfl)
    obtain rfl := height_agrees hcf hside hside' hj hk
    exact ⟨j, hj, rfl⟩

theorem FollowedAt.wrappingEndHeight {first count height : Nat} (h : FollowedAt a prev first)
    (hcount : first + count = height + 1) (hheight : height < 2 ^ 32) :
    a.wrappingEndHeight prev count = .ok height := by
  cases prev with
  | none =>
    obtain rfl : first = 0 := h
    exact congrArg Except.ok (by omega)
  | some s =>
    obtain ⟨k, hk, rfl⟩ := h
    rw [Archive.wrappingEndHeight, getHeight, hk, okOr_some, ok_bind]
    exact congrArg Except.ok (by omega)

theorem FollowedAt.endHeight {first count height : Nat} (h : FollowedAt a prev first)
    (hcount : first + count = height + 1) (hheight : height < 2 ^ 32) (hne : count ≠ 2 ^ 32) :
    a.endHeight prev count = .ok height := by
  cases prev with
  | none =>
    obtain rfl : first = 0 := h
    rw [Archive.endHeight, ensure_of (by omega), ok_bind]
    exact congrArg Except.ok (by omega)
  | some s =>
    obtain ⟨k, hk, rfl⟩ := h
    rw [Archive.endHeight, getHeight, hk, okOr_some, ok_bind, ensure_of (by omega), ok_bind]
    exact congrArg Except.ok (by omega)

theorem startHash_of_linked (h : LinkedHeaders prev headers) (hne : headers ≠ []) :
    startHash headers = prev := by
  cases headers with
  | nil => exact absurd rfl hne
  | cons header headers => exact h.1

theorem Passes.handleHeaders {req : GetHeadersRequest} {height : Nat} {id : PeerStateId}
    (h : a.Passes req height headers) (hheight : req.height = some height)
    (hid : req.peerStateId = some id) (hlength : headers.length ≠ 2 ^ 32) :
    a.handleHeaders req headers = (do
      let a ← storeHeaders headers a
      .ok (a, .available)) := by
  rw [Archive.handleHeaders, hheight, hid]
  dsimp only
  rw [checkHeaders, if_neg (not_not.mpr h.endHash), h.startsAt, if_neg (by decide),
    h.checkedEndHeight hlength, ok_bind, storeChecked, if_neg (not_not.mpr rfl), h.sequential,
    if_neg (by decide)]

end Archive

/-- Between two archives that each form a forest, the answer to a request for the
headers of the peer's tip has at most as many headers as the lineage of the tip. Unless
one of them is invalidated, it passes every check, and the net task goes on to store
the headers. -/
theorem honest_headers_pass (hcf : CollisionFree) {m m' : Mainchain} {a peer : Archive}
    (ha : a.Consistent m) (hpeer : peer.Consistent m') {tipInfo : Option TipInfo}
    {peerTipInfo : TipInfo} {peerStateId : PeerStateId} {better : Option Bool}
    {req : GetHeadersRequest}
    (hreq : a.checkPeerTipAndRequestHeaders tipInfo peerTipInfo peerStateId =
      .ok (better, some req))
    (hheight : peer.blockHashToHeight[peerTipInfo.tip.blockHash]? =
      some peerTipInfo.blockHeight) :
    ∃ headers, peer.handleGetHeaders req.start req.endHash = .ok (.headers headers) ∧
      headers.length ≤ peerTipInfo.blockHeight + 1 ∧
      ((∀ header ∈ headers, header.hash ∉ a.invalidBlocks) →
        a.Passes req peerTipInfo.blockHeight headers ∧
        (headers.length ≠ 2 ^ 32 → a.handleHeaders req headers = do
          let a ← a.storeHeaders headers
          .ok (a, .available))) := by
  obtain ⟨hmissing, hend, hreqHeight, hid, hlocator⟩ := Archive.checkPeerTip_request hreq
  have hstart : ∀ s ∈ req.start, s ∈ a.headers := by
    intro s hs
    rcases hlocator with hnil | ⟨b, hb⟩
    · exact absurd (hnil ▸ hs) List.not_mem_nil
    · exact Archive.mem_of_getBlockLocator ha.side hb hs
  have hbound := hpeer.side.bound hheight
  have hfuel : peerTipInfo.blockHeight < peer.lineageLength peerTipInfo.tip.blockHash := by
    rw [Archive.lineageLength, hheight]
    exact Nat.lt_succ_self _
  obtain ⟨headers, prev, first, hheaders, hlinked, hlead, hprev, hfirst, hlength⟩ :=
    Archive.exists_headersUntil hpeer.side req.start hheight hfuel
  -- the tip is not a start block, so it is among the headers
  have hne : headers.reverse ≠ [] := by
    intro hnil
    rw [hnil] at hlead
    exact hmissing (hstart _ (hprev _ hlead))
  have hanswer : peer.handleGetHeaders req.start req.endHash = .ok (.headers headers.reverse) := by
    rw [Archive.handleGetHeaders, hend, if_pos (hpeer.side.height.mp ⟨_, hheight⟩), hheaders,
      ok_bind]
  rw [← List.length_reverse] at hlength
  refine ⟨headers.reverse, hanswer, by omega, fun hvalid => ?_⟩
  have hfirst := hfirst.agrees hcf ha.side hpeer.side fun s hs => hstart s (hprev s hs)
  have hstartHash := Archive.startHash_of_linked hlinked hne
  have hpasses : a.Passes req peerTipInfo.blockHeight headers.reverse := by
    refine ⟨?_, ?_, ?_, fun hcount => ?_, ?_⟩
    · rw [hend]
      exact Archive.getLast_of_leadTo hlead hne
    · rw [GetHeadersRequest.startsAt, hstartHash]
      cases prev with
      | none => rfl
      | some s => exact decide_eq_true (hprev s rfl)
    · rw [hstartHash]
      exact hfirst.wrappingEndHeight hlength hbound
    · rw [hstartHash]
      exact hfirst.endHeight hlength hbound hcount
    · rw [hstartHash]
      exact Archive.sequential_of_linked hlinked hvalid
  exact ⟨hpasses, hpasses.handleHeaders hreqHeight hid⟩

end

namespace Instance

/-- A node that has another block than the line after the first one. -/
def behindOps : List NodeOp :=
  [connectMain lineMain 1, connectMain lineMain 2, connectMain lineMain 3] ++
    storeEmpty headerG ++ storeEmpty headerC1

def behindNode : Node := Node.new.run behindOps

theorem behindNode_reaches : behindNode.Reaches lineMain (Node.Guarded .noTips) := by
  have hreported : ∀ op ∈ behindOps, op.Reported lineMain := by decide +kernel
  refine .run .new hreported (Node.permits_of ?_ _)
  simp [behindOps, storeEmpty, connectMain, Node.Guarded, Guard.Allows, Guard.noTips, Guard.any]

def tipInfoC1 : TipInfo := ⟨⟨headerC1.hash, 3⟩, 1, 3⟩

def behindRequest : GetHeadersRequest := ⟨[headerG.hash], headerB1.hash, some 1, some zeroHash⟩

theorem honest_headers_pass_line :
    behindNode.archive.checkPeerTipAndRequestHeaders (some tipInfoC1) tipInfoB1 zeroHash =
        .ok (some false, some behindRequest) ∧
      lineNode.archive.handleGetHeaders [headerG.hash] headerB1.hash = .ok (.headers [headerB1]) ∧
      behindNode.archive.Passes behindRequest 1 [headerB1] := by
  have hreq : behindNode.archive.checkPeerTipAndRequestHeaders (some tipInfoC1) tipInfoB1
      zeroHash = .ok (some false, some behindRequest) := by
    decide +kernel
  have hanswer : lineNode.archive.handleGetHeaders behindRequest.start behindRequest.endHash =
      .ok (.headers [headerB1]) := by
    decide +kernel
  have hbehind := behindNode_reaches.stored collisionFree
  have hline := lineNode_reaches.stored collisionFree
  obtain ⟨headers, hheaders, -, hpasses⟩ := honest_headers_pass collisionFree
    ⟨hbehind.side, hbehind.main⟩ ⟨hline.side, hline.main⟩ hreq (by decide +kernel)
  cases hanswer.symm.trans hheaders
  exact ⟨hreq, hanswer, (hpasses (by decide +kernel)).1⟩

end Instance

end PlainBitnames
