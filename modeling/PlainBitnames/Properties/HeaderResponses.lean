import PlainBitnames.Node.Responses
import PlainBitnames.Properties.Templates

/-!
When the net task gets through a response with headers. The checks of the response
say nothing about the mainchain blocks that its headers build on, and storing a
header fails if that block is not known.
-/

namespace PlainBitnames

open Fallible Lineage

section

variable [Primitives]

/-- The end and the start of a response are as requested. -/
def GetHeadersRequest.Answered (req : GetHeadersRequest) (headers : List Header) : Prop :=
  req.peerStateId ≠ none ∧ headers.getLast?.map Header.hash = some req.endHash ∧
    req.startsAt headers = true

/-- A response that can be handled: the block before the first header is still stored,
its height and the number of headers can be added up, and if the response passes the
other checks, its new headers build on mainchain blocks that are known. -/
structure Archive.Manageable (a : Archive) (height : Nat) (headers : List Header) : Prop where
  start : ∀ s, startHash headers = some s → s ∈ a.headers
  add : ∀ s k, startHash headers = some s → a.blockHashToHeight[s]? = some k →
    k + headers.length % 2 ^ 32 < 2 ^ 32
  subtract : startHash headers = none → headers.length % 2 ^ 32 ≠ 0
  store : a.endHeight (startHash headers) headers.length = .ok height →
    a.sequential (startHash headers) headers = true →
    headers.length < 2 ^ 32 ∧ ∀ header ∈ headers, header.hash ∉ a.headers → a.KnownMain header

namespace Archive

variable {m : Mainchain} {guard : Guard} {a a' : Archive} {headers : List Header}

/-- Every header builds on the one before it. -/
def LinkedHeaders : Option BlockHash → List Header → Prop
  | _, [] => True
  | prev, header :: headers =>
    header.prevSideHash = prev ∧ LinkedHeaders (some header.hash) headers

variable {prev : Option BlockHash}

theorem linked_of_sequential (h : a.sequential prev headers = true) :
    LinkedHeaders prev headers := by
  induction headers generalizing prev with
  | nil => trivial
  | cons header headers ih =>
    rw [sequential, Bool.and_eq_true, Bool.and_eq_true] at h
    exact ⟨of_decide_eq_true h.1.1, ih h.2⟩

variable {height : Nat}

theorem FollowedAt.putHeader (h : FollowedAt a prev height) {header : Header}
    (hprev : header.prevSideHash = prev) (hput : a.putHeader header = .ok a') :
    FollowedAt a' (some header.hash) (height + 1) := by
  obtain ⟨k, _, _, _, hk, -, -, -, rfl⟩ := putHeader_ok hput
  obtain ⟨rfl, -⟩ := (h.newHeight hprev).mp hk
  exact ⟨k, Db.get_insert_self _ _ _, rfl⟩

theorem FollowedAt.le (hside : SideStored a) (h : FollowedAt a prev height) : height ≤ 2 ^ 32 := by
  cases prev with
  | none =>
    obtain rfl : height = 0 := h
    exact Nat.zero_le _
  | some p =>
    obtain ⟨k, hk, rfl⟩ := h
    exact hside.bound hk

theorem storeHeaders_calls (h : storeHeaders headers a = .ok a') : Calls m .any a a' := by
  induction headers generalizing a with
  | nil => exact Except.ok.inj h ▸ .refl
  | cons header headers ih =>
    unfold storeHeaders at h
    split at h
    case isTrue => exact ih h
    case isFalse =>
      split at h
      case isTrue => exact Except.ok.inj h ▸ .refl
      case isFalse =>
        obtain ⟨next, hput, h⟩ := bind_eq_ok.mp h
        exact .head (.header (.inr trivial) hput) (ih h)

/-- Headers that follow a stored block are stored exactly when their heights fit and
each new one builds on a known mainchain block. -/
theorem storeHeaders_isOk (hcf : CollisionFree) (hstored : Stored m a) (hcomplete : Complete a)
    (hprev : FollowedAt a prev height) (hlinked : LinkedHeaders prev headers) :
    (∃ a', storeHeaders headers a = .ok a') ↔ height + headers.length ≤ 2 ^ 32 ∧
      ∀ header ∈ headers, header.hash ∉ a.headers → a.KnownMain header := by
  induction headers generalizing a prev height with
  | nil =>
    exact ⟨fun _ => ⟨hprev.le hstored.side, fun _ h => (List.not_mem_nil h).elim⟩,
      fun _ => ⟨a, rfl⟩⟩
  | cons header headers ih =>
    obtain ⟨hlink, hlinked⟩ := hlinked
    rw [List.forall_mem_cons, List.length_cons]
    unfold storeHeaders
    by_cases hmem : header.hash ∈ a.headers
    · rw [if_pos hmem, ih hstored hcomplete (hprev.of_mem hcf hstored.side hlink hmem) hlinked]
      exact and_congr (by omega) (and_iff_right fun hnot => absurd hmem hnot).symm
    · rw [if_neg hmem, hprev.parentMissing hstored.side hlink, if_neg Bool.false_ne_true]
      have hput : (∃ next, a.putHeader header = .ok next) ↔
          height < 2 ^ 32 ∧ a.KnownMain header := by
        rw [hstored.exists_putHeader hcf hcomplete]
        exact and_congr_left fun _ => ⟨fun ⟨_, hk⟩ => ((hprev.newHeight hlink).mp hk).2,
          fun hlt => ⟨height, (hprev.newHeight hlink).mpr ⟨rfl, hlt⟩⟩⟩
      -- what the headers after this one need, in the archive with this one
      have hrest : ∀ {next}, a.putHeader header = .ok next →
          ((∃ a', storeHeaders headers next = .ok a') ↔ height + 1 + headers.length ≤ 2 ^ 32 ∧
            ∀ later ∈ headers, later.hash ∉ next.headers → next.KnownMain later) := fun hnext =>
        have hcall : Call m .any a _ := .header (.inr trivial) hnext
        ih (hstored.call hcf hcall) (hcomplete.call hstored hcall) (hprev.putHeader hlink hnext)
          hlinked
      constructor
      · rintro ⟨a', h⟩
        obtain ⟨next, hnext, h⟩ := bind_eq_ok.mp h
        have hknown := (hput.mp ⟨next, hnext⟩).2
        obtain ⟨hle, hall⟩ := (hrest hnext).mp ⟨a', h⟩
        refine ⟨by omega, fun _ => hknown, fun later hlater hnot => ?_⟩
        obtain ⟨_, _, _, _, -, -, -, -, rfl⟩ := putHeader_ok hnext
        by_cases heq : header.hash = later.hash
        · exact Header.hash_injective hcf heq ▸ hknown
        · exact hall later hlater fun hin =>
            hnot (((Db.mem_insert _ _ _ _).mp hin).resolve_left heq)
      · rintro ⟨hle, hknown, hall⟩
        obtain ⟨next, hnext⟩ := hput.mpr ⟨by omega, hknown hmem⟩
        have hlater : ∀ later ∈ headers, later.hash ∉ next.headers → next.KnownMain later := by
          intro later hlater hnot
          obtain ⟨_, _, _, _, -, -, -, -, rfl⟩ := putHeader_ok hnext
          exact hall later hlater fun hin => hnot ((Db.mem_insert _ _ _ _).mpr (.inr hin))
        obtain ⟨a', h⟩ := (hrest hnext).mpr ⟨by omega, hlater⟩
        exact ⟨a', bind_eq_ok.mpr ⟨next, hnext, h⟩⟩

theorem endHeight_isOk (hside : SideStored a) {start : Option BlockHash} {count : Nat} :
    (∃ height, a.endHeight start count = .ok height) ↔ (∀ s, start = some s → s ∈ a.headers) ∧
      (∀ s k, start = some s → a.blockHashToHeight[s]? = some k → k + count % 2 ^ 32 < 2 ^ 32) ∧
      (start = none → count % 2 ^ 32 ≠ 0) := by
  unfold endHeight
  cases start with
  | none =>
    simp only [ensure_bind_eq_ok]
    constructor
    · rintro ⟨_, h, -⟩
      exact ⟨fun _ hs => (by cases hs), fun _ _ hs => (by cases hs), fun _ => h⟩
    · exact fun h => ⟨_, h.2.2 trivial, rfl⟩
  | some s =>
    simp only [bind_eq_ok, getHeight, okOr_eq_ok, ensure_eq_ok]
    constructor
    · rintro ⟨_, k, hk, -, hlt, -⟩
      refine ⟨fun t ht => ?_, fun t j ht hj => ?_,
        fun hnone => by cases hnone⟩
      · cases ht
        exact hside.height.mp ⟨k, hk⟩
      · cases ht
        cases hk.symm.trans hj
        exact hlt
    · rintro ⟨hmem, hlt, -⟩
      obtain ⟨k, hk⟩ := hside.height_of_mem (hmem s rfl)
      exact ⟨_, k, hk, (), hlt s k rfl hk, rfl⟩

/-- Headers after a start block that is stored are at the heights after its own. -/
theorem exists_followedAt {start : Option BlockHash} {count : Nat}
    (h : a.endHeight start count = .ok height) :
    ∃ first, FollowedAt a start first ∧ (first + count ≤ 2 ^ 32 ↔ count < 2 ^ 32) := by
  unfold endHeight at h
  cases start with
  | none =>
    obtain ⟨hne, -⟩ := ensure_bind_eq_ok.mp h
    exact ⟨0, rfl, by omega⟩
  | some s =>
    obtain ⟨k, hk, h⟩ := bind_eq_ok.mp h
    obtain ⟨hlt, -⟩ := ensure_bind_eq_ok.mp h
    exact ⟨k + 1, ⟨k, okOr_eq_ok.mp hk, rfl⟩, by omega⟩

theorem storeChecked_calls {endHeight : Nat} {outcome : HeadersOutcome}
    (h : a.storeChecked height endHeight headers = .ok (a', outcome)) : Calls m .any a a' := by
  unfold storeChecked at h
  split at h
  case isTrue => exact (Prod.mk.inj (Except.ok.inj h)).1 ▸ .refl
  case isFalse =>
  split at h
  case isTrue => exact (Prod.mk.inj (Except.ok.inj h)).1 ▸ .refl
  case isFalse =>
    obtain ⟨stored, hstore, h⟩ := bind_eq_ok.mp h
    exact (Prod.mk.inj (Except.ok.inj h)).1 ▸ storeHeaders_calls hstore

theorem checkHeaders_calls {req : GetHeadersRequest} {outcome : HeadersOutcome}
    (h : a.checkHeaders req height headers = .ok (a', outcome)) : Calls m .any a a' := by
  unfold checkHeaders at h
  split at h
  case isTrue => exact (Prod.mk.inj (Except.ok.inj h)).1 ▸ .refl
  case isFalse =>
  split at h
  case isTrue => exact (Prod.mk.inj (Except.ok.inj h)).1 ▸ .refl
  case isFalse =>
    obtain ⟨endHeight, -, h⟩ := bind_eq_ok.mp h
    exact storeChecked_calls h

/-- What the response must satisfy once the height of its end is computed. -/
theorem storeChecked_isOk (hcf : CollisionFree) (hstored : Stored m a) (hcomplete : Complete a)
    {endHeight : Nat} (hend : a.endHeight (startHash headers) headers.length = .ok endHeight) :
    (∃ result, a.storeChecked height endHeight headers = .ok result) ↔
      (endHeight = height → a.sequential (startHash headers) headers = true →
        headers.length < 2 ^ 32 ∧
          ∀ header ∈ headers, header.hash ∉ a.headers → a.KnownMain header) := by
  unfold storeChecked
  by_cases hheight : endHeight = height
  · rw [if_neg (not_not.mpr hheight)]
    cases hseq : a.sequential (startHash headers) headers with
    | false => exact ⟨fun _ _ => nofun, fun _ => ⟨_, rfl⟩⟩
    | true =>
      obtain ⟨first, hfirst, hcount⟩ := exists_followedAt hend
      rw [← hcount, ← storeHeaders_isOk hcf hstored hcomplete hfirst (linked_of_sequential hseq)]
      constructor
      · rintro ⟨result, h⟩ - -
        obtain ⟨stored, hstore, -⟩ := bind_eq_ok.mp h
        exact ⟨stored, hstore⟩
      · intro h
        obtain ⟨stored, hstore⟩ := h hheight rfl
        exact ⟨_, bind_eq_ok.mpr ⟨stored, hstore, rfl⟩⟩
  · rw [if_pos hheight]
    exact ⟨fun _ heq => absurd heq hheight, fun _ => ⟨_, rfl⟩⟩

theorem checkHeaders_isOk (hcf : CollisionFree) (hstored : Stored m a) (hcomplete : Complete a)
    {req : GetHeadersRequest} :
    (∃ result, a.checkHeaders req height headers = .ok result) ↔
      (headers.getLast?.map Header.hash = some req.endHash → req.startsAt headers = true →
        a.Manageable height headers) := by
  unfold checkHeaders
  by_cases hlast : headers.getLast?.map Header.hash = some req.endHash
  · rw [if_neg (not_not.mpr hlast)]
    cases hstart : req.startsAt headers with
    | false => exact ⟨fun _ _ => nofun, fun _ => ⟨_, rfl⟩⟩
    | true =>
      constructor
      · rintro ⟨result, h⟩ - -
        obtain ⟨endHeight, hend, h⟩ := bind_eq_ok.mp h
        obtain ⟨hmem, hadd, hsubtract⟩ := (endHeight_isOk hstored.side).mp ⟨endHeight, hend⟩
        have hstore := (storeChecked_isOk hcf hstored hcomplete hend).mp ⟨result, h⟩
        exact ⟨hmem, hadd, hsubtract, fun heq => hstore (Except.ok.inj (hend.symm.trans heq))⟩
      · intro h
        have h := h hlast rfl
        obtain ⟨endHeight, hend⟩ := (endHeight_isOk hstored.side).mpr ⟨h.start, h.add, h.subtract⟩
        obtain ⟨result, hresult⟩ := (storeChecked_isOk hcf hstored hcomplete hend).mpr
          fun heq => h.store (hend.trans (congrArg Except.ok heq))
        exact ⟨result, bind_eq_ok.mpr ⟨endHeight, hend, hresult⟩⟩
  · rw [if_pos hlast]
    exact ⟨fun _ hlast' => absurd hlast' hlast, fun _ => ⟨_, rfl⟩⟩

end Archive

/-- A response with headers is handled, and leaves a right archive, exactly when it
can be handled if it answers the request. -/
theorem handleHeaders_isOk (hcf : CollisionFree) {m : Mainchain} {guard : Guard} {a : Archive}
    (hcalls : Archive.Calls m guard .new a) (req : GetHeadersRequest) (headers : List Header) :
    (∃ a' outcome, a.handleHeaders req headers = .ok (a', outcome) ∧ Archive.Stored m a') ↔
      ∀ height, req.height = some height → req.Answered headers → a.Manageable height headers := by
  have hstored := ((Archive.Stored.new m).calls hcf hcalls).1
  have hcomplete := Archive.Complete.new.calls hcf (.new m) hcalls
  have hany : ∀ height, (∃ a' outcome, a.checkHeaders req height headers = .ok (a', outcome) ∧
      Archive.Stored m a') ↔ ∃ result, a.checkHeaders req height headers = .ok result :=
    fun height => ⟨fun ⟨a', outcome, h, _⟩ => ⟨_, h⟩, fun ⟨(a', outcome), h⟩ =>
      ⟨a', outcome, h, (hstored.calls hcf (Archive.checkHeaders_calls h)).1⟩⟩
  unfold Archive.handleHeaders
  cases hheight : req.height with
  | none => exact ⟨fun _ _ => nofun, fun _ => ⟨a, .removedPeer, rfl, hstored⟩⟩
  | some height =>
    cases hid : req.peerStateId with
    | none =>
      exact ⟨fun _ _ _ hanswered => absurd hid hanswered.1,
        fun _ => ⟨a, .removedPeer, rfl, hstored⟩⟩
    | some id =>
      dsimp only
      rw [hany, Archive.checkHeaders_isOk hcf hstored hcomplete]
      constructor
      · rintro h _ ⟨⟩ ⟨-, hlast, hstart⟩
        exact h hlast hstart
      · exact fun h hlast hstart => h height rfl ⟨by simp [hid], hlast, hstart⟩

end

namespace Instance

/-- A request for the headers after the two blocks of the line. -/
def lineRequest (header : Header) : GetHeadersRequest :=
  ⟨[headerB1.hash], header.hash, some 2, some zeroHash⟩

/-- A header that builds on a mainchain block that nobody has. -/
def strayHeader : Header := minedHeader (some headerB1) 77

/-- A response with one header that builds on an unknown mainchain block is not
rejected, but stops the net task. -/
theorem stray_header_stops :
    lineNode.Reaches lineMain (Node.Guarded .noTips) ∧
      lineNode.archive.handleHeaders (lineRequest strayHeader) [strayHeader] =
        .error (.error (.noMainBlockHash 77)) :=
  ⟨lineNode_reaches, by decide +kernel⟩

theorem handleHeaders_isOk_line :
    ∃ a' outcome, lineNode.archive.handleHeaders (lineRequest (minedHeader (some headerB1) 3))
      [minedHeader (some headerB1) 3] = .ok (a', outcome) ∧ Archive.Stored lineMain a' := by
  refine (handleHeaders_isOk collisionFree (lineNode_reaches.calls collisionFree) _ _).mpr ?_
  rintro height ⟨⟩ -
  refine ⟨?_, ?_, ?_, ?_⟩
  · rintro s ⟨⟩
    decide +kernel
  · rintro s k ⟨⟩ hk
    have hheight : lineNode.archive.blockHashToHeight[headerB1.hash]? = some 1 := by decide +kernel
    cases hheight.symm.trans hk
    decide
  · exact nofun
  · intro _ _
    exact ⟨by decide, by decide +kernel⟩

end Instance

end PlainBitnames
