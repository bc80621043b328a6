import PlainBitnames.Archive.Calls

/-!
When a header can be stored. The calls of a node store the info of a mainchain
block together with its header, so a header is stored whenever its parent is, its
height fits, and the mainchain block that it builds on is known.
-/

namespace PlainBitnames

open Fallible Lineage

variable [Primitives]

namespace Archive

/-- The mainchain blocks of an archive are complete: every header has its info, and
only the zero hash and stored headers have successors. -/
structure Complete (a : Archive) : Prop where
  info : ∀ {x : MainBlockHash}, x ∈ a.mainHeaderInfos → x ∈ a.mainBlockInfos
  known : ∀ {x : MainBlockHash}, x ∈ a.mainSuccessors → x = .allZeros ∨ x ∈ a.mainHeaderInfos

variable {m : Mainchain} {guard : Guard} {a a' : Archive}

theorem Complete.new : Complete .new where
  info h := absurd h (Db.not_mem_empty _)
  known h := by
    rcases (Db.mem_insert _ _ _ _).mp h with rfl | h
    · exact .inl rfl
    · exact absurd h (Db.not_mem_empty _)

theorem Complete.putAncestorInfo (h : Complete a) {headerInfo : BlockHeaderInfo}
    {blockInfo : MainBlockInfo} (hput : a.putAncestorInfo headerInfo blockInfo = .ok a') :
    Complete a' := by
  obtain ⟨a₁, hheader, hinfo⟩ := bind_eq_ok.mp hput
  obtain ⟨hprev, _, _, _, _, -, -, -, -, rfl⟩ := putMainHeaderInfo_ok hheader
  have hcomplete : ∀ x : MainBlockHash, x ∈ a.mainHeaderInfos.insert headerInfo.blockHash headerInfo →
      x ∈ a.mainBlockInfos.insert headerInfo.blockHash blockInfo := by
    intro x hx
    rw [Db.mem_insert] at hx ⊢
    exact hx.imp_right h.info
  have hknown : ∀ x : MainBlockHash, x = headerInfo.blockHash ∨ x = headerInfo.prevBlockHash ∨
      x ∈ a.mainSuccessors → x = .allZeros ∨
        x ∈ a.mainHeaderInfos.insert headerInfo.blockHash headerInfo := by
    intro x hx
    rw [Db.mem_insert]
    rcases hx with rfl | rfl | hx
    · exact .inr (.inl rfl)
    · exact hprev.elim (fun hmem => .inr (.inr hmem)) .inl
    · exact (h.known hx).imp_right .inr
  have hsuccessors : ∀ {x : MainBlockHash} {s t : Db MainBlockHash Unit},
      x ∈ (a.mainSuccessors.insert headerInfo.prevBlockHash s).insert headerInfo.blockHash t →
      x = headerInfo.blockHash ∨ x = headerInfo.prevBlockHash ∨ x ∈ a.mainSuccessors := by
    intro x s t hx
    rw [Db.mem_insert, Db.mem_insert] at hx
    exact hx.imp Eq.symm (Or.imp_left Eq.symm)
  obtain ⟨_, -, -, ⟨rfl, -⟩ | ⟨_, _, _, -, -, -, rfl⟩⟩ := putMainBlockInfo_ok hinfo <;>
    exact ⟨fun {x} hx => hcomplete x hx, fun {x} hx => hknown x (hsuccessors hx)⟩

theorem Complete.call (hstored : Stored m a) (h : Complete a) (hcall : Call m guard a a') :
    Complete a' := by
  cases hcall with
  | header _ hput =>
    obtain ⟨_, _, _, _, -, -, -, -, rfl⟩ := putHeader_ok hput
    exact ⟨h.info, h.known⟩
  | body hput =>
    obtain ⟨_, rfl, -⟩ := putBody_tips hput
    exact ⟨h.info, h.known⟩
  | deleteBody hdelete =>
    obtain ⟨_, rfl, -⟩ := deleteBody_tips hdelete
    exact ⟨h.info, h.known⟩
  | ancestorInfo _ hput => exact h.putAncestorInfo hput
  | connectMainchainTip _ _ hconnect =>
    obtain ⟨_, -, hconnect⟩ := bind_eq_ok.mp hconnect
    obtain ⟨_, -, hconnect⟩ := bind_eq_ok.mp hconnect
    cases hconnect
    exact ⟨h.info, h.known⟩
  | disconnectBlock _ hdisconnect =>
    obtain ⟨_, -, hdisconnect⟩ := bind_eq_ok.mp hdisconnect
    obtain ⟨_, -, hdisconnect⟩ := bind_eq_ok.mp hdisconnect
    obtain ⟨_, -, hdisconnect⟩ := bind_eq_ok.mp hdisconnect
    obtain ⟨_, -, hdisconnect⟩ := bind_eq_ok.mp hdisconnect
    cases hdisconnect
    exact ⟨h.info, h.known⟩
  | invalidateBlock hb =>
    obtain ⟨_, hgone⟩ := exists_invalidating hstored.side hb
    rw [hgone.pruned.rest]
    exact ⟨h.info, h.known⟩

theorem Complete.calls (hcf : CollisionFree) (hstored : Stored m a) (h : Complete a)
    (hcalls : Calls m guard a a') : Complete a' := by
  induction hcalls with
  | refl => exact h
  | tail hcalls hcall ih => exact ih.call (hstored.calls hcf hcalls).1 hcall

/-- The mainchain block that a header builds on is known. -/
def KnownMain (a : Archive) (header : Header) : Prop :=
  header.prevMainHash = .allZeros ∨ header.prevMainHash ∈ a.mainHeaderInfos

instance (a : Archive) (header : Header) : Decidable (a.KnownMain header) :=
  inferInstanceAs (Decidable (_ ∨ _))

/-- The result of a header at a mainchain block that is stored with its info. -/
theorem exists_headerBmmResult (h : MainStored m a)
    (hresults : ∀ p earlier, a.Verified p earlier → earlier ∈ a.mainHeaderInfos) (header : Header)
    {mainHash : MainBlockHash} (hmem : mainHash ∈ a.mainHeaderInfos)
    (hinfo : mainHash ∈ a.mainBlockInfos) :
    ∃ result, a.headerBmmResult header mainHash = .ok result := by
  obtain ⟨headerInfo, hheaderInfo⟩ := (Db.mem_iff _ _).mp hmem
  obtain ⟨info, hinfo⟩ := (Db.mem_iff _ _).mp hinfo
  obtain ⟨verified, hverified, -⟩ := parentVerified_eq_ok h hmem header.prevSideHash
    hresults
  unfold headerBmmResult getMainBlockInfo getMainHeaderInfo
  rw [hinfo, hheaderInfo, okOr_some, okOr_some, ok_bind, ok_bind, hverified, ok_bind]
  split
  case isTrue => exact ⟨_, rfl⟩
  case isFalse => split <;> exact ⟨_, rfl⟩

theorem exists_headerBmmResults (h : MainStored m a) (hcomplete : Complete a)
    (hresults : ∀ p earlier, a.Verified p earlier → earlier ∈ a.mainHeaderInfos) {header : Header}
    (hknown : a.KnownMain header) : ∃ results, a.headerBmmResults header = .ok results := by
  obtain ⟨blocks, hblocks⟩ := h.known hknown
  have hstep : ∀ entry ∈ blocks.toList, ∀ results : Db MainBlockHash BmmResult, ∃ results',
      (do
        let result ← a.headerBmmResult header entry.1
        .ok (results.insert entry.1 result) : ArchiveResult _) = .ok results' := by
    intro entry hentry results
    have hmem := (h.successors hblocks entry.1).mp
      (Db.mem_of_get (Db.mem_toList.mp hentry))
    obtain ⟨result, hresult⟩ := exists_headerBmmResult h hresults header hmem.1
      (hcomplete.info hmem.1)
    exact ⟨_, bind_eq_ok.mpr ⟨result, hresult, rfl⟩⟩
  obtain ⟨results, hresults⟩ := exists_foldlM hstep (a.getBmmResults header.hash)
  exact ⟨results, bind_eq_ok.mpr ⟨blocks, okOr_eq_ok.mpr hblocks, hresults⟩⟩

/-- The skips of a new header are found. -/
theorem SideStored.exists_newSkips (hcf : CollisionFree) (h : SideStored a) {header : Header}
    {height : Nat} (hheight : a.newHeight header = .ok height) (predSuccessors : Db BlockHash Unit) :
    ∃ skips, (a.withHeader header height predSuccessors).sideIndex.newSkips
      (okOr header.prevSideHash (.panic "called `Option::unwrap()` on a `None` value")) height =
        .ok skips := by
  obtain ⟨skips, hskips, -⟩ := (h.extends_withHeader hcf hheight).exists_newSkips h.describes
    (newHeight_eq_ok hheight)
    (p := okOr header.prevSideHash (.panic "called `Option::unwrap()` on a `None` value"))
    fun p hp => by rw [hp]; rfl
  exact ⟨skips, hskips⟩

/-- A header can be stored exactly when it has a height and the mainchain block that
it builds on is known. -/
theorem Stored.exists_putHeader (hcf : CollisionFree) (h : Stored m a) (hcomplete : Complete a)
    {header : Header} : (∃ a', a.putHeader header = .ok a') ↔
      (∃ height, a.newHeight header = .ok height) ∧ a.KnownMain header := by
  constructor
  · rintro ⟨a', hput⟩
    obtain ⟨height, _, _, _, hheight, -, -, hresults, -⟩ := putHeader_ok hput
    obtain ⟨blocks, hblocks, -⟩ := bind_eq_ok.mp hresults
    exact ⟨⟨height, hheight⟩, hcomplete.known (Db.mem_of_get (okOr_eq_ok.mp hblocks))⟩
  · rintro ⟨⟨height, hheight⟩, hknown⟩
    have hpred : ∃ pred, a.successors[header.prevSideHash]? = some pred := by
      rcases newHeight_eq_ok hheight with ⟨hnone, -⟩ | ⟨p, k, hsome, hk, -⟩
      · rw [hnone]
        exact h.side.roots
      · rw [hsome]
        exact h.side.known (h.side.height.mp ⟨k, hk⟩)
    obtain ⟨pred, hpred⟩ := hpred
    obtain ⟨skips, hskips⟩ := h.side.exists_newSkips hcf hheight pred
    obtain ⟨results, hresults⟩ := exists_headerBmmResults (m := m)
      (a := { a.withHeader header height pred with
        exponentialAncestors := a.exponentialAncestors.insert header.hash skips })
      { h.main with describes := h.main.describes } ⟨hcomplete.info, hcomplete.known⟩
      (h.bmm.main_mem h.main) hknown
    refine ⟨_, bind_eq_ok.mpr ⟨height, hheight, bind_eq_ok.mpr ⟨_, bind_eq_ok.mpr ⟨pred,
      okOr_eq_ok.mpr hpred, rfl⟩, bind_eq_ok.mpr ⟨skips, hskips, bind_eq_ok.mpr
        ⟨results, hresults, rfl⟩⟩⟩⟩⟩

end Archive

end PlainBitnames
