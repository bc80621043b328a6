import PlainBitnames.Archive.TipSet

/-!
What the calls on an archive leave alone. Headers stay when more is stored, so the
chain up to a stored block stays the same, and mainchain events change neither headers
nor bodies.
-/

namespace PlainBitnames

open Fallible Lineage

variable [Primitives]

namespace Archive

variable {a a' : Archive}

theorem sideParent_congr (h : ∀ b : BlockHash, a'.headers[b]? = a.headers[b]?) :
    a'.sideParent = a.sideParent :=
  funext fun b => by rw [sideParent, sideParent, h b]

/-- Every header stays stored. -/
def KeepsHeaders (a a' : Archive) : Prop :=
  ∀ ⦃b : BlockHash⦄ ⦃header : Header⦄, a.headers[b]? = some header → a'.headers[b]? = some header

theorem KeepsHeaders.refl (a : Archive) : KeepsHeaders a a := fun _ _ h => h

theorem KeepsHeaders.mem (h : KeepsHeaders a a') {b : BlockHash} (hb : b ∈ a.headers) :
    b ∈ a'.headers := by
  obtain ⟨header, hheader⟩ := (Db.mem_iff _ _).mp hb
  exact Db.mem_of_get (h hheader)

theorem KeepsHeaders.upTo_iff (hside : SideStored a) (h : KeepsHeaders a a')
    {tip : Option BlockHash} (htip : ∀ b, tip = some b → b ∈ a.headers) (b : BlockHash) :
    UpTo a'.sideParent tip b ↔ UpTo a.sideParent tip b := by
  cases tip with
  | none => exact iff_of_false (not_upTo_none b) (not_upTo_none b)
  | some t =>
    obtain ⟨k, hk⟩ := hside.height_of_mem (htip t rfl)
    have hparent : ∀ x j, a.sideIndex.height x = some j → a'.sideParent x = a.sideParent x := by
      intro x j hx
      obtain ⟨header, hheader⟩ := (Db.mem_iff _ _).mp (hside.height.mp ⟨j, hx⟩)
      rw [SideStored.sideParent_eq hheader, SideStored.sideParent_eq (h hheader)]
    rw [upTo_some, upTo_some]
    exact exists_congr fun n => by rw [hside.describes.rooted.ancestor_congr hparent hk]

theorem putHeader_keeps (hcf : CollisionFree) (hside : SideStored a) {header : Header}
    (h : a.putHeader header = .ok a') : KeepsHeaders a a' ∧ a'.bodies = a.bodies := by
  have hop : a.op (.header header) = .ok a' := h
  exact ⟨fun _ _ hget => hside.header_op hcf hop hget, (op_frame hop).2⟩

theorem putAncestorInfo_rest {headerInfo : BlockHeaderInfo} {blockInfo : MainBlockInfo}
    (h : a.putAncestorInfo headerInfo blockInfo = .ok a') :
    a'.headers = a.headers ∧ a'.bodies = a.bodies := by
  obtain ⟨_, hheader, hinfo⟩ := bind_eq_ok.mp h
  obtain ⟨-, _, _, _, _, -, -, -, -, rfl⟩ := putMainHeaderInfo_ok hheader
  obtain ⟨_, -, -, ⟨rfl, -⟩ | ⟨_, _, _, -, -, -, rfl⟩⟩ := putMainBlockInfo_ok hinfo <;>
    exact ⟨rfl, rfl⟩

theorem connectMainchainTip_rest {info : BlockHeaderInfo} {commitment : Option BlockHash}
    (h : a.connectMainchainTip info commitment = .ok a') :
    a'.headers = a.headers ∧ a'.bodies = a.bodies := by
  obtain ⟨_, -, h⟩ := bind_eq_ok.mp h
  obtain ⟨_, -, h⟩ := bind_eq_ok.mp h
  cases h
  exact ⟨rfl, rfl⟩

theorem handleBlockEvent_rest {event : MainchainEvent} (h : a.handleBlockEvent event = .ok a') :
    a'.headers = a.headers ∧ a'.bodies = a.bodies := by
  cases event with
  | connectBlock headerInfo blockInfo =>
    obtain ⟨stored, hput, hconnect⟩ := connectBlock_ok h
    obtain ⟨hheaders, hbodies⟩ := putAncestorInfo_rest hput
    obtain ⟨hheaders', hbodies'⟩ := connectMainchainTip_rest hconnect
    exact ⟨hheaders'.trans hheaders, hbodies'.trans hbodies⟩
  | disconnectBlock hash =>
    obtain ⟨_, -, h⟩ := bind_eq_ok.mp h
    obtain ⟨_, -, h⟩ := bind_eq_ok.mp h
    obtain ⟨_, -, h⟩ := bind_eq_ok.mp h
    obtain ⟨_, -, h⟩ := bind_eq_ok.mp h
    cases h
    exact ⟨rfl, rfl⟩

theorem KeepsHeaders.of_eq (h : a'.headers = a.headers) : KeepsHeaders a a' :=
  fun _ _ hget => h ▸ hget

end Archive

end PlainBitnames
