import PlainBitnames.Lib.Undo
import PlainBitnames.State.TxSpec

/-!
Looking up BitName data, now and at earlier heights. A field of a record keeps all values it
had, stamped with the heights at which they were recorded; transactions of a block append
values stamped with the height of the block.
-/

namespace PlainBitnames

open Fallible

variable [Primitives]

namespace TxidRollBack

variable {α : Type}

/-- The most recent value. -/
def latest (r : TxidRollBack α) : TxidStamped α := r.last

/-- The value as it was at a block height; if it was updated several times in the block, the
last one. -/
def atBlockHeight (r : TxidRollBack α) (height : Nat) : Option (TxidStamped α) :=
  r.toList.reverse.find? fun entry => decide (entry.height ≤ height)

end TxidRollBack

/-- `crate::types::BitNameData`: the data of a name at some point, without its history. -/
structure Types.BitNameData where
  seqId : Nat
  mutableData : MutableBitNameData
deriving DecidableEq

namespace BitNameData

/-- The data as it was at a block height, if it existed then. -/
def atBlockHeight (data : BitNameData) (height : Nat) : Option Types.BitNameData := do
  let commitment ← TxidRollBack.atBlockHeight data.commitment height
  let socketAddrV4 ← TxidRollBack.atBlockHeight data.socketAddrV4 height
  let socketAddrV6 ← TxidRollBack.atBlockHeight data.socketAddrV6 height
  let encryptionPubkey ← TxidRollBack.atBlockHeight data.encryptionPubkey height
  let signingPubkey ← TxidRollBack.atBlockHeight data.signingPubkey height
  let paymailFeeSats ← TxidRollBack.atBlockHeight data.paymailFeeSats height
  some ⟨data.seqId, {
    commitment := commitment.data
    socketAddrV4 := socketAddrV4.data
    socketAddrV6 := socketAddrV6.data
    encryptionPubkey := encryptionPubkey.data
    signingPubkey := signingPubkey.data
    paymailFeeSats := paymailFeeSats.data }⟩

def current (data : BitNameData) : Types.BitNameData := ⟨data.seqId, {
  commitment := (TxidRollBack.latest data.commitment).data
  socketAddrV4 := (TxidRollBack.latest data.socketAddrV4).data
  socketAddrV6 := (TxidRollBack.latest data.socketAddrV6).data
  encryptionPubkey := (TxidRollBack.latest data.encryptionPubkey).data
  signingPubkey := (TxidRollBack.latest data.signingPubkey).data
  paymailFeeSats := (TxidRollBack.latest data.paymailFeeSats).data }⟩

end BitNameData

namespace Dbs

/-- Resolve the current data of a name, if it exists. -/
def tryGetCurrentBitnameData (dbs : Dbs) (bitname : BitName) : Option Types.BitNameData :=
  dbs.bitnames[bitname]?.map BitNameData.current

end Dbs

/-! One field. -/

namespace TxidRollBack

variable {α : Type}

/-- The history with some values appended that are stamped with the height. -/
def Grows (height : Nat) (r r' : TxidRollBack α) : Prop :=
  ∃ later, r'.toList = r.toList ++ later ∧ ∀ entry ∈ later, entry.height = height

theorem Grows.refl (height : Nat) (r : TxidRollBack α) : Grows height r r :=
  ⟨[], by simp, by simp⟩

end TxidRollBack

/-! One record. -/

namespace BitNameData

/-- No value of the record is stamped with a height above the given one. -/
structure StampedBy (data : BitNameData) (height : Nat) : Prop where
  commitment : (TxidRollBack.latest data.commitment).height ≤ height
  socketAddrV4 : (TxidRollBack.latest data.socketAddrV4).height ≤ height
  socketAddrV6 : (TxidRollBack.latest data.socketAddrV6).height ≤ height
  encryptionPubkey : (TxidRollBack.latest data.encryptionPubkey).height ≤ height
  signingPubkey : (TxidRollBack.latest data.signingPubkey).height ≤ height
  paymailFeeSats : (TxidRollBack.latest data.paymailFeeSats).height ≤ height

variable {height : Nat}

theorem StampedBy.mono {data : BitNameData} {height' : Nat} (h : data.StampedBy height)
    (hle : height ≤ height') : data.StampedBy height' :=
  ⟨h.commitment.trans hle, h.socketAddrV4.trans hle, h.socketAddrV6.trans hle,
    h.encryptionPubkey.trans hle, h.signingPubkey.trans hle, h.paymailFeeSats.trans hle⟩

theorem latest_applyFieldUpdate_le {α : Type} {field : TxidRollBack (Option α)}
    (h : (TxidRollBack.latest field).height ≤ height) (update : Update α) (txid : Txid) :
    (TxidRollBack.latest (applyFieldUpdate field update txid height)).height ≤ height := by
  cases update with
  | retain => exact h
  | delete | set =>
    rw [TxidRollBack.latest, applyFieldUpdate, TxidRollBack.push, NonEmpty.last_push]

theorem StampedBy.applyUpdates {data : BitNameData} (h : data.StampedBy height)
    (updates : BitNameDataUpdates) (txid : Txid) :
    (data.applyUpdates updates txid height).StampedBy height :=
  ⟨latest_applyFieldUpdate_le h.commitment _ _, latest_applyFieldUpdate_le h.socketAddrV4 _ _,
    latest_applyFieldUpdate_le h.socketAddrV6 _ _,
    latest_applyFieldUpdate_le h.encryptionPubkey _ _,
    latest_applyFieldUpdate_le h.signingPubkey _ _,
    latest_applyFieldUpdate_le h.paymailFeeSats _ _⟩

/-- Updates can be taken back. -/
theorem revertFieldUpdate_applyFieldUpdate {α : Type} [DecidableEq α]
    (field : TxidRollBack (Option α)) (update : Update α) (txid : Txid) (height : Nat) :
    revertFieldUpdate (applyFieldUpdate field update txid height) update txid height =
      .ok field := by
  cases update with
  | retain => rfl
  | delete | set =>
    rw [applyFieldUpdate, revertFieldUpdate, revertFieldUpdate.popped, TxidRollBack.push,
      NonEmpty.pop_push, okOr_some, ok_bind]
    simp [ensure]

theorem revertUpdates_applyUpdates (data : BitNameData) (updates : BitNameDataUpdates)
    (txid : Txid) (height : Nat) :
    (data.applyUpdates updates txid height).revertUpdates updates txid height = .ok data := by
  simp only [revertUpdates, applyUpdates, revertFieldUpdate_applyFieldUpdate, ok_bind]

end BitNameData

/-! All records. -/

/-- No value of any record is stamped with a height above the given one. -/
def Dbs.StampedBy (dbs : Dbs) (height : Nat) : Prop :=
  ∀ (name : BitName) (data : BitNameData), dbs.bitnames[name]? = some data → data.StampedBy height

/-- The transactions register names that are not in the databases, and none twice. -/
structure Dbs.Fresh (dbs : Dbs) (txs : List FilledTransaction) : Prop where
  nodup : (txs.filterMap fun tx => tx.transaction.registrationNameHash).Nodup
  not_mem : ∀ tx ∈ txs, ∀ name, tx.transaction.registrationNameHash = some name →
    name ∉ dbs.bitnames

namespace State

variable {height : Nat} {dbs dbs' : Dbs} {tx : FilledTransaction}

theorem DataEffect.mem_cases (h : DataEffect height dbs tx dbs') {name : BitName}
    (hmem : name ∈ dbs'.bitnames) :
    name ∈ dbs.bitnames ∨ tx.transaction.registrationNameHash = some name := by
  cases h with
  | none => exact .inl hmem
  | reservation => exact .inl hmem
  | registration hdata =>
    rcases (Db.mem_insert _ _ _ _).mp hmem with rfl | hmem
    · exact .inr (by rw [Transaction.registrationNameHash, hdata])
    · exact .inl hmem
  | update hdata hname hget =>
    rcases (Db.mem_insert _ _ _ _).mp hmem with rfl | hmem
    · exact .inl (Db.mem_of_get hget)
    · exact .inl hmem
  | batchIcann _ _ _ _ hmarks =>
    obtain ⟨data, hget⟩ := (Db.mem_iff _ _).mp hmem
    rw [hmarks.get_eq] at hget
    obtain ⟨_, hget, -⟩ := Option.map_eq_some_iff.mp hget
    exact .inl (Db.mem_of_get hget)

theorem DataEffect.fresh {txs : List FilledTransaction} (h : DataEffect height dbs tx dbs')
    (hfresh : dbs.Fresh (tx :: txs)) : dbs'.Fresh txs := by
  have hnodup := hfresh.nodup
  rw [List.filterMap_cons] at hnodup
  refine ⟨?_, ?_⟩
  · split at hnodup
    · exact hnodup
    · exact (List.nodup_cons.mp hnodup).2
  · intro other hother name hname hmem
    rcases h.mem_cases hmem with hold | hregistered
    · exact hfresh.not_mem other (List.mem_cons_of_mem _ hother) name hname hold
    · rw [hregistered] at hnodup
      exact (List.nodup_cons.mp hnodup).1 (List.mem_filterMap.mpr ⟨other, hother, hname⟩)

end State

end PlainBitnames
