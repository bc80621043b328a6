import PlainBitnames.Instance
import PlainBitnames.State.TxSpec

/-!
Undoing batch ICANN registrations. The application marks every declared name, and the
undoing asserts that a declared name is not marked, so that it undoes only batches
without names.
-/

namespace PlainBitnames

open Fallible

section

variable [Primitives]

namespace Dbs

theorem applyBatchIcann_marks {dbs dbs' : Dbs} {tx : FilledTransaction}
    {batch : BatchIcannRegistrationData} (h : dbs.applyBatchIcann tx batch = .ok dbs') :
    Marks dbs batch.nameHashes dbs' := by
  obtain ⟨⟨marked, rest⟩, hfold, h⟩ := bind_eq_ok.mp h
  cases h
  exact (foldlM_icannStep hfold).2.2.2

end Dbs

/-- A batch that is applied is undone exactly when it declares no names. -/
theorem batchIcann_undone_iff {dbs dbs' : Dbs} {tx : FilledTransaction}
    {batch : BatchIcannRegistrationData} (h : dbs.applyBatchIcann tx batch = .ok dbs') :
    dbs'.revertBatchIcann tx batch = .ok dbs ↔ batch.plainNames = [] := by
  have hmarks := Dbs.applyBatchIcann_marks h
  constructor
  · intro hrevert
    have hmarked : ∀ name ∈ batch.nameHashes, ∀ data, dbs'.bitnames[name]? = some data →
        data.isIcann = true := by
      intro name hmem data hget
      rw [hmarks.get_eq] at hget
      obtain ⟨_, -, rfl⟩ := Option.map_eq_some_iff.mp hget
      simp [hmem]
    exact List.map_eq_nil_iff.mp (Dbs.revertBatchIcann_of_marked hmarked hrevert)
  · intro hnames
    have hnone : batch.nameHashes = [] := by
      rw [BatchIcannRegistrationData.nameHashes, hnames]
      rfl
    rw [Dbs.applyBatchIcann, hnone] at h
    cases h
    rw [Dbs.revertBatchIcann, hnone]
    rfl

end

namespace Instance

def icannBatch (plainNames : List String) : BatchIcannRegistrationData := ⟨plainNames, 0⟩

/-- A registered name without data. -/
def icannData : BitNameData := .init ⟨none, none, none, none, none, none⟩ zeroHash 0 0

/-- A transaction that declares the names and spends them in order. -/
def icannTx (plainNames : List String) : FilledTransaction where
  transaction :=
    ⟨(icannBatch plainNames).nameHashes.map fun name => .regular name 0, [], [],
      some (.batchIcann (icannBatch plainNames))⟩
  spentUtxos := (icannBatch plainNames).nameHashes.map fun name => ⟨0, .bitName name, []⟩

/-- The databases in which the names are registered. -/
def icannDbs (plainNames : List String) : Dbs where
  bitnames := (icannBatch plainNames).nameHashes.foldl (fun db name => db.insert name icannData) ∅
  reservations := ∅
  seqToBitname := ∅

/-- The databases after the batch. -/
def icannMarked (plainNames : List String) : Dbs :=
  ((icannDbs plainNames).applyBatchIcann (icannTx plainNames) (icannBatch plainNames)).toOption.getD
    (icannDbs plainNames)

/-- The smallest batch that is not undone: its only name is marked, and the undoing
asserts that it is not. -/
theorem batchIcann_not_undone :
    (icannDbs ["a"]).applyBatchIcann (icannTx ["a"]) (icannBatch ["a"]) = .ok (icannMarked ["a"]) ∧
      (icannMarked ["a"]).revertBatchIcann (icannTx ["a"]) (icannBatch ["a"]) =
        .error (.panic "assert!(!bitname_data.is_icann)") := by
  refine ⟨eq_ok_getD _ ?_, ?_⟩ <;> decide +kernel

/-- A batch of two names is applied, and not undone; one without names is undone. -/
theorem batchIcann_undone_iff_two :
    ((icannMarked ["a", "b"]).revertBatchIcann (icannTx ["a", "b"]) (icannBatch ["a", "b"]) =
        .ok (icannDbs ["a", "b"]) ↔ (icannBatch ["a", "b"]).plainNames = []) ∧
      ((icannMarked []).revertBatchIcann (icannTx []) (icannBatch []) = .ok (icannDbs []) ↔
        (icannBatch []).plainNames = []) :=
  ⟨batchIcann_undone_iff (eq_ok_getD _ (by decide +kernel)),
    batchIcann_undone_iff (eq_ok_getD _ (by decide +kernel))⟩

end Instance

end PlainBitnames
