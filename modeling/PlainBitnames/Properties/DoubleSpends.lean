import PlainBitnames.Instance
import PlainBitnames.Lib.Avoids
import PlainBitnames.State.BlockSpec
import PlainBitnames.Types.OutPointKey

/-!
Double spends are found by comparing keys: the keys of all inputs of a body are
sorted and neighbours compared. The keys are an exact encoding, so the scan
finds a pair exactly when an outpoint is spent at two positions.
-/

namespace PlainBitnames

open Borsh Fallible

section

variable [Primitives]

/-- An outpoint is spent at two positions of the body. -/
def Body.SpendsTwice (body : Body) : Prop :=
  ∃ (i j : Nat) (outpoint : OutPoint), i < j ∧ (body.transactions.flatMap Transaction.inputs)[i]? = some outpoint ∧
    (body.transactions.flatMap Transaction.inputs)[j]? = some outpoint

theorem Body.spendsTwice_iff (body : Body) :
    body.SpendsTwice ↔ ¬ (body.transactions.flatMap Transaction.inputs).Nodup := by
  constructor
  · rintro ⟨i, j, outpoint, hlt, hi, hj⟩ hnodup
    obtain ⟨hlength, _⟩ := List.getElem?_eq_some_iff.mp hj
    exact List.nodup_iff_getElem?_ne_getElem?.mp hnodup i j hlt hlength (hi.trans hj.symm)
  · intro hnot
    rw [List.nodup_iff_getElem?_ne_getElem?] at hnot
    push Not at hnot
    obtain ⟨i, j, hlt, hlength, heq⟩ := hnot
    have hj := List.getElem?_eq_getElem hlength
    exact ⟨i, j, _, hlt, heq.trans hj, hj⟩

namespace State

def equalNeighbours : List OutPointKey → Bool
  | a :: b :: rest => a == b || equalNeighbours (b :: rest)
  | _ => false

/-- Sort the keys as byte arrays, then scan. -/
def keysDoubleSpent (allInputKeys : List OutPointKey) : Bool :=
  equalNeighbours (allInputKeys.insertionSort fun a b => (compare a.bytes b.bytes).isLE)

/-- The checks before the scan have passed. -/
structure ReachesScan (state : State) (header : Header) (body : Body)
    (filled : List FilledTransaction) : Prop where
  fits_body : fits body = true
  size_le : (ser body).length ≤ Body.maxSize
  prev_eq : header.prevSideHash = state.tip
  coinbase : ∃ value, body.getCoinbaseValue = some value
  filled_eq : body.transactions.mapM state.fillTransaction = .ok filled

variable {state : State} {header : Header} {body : Body}

theorem ReachesScan.inputs_eq {filled : List FilledTransaction}
    (h : state.ReachesScan header body filled) :
    filled.flatMap FilledTransaction.inputs = body.transactions.flatMap Transaction.inputs := by
  obtain ⟨htransactions, _⟩ := mapM_fillTransaction_eq_ok.mp h.filled_eq
  rw [htransactions, List.flatMap_map]
  rfl

theorem ReachesScan.doubleSpent_iff {filled : List FilledTransaction}
    (h : state.ReachesScan header body filled) :
    utxoDoubleSpent (filled.flatMap FilledTransaction.inputs) = true ↔ body.SpendsTwice := by
  rw [Body.spendsTwice_iff, ← h.inputs_eq]
  constructor
  · intro hspent hnodup
    rw [utxoDoubleSpent_of_nodup hnodup] at hspent
    cases hspent
  · intro hnot
    by_contra hspent
    exact hnot (nodup_of_utxoDoubleSpent (Bool.eq_false_iff.mpr hspent))

/-! No other check reports a double spend. -/


def IsDoubleSpend (e : Failure Error) : Prop := e = .error .utxoDoubleSpent

theorem fillTransaction_avoids (state : State) (tx : Transaction) :
    Avoids IsDoubleSpend (state.fillTransaction tx) :=
  (Avoids.mapM fun _ _ => Avoids.okOr fun _ => nofun).bind fun _ _ => Avoids.ok _

theorem validateReservations_avoids (tx : FilledTransaction) :
    Avoids IsDoubleSpend (validateReservations tx) :=
  Avoids.ensure fun _ => nofun

theorem validateBitnames_avoids (state : State) (tx : FilledTransaction) :
    Avoids IsDoubleSpend (state.validateBitnames tx) := by
  unfold validateBitnames
  dsimp only
  refine (Avoids.ensure fun _ => nofun).bind fun _ _ => ?_
  split
  · refine (Avoids.ensure fun _ => nofun).bind fun _ _ => ?_
    split
    · refine (Avoids.ensure fun _ => nofun).bind fun _ _ => ?_
      split
      · exact (Avoids.ensure fun _ => nofun).bind fun _ _ => Avoids.ensure fun _ => nofun
      · exact Avoids.ensure fun _ => nofun
    · exact Avoids.ensure fun _ => nofun
  · split
    · refine (Avoids.ensure fun _ => nofun).bind fun _ _ => ?_
      split
      · exact (Avoids.ensure fun _ => nofun).bind fun _ _ => Avoids.ensure fun _ => nofun
      · exact Avoids.ensure fun _ => nofun
    · exact Avoids.ensure fun _ => nofun

theorem validateBatchIcann_avoids (tx : FilledTransaction) :
    Avoids IsDoubleSpend (validateBatchIcann tx) := by
  unfold validateBatchIcann
  split
  · split <;> dsimp only <;> split
    · exact (Avoids.error nofun).bind fun _ _ => Avoids.ensure fun _ => nofun
    · exact (Avoids.ok ()).bind fun _ _ => Avoids.ensure fun _ => nofun
    · exact (Avoids.error nofun).bind fun _ _ => Avoids.error nofun
    · exact (Avoids.ok ()).bind fun _ _ => Avoids.error nofun
  · exact Avoids.ok ()

theorem validateFilledTransaction_avoids (state : State) (tx : FilledTransaction) :
    Avoids IsDoubleSpend (state.validateFilledTransaction tx) := by
  unfold validateFilledTransaction
  refine (validateReservations_avoids tx).bind fun _ _ => ?_
  refine (validateBitnames_avoids state tx).bind fun _ _ => ?_
  refine (validateBatchIcann_avoids tx).bind fun _ _ => ?_
  split
  · exact Avoids.error nofun
  · rw [ok_bind]
    cases tx.fee with
    | error e => exact Avoids.error nofun
    | ok fee => exact Avoids.ok fee

theorem addFee_avoids (state : State) (totalFees : Amount) (tx : FilledTransaction) :
    Avoids IsDoubleSpend (state.addFee totalFees tx) :=
  (validateFilledTransaction_avoids state tx).bind fun _ _ => Avoids.okOr fun _ => nofun

theorem checkBody_doubleSpend_iff (ctxt : BatchVerificationContext) :
    state.checkBody ctxt header body = .error (.error .utxoDoubleSpent) ↔
      (∃ filled, state.ReachesScan header body filled) ∧ body.SpendsTwice := by
  unfold checkBody
  constructor
  · intro h
    rcases bind_eq_error.mp h with h | ⟨⟨⟩, hfits, h⟩
    · cases (ensure_eq_error.mp h).2
    rcases bind_eq_error.mp h with h | ⟨⟨⟩, hsize, h⟩
    · cases (ensure_eq_error.mp h).2
    rcases bind_eq_error.mp h with h | ⟨⟨⟩, hprev, h⟩
    · cases (ensure_eq_error.mp h).2
    rcases bind_eq_error.mp h with h | ⟨value, hvalue, h⟩
    · have hcoinbase : Avoids IsDoubleSpend
          (okOr body.getCoinbaseValue (.error .amountOverflow) : Result Amount) :=
        Avoids.okOr fun _ => nofun
      exact absurd rfl (hcoinbase h)
    rcases bind_eq_error.mp h with h | ⟨filled, hfilled, h⟩
    · exact absurd rfl (Avoids.mapM (fun tx _ => fillTransaction_avoids state tx) h)
    have hreaches : state.ReachesScan header body filled :=
      ⟨ensure_eq_ok.mp hfits, ensure_eq_ok.mp hsize, ensure_eq_ok.mp hprev,
        ⟨value, okOr_eq_ok.mp hvalue⟩, hfilled⟩
    rcases bind_eq_error.mp h with h | ⟨⟨⟩, hscan, h⟩
    · have hspent := (ensure_eq_error.mp h).1
      exact ⟨⟨filled, hreaches⟩, hreaches.doubleSpent_iff.mp (by simpa using hspent)⟩
    -- past the scan no check reports a double spend
    refine absurd rfl ((Avoids.bind ?_ ?_ : Avoids IsDoubleSpend _) h)
    · exact Avoids.foldlM (P := fun _ => True) trivial fun fees _ tx _ =>
        ⟨addFee_avoids state fees tx, fun _ _ => trivial⟩
    · intro fees _
      refine (Avoids.ensure fun _ => nofun).bind fun _ _ => ?_
      refine Avoids.bind (Avoids.mapFailure (fun _ _ => id : Avoids (fun _ => False) _) ?_) ?_
      · intro e he
        cases e <;> cases he
      · intro root _
        refine (Avoids.ensure fun _ => nofun).bind fun _ _ => ?_
        refine (Avoids.ensure fun _ => nofun).bind fun _ _ => ?_
        refine (Avoids.ensure fun _ => nofun).bind fun _ _ => ?_
        refine Avoids.bind (Avoids.mapFailure (fun _ _ => id : Avoids (fun _ => False) _) ?_)
          fun _ _ => Avoids.ok _
        intro e he
        cases e <;> cases he
  · rintro ⟨⟨filled, h⟩, htwice⟩
    obtain ⟨value, hvalue⟩ := h.coinbase
    have hspent := h.doubleSpent_iff.mpr htwice
    rw [ensure_of h.fits_body, ok_bind, ensure_of h.size_le, ok_bind, ensure_of h.prev_eq, ok_bind,
      hvalue, okOr_some, ok_bind, h.filled_eq, ok_bind]
    exact bind_eq_error.mpr (.inl (ensure_eq_error.mpr ⟨by simp [hspent], rfl⟩))

variable {ctxt : BatchVerificationContext}

theorem validate_doubleSpend_iff :
    state.validate ctxt header body = .error (.error .utxoDoubleSpent) ↔
      (∃ filled, state.ReachesScan header body filled) ∧ body.SpendsTwice := by
  rw [← checkBody_doubleSpend_iff ctxt]
  constructor
  · intro h
    rcases bind_eq_error.mp h with h | ⟨_, _, h⟩
    · exact h
    · cases h
  · exact fun h => bind_eq_error.mpr (.inl h)

theorem prevalidate_doubleSpend_iff :
    state.prevalidate ctxt header body = .error (.error .utxoDoubleSpent) ↔
      (∃ filled, state.ReachesScan header body filled) ∧ body.SpendsTwice := by
  rw [← checkBody_doubleSpend_iff ctxt]
  constructor
  · intro h
    rcases bind_eq_error.mp h with h | ⟨checked, _, h⟩
    · exact h
    · rcases bind_eq_error.mp h with h | ⟨height, _, h⟩
      · unfold nextHeight at h
        split at h
        · cases h
        · rcases bind_eq_error.mp h with h | ⟨_, _, h⟩
          · cases (ensure_eq_error.mp h).2
          · cases h
      · cases h
  · exact fun h => bind_eq_error.mpr (.inl h)

/-! The scan over keys is the scan over outpoints. -/

variable [HashArray]

theorem ofOutPoint_injective : Function.Injective OutPointKey.ofOutPoint :=
  fun _ _ h => OutPoint.ser_injective (congrArg OutPointKey.bytes h)

theorem equalNeighbours_map (inputs : List OutPoint) :
    equalNeighbours (inputs.map OutPointKey.ofOutPoint) = adjacentEqual inputs := by
  induction inputs with
  | nil => rfl
  | cons a inputs ih =>
    cases inputs with
    | nil => rfl
    | cons b inputs =>
      have hkey : (OutPointKey.ofOutPoint a == OutPointKey.ofOutPoint b) = (a == b) := by
        rw [Bool.eq_iff_iff, beq_iff_eq, beq_iff_eq]
        exact ofOutPoint_injective.eq_iff
      rw [adjacentEqual, ← ih, ← hkey]
      rfl

theorem keysDoubleSpent_map (inputs : List OutPoint) :
    keysDoubleSpent (inputs.map OutPointKey.ofOutPoint) = utxoDoubleSpent inputs := by
  unfold keysDoubleSpent utxoDoubleSpent
  rw [← equalNeighbours_map]
  exact congrArg equalNeighbours (List.map_insertionSort
    (fun a b : OutPoint => (compare a b).isLE = true)
    (fun a b : OutPointKey => (compare a.bytes b.bytes).isLE = true) OutPointKey.ofOutPoint inputs
    fun _ _ _ _ => Iff.rfl).symm

theorem mapM_fromOutpoint (inputs : List OutPoint) :
    inputs.mapM OutPointKey.fromOutpoint = .ok (inputs.map OutPointKey.ofOutPoint) := by
  refine mapM_eq_ok.mpr ?_
  rw [List.forall₂_map_right_iff]
  exact List.forall₂_same.mpr fun outpoint _ => OutPointKey.fromOutpoint_eq outpoint

end State

/-- Keys are an exact encoding of outpoints in 37 bytes, and validation reports a
double spend exactly when an outpoint is spent at two positions of a body that
reaches the scan. -/
theorem doubleSpends_exact [HashArray] :
    (∀ outpoint : OutPoint, ∃ key : OutPointKey, OutPointKey.fromOutpoint outpoint = .ok key ∧
      key.bytes = ser outpoint ∧ key.bytes.length = 37 ∧ key.toOutpoint = .ok outpoint) ∧
    (∀ (outpoint outpoint' : OutPoint) (key : OutPointKey),
      OutPointKey.fromOutpoint outpoint = .ok key → OutPointKey.fromOutpoint outpoint' = .ok key →
        outpoint = outpoint') ∧
    (∀ (bytes : List UInt8) (key : OutPointKey), OutPointKey.bytesDecode bytes = .ok key ↔
      key.bytes = bytes ∧ ∃ outpoint, OutPointKey.fromOutpoint outpoint = .ok key) ∧
    (∀ (ctxt : BatchVerificationContext) (state : State) (header : Header) (body : Body),
      (∀ filled, state.ReachesScan header body filled →
        ∃ keys, (filled.flatMap FilledTransaction.inputs).mapM OutPointKey.fromOutpoint = .ok keys ∧
          State.utxoDoubleSpent (filled.flatMap FilledTransaction.inputs) =
            State.keysDoubleSpent keys ∧
          (State.keysDoubleSpent keys = true ↔ body.SpendsTwice)) ∧
      (state.validate ctxt header body = .error (.error .utxoDoubleSpent) ↔
        (∃ filled, state.ReachesScan header body filled) ∧ body.SpendsTwice) ∧
      (state.prevalidate ctxt header body = .error (.error .utxoDoubleSpent) ↔
        (∃ filled, state.ReachesScan header body filled) ∧ body.SpendsTwice)) := by
  refine ⟨?_, ?_, ?_, ?_⟩
  · intro outpoint
    exact ⟨.ofOutPoint outpoint, OutPointKey.fromOutpoint_eq outpoint, rfl,
      length_ser_outPoint outpoint, OutPointKey.toOutpoint_eq_ok.mpr rfl⟩
  · intro outpoint outpoint' key h h'
    rw [OutPointKey.fromOutpoint_eq_ok] at h h'
    exact OutPoint.ser_injective (h.symm.trans h')
  · intro bytes key
    rw [OutPointKey.bytesDecode_eq_ok]
    simp only [OutPointKey.toOutpoint_eq_ok, OutPointKey.fromOutpoint_eq_ok]
  · intro ctxt state header body
    refine ⟨?_, State.validate_doubleSpend_iff, State.prevalidate_doubleSpend_iff⟩
    intro filled h
    refine ⟨_, State.mapM_fromOutpoint _, (State.keysDoubleSpent_map _).symm, ?_⟩
    rw [State.keysDoubleSpent_map]
    exact h.doubleSpent_iff

end

namespace Instance

/-- Primitives whose digests are arrays of 32 bytes. -/
abbrev arrayPrimitives : Primitives where
  Hash := BitVec 256
  hashDecEq := inferInstance
  hashBytes digest := ser digest
  hashBytes_append _ _ _ _ h := reads_bitVec 256 rfl rfl h
  zeroHash := 0
  blake3 bytes := BitVec.ofNat 256 (leNat bytes)
  keyedHash key bytes := key + BitVec.ofNat 256 (leNat bytes)
  blake3Xof bytes := BitVec.ofNat 160 (leNat bytes)
  MainAddress := Nat
  mainAddressOrder := inferInstance
  scriptPubkey address := [UInt8.ofNat address]
  computeTxid tx := BitVec.ofNat 256 tx.version
  weight _ := 0
  verifyingKeyTryFrom _ := none
  verifySignature key signature _ := signature.toNat = key.toNat
  verifyBatch _ items := items.all fun item => item.2.1.toNat = item.1.toNat
  parseDomainName _ := true

theorem length_ser_bitVec256 (digest : BitVec 256) : (ser digest).length = 32 :=
  length_leBytes 32 digest.toNat

theorem ser_ofNat_leNat (bytes : List UInt8) (h : bytes.length = 32) :
    ser (BitVec.ofNat 256 (leNat bytes)) = bytes := by
  have hread : read bytes = .ok (BitVec.ofNat 256 (leNat bytes), []) := by
    change (readArray 32 bytes >>= _) = _
    rw [readArray_eq_ok.mpr ⟨h, (List.append_nil bytes).symm⟩]
    rfl
  rw [← List.append_nil (ser _), ← read_eq_ok.mp hread]

abbrev hashArray : @HashArray arrayPrimitives :=
  @HashArray.mk arrayPrimitives (fun bytes => BitVec.ofNat 256 (leNat bytes)) length_ser_bitVec256
    ser_ofNat_leNat

/-- A state with one output. -/
def coinState : @State arrayPrimitives :=
  letI := arrayPrimitives
  { State.empty with utxos := (∅ : Db OutPoint FilledOutput).insert (.coinbase zeroHash 0) ⟨7, .bitcoin 3, []⟩ }

/-- The output of `coinState`, spent twice. -/
def coinTwice : @FilledTransaction arrayPrimitives :=
  letI := arrayPrimitives
  ⟨⟨[.coinbase zeroHash 0, .coinbase zeroHash 0], [], [], none⟩, [⟨7, .bitcoin 3, []⟩, ⟨7, .bitcoin 3, []⟩]⟩

def coinBody : @Body arrayPrimitives :=
  letI := arrayPrimitives
  ⟨⟨[], []⟩, [coinTwice.transaction], []⟩

theorem coinBody_filled : letI := arrayPrimitives
    coinBody.transactions.mapM coinState.fillTransaction = .ok [coinTwice] :=
  rfl

theorem coinBody_reaches : letI := arrayPrimitives
    coinState.ReachesScan ⟨zeroHash, none, 0⟩ coinBody [coinTwice] :=
  letI := arrayPrimitives
  { fits_body := by decide +kernel
    size_le := by decide +kernel
    prev_eq := by decide +kernel
    coinbase := ⟨0, by decide +kernel⟩
    filled_eq := coinBody_filled }

theorem doubleSpends_coinBody : letI := arrayPrimitives
    (∃ key : OutPointKey, OutPointKey.fromOutpoint (.coinbase zeroHash 0) = .ok key) ∧
      coinState.ReachesScan ⟨zeroHash, none, 0⟩ coinBody [coinTwice] ∧ coinBody.SpendsTwice ∧
      coinState.validate 0 ⟨zeroHash, none, 0⟩ coinBody = .error (.error .utxoDoubleSpent) := by
  let _ := arrayPrimitives
  let _ := hashArray
  have htwice : coinBody.SpendsTwice := ⟨0, 1, .coinbase zeroHash 0, by decide, rfl, rfl⟩
  obtain ⟨key, hkey, _⟩ := doubleSpends_exact.1 (.coinbase zeroHash 0)
  have hvalidate := (doubleSpends_exact.2.2.2 0 coinState ⟨zeroHash, none, 0⟩ coinBody).2.1
  exact ⟨⟨key, hkey⟩, coinBody_reaches, htwice, hvalidate.mpr ⟨⟨_, coinBody_reaches⟩, htwice⟩⟩

end Instance

end PlainBitnames
