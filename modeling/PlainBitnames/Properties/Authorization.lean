import PlainBitnames.Instance
import PlainBitnames.State.BlockSpec

/-!
Authorization soundness: a block is accepted only if every input of every
transaction is authorized at its own position by the owner of the output it
spends. Two lengths are compared with the number of authorizations: the number
of inputs and the number of spent outputs that require an authorization. Both
comparisons together leave no room for an exempted input, so that messages,
authorizations and spent outputs are aligned.
-/

namespace PlainBitnames

open Borsh Fallible

/-- Where the elements contributed by one element of a list lie in the
concatenation of all contributions. -/
theorem getElem?_flatMap_offset {α β : Type} (f : α → List β) {l : List α} {i j : Nat} {a : α}
    {b : β} (ha : l[i]? = some a) (hb : (f a)[j]? = some b) :
    (l.flatMap f)[((l.take i).map fun x => (f x).length).sum + j]? = some b := by
  induction l generalizing i with
  | nil => simp at ha
  | cons x l ih =>
    cases i with
    | zero =>
      obtain rfl : x = a := by simpa using ha
      have hj : j < (f x).length := (List.getElem?_eq_some_iff.mp hb).1
      simp only [List.take_zero, List.map_nil, List.sum_nil, Nat.zero_add, List.flatMap_cons]
      rw [List.getElem?_append_left hj]
      exact hb
    | succ i =>
      have htail := ih (by simpa using ha)
      rw [List.take_succ_cons, List.map_cons, List.sum_cons, List.flatMap_cons,
        List.getElem?_append_right (by omega)]
      rw [Nat.add_assoc, Nat.add_sub_cancel_left]
      exact htail

theorem eq_of_sum_eq {α : Type} {f g : α → Nat} {l : List α} (hle : ∀ a ∈ l, f a ≤ g a)
    (hsum : (l.map f).sum = (l.map g).sum) : ∀ a ∈ l, f a = g a := by
  induction l with
  | nil => simp
  | cons x l ih =>
    obtain ⟨hx, htail⟩ := List.forall_mem_cons.mp hle
    have hrest : (l.map f).sum ≤ (l.map g).sum := List.sum_le_sum htail
    rw [List.map_cons, List.map_cons, List.sum_cons, List.sum_cons] at hsum
    exact List.forall_mem_cons.mpr ⟨by omega, ih htail (by omega)⟩

theorem exists_mem_chunks {α : Type} {n : Nat} (hn : 0 < n) {l : List α} {a : α} (ha : a ∈ l) :
    ∃ chunk ∈ chunks n l, a ∈ chunk := by
  obtain ⟨k, hk, rfl⟩ := List.getElem_of_mem ha
  refine ⟨(l.drop (k / n * n)).take n, ?_, ?_⟩
  · refine List.mem_map.mpr ⟨k / n, ?_, rfl⟩
    rw [List.mem_range, Nat.lt_div_iff_mul_lt hn]
    have hdiv := Nat.div_mul_le_self k n
    omega
  · have hmod : k / n * n + k % n = k := by rw [Nat.mul_comm]; exact Nat.div_add_mod k n
    refine List.mem_of_getElem? (i := k % n) ?_
    rw [List.getElem?_take_of_lt (Nat.mod_lt k hn), List.getElem?_drop, hmod]
    exact List.getElem?_eq_getElem hk

section

variable [Primitives]

/-- Batch verification accepts only batches of valid signatures. -/
def BatchSound : Prop :=
  ∀ ctxt items, Primitives.verifyBatch ctxt items = true →
    ∀ item ∈ items, Primitives.verifySignature item.1 item.2.1 item.2.2 = true

theorem retainRequiringAuth_sublist (names : List BitName) (utxos : List FilledOutput) :
    (FilledTransaction.retainRequiringAuth names utxos).Sublist utxos := by
  induction utxos generalizing names with
  | nil =>
    cases names with
    | nil => exact List.Sublist.refl _
    | cons name names => exact List.Sublist.refl _
  | cons o os ih =>
    cases names with
    | nil => exact (ih []).cons_cons o
    | cons name names =>
      simp only [FilledTransaction.retainRequiringAuth]
      split
      · exact (ih (name :: names)).cons_cons o
      · split
        · exact (ih names).cons o
        · exact (ih (name :: names)).cons_cons o

/-- An output whose name is declared first needs no authorization. -/
theorem length_retainRequiringAuth_lt {name : BitName} {names : List BitName}
    {utxos : List FilledOutput} {utxo : FilledOutput} (hmem : utxo ∈ utxos)
    (hname : utxo.bitname = some name) :
    (FilledTransaction.retainRequiringAuth (name :: names) utxos).length < utxos.length := by
  induction utxos with
  | nil => cases hmem
  | cons o os ih =>
    rw [FilledTransaction.retainRequiringAuth]
    rcases List.mem_cons.mp hmem with rfl | hmem
    · rw [hname]
      dsimp only
      rw [if_pos rfl]
      exact Nat.lt_succ_of_le (retainRequiringAuth_sublist _ _).length_le
    · have hrest := ih hmem
      split
      · exact Nat.succ_lt_succ hrest
      · split
        · exact Nat.lt_succ_of_le (retainRequiringAuth_sublist _ _).length_le
        · exact Nat.succ_lt_succ hrest

theorem spentUtxosRequiringAuth_sublist (tx : FilledTransaction) :
    tx.spentUtxosRequiringAuth.Sublist tx.spentUtxos := by
  unfold FilledTransaction.spentUtxosRequiringAuth
  split
  · exact retainRequiringAuth_sublist _ _
  · exact List.Sublist.refl _

def inputPosition (body : Body) (i j : Nat) : Nat :=
  ((body.transactions.take i).map fun tx => tx.inputs.length).sum + j

theorem verifyAuthorizations_ok {ctxt : BatchVerificationContext} {body : Body}
    (h : verifyAuthorizations ctxt body = .ok ()) :
    body.authorizations.length = (body.transactions.map fun tx => tx.inputs.length).sum ∧
      ∀ chunk ∈ chunks chunkSize (authorizationPairs body), verifyChunk ctxt chunk = true := by
  unfold verifyAuthorizations at h
  rw [ensure_bind_eq_ok, ensure_bind_eq_ok, ensure_bind_eq_ok, ensure_bind_eq_ok,
    ensure_eq_ok] at h
  obtain ⟨hle, hge, -, -, hchunks⟩ := h
  exact ⟨Nat.le_antisymm hge hle, List.all_eq_true.mp hchunks⟩

/-- Every queued signature of an accepted body is valid. -/
theorem verifySignature_of_mem_pairs (hbatch : BatchSound) {ctxt : BatchVerificationContext}
    {body : Body} (h : verifyAuthorizations ctxt body = .ok ())
    {authorization : Authorization} {msg : List UInt8}
    (hmem : (authorization, msg) ∈ authorizationPairs body) :
    Primitives.verifySignature authorization.verifyingKey authorization.signature msg = true := by
  obtain ⟨chunk, hchunk, hpair⟩ := exists_mem_chunks (show 0 < chunkSize by decide) hmem
  have hverified := (verifyAuthorizations_ok h).2 chunk hchunk
  exact hbatch ctxt _ hverified _ (List.mem_map.mpr ⟨_, hpair, rfl⟩)

namespace State

/-- In a checked body no spent output is exempt from authorization. -/
theorem Checked.requiringAuth_eq {ctxt : BatchVerificationContext} {state : State}
    {header : Header} {body : Body} {p : PrevalidatedBlock}
    (hc : Checked ctxt state header body p) :
    ∀ tx ∈ p.filledTransactions, tx.spentUtxosRequiringAuth = tx.spentUtxos := by
  have hinputs : body.authorizations.length =
      (p.filledTransactions.map fun tx => tx.spentUtxos.length).sum := by
    rw [(verifyAuthorizations_ok hc.verified).1, hc.transactions_eq, List.map_map]
    refine congrArg List.sum (List.map_congr_left fun tx htx => ?_)
    exact (hc.fills tx htx).length_eq
  have hsublist : ∀ tx ∈ p.filledTransactions,
      tx.spentUtxosRequiringAuth.length ≤ tx.spentUtxos.length :=
    fun tx _ => (spentUtxosRequiringAuth_sublist tx).length_le
  have heq := eq_of_sum_eq hsublist (hc.count_eq.symm.trans hinputs)
  exact fun tx htx => (spentUtxosRequiringAuth_sublist tx).eq_of_length (heq tx htx)

/-- The authorization, the spent output and the message at one position. -/
theorem Checked.authorized (hbatch : BatchSound) {ctxt : BatchVerificationContext}
    {state : State} {header : Header} {body : Body} {p : PrevalidatedBlock}
    (hc : Checked ctxt state header body p) {i j : Nat} {tx : Transaction} {input : OutPoint}
    (htx : body.transactions[i]? = some tx) (hinput : tx.inputs[j]? = some input) :
    ∃ authorization utxo,
      body.authorizations[inputPosition body i j]? = some authorization ∧
        state.utxos[input]? = some utxo ∧ authorization.getAddress = utxo.address ∧
        Primitives.verifySignature authorization.verifyingKey authorization.signature
          (txMsgCanonical tx) = true := by
  have hfilled : ∃ filled, p.filledTransactions[i]? = some filled ∧ filled.transaction = tx := by
    rw [hc.transactions_eq, List.getElem?_map] at htx
    exact Option.map_eq_some_iff.mp htx
  obtain ⟨filled, hfilled, rfl⟩ := hfilled
  have hmem := List.mem_of_getElem? hfilled
  have hfills := hc.fills filled hmem
  -- the output at this input
  obtain ⟨utxo, hutxo⟩ : ∃ utxo, filled.spentUtxos[j]? = some utxo := by
    have hj : j < filled.spentUtxos.length := by
      rw [← hfills.length_eq]
      exact (List.getElem?_eq_some_iff.mp hinput).1
    exact ⟨_, List.getElem?_eq_getElem hj⟩
  have hlookup : state.utxos[input]? = some utxo := by
    refine hfills.get_of_mem (List.mem_of_getElem? (i := j) ?_)
    rw [FilledTransaction.spentInputs, List.getElem?_zip_eq_some]
    exact ⟨hinput, hutxo⟩
  -- spent outputs and messages are aligned at the position of the input
  have hposition : inputPosition body i j =
      ((p.filledTransactions.take i).map fun tx => tx.spentUtxosRequiringAuth.length).sum + j := by
    rw [inputPosition, hc.transactions_eq, ← List.map_take, List.map_map]
    refine congrArg (fun l => List.sum l + j) (List.map_congr_left fun tx htx => ?_)
    have htx := List.mem_of_mem_take htx
    rw [hc.requiringAuth_eq tx htx]
    exact (hc.fills tx htx).length_eq
  have hspent : (p.filledTransactions.flatMap FilledTransaction.spentUtxosRequiringAuth)[
      inputPosition body i j]? = some utxo := by
    rw [hposition]
    exact getElem?_flatMap_offset _ hfilled (by rw [hc.requiringAuth_eq filled hmem]; exact hutxo)
  have hmessage : (body.transactions.flatMap fun tx =>
      List.replicate tx.inputs.length (txMsgCanonical tx))[inputPosition body i j]? =
        some (txMsgCanonical filled.transaction) := by
    have hj := (List.getElem?_eq_some_iff.mp hinput).1
    have hoffset := getElem?_flatMap_offset
      (fun tx : Transaction => List.replicate tx.inputs.length (txMsgCanonical tx)) (j := j) htx
      (by rw [List.getElem?_replicate, if_pos hj])
    simp only [List.length_replicate] at hoffset
    exact hoffset
  obtain ⟨authorization, hauthorization⟩ : ∃ authorization,
      body.authorizations[inputPosition body i j]? = some authorization := by
    have hlength : body.authorizations.length = (p.filledTransactions.flatMap
        FilledTransaction.spentUtxosRequiringAuth).length := by
      rw [hc.count_eq, List.length_flatMap]
    have hlt := (List.getElem?_eq_some_iff.mp hspent).1
    exact ⟨_, List.getElem?_eq_getElem (by omega)⟩
  refine ⟨authorization, utxo, hauthorization, hlookup, ?_, ?_⟩
  · exact hc.addresses (authorization, utxo)
      (List.mem_of_getElem? (List.getElem?_zip_eq_some.mpr ⟨hauthorization, hspent⟩))
  · exact verifySignature_of_mem_pairs hbatch hc.verified
      (List.mem_of_getElem? (List.getElem?_zip_eq_some.mpr ⟨hauthorization, hmessage⟩))

/-- An accepted block carries, for every input of every transaction and at the
position of that input, an authorization by the owner of the spent output for
that transaction. -/
theorem authorization_sound (hbatch : BatchSound) {ctxt : BatchVerificationContext}
    {state : State} {header : Header} {body : Body}
    (haccepted : (∃ fees root, state.validate ctxt header body = .ok (fees, root)) ∨
      ∃ p, state.prevalidate ctxt header body = .ok p)
    {i j : Nat} {tx : Transaction} {input : OutPoint}
    (htx : body.transactions[i]? = some tx) (hinput : tx.inputs[j]? = some input) :
    ∃ authorization utxo,
      body.authorizations[inputPosition body i j]? = some authorization ∧
        state.utxos[input]? = some utxo ∧ authorization.getAddress = utxo.address ∧
        Primitives.verifySignature authorization.verifyingKey authorization.signature
          (txMsgCanonical tx) = true := by
  rcases haccepted with ⟨fees, root, hvalidate⟩ | ⟨p, hprevalidate⟩
  · obtain ⟨c, hchecked, -⟩ := bind_eq_ok.mp hvalidate
    exact (checkBody_ok hchecked 0).authorized hbatch htx hinput
  · exact (prevalidate_ok hprevalidate).toChecked.authorized hbatch htx hinput

end State

end

namespace Instance

/-- A state with one deposit, owned by key 7. -/
def funded : State :=
  { State.empty with utxos := Db.putAll ∅ [(.deposit ⟨0, 0⟩, ⟨7, .bitcoin 10, []⟩)] }

def transfer : Transaction := ⟨[.deposit ⟨0, 0⟩], [⟨8, .bitcoin 9, []⟩], [], none⟩

def transferBody : Body := ⟨⟨[], []⟩, [transfer], [⟨7, 7⟩]⟩

theorem batchSound : BatchSound := by
  intro ctxt items h item hitem
  exact List.all_eq_true.mp h item hitem

theorem authorization_sound_transfer :
    ∃ p, funded.prevalidate 0 (mine funded transferBody) transferBody = .ok p ∧
      ∃ authorization utxo,
        transferBody.authorizations[inputPosition transferBody 0 0]? = some authorization ∧
          funded.utxos[OutPoint.deposit ⟨0, 0⟩]? = some utxo ∧
          authorization.getAddress = utxo.address ∧
          Primitives.verifySignature authorization.verifyingKey authorization.signature
            (txMsgCanonical transfer) = true := by
  have haccepted : (funded.prevalidate 0 (mine funded transferBody) transferBody).isOk = true := by
    decide +kernel
  obtain ⟨p, hp⟩ := exists_of_isOk haccepted
  exact ⟨p, hp, State.authorization_sound batchSound (.inr ⟨p, hp⟩) rfl rfl⟩

end Instance

end PlainBitnames
