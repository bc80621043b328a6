import PlainBitnames.Instance
import PlainBitnames.State.Life

/-!
An outpoint lives at most once, in every run in which no transaction without
inputs is included in two blocks. A transaction with inputs cannot be included
again, since its inputs stay spent; nothing of the kind stops a transaction
without inputs, which needs no authorization either.
-/

namespace PlainBitnames

open Borsh Fallible

section

variable [Primitives]

/-- No transaction without inputs that creates an output is included after an
earlier block included it. -/
def NoReinclusion (steps : List Step) : Prop :=
  EachBlock (fun done _ _ body => ∀ tx ∈ body.transactions, tx.inputs = [] → tx.outputs ≠ [] →
    ∀ earlier ∈ (History.ofSteps done).included, earlier.txid ≠ tx.txid) steps

/-- The outpoints that a block creates. -/
def createdOutpoints (header : Header) (body : Body) : List OutPoint :=
  coinbaseOutpoints header body ++ body.transactions.flatMap Transaction.outpoints

/-- A block that includes no transaction without inputs again guards all
outputs. -/
theorem guards_of_noReinclusion {history : History} {ctxt : BatchVerificationContext}
    {state : State} {header : Header} {body : Body} {p : State.PrevalidatedBlock}
    (hp : State.Prevalid ctxt state header body p)
    (hnew : ∀ tx ∈ body.transactions, tx.inputs = [] → tx.outputs ≠ [] →
      ∀ earlier ∈ history.included, earlier.txid ≠ tx.txid) :
    Guards (fun _ => True) history p := by
  rintro tx htx ⟨output, houtput, -⟩
  cases hinputs : tx.spentInputs with
  | cons input inputs => exact .inl ⟨input, by simp, trivial⟩
  | nil =>
    refine .inr (hnew tx.transaction ?_ ?_ (List.ne_nil_of_mem houtput))
    · rw [hp.transactions_eq]
      exact List.mem_map_of_mem htx
    · have hkeys := (hp.fills tx htx).map_fst_spentInputs
      rw [hinputs] at hkeys
      exact hkeys.symm

theorem live_of_noReinclusion (hcf : CollisionFree) {steps : List Step} {state : State}
    (hrun : State.empty.run steps = .ok state) (hdeposits : DepositsDistinct steps)
    (hnew : NoReinclusion steps) : Live (fun _ => True) (History.ofSteps steps) state := by
  refine live_of_run hcf (fun _ _ _ _ => trivial) hrun hdeposits ?_
  intro done ctxt header body rest hsplit s p _ _ hp
  exact guards_of_noReinclusion hp (hnew done ctxt header body rest hsplit)

/-- No outpoint is unspent and spent, and no accepted block creates an outpoint
that is unspent or spent. -/
theorem outpoint_lives_once (hcf : CollisionFree) {steps : List Step} {state : State}
    (hrun : State.empty.run steps = .ok state) (hdeposits : DepositsDistinct steps)
    (hnew : NoReinclusion steps) :
    (∀ outpoint, ¬ (outpoint ∈ state.utxos ∧ outpoint ∈ state.stxos)) ∧
      ∀ ctxt header body state', state.applyBlock ctxt header body = .ok state' →
        NoReinclusion (steps ++ [.block ctxt header body]) →
          ∀ outpoint ∈ createdOutpoints header body,
            outpoint ∉ state.utxos ∧ outpoint ∉ state.stxos := by
  have hlive := live_of_noReinclusion hcf hrun hdeposits hnew
  constructor
  · rintro outpoint ⟨hutxo, hstxo⟩
    obtain ⟨output, hget⟩ := (Db.mem_iff _ _).mp hutxo
    exact hlive.disjoint outpoint output hget trivial hstxo
  · intro ctxt header body state' hok hnew' outpoint hmem
    obtain ⟨p, coinbase, dbs, hp, hsome, hcoinbase, -, -⟩ := State.applyBlock_ok hok
    rcases List.mem_append.mp hmem with hmem | hmem
    · rw [← (State.coinbaseUtxos_eq_ok.mp hcoinbase).1] at hmem
      obtain ⟨entry, hentry, rfl⟩ := List.mem_map.mp hmem
      exact hlive.coinbase_fresh hcf hp.prev_eq hcoinbase hentry
    · obtain ⟨transaction, htransaction, houtpoint⟩ := List.mem_flatMap.mp hmem
      rw [hp.transactions_eq] at htransaction
      obtain ⟨tx, htx, rfl⟩ := List.mem_map.mp htransaction
      rw [← FilledTransaction.map_fst_created (hsome tx htx)] at houtpoint
      obtain ⟨entry, hentry, rfl⟩ := List.mem_map.mp houtpoint
      exact hlive.created_fresh hcf hp
        (guards_of_noReinclusion hp (hnew' steps ctxt header body [] rfl)) htx hentry trivial

end

namespace Instance

/-- The output of `mint` is created, spent, and created again. -/
def remintActs : List (Body ⊕ TwoWayPegData) := [.inl mintBody, .inl spendBody, .inl mintBody]

theorem mint_lives_twice :
    CollisionFree ∧ State.empty.run (stepsOf remintActs) = .ok (after remintActs) ∧
      DepositsDistinct (stepsOf remintActs) ∧
      OutPoint.regular mint.txid 0 ∈ (after remintActs).utxos ∧
      OutPoint.regular mint.txid 0 ∈ (after remintActs).stxos :=
  ⟨collisionFree, eq_ok_getD State.empty (by decide +kernel), List.nodup_nil,
    by decide +kernel, by decide +kernel⟩

/-- The output of `mint` is created once and spent. -/
def spendActs : List (Body ⊕ TwoWayPegData) := [.inl mintBody, .inl spendBody]

theorem noReinclusion_spendActs : NoReinclusion (stepsOf spendActs) := by
  refine .cons ?_ (.cons ?_ .nil)
  · intro ctxt header body hstep tx htx _ _ earlier hearlier
    cases hearlier
  · intro ctxt header body hstep tx htx hinputs
    cases hstep
    obtain rfl := List.mem_singleton.mp htx
    cases hinputs

theorem outpoint_lives_once_spend :
    State.empty.run (stepsOf spendActs) = .ok (after spendActs) ∧
      (∀ outpoint, ¬ (outpoint ∈ (after spendActs).utxos ∧ outpoint ∈ (after spendActs).stxos)) := by
  have hrun : State.empty.run (stepsOf spendActs) = .ok (after spendActs) :=
    eq_ok_getD State.empty (by decide +kernel)
  exact ⟨hrun,
    (outpoint_lives_once collisionFree hrun List.nodup_nil noReinclusion_spendActs).1⟩

end Instance

end PlainBitnames
