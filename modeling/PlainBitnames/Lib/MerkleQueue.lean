import PlainBitnames.Lib.MerkleTree

/-!
The complete tree built with a queue: the leaves are merged in pairs from the
end, an odd leaf is put in front, and then the two nodes at the front are merged
into one at the back until one is left. Both stages take from one row of nodes,
the leaves not yet merged followed by the queue, and merge its first two nodes
into a new last one. If the leaves stand at the positions `n - 1` to `2 n - 2`,
the row always holds the positions `k` to `2 k` for some `k`, last one first, so
every merge joins two neighbours under their parent.
-/

namespace MerkleTree

open Fallible

section Build

variable {m : Type → Type} [Monad m] {N : Type}

/-- Merge the leaves in pairs, from the last one on; an odd leaf is put in front. -/
def pairFromEnd (merge : N → N → m N) : List N → List N → m (List N)
  | right :: left :: rest, queue => do
      let parent ← merge left right
      pairFromEnd merge rest (queue ++ [parent])
  | [leaf], queue => pure (leaf :: queue)
  | [], queue => pure queue

/-- Merge the two nodes at the front into one at the back. The fuel bounds the
number of merges. -/
def mergeFront (merge : N → N → m N) (default : N) : Nat → List N → m N
  | fuel + 1, right :: left :: rest => do
      let parent ← merge left right
      mergeFront merge default fuel (rest ++ [parent])
  | _, queue => pure (queue.headD default)

/-- The root of the complete tree as `merkle_cbt` builds it. -/
def queueRoot (merge : N → N → m N) (default : N) (leaves : List N) : m N :=
  match leaves with
  | [] => pure default
  | _ :: _ => do
      let queue ← pairFromEnd merge leaves.reverse []
      mergeFront merge default queue.length queue

@[simp] theorem mergeFront_nil (merge : N → N → m N) (default : N) (fuel : Nat) :
    mergeFront merge default fuel [] = pure default := by
  cases fuel <;> rfl

@[simp] theorem mergeFront_singleton (merge : N → N → m N) (default : N) (fuel : Nat) (node : N) :
    mergeFront merge default fuel [node] = pure node := by
  cases fuel <;> rfl

theorem mergeFront_fuel (merge : N → N → m N) (default : N) {fuel fuel' : Nat} {queue : List N}
    (h : queue.length ≤ fuel) (h' : queue.length ≤ fuel') :
    mergeFront merge default fuel queue = mergeFront merge default fuel' queue := by
  induction fuel generalizing fuel' queue with
  | zero =>
    obtain rfl := List.length_eq_zero_iff.mp (Nat.le_zero.mp h)
    rw [mergeFront_nil, mergeFront_nil]
  | succ fuel ih =>
    match queue, h, h' with
    | [], _, _ => rw [mergeFront_nil, mergeFront_nil]
    | [node], _, _ => rw [mergeFront_singleton, mergeFront_singleton]
    | right :: left :: rest, h, h' =>
      obtain ⟨fuel', rfl⟩ : ∃ k, fuel' = k + 1 := ⟨fuel' - 1, by simp at h'; omega⟩
      rw [mergeFront, mergeFront]
      refine congrArg _ (funext fun parent => ih ?_ ?_)
      · simp at h ⊢; omega
      · simp at h' ⊢; omega

variable [LawfulMonad m]

/-- The two stages work on one row. -/
theorem pairFromEnd_mergeFront (merge : N → N → m N) (default : N) (fuel : Nat)
    (rev queue : List N) (h : rev.length + queue.length ≤ fuel) :
    (do let queue ← pairFromEnd merge rev queue
        mergeFront merge default queue.length queue) =
      mergeFront merge default fuel (rev ++ queue) := by
  match rev, h with
  | [], h =>
    rw [pairFromEnd, pure_bind, List.nil_append]
    exact mergeFront_fuel merge default le_rfl (by simpa using h)
  | [leaf], h =>
    rw [pairFromEnd, pure_bind, List.singleton_append]
    exact mergeFront_fuel merge default le_rfl (by simpa [Nat.add_comm] using h)
  | right :: left :: rest, h =>
    obtain ⟨fuel, rfl⟩ : ∃ k, fuel = k + 1 := ⟨fuel - 1, by simp at h; omega⟩
    rw [pairFromEnd, bind_assoc, List.cons_append, List.cons_append, mergeFront]
    refine congrArg _ (funext fun parent => ?_)
    rw [pairFromEnd_mergeFront merge default fuel rest (queue ++ [parent])
      (by simp at h ⊢; omega), List.append_assoc]

theorem queueRoot_eq (merge : N → N → m N) (default : N) (leaves : List N) :
    queueRoot merge default leaves =
      mergeFront merge default leaves.length leaves.reverse := by
  cases leaves with
  | nil => rfl
  | cons leaf leaves =>
    change (do let queue ← pairFromEnd merge (leaf :: leaves).reverse []
               mergeFront merge default queue.length queue) = _
    rw [pairFromEnd_mergeFront merge default (leaf :: leaves).length _ [] (by simp),
      List.append_nil]

end Build

section Calls

variable {N ε : Type}

/-- A merge that also writes down what it was called on. -/
def logged (merge : N → N → Except ε N) (left right : N) :
    StateT (List (N × N)) (Except ε) N := do
  modify (· ++ [(left, right)])
  merge left right

theorem logged_run (merge : N → N → Except ε N) (left right : N) (calls : List (N × N)) :
    (logged merge left right).run calls =
      (merge left right).map fun parent => (parent, calls ++ [(left, right)]) := by
  cases h : merge left right with
  | error e => simp [logged, h]; rfl
  | ok parent => simp [logged, h]; rfl

/-- What was called joins a node at an odd position with its right neighbour. -/
def JoinsNeighbours (idx : N → Nat) (calls : List (N × N)) : Prop :=
  ∀ call ∈ calls, idx call.1 % 2 = 1 ∧ idx call.2 = idx call.1 + 1

/-- A merge of neighbours succeeds at their parent's position and keeps an
invariant of the row, in which the order of the nodes does not matter. -/
structure Joins (merge : N → N → Except ε N) (idx : N → Nat) (Inv : List N → Prop) : Prop where
  perm : ∀ {row row' : List N}, row.Perm row' → Inv row → Inv row'
  join : ∀ {left right : N} {rest : List N}, idx left % 2 = 1 → idx right = idx left + 1 →
    Inv (left :: right :: rest) →
      ∃ parent, merge left right = .ok parent ∧ idx parent = (idx left - 1) / 2 ∧
        Inv (parent :: rest)

variable {merge : N → N → Except ε N} {idx : N → Nat} {Inv : List N → Prop}

/-- A row of the positions `k` to `2 k` starts with two neighbours, and their
parent stands right below the other positions. -/
theorem row_succ {k : Nat} {row : List N}
    (h : row.map idx = (List.range' (k + 1) (k + 2)).reverse) :
    ∃ right left rest, row = right :: left :: rest ∧ idx right = 2 * k + 2 ∧
      idx left = 2 * k + 1 ∧ rest.map idx = (List.range' (k + 1) k).reverse := by
  rw [List.range'_1_concat, List.range'_1_concat, List.reverse_append, List.reverse_append] at h
  match row, h with
  | [], h => simp at h
  | [_], h => simp at h
  | right :: left :: rest, h =>
    simp only [List.map_cons, List.reverse_singleton, List.singleton_append,
      List.cons.injEq] at h
    exact ⟨right, left, rest, rfl, by omega, by omega, h.2.2⟩

theorem row_snoc {k : Nat} {rest : List N} {parent : N}
    (h : rest.map idx = (List.range' (k + 1) k).reverse) (hparent : idx parent = k) :
    (rest ++ [parent]).map idx = (List.range' k (k + 1)).reverse := by
  rw [List.map_append, h, List.range'_succ, List.reverse_cons, List.map_singleton, hparent]

/-- From a row of the positions `k` to `2 k` the merges join neighbours up to the
root. -/
theorem Joins.mergeFront (hjoins : Joins merge idx Inv) (default : N) {k fuel : Nat}
    {row : List N} (hidx : row.map idx = (List.range' k (k + 1)).reverse) (hfuel : k ≤ fuel)
    (hinv : Inv row) (calls : List (N × N)) :
    ∃ root calls', (mergeFront (logged merge) default fuel row).run calls =
        .ok (root, calls ++ calls') ∧ mergeFront merge default fuel row = .ok root ∧
      JoinsNeighbours idx calls' ∧ idx root = 0 ∧ Inv [root] := by
  induction k generalizing fuel row calls with
  | zero =>
    obtain ⟨root, rfl, hroot⟩ := List.map_eq_singleton_iff.mp hidx
    rw [mergeFront_singleton, mergeFront_singleton]
    refine ⟨root, [], ?_, rfl, nofun, hroot, hinv⟩
    rw [List.append_nil]
    rfl
  | succ k ih =>
    obtain ⟨right, left, rest, rfl, hright, hleft, hrest⟩ := row_succ hidx
    obtain ⟨fuel, rfl⟩ : ∃ j, fuel = j + 1 := ⟨fuel - 1, by omega⟩
    obtain ⟨parent, hmerge, hparent, hinv⟩ := hjoins.join (by omega) (by omega)
      (hjoins.perm (List.Perm.swap left right rest) hinv)
    obtain ⟨root, calls', hrun, hplain, hcalls, hroot, hinv⟩ :=
      ih (row_snoc hrest (by omega)) (Nat.le_of_succ_le_succ hfuel)
        (hjoins.perm (List.perm_append_singleton parent rest).symm hinv) (calls ++ [(left, right)])
    refine ⟨root, (left, right) :: calls', ?_, ?_, ?_, hroot, hinv⟩
    · rw [MerkleTree.mergeFront, StateT.run_bind, logged_run, hmerge]
      rw [List.append_assoc, List.singleton_append] at hrun
      exact hrun
    · rw [MerkleTree.mergeFront, hmerge, ok_bind, hplain]
    · intro call hcall
      rcases List.mem_cons.mp hcall with rfl | hcall
      · exact ⟨by dsimp only; omega, by dsimp only; omega⟩
      · exact hcalls call hcall

/-- The node is the one of the complete tree at its position. -/
def Stands (merge : N → N → Except ε N) (default : N) (leaves : List N) (idx : N → Nat)
    (node : N) : Prop :=
  idx node + 1 < 2 * leaves.length ∧ ∀ fuel, leaves.length ≤ fuel + idx node + 1 →
    completeNode merge default leaves fuel (idx node) = .ok node

theorem stands_leaf {default : N} {leaves : List N}
    (hidx : leaves.map idx = List.range' (leaves.length - 1) leaves.length) {leaf : N}
    (hleaf : leaf ∈ leaves) : Stands merge default leaves idx leaf := by
  obtain ⟨j, hj, rfl⟩ := List.getElem_of_mem hleaf
  have hposition : idx leaves[j] = leaves.length - 1 + j := by
    have hget : (leaves.map idx)[j]? = some (leaves.length - 1 + j) := by
      rw [hidx, List.getElem?_range' hj, Nat.one_mul]
    rw [List.getElem?_map, List.getElem?_eq_getElem hj] at hget
    exact Option.some.inj hget
  have hget : leaves.getD (idx leaves[j] + 1 - leaves.length) default = leaves[j] := by
    rw [show idx leaves[j] + 1 - leaves.length = j by omega, List.getD_eq_getElem?_getD,
      List.getElem?_eq_getElem hj, Option.getD_some]
  refine ⟨by omega, fun fuel _ => ?_⟩
  cases fuel with
  | zero => exact congrArg Except.ok hget
  | succ fuel =>
    rw [completeNode, if_neg (by omega), hget]
    rfl

theorem Stands.parent {default : N} {leaves : List N} {left right parent : N}
    (hleft : Stands merge default leaves idx left) (hright : Stands merge default leaves idx right)
    (hodd : idx left % 2 = 1) (hnext : idx right = idx left + 1)
    (hmerge : merge left right = .ok parent) (hparent : idx parent = (idx left - 1) / 2) :
    Stands merge default leaves idx parent := by
  obtain ⟨_, hleft⟩ := hleft
  obtain ⟨hbound, hright⟩ := hright
  have hl : 2 * idx parent + 1 = idx left := by omega
  have hr : 2 * idx parent + 2 = idx right := by omega
  refine ⟨by omega, fun fuel hfuel => ?_⟩
  obtain ⟨fuel, rfl⟩ : ∃ k, fuel = k + 1 := ⟨fuel - 1, by omega⟩
  rw [completeNode, if_pos (by omega), hl, hr, hleft fuel (by omega), ok_bind,
    hright fuel (by omega), ok_bind, hmerge]

theorem Joins.stands (hjoins : Joins merge idx Inv) (default : N) (leaves : List N) :
    Joins merge idx fun row => Inv row ∧ ∀ node ∈ row, Stands merge default leaves idx node where
  perm := by
    rintro row row' hperm ⟨hinv, hstands⟩
    exact ⟨hjoins.perm hperm hinv, fun node hnode => hstands node (hperm.mem_iff.mpr hnode)⟩
  join := by
    rintro left right rest hodd hnext ⟨hinv, hstands⟩
    obtain ⟨parent, hmerge, hparent, hinv⟩ := hjoins.join hodd hnext hinv
    rw [List.forall_mem_cons, List.forall_mem_cons] at hstands
    obtain ⟨hleft, hright, hrest⟩ := hstands
    exact ⟨parent, hmerge, hparent, hinv, List.forall_mem_cons.mpr
      ⟨hleft.parent hright hodd hnext hmerge hparent, hrest⟩⟩

/-- The queue over leaves at their positions joins neighbours up to the root of the
complete tree. -/
theorem Joins.queueRoot (hjoins : Joins merge idx Inv) (default : N) {leaves : List N}
    (hne : leaves ≠ []) (hidx : leaves.map idx = List.range' (leaves.length - 1) leaves.length)
    (hinv : Inv leaves) :
    ∃ root calls, (queueRoot (logged merge) default leaves).run [] = .ok (root, calls) ∧
      queueRoot merge default leaves = .ok root ∧ completeRoot merge default leaves = .ok root ∧
      JoinsNeighbours idx calls ∧ idx root = 0 ∧ Inv [root] := by
  obtain ⟨k, hk⟩ : ∃ k, leaves.length = k + 1 :=
    ⟨leaves.length - 1, by have := List.length_pos_iff.mpr hne; omega⟩
  have hrow : leaves.reverse.map idx = (List.range' k (k + 1)).reverse := by
    rw [List.map_reverse, hidx, hk, Nat.add_sub_cancel]
  have hstart : Inv leaves.reverse ∧
      ∀ node ∈ leaves.reverse, Stands merge default leaves idx node :=
    ⟨hjoins.perm (List.reverse_perm leaves).symm hinv,
      fun node hnode => stands_leaf hidx (List.mem_reverse.mp hnode)⟩
  obtain ⟨root, calls, hrun, hplain, hcalls, hroot, hinv, hstands⟩ :=
    (hjoins.stands default leaves).mergeFront default hrow (by omega : k ≤ leaves.length) hstart
      []
  have hcomplete := (hstands root (by simp)).2 leaves.length (by omega)
  rw [hroot] at hcomplete
  rw [queueRoot_eq, queueRoot_eq]
  exact ⟨root, calls, hrun, hplain, hcomplete, hcalls, hroot, hinv⟩

end Calls

end MerkleTree
