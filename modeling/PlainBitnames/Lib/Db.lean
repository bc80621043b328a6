import Mathlib.Data.List.Perm.Basic
import Mathlib.Data.List.Nodup
import Mathlib.Tactic
import Std.Data.ExtTreeMap

/-!
An embedded key-value store as a finite map ordered by its keys. Two stores
with the same lookups are the same store, so a statement that a computation
gives back the store it started from is an equation. The last entry of a store
is the entry with the greatest key in the order of the key type; a key type
that is stored as bytes takes its order from `byteOrd`.
-/

/-- A finite map read in the order of `cmp` on its keys. -/
abbrev SortedMap (K V : Type) (cmp : K → K → Ordering) := Std.ExtTreeMap K V cmp

/-- A store of values `V` under keys `K`, read in the order of the key type. -/
abbrev Db (K V : Type) [Ord K] := SortedMap K V compare

namespace Db

section ByteOrder

variable {K : Type} {bytes : K → List UInt8}

/-- The lexicographic order of the byte strings under which keys are stored. -/
abbrev byteOrd (bytes : K → List UInt8) : Ord K :=
  ⟨fun a b => compare (bytes a) (bytes b)⟩

theorem byteOrd_trans : @Std.TransOrd K (byteOrd bytes) :=
  inferInstanceAs (Std.TransCmp (compareOn bytes))

theorem byteOrd_lawful (hbytes : Function.Injective bytes) :
    @Std.LawfulEqOrd K (byteOrd bytes) :=
  { compare_self := fun {a} => Std.ReflOrd.compare_self (a := bytes a)
    eq_of_compare := fun h => hbytes (Std.compare_eq_iff_eq.mp h) }

end ByteOrder

variable {K V : Type} {cmp : K → K → Ordering} [Std.TransCmp cmp]

theorem get_insert_self (d : SortedMap K V cmp) (k : K) (v : V) :
    (d.insert k v)[k]? = some v :=
  Std.ExtTreeMap.getElem?_insert_self

theorem mem_iff (d : SortedMap K V cmp) (k : K) : k ∈ d ↔ ∃ v, d[k]? = some v := by
  rw [Std.ExtTreeMap.mem_iff_isSome_getElem?, Option.isSome_iff_exists]

variable {d : SortedMap K V cmp} {k : K} {v : V}

theorem mem_of_get (h : d[k]? = some v) : k ∈ d :=
  (mem_iff d k).mpr ⟨v, h⟩

theorem not_mem_iff (d : SortedMap K V cmp) (k : K) : k ∉ d ↔ d[k]? = none := by
  rw [mem_iff, not_exists, Option.eq_none_iff_forall_ne_some]

theorem get_empty (k : K) : (∅ : SortedMap K V cmp)[k]? = none :=
  Std.ExtTreeMap.getElem?_empty

theorem not_mem_empty (k : K) : k ∉ (∅ : SortedMap K V cmp) :=
  Std.ExtTreeMap.not_mem_empty

/-! Batches: the entries of a list are put, or its keys removed, in order. -/

/-- Put the entries of a list, the later ones over the earlier ones. -/
def putAll (d : SortedMap K V cmp) (entries : List (K × V)) : SortedMap K V cmp :=
  entries.foldl (fun d entry => d.insert entry.1 entry.2) d

/-- Remove the keys of a list. -/
def eraseAll (d : SortedMap K V cmp) (keys : List K) : SortedMap K V cmp :=
  keys.foldl (fun d key => d.erase key) d

@[simp] theorem putAll_nil (d : SortedMap K V cmp) : putAll d [] = d := rfl

@[simp] theorem putAll_cons (d : SortedMap K V cmp) (entry : K × V) (entries : List (K × V)) :
    putAll d (entry :: entries) = putAll (d.insert entry.1 entry.2) entries := rfl

@[simp] theorem eraseAll_nil (d : SortedMap K V cmp) : eraseAll d [] = d := rfl

@[simp] theorem eraseAll_cons (d : SortedMap K V cmp) (key : K) (keys : List K) :
    eraseAll d (key :: keys) = eraseAll (d.erase key) keys := rfl

theorem putAll_append (d : SortedMap K V cmp) (l l' : List (K × V)) :
    putAll d (l ++ l') = putAll (putAll d l) l' := by
  simp [putAll]

/-- The entry with the greatest key. -/
def last (d : SortedMap K V cmp) : Option (K × V) := d.toList.getLast?

theorem last_eq_none : last d = none ↔ d = ∅ := by
  unfold last
  rw [List.getLast?_eq_none_iff, Std.ExtTreeMap.toList_eq_nil_iff]

variable [Std.LawfulEqCmp cmp]

theorem mem_toList : (k, v) ∈ d.toList ↔ d[k]? = some v :=
  Std.ExtTreeMap.mem_toList_iff_getElem?_eq_some

theorem get_insert [DecidableEq K] (d : SortedMap K V cmp) (k a : K) (v : V) :
    (d.insert k v)[a]? = if k = a then some v else d[a]? := by
  rw [Std.ExtTreeMap.getElem?_insert]
  simp only [Std.LawfulEqCmp.compare_eq_iff_eq]

theorem get_erase [DecidableEq K] (d : SortedMap K V cmp) (k a : K) :
    (d.erase k)[a]? = if k = a then none else d[a]? := by
  rw [Std.ExtTreeMap.getElem?_erase]
  simp only [Std.LawfulEqCmp.compare_eq_iff_eq]

theorem get_insert_ne (d : SortedMap K V cmp) {a : K} (v : V) (hne : k ≠ a) :
    (d.insert k v)[a]? = d[a]? := by
  rw [Std.ExtTreeMap.getElem?_insert, if_neg (by simpa using hne)]

theorem get_insert_cases {a : K} {w : V} (h : (d.insert k v)[a]? = some w) :
    k = a ∧ v = w ∨ k ≠ a ∧ d[a]? = some w := by
  by_cases heq : k = a
  · subst heq
    rw [get_insert_self] at h
    exact .inl ⟨rfl, Option.some.inj h⟩
  · rw [get_insert_ne d v heq] at h
    exact .inr ⟨heq, h⟩

/-- What is stored stays, if a key that has a value gets the same one. -/
theorem get_insert_again {a : K} {w : V} (hagain : ∀ {w}, d[k]? = some w → w = v)
    (h : d[a]? = some w) : (d.insert k v)[a]? = some w := by
  by_cases heq : k = a
  · subst heq
    rw [get_insert_self, hagain h]
  · rw [get_insert_ne d v heq, h]

theorem get_erase_ne (d : SortedMap K V cmp) {a : K} (hne : k ≠ a) : (d.erase k)[a]? = d[a]? := by
  rw [Std.ExtTreeMap.getElem?_erase, if_neg (by simpa using hne)]

theorem mem_insert (d : SortedMap K V cmp) (k a : K) (v : V) :
    a ∈ d.insert k v ↔ k = a ∨ a ∈ d := by
  rw [Std.ExtTreeMap.mem_insert, Std.LawfulEqCmp.compare_eq_iff_eq]

/-- A table that lists the children of blocks still does so when a child of one block is added,
which gets a list of its own. -/
theorem mem_of_addChild {X : Type} {cmp' : X → X → Ordering} [Std.TransCmp cmp']
    [Std.LawfulEqCmp cmp'] {table : SortedMap K (SortedMap X Unit cmp') cmp}
    {pred list : SortedMap X Unit cmp'} {C D : X → K → Prop} {p : K} {x : X}
    (htable : ∀ {p list}, table[p]? = some list → ∀ y, y ∈ list ↔ C y p)
    (hpred : table[p]? = some pred) (hne : p ≠ k) (hfresh : table[k]? = none → ∀ y, ¬ C y k)
    (hchild : ∀ y q, D y q ↔ x = y ∧ p = q ∨ C y q) {q : K}
    (hget : ((table.insert p (pred.insert x ())).insert k
      ((table.insert p (pred.insert x ()))[k]?.getD ∅))[q]? = some list) (y : X) :
    y ∈ list ↔ D y q := by
  rw [hchild]
  rcases get_insert_cases hget with ⟨rfl, rfl⟩ | ⟨-, hget⟩
  · rw [get_insert_ne _ _ hne]
    cases hold : table[k]? with
    | some list =>
      rw [Option.getD_some, htable hold]
      exact ⟨.inr, fun hor => hor.resolve_left fun heq => hne heq.2⟩
    | none =>
      rw [Option.getD_none]
      refine ⟨fun hmem => absurd hmem (not_mem_empty _), ?_⟩
      rintro (⟨-, heq⟩ | hold')
      · exact absurd heq hne
      · exact absurd hold' (hfresh hold y)
  · rcases get_insert_cases hget with ⟨rfl, rfl⟩ | ⟨hq, hget⟩
    · rw [mem_insert, htable hpred]
      exact or_congr_left ⟨fun heq => ⟨heq, rfl⟩, fun heq => heq.1⟩
    · rw [htable hget]
      exact ⟨.inr, fun hor => hor.resolve_left fun heq => hq heq.2⟩

theorem mem_erase (d : SortedMap K V cmp) (k a : K) :
    a ∈ d.erase k ↔ k ≠ a ∧ a ∈ d := by
  rw [Std.ExtTreeMap.mem_erase, Ne, Std.LawfulEqCmp.compare_eq_iff_eq]

theorem ext {e : SortedMap K V cmp} (h : ∀ k : K, d[k]? = e[k]?) : d = e :=
  Std.ExtTreeMap.ext_getElem? (fun {k} => h k)

theorem erase_insert_of_fresh (v : V) (hfresh : k ∉ d) : (d.insert k v).erase k = d := by
  classical
  apply ext
  intro a
  rw [get_erase, get_insert]
  split
  · next h => rw [← h]; exact ((not_mem_iff d k).mp hfresh).symm
  · rfl

theorem insert_erase_of_get (h : d[k]? = some v) : (d.erase k).insert k v = d := by
  classical
  apply ext
  intro a
  rw [get_insert, get_erase]
  split
  · next hk => rw [← hk]; exact h.symm
  · rfl

theorem erase_of_not_mem (hfresh : k ∉ d) : d.erase k = d := by
  classical
  apply ext
  intro a
  rw [get_erase]
  split
  · next h => rw [← h]; exact ((not_mem_iff d k).mp hfresh).symm
  · rfl

theorem insert_erase (d : SortedMap K V cmp) (k : K) (v : V) :
    (d.erase k).insert k v = d.insert k v := by
  classical
  apply ext
  intro a
  rw [get_insert, get_insert, get_erase]
  split <;> rfl

theorem insert_insert (d : SortedMap K V cmp) (k : K) (v w : V) :
    (d.insert k v).insert k w = d.insert k w := by
  classical
  apply ext
  intro b
  rw [get_insert, get_insert, get_insert]
  split <;> rfl

variable {l : List (K × V)}

theorem get_putAll_of_not_mem (hk : k ∉ l.map Prod.fst) : (putAll d l)[k]? = d[k]? := by
  induction l generalizing d with
  | nil => rfl
  | cons entry l ih =>
    simp only [List.map_cons, List.mem_cons, not_or] at hk
    rw [putAll_cons, ih hk.2, get_insert_ne _ _ (Ne.symm hk.1)]

theorem get_putAll_of_mem (hnodup : (l.map Prod.fst).Nodup) (hmem : (k, v) ∈ l) :
    (putAll d l)[k]? = some v := by
  induction l generalizing d with
  | nil => cases hmem
  | cons entry l ih =>
    simp only [List.map_cons, List.nodup_cons] at hnodup
    rcases List.mem_cons.mp hmem with rfl | hmem
    · rw [putAll_cons, get_putAll_of_not_mem hnodup.1, get_insert_self]
    · exact ih hnodup.2 hmem

theorem mem_putAll : k ∈ putAll d l ↔ k ∈ l.map Prod.fst ∨ k ∈ d := by
  induction l generalizing d with
  | nil => simp
  | cons entry l ih =>
    rw [putAll_cons, ih, mem_insert, List.map_cons, List.mem_cons]
    tauto

theorem get_putAll_cases (h : (putAll d l)[k]? = some v) :
    (k, v) ∈ l ∨ k ∉ l.map Prod.fst ∧ d[k]? = some v := by
  induction l generalizing d with
  | nil => exact .inr ⟨by simp, h⟩
  | cons entry l ih =>
    rcases ih h with hmem | ⟨hk, hget⟩
    · exact .inl (List.mem_cons_of_mem _ hmem)
    · by_cases heq : entry.1 = k
      · rw [← heq, get_insert_self] at hget
        have hentry : (k, v) = entry := by
          rw [← heq, ← Option.some.inj hget]
        exact .inl (hentry ▸ List.mem_cons_self)
      · rw [get_insert_ne _ _ heq] at hget
        refine .inr ⟨?_, hget⟩
        simp only [List.map_cons, List.mem_cons, not_or]
        exact ⟨Ne.symm heq, hk⟩

theorem get_eraseAll_of_mem {l : List K} (hk : k ∈ l) : (eraseAll d l)[k]? = none := by
  classical
  have hnone : ∀ (l : List K) (d : SortedMap K V cmp), d[k]? = none → (eraseAll d l)[k]? = none := by
    intro l
    induction l with
    | nil => exact fun d h => h
    | cons a l ih =>
      intro d h
      refine ih _ ?_
      rw [get_erase]
      split <;> first | rfl | exact h
  induction l generalizing d with
  | nil => cases hk
  | cons a l ih =>
    rcases List.mem_cons.mp hk with rfl | hk
    · exact hnone l _ (by rw [get_erase, if_pos rfl])
    · exact ih hk

theorem get_eraseAll_of_not_mem {l : List K} (hk : k ∉ l) : (eraseAll d l)[k]? = d[k]? := by
  induction l generalizing d with
  | nil => rfl
  | cons a l ih =>
    simp only [List.mem_cons, not_or] at hk
    rw [eraseAll_cons, ih hk.2, get_erase_ne _ (Ne.symm hk.1)]

theorem mem_eraseAll {l : List K} : k ∈ eraseAll d l ↔ k ∉ l ∧ k ∈ d := by
  by_cases hk : k ∈ l
  · simp [mem_iff, get_eraseAll_of_mem hk, hk]
  · simp [mem_iff, get_eraseAll_of_not_mem hk, hk]

theorem keys_nodup (d : SortedMap K V cmp) : (d.toList.map Prod.fst).Nodup := by
  rw [List.Nodup, List.pairwise_map]
  refine d.distinct_keys_toList.imp ?_
  intro a b hne heq
  rw [heq] at hne
  exact hne Std.ReflCmp.compare_self

theorem get_putAll_toList (d e : SortedMap K V cmp) (k : K) :
    (putAll d e.toList)[k]? = e[k]?.or d[k]? := by
  cases hget : e[k]? with
  | none =>
    refine get_putAll_of_not_mem ?_
    rintro hmem
    obtain ⟨⟨a, v⟩, hentry, rfl⟩ := List.mem_map.mp hmem
    rw [mem_toList.mp hentry] at hget
    cases hget
  | some v =>
    exact get_putAll_of_mem (keys_nodup e)
      (mem_toList.mpr hget)

theorem get_putAll (d : SortedMap K V cmp) (l : List (K × V)) (k : K) :
    (putAll d l)[k]? = (putAll ∅ l : SortedMap K V cmp)[k]?.or d[k]? := by
  classical
  induction l using List.reverseRecOn with
  | nil => rw [putAll_nil, putAll_nil, get_empty, Option.none_or]
  | append_singleton l entry ih =>
    simp only [putAll_append, putAll_cons, putAll_nil]
    rw [get_insert, get_insert, ih]
    split <;> rfl

theorem putAll_toList_putAll (d : SortedMap K V cmp) (l : List (K × V)) :
    putAll d (putAll ∅ l : SortedMap K V cmp).toList = putAll d l := by
  apply ext
  intro k
  rw [get_putAll_toList, get_putAll d l]

theorem eraseAll_keys_putAll (d : SortedMap K V cmp) (l : List K) :
    eraseAll d (putAll ∅ (l.map fun key => (key, ())) : SortedMap K Unit cmp).keys =
      eraseAll d l := by
  have hkeys : ∀ k, k ∈ (putAll ∅ (l.map fun key => (key, ())) : SortedMap K Unit cmp).keys ↔
      k ∈ l := by
    intro k
    rw [Std.ExtTreeMap.mem_keys, mem_putAll, List.map_map]
    simp
  apply ext
  intro k
  by_cases hk : k ∈ l
  · rw [get_eraseAll_of_mem hk, get_eraseAll_of_mem ((hkeys k).mpr hk)]
  · rw [get_eraseAll_of_not_mem hk, get_eraseAll_of_not_mem (fun h => hk ((hkeys k).mp h))]

/-- The sum of a quantity over all entries. -/
def total (f : K → V → Nat) (d : SortedMap K V cmp) : Nat :=
  (d.toList.map fun entry => f entry.1 entry.2).sum

theorem nodup_toList (d : SortedMap K V cmp) : d.toList.Nodup := by
  refine d.distinct_keys_toList.imp ?_
  rintro a _ hne rfl
  exact hne Std.ReflCmp.compare_self

theorem toList_filter_key [DecidableEq K] (h : d[k]? = some v) :
    (d.toList.filter fun entry => decide (entry.1 = k)) = [(k, v)] := by
  rw [← List.perm_singleton, List.perm_ext_iff_of_nodup ((nodup_toList d).filter _)
    (List.nodup_singleton _)]
  rintro ⟨a, w⟩
  rw [List.mem_filter, mem_toList, decide_eq_true_eq,
    List.mem_singleton, Prod.mk.injEq]
  constructor
  · rintro ⟨hget, rfl⟩
    exact ⟨rfl, Option.some.inj (hget.symm.trans h)⟩
  · rintro ⟨rfl, rfl⟩
    exact ⟨h, rfl⟩

theorem toList_insert_perm (v : V) (hfresh : k ∉ d) :
    (d.insert k v).toList.Perm ((k, v) :: d.toList) := by
  have hget := (not_mem_iff d k).mp hfresh
  refine (List.perm_ext_iff_of_nodup (nodup_toList _) ?_).mpr ?_
  · refine List.nodup_cons.mpr ⟨?_, nodup_toList d⟩
    rw [mem_toList, hget]
    simp
  · rintro ⟨a, w⟩
    rw [mem_toList, List.mem_cons,
      mem_toList]
    by_cases ha : k = a
    · subst ha
      simp [hget, eq_comm]
    · simp [get_insert_ne _ _ ha, Ne.symm ha]

theorem total_insert_of_fresh (f : K → V → Nat) (v : V) (hfresh : k ∉ d) :
    total f (d.insert k v) = f k v + total f d := by
  unfold total
  rw [((toList_insert_perm v hfresh).map _).sum_eq]
  simp

theorem total_erase_of_get (f : K → V → Nat) (hget : d[k]? = some v) :
    f k v + total f (d.erase k) = total f d := by
  have hfresh : k ∉ d.erase k := by simp
  rw [← total_insert_of_fresh f v hfresh, insert_erase_of_get hget]

theorem total_insert_of_get (f : K → V → Nat) (w : V) (hget : d[k]? = some v) :
    f k v + total f (d.insert k w) = f k w + total f d := by
  have hfresh : k ∉ d.erase k := by simp
  rw [← insert_erase, total_insert_of_fresh f w hfresh, ← total_erase_of_get f hget]
  omega

/-- The weight of the value at a key, if there is one. -/
def weightAt (f : K → V → Nat) (d : SortedMap K V cmp) (k : K) : Nat := d[k]?.elim 0 (f k)

theorem total_erase (f : K → V → Nat) (d : SortedMap K V cmp) (k : K) :
    total f (d.erase k) + weightAt f d k = total f d := by
  unfold weightAt
  cases hget : d[k]? with
  | none => rw [erase_of_not_mem ((not_mem_iff d k).mpr hget), Option.elim_none, Nat.add_zero]
  | some v => rw [Option.elim_some, Nat.add_comm, total_erase_of_get f hget]

theorem total_eraseAll (f : K → V → Nat) (d : SortedMap K V cmp) {keys : List K}
    (hnodup : keys.Nodup) :
    total f (eraseAll d keys) + (keys.map (weightAt f d)).sum = total f d := by
  induction keys generalizing d with
  | nil => simp
  | cons key keys ih =>
    obtain ⟨hfresh, hnodup⟩ := List.nodup_cons.mp hnodup
    have hrest : keys.map (weightAt f (d.erase key)) = keys.map (weightAt f d) := by
      refine List.map_congr_left fun other hother => ?_
      unfold weightAt
      rw [get_erase_ne]
      rintro rfl
      exact hfresh hother
    have hstep := total_erase f d key
    have htail := ih (d.erase key) hnodup
    rw [hrest] at htail
    rw [eraseAll_cons, List.map_cons, List.sum_cons]
    omega

/-- Putting entries adds their weights if whatever they replace has none. -/
theorem total_putAll (f : K → V → Nat)
    (hold : ∀ entry ∈ l, ∀ v, d[entry.1]? = some v → f entry.1 v = 0)
    (hpair : l.Pairwise fun a b => a.1 = b.1 → f a.1 a.2 = 0) :
    total f (putAll d l) = total f d + (l.map fun entry => f entry.1 entry.2).sum := by
  classical
  induction l generalizing d with
  | nil => simp
  | cons entry l ih =>
    obtain ⟨hhead, hrest⟩ := List.forall_mem_cons.mp hold
    obtain ⟨hfirst, hpair⟩ := List.pairwise_cons.mp hpair
    have hinsert : total f (d.insert entry.1 entry.2) = total f d + f entry.1 entry.2 := by
      cases hget : d[entry.1]? with
      | none =>
        rw [total_insert_of_fresh f entry.2 ((not_mem_iff d _).mpr hget), Nat.add_comm]
      | some v =>
        have hstep := total_insert_of_get f entry.2 hget
        rw [hhead v hget] at hstep
        omega
    rw [putAll_cons, ih ?_ hpair, hinsert, List.map_cons, List.sum_cons, Nat.add_assoc]
    intro other hother v hget
    rw [get_insert] at hget
    split at hget
    case isTrue heq =>
      cases hget
      rw [← heq]
      exact hfirst other hother heq
    case isFalse => exact hrest other hother v hget

omit [Std.LawfulEqCmp cmp] in
@[simp] theorem total_empty (f : K → V → Nat) : total f (∅ : SortedMap K V cmp) = 0 := by
  rw [total, Std.ExtTreeMap.toList_eq_nil_iff.mpr rfl]
  rfl

theorem get_of_last (h : last d = some (k, v)) : d[k]? = some v :=
  mem_toList.mp (List.mem_of_getLast? h)

theorem lt_of_last {a : K} (h : last d = some (k, v)) (ha : a ∈ d) (hne : a ≠ k) :
    cmp a k = .lt := by
  obtain ⟨w, hget⟩ := (mem_iff d a).mp ha
  obtain ⟨init, hinit⟩ := List.getLast?_eq_some_iff.mp h
  have hmem : (a, w) ∈ d.toList := mem_toList.mpr hget
  have hsorted := d.ordered_keys_toList
  rw [hinit] at hmem hsorted
  rcases List.mem_append.mp hmem with hmem | hmem
  · exact (List.pairwise_append.mp hsorted).2.2 _ hmem (k, v) (by simp)
  · simp only [List.mem_singleton, Prod.mk.injEq] at hmem
    exact absurd hmem.1 hne

theorem last_eq_of_greatest (hget : d[k]? = some v) (hgreatest : ∀ a ∈ d, a ≠ k → cmp a k = .lt) :
    last d = some (k, v) := by
  cases hlast : last d with
  | none =>
    rw [last_eq_none.mp hlast, get_empty] at hget
    cases hget
  | some entry =>
    obtain ⟨a, w⟩ := entry
    have ha := get_of_last hlast
    by_cases heq : a = k
    · subst heq
      rw [← Option.some.inj (ha.symm.trans hget)]
    · have hlt := hgreatest a (mem_of_get ha) heq
      have hgt := Std.OrientedCmp.gt_of_lt (lt_of_last hlast (mem_of_get hget) (Ne.symm heq))
      rw [hlt] at hgt
      cases hgt

end Db
