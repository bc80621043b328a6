import PlainBitnames.Lib.Db

/-!
A store used as a log: entries are put under the keys of a sequence, each after
the last one in use. As long as the keys are put in the order of the store, the
log is a stack, whose last entry is the newest.
-/

namespace Db

variable {K V : Type} {cmp : K → K → Ordering} [Std.TransCmp cmp] [Std.LawfulEqCmp cmp]

theorem toList_insert_greatest {d : SortedMap K V cmp} {k : K} (v : V)
    (hgreatest : ∀ a ∈ d, cmp a k = .lt) : (d.insert k v).toList = d.toList ++ [(k, v)] := by
  have hfresh : k ∉ d := by
    intro hmem
    have hself : cmp k k = .eq := Std.ReflCmp.compare_self
    exact nomatch hself.symm.trans (hgreatest k hmem)
  have hperm : (d.insert k v).toList.Perm (d.toList ++ [(k, v)]) :=
    (toList_insert_perm v hfresh).trans (List.perm_append_singleton _ _).symm
  have hsorted : (d.toList ++ [(k, v)]).Pairwise fun a b => cmp a.1 b.1 = .lt := by
    refine List.pairwise_append.mpr ⟨d.ordered_keys_toList, List.pairwise_singleton _ _, ?_⟩
    intro entry hentry last hlast
    rw [List.mem_singleton] at hlast
    rw [hlast]
    exact hgreatest entry.1 (mem_of_get (Db.mem_toList.mp hentry))
  refine hperm.eq_of_pairwise ?_ (d.insert k v).ordered_keys_toList hsorted
  intro a b _ _ hab hba
  rw [Std.OrientedCmp.gt_of_lt hab] at hba
  cases hba

end Db

namespace AppendLog

variable {K V : Type} {cmp : K → K → Ordering} [Std.TransCmp cmp] [Std.LawfulEqCmp cmp]

/-- The store holds the entries of a list under the keys of a sequence, and
reads them in the order of the list. -/
def Holds (key : Nat → K) (d : SortedMap K V cmp) (entries : List V) : Prop :=
  d.toList = entries.zipIdx.map fun entry => (key entry.2, entry.1)

/-- The first keys of a sequence are in order. -/
def Increasing (cmp : K → K → Ordering) (key : Nat → K) (bound : Nat) : Prop :=
  ∀ i j, i < j → j < bound → cmp (key i) (key j) = .lt

variable {key : Nat → K} {d : SortedMap K V cmp} {entries : List V} {v : V} {bound : Nat}

omit [Std.LawfulEqCmp cmp] in
theorem holds_empty : Holds key (∅ : SortedMap K V cmp) [] :=
  Std.ExtTreeMap.toList_eq_nil_iff.mpr rfl

omit [Std.LawfulEqCmp cmp] in
theorem Holds.map_snd (h : Holds key d entries) : d.toList.map Prod.snd = entries := by
  rw [h, List.map_map]
  exact List.zipIdx_map_fst 0 entries

theorem Holds.mem (h : Holds key d entries) {k : K} :
    k ∈ d ↔ ∃ i < entries.length, k = key i := by
  rw [Db.mem_iff]
  simp only [← Db.mem_toList]
  rw [h]
  constructor
  · rintro ⟨v, hv⟩
    obtain ⟨⟨w, i⟩, hentry, heq⟩ := List.mem_map.mp hv
    cases heq
    exact ⟨i, by simpa using List.snd_lt_of_mem_zipIdx hentry, rfl⟩
  · rintro ⟨i, hi, rfl⟩
    exact ⟨entries[i], List.mem_map.mpr ⟨(entries[i], i), List.mk_mem_zipIdx_iff_getElem?.mpr
      (List.getElem?_eq_getElem hi), rfl⟩⟩

omit [Std.LawfulEqCmp cmp] in
/-- The last entry of the store is the newest. -/
theorem Holds.last (h : Holds key d (entries ++ [v])) :
    Db.last d = some (key entries.length, v) := by
  rw [Db.last, h, List.zipIdx_append, List.map_append]
  simp

theorem Holds.fresh (hinc : Increasing cmp key bound) (h : Holds key d entries)
    (hlength : entries.length < bound) : key entries.length ∉ d := by
  rw [h.mem]
  rintro ⟨i, hi, heq⟩
  have hself : cmp (key i) (key i) = .eq := Std.ReflCmp.compare_self
  have hlt := hinc i entries.length hi hlength
  rw [heq] at hlt
  exact nomatch hself.symm.trans hlt

theorem Holds.insert (hinc : Increasing cmp key bound) (h : Holds key d entries)
    (hlength : entries.length < bound) (v : V) :
    Holds key (d.insert (key entries.length) v) (entries ++ [v]) := by
  rw [Holds, Db.toList_insert_greatest, h, List.zipIdx_append, List.map_append]
  · simp
  · intro k hk
    obtain ⟨i, hi, rfl⟩ := h.mem.mp hk
    exact hinc i entries.length hi hlength

end AppendLog
