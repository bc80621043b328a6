import PlainBitnames.Lib.Lineage

/-!
Iteration over the ancestors of a block from old to new. The ancestors are linked from
new to old, so they are read in batches: the block at the end of a batch is looked up,
and the blocks down to the start of the batch go to a buffer. The lemmas say that the
calls return the ancestors one after the other, and nothing after the last one.
-/

namespace Batches

open Fallible Lineage

variable {K I E : Type}

/-- What an iterator reads: the height of a block, an ancestor at a distance, and a
number of items from a block downwards. -/
structure Source (K I E : Type) where
  endHeight : K → Except (Failure E) Nat
  nthAncestor : K → Nat → Except (Failure E) K
  take : Nat → K → Except (Failure E) (List I)

/-- An iterator. The start of the next batch is missing when there is none, the end
height and the buffer are missing before the first call. The buffer has the newest item
first. -/
structure Iter (K I : Type) where
  batchStartHeight : Option Nat
  block : K
  inner : Option (Nat × List I)

def maxBatchSize : Nat := 32

namespace Iter

variable (src : Source K I E)

/-- The iterator over the ancestors of a block from a height. -/
def new (block : K) (startHeight : Nat) : Iter K I := ⟨some startHeight, block, none⟩

/-- The end height and the buffer. -/
def getInner (it : Iter K I) : Except (Failure E) (Nat × List I) :=
  match it.inner with
  | some inner => .ok inner
  | none => do
      let endHeight ← src.endHeight it.block
      .ok (endHeight, [])

/-- Read the batch that starts at a height. -/
def nextBatch (it : Iter K I) (endHeight start : Nat) :
    Except (Failure E) (Option I × Iter K I) := do
  let heightDiff := endHeight - start
  let offset := min heightDiff (maxBatchSize - 1)
  let batchSize := offset + 1
  let ancestor ← src.nthAncestor it.block (heightDiff - offset)
  let buffer ← src.take batchSize ancestor
  let next := start + batchSize
  .ok (buffer.getLast?, { it with
    batchStartHeight := if next < 2 ^ 32 ∧ next ≤ endHeight then some next else none
    inner := some (endHeight, buffer.dropLast) })

def next (it : Iter K I) : Except (Failure E) (Option I × Iter K I) := do
  let (endHeight, buffer) ← it.getInner src
  let it := { it with inner := some (endHeight, buffer.dropLast) }
  match buffer.getLast?, it.batchStartHeight with
  | some item, _ => .ok (some item, it)
  | none, none => .ok (none, it)
  | none, some start =>
    if endHeight < start then .ok (none, it) else it.nextBatch src endHeight start

/-- What a number of calls return. -/
def outputs : Nat → Iter K I → Except (Failure E) (List (Option I))
  | 0, _ => .ok []
  | n + 1, it => do
      let (item, it) ← it.next src
      let items ← outputs n it
      .ok (item :: items)

/-- All items. Their number is bounded. -/
def collect : Nat → Iter K I → Except (Failure E) (List I)
  | 0, _ => .ok []
  | fuel + 1, it => do
      let (item, it) ← it.next src
      match item with
      | none => .ok []
      | some item => do
          let items ← collect fuel it
          .ok (item :: items)

end Iter

/-- The items of a block and its ancestors, newest first, as a source reads them. -/
structure Reads (src : Source K I E) (block : K) (endHeight : Nat) (items : List I) : Prop where
  endHeight_eq : src.endHeight block = .ok endHeight
  lt : endHeight < 2 ^ 32
  length : items.length = endHeight + 1
  batch : ∀ n ≤ endHeight, ∃ y, src.nthAncestor block n = .ok y ∧
    ∀ k, src.take k y = .ok ((items.drop n).take k)

namespace Iter

variable {src : Source K I E} {block : K} {endHeight : Nat} {items : List I} {it : Iter K I}

/-- The items that are left, oldest first. -/
def remaining (endHeight : Nat) (items : List I) (it : Iter K I) : List I :=
  ((it.inner.map Prod.snd).getD []).reverse ++
    (it.batchStartHeight.map fun start => (items.take (endHeight + 1 - start)).reverse).getD []

/-- The iterator is one over the ancestors of a block. -/
structure Over (block : K) (endHeight : Nat) (it : Iter K I) : Prop where
  block_eq : it.block = block
  inner_eq : ∀ {height buffer}, it.inner = some (height, buffer) → height = endHeight

theorem over_new (block : K) (endHeight start : Nat) : (new block start : Iter K I).Over block
    endHeight := ⟨rfl, nofun⟩

theorem remaining_new (start : Nat) : (new block start : Iter K I).remaining endHeight items =
    (items.take (endHeight + 1 - start)).reverse := rfl

theorem getInner_eq (hreads : Reads src block endHeight items) (h : it.Over block endHeight) :
    it.getInner src = .ok (endHeight, (it.inner.map Prod.snd).getD []) := by
  unfold getInner
  split
  case h_1 inner hinner =>
    obtain ⟨height, buffer⟩ := inner
    rw [hinner, h.inner_eq hinner]
    rfl
  case h_2 hinner =>
    rw [hinner, h.block_eq, hreads.endHeight_eq, ok_bind]
    rfl

theorem head_reverse_append {l l' : List I} {x : I} (h : l.getLast? = some x) :
    l.reverse ++ l' = x :: (l.dropLast.reverse ++ l') := by
  obtain ⟨init, rfl⟩ := List.getLast?_eq_some_iff.mp h
  rw [List.reverse_append, List.dropLast_concat]
  rfl

/-- A batch holds the oldest items that are left. -/
theorem nextBatch_eq (hreads : Reads src block endHeight items) (hblock : it.block = block)
    {start : Nat} (hstart : start ≤ endHeight) :
    ∃ it', it.nextBatch src endHeight start =
        .ok ((items.take (endHeight + 1 - start)).reverse.head?, it') ∧ it'.Over block endHeight ∧
      it'.remaining endHeight items = (items.take (endHeight + 1 - start)).reverse.tail := by
  let offset := min (endHeight - start) (maxBatchSize - 1)
  let buffer := (items.drop (endHeight - start - offset)).take (offset + 1)
  have hoffset : offset ≤ endHeight - start := Nat.min_le_left _ _
  have hsplit : items.take (endHeight + 1 - start) =
      items.take (endHeight - start - offset) ++ buffer := by
    rw [show endHeight + 1 - start = endHeight - start - offset + (offset + 1) by omega,
      List.take_add]
  have hlast : ∃ item, buffer.getLast? = some item := by
    refine Option.isSome_iff_exists.mp (List.getLast?_isSome.mpr (List.ne_nil_of_length_pos ?_))
    rw [List.length_take, List.length_drop, hreads.length]
    omega
  obtain ⟨item, hitem⟩ := hlast
  obtain ⟨y, hy, htake⟩ := hreads.batch (endHeight - start - offset) (by omega)
  have hbatch : it.nextBatch src endHeight start = .ok (buffer.getLast?, { it with
      batchStartHeight := if start + (offset + 1) < 2 ^ 32 ∧ start + (offset + 1) ≤ endHeight then
        some (start + (offset + 1)) else none
      inner := some (endHeight, buffer.dropLast) }) := by
    rw [nextBatch, hblock, hy, ok_bind, htake, ok_bind]
  rw [hbatch, hsplit, List.reverse_append, head_reverse_append hitem, hitem]
  refine ⟨_, rfl, ⟨hblock, fun h => (Prod.mk.inj (Option.some.inj h)).1.symm⟩, ?_⟩
  have hlt := hreads.lt
  rw [remaining, List.tail_cons]
  congr 1
  -- the next batch starts where this one ends
  split
  case isTrue hnext =>
    rw [Option.map_some, Option.getD_some]
    congr 2
    omega
  case isFalse hnext =>
    have hnone : endHeight - start - offset = 0 := by omega
    rw [hnone]
    rfl

/-- A call returns the first item that is left. -/
theorem next_eq (hreads : Reads src block endHeight items) (h : it.Over block endHeight) :
    ∃ it', it.next src = .ok ((it.remaining endHeight items).head?, it') ∧
      it'.Over block endHeight ∧
      it'.remaining endHeight items = (it.remaining endHeight items).tail := by
  rw [next, getInner_eq hreads h, ok_bind, remaining]
  generalize (it.inner.map Prod.snd).getD [] = buffer
  dsimp only
  have hover : ∀ start buffer, (⟨start, it.block, some (endHeight, buffer)⟩ : Iter K I).Over block
      endHeight := fun _ _ =>
    ⟨h.block_eq, fun heq => (Prod.mk.inj (Option.some.inj heq)).1.symm⟩
  cases hlast : buffer.getLast? with
  | some item =>
    rw [head_reverse_append hlast]
    exact ⟨_, rfl, hover _ _, rfl⟩
  | none =>
    obtain rfl := List.getLast?_eq_none_iff.mp hlast
    cases hstart : it.batchStartHeight with
    | none => exact ⟨_, rfl, hover _ _, rfl⟩
    | some start =>
      dsimp only
      split
      case isTrue hlt =>
        have hnone : endHeight + 1 - start = 0 := by omega
        simp only [remaining, Option.map_some, Option.getD_some, hnone, List.take_zero]
        exact ⟨_, rfl, hover _ _, by simp [hnone]⟩
      case isFalse hle => exact nextBatch_eq hreads h.block_eq (Nat.not_lt.mp hle)

theorem outputs_eq (hreads : Reads src block endHeight items) (h : it.Over block endHeight)
    (n : Nat) : it.outputs src n =
      .ok ((List.range n).map fun i => (it.remaining endHeight items)[i]?) := by
  induction n generalizing it with
  | zero => rfl
  | succ n ih =>
    obtain ⟨it', hnext, hover, hremaining⟩ := next_eq hreads h
    rw [outputs, hnext, ok_bind]
    dsimp only
    rw [ih hover, ok_bind, hremaining, List.range_succ_eq_map, List.map_cons, List.map_map,
      List.head?_eq_getElem?]
    simp only [Function.comp_def, List.getElem?_tail]

theorem collect_eq (hreads : Reads src block endHeight items) (h : it.Over block endHeight)
    {fuel : Nat} (hfuel : (it.remaining endHeight items).length ≤ fuel) :
    it.collect src fuel = .ok (it.remaining endHeight items) := by
  induction fuel generalizing it with
  | zero => rw [List.eq_nil_of_length_eq_zero (Nat.le_zero.mp hfuel)]; rfl
  | succ fuel ih =>
    obtain ⟨it', hnext, hover, hremaining⟩ := next_eq hreads h
    rw [collect, hnext, ok_bind]
    cases hlist : it.remaining endHeight items with
    | nil => rfl
    | cons item rest =>
      rw [hlist] at hremaining hfuel
      rw [List.tail_cons] at hremaining
      dsimp only [List.head?_cons]
      rw [ih hover (hremaining ▸ Nat.succ_le_succ_iff.mp hfuel), ok_bind, hremaining]

end Iter

section Forest

/-- Some items from a block downwards. A step returns the item of a block and its
parent. -/
def takeFrom (step : K → Except (Failure E) (I × Option K)) : Nat → Option K →
    Except (Failure E) (List I)
  | 0, _ | _ + 1, none => .ok []
  | n + 1, some x => do
      let (item, parent) ← step x
      let items ← takeFrom step n parent
      .ok (item :: items)

variable {ix : Index K E} {parent : K → Option K} {step : K → Except (Failure E) (I × Option K)}
  {key : I → K} {x : K} {h : Nat}

/-- A step finds the item and the parent of every block of a forest. -/
def Steps (ix : Index K E) (parent : K → Option K) (step : K → Except (Failure E) (I × Option K))
    (key : I → K) : Prop :=
  ∀ ⦃x h⦄, ix.height x = some h → ∃ item, step x = .ok (item, parent x) ∧ key item = x

/-- The items of a block and its ancestors. -/
theorem exists_items (hr : Rooted parent ix.height) (hstep : Steps ix parent step key)
    (hx : ix.height x = some h) :
    ∃ items : List I, items.length = h + 1 ∧
      (∀ n y, ancestor parent n x = some y →
        ∀ k, takeFrom step k (some y) = .ok ((items.drop n).take k)) ∧
      ∀ n item, items[n]? = some item ↔ ancestor parent n x = some (key item) ∧
        step (key item) = .ok (item, parent (key item)) := by
  have hfirst : ∀ {item item'}, step (key item) = .ok (item, parent (key item)) →
      (some item = some item' ↔ some (key item) = some (key item') ∧
        step (key item') = .ok (item', parent (key item'))) := by
    intro item item' hitem
    constructor
    · intro heq
      cases heq
      exact ⟨rfl, hitem⟩
    · rintro ⟨hkey, hitem'⟩
      rw [← Option.some.inj hkey, hitem] at hitem'
      exact congrArg some (Prod.mk.inj (Except.ok.inj hitem')).1
  induction h generalizing x with
  | zero =>
    obtain ⟨item, hitem, rfl⟩ := hstep hx
    have hroot := hr.root hx
    refine ⟨[item], rfl, fun n y hy k => ?_, fun n item' => ?_⟩
    · cases n with
      | zero =>
        cases hy
        cases k with
        | zero => rfl
        | succ k =>
          rw [takeFrom, hitem, ok_bind]
          dsimp only
          rw [hroot]
          cases k <;> rfl
      | succ n =>
        rw [ancestor, hroot] at hy
        cases hy
    · cases n with
      | zero => exact hfirst hitem
      | succ n =>
        rw [ancestor, hroot]
        constructor
        · intro heq
          cases heq
        · rintro ⟨hnone, -⟩
          cases hnone
  | succ h ih =>
    obtain ⟨p, hp, hheight⟩ := hr.step hx
    obtain ⟨item, hitem, rfl⟩ := hstep hx
    obtain ⟨items, hlength, htake, hget⟩ := ih hheight
    refine ⟨item :: items, congrArg (· + 1) hlength, fun n y hy k => ?_, fun n item' => ?_⟩
    · cases n with
      | zero =>
        cases hy
        cases k with
        | zero => rfl
        | succ k =>
          rw [takeFrom, hitem, ok_bind]
          dsimp only
          rw [hp, htake 0 p rfl, ok_bind]
          rfl
      | succ n =>
        rw [ancestor, hp] at hy
        exact htake n y hy k
    · cases n with
      | zero => exact hfirst hitem
      | succ n =>
        rw [ancestor, hp]
        exact hget n item'

/-- The items of the blocks between a height and a block, oldest first. -/
structure Upwards (ix : Index K E) (parent : K → Option K)
    (step : K → Except (Failure E) (I × Option K)) (key : I → K) (x : K) (start : Nat)
    (items : List I) : Prop where
  mem : ∀ item, item ∈ items ↔ step (key item) = .ok (item, parent (key item)) ∧
    Descends parent (key item) x ∧ ∃ k, ix.height (key item) = some k ∧ start ≤ k
  sorted : items.Pairwise fun item item' => ∀ j k, ix.height (key item) = some j →
    ix.height (key item') = some k → j < k

theorem Upwards.of_items (hr : Rooted parent ix.height) (hx : ix.height x = some h)
    {items : List I} (hlength : items.length = h + 1)
    (hget : ∀ n item, items[n]? = some item ↔ ancestor parent n x = some (key item) ∧
      step (key item) = .ok (item, parent (key item))) (start : Nat) :
    Upwards ix parent step key x start (items.take (h + 1 - start)).reverse where
  mem item := by
    rw [List.mem_reverse, List.mem_take_iff_getElem]
    constructor
    · rintro ⟨n, hn, rfl⟩
      obtain ⟨hancestor, hitem⟩ := (hget n _).mp (List.getElem?_eq_getElem (by omega))
      obtain ⟨hle, hheight⟩ := hr.height_ancestor hx hancestor
      exact ⟨hitem, ⟨n, hancestor⟩, h - n, hheight, by omega⟩
    · rintro ⟨hitem, ⟨n, hancestor⟩, k, hk, hstart⟩
      obtain ⟨hle, hheight⟩ := hr.height_ancestor hx hancestor
      cases hk.symm.trans hheight
      obtain ⟨hlt, heq⟩ := List.getElem?_eq_some_iff.mp ((hget n item).mpr ⟨hancestor, hitem⟩)
      exact ⟨n, by omega, heq⟩
  sorted := by
    rw [List.pairwise_reverse]
    refine List.Pairwise.sublist (List.take_sublist _ _) ?_
    rw [List.pairwise_iff_getElem]
    intro i j hi hj hlt k l hk hl
    have hheight : ∀ n (hn : n < items.length), ix.height (key items[n]) = some (h - n) :=
      fun n hn =>
        (hr.height_ancestor hx ((hget n _).mp (List.getElem?_eq_getElem hn)).1).2
    rw [hheight j hj] at hk
    rw [hheight i hi] at hl
    cases hk
    cases hl
    omega

/-- An iterator over the ancestors of a block in a forest returns them from a height on,
oldest first, and then nothing. -/
theorem exists_outputs (hix : ix.Describes parent) (hstep : Steps ix parent step key)
    (src : Source K I E) (hend : src.endHeight x = .ok h) (hlt : h < 2 ^ 32)
    (hancestor : ∀ n, src.nthAncestor x n = ix.nthAncestor x n)
    (htake : ∀ k y, (∃ j, ix.height y = some j) → src.take k y = takeFrom step k (some y))
    (hx : ix.height x = some h) (start : Nat) :
    ∃ items, Upwards ix parent step key x start items ∧
      takeFrom step (h + 1 - start) (some x) = .ok items.reverse ∧
      (∀ n, (Iter.new x start).outputs src n = .ok ((List.range n).map (items[·]?))) ∧
      ∀ fuel, h < fuel → (Iter.new x start).collect src fuel = .ok items := by
  obtain ⟨items, hlength, hfrom, hget⟩ := exists_items hix.rooted hstep hx
  have hreads : Reads src x h items := by
    refine ⟨hend, hlt, hlength, fun n hn => ?_⟩
    obtain ⟨y, hy, hparent, hheight⟩ := Index.exists_nthAncestor hix hx hn
    exact ⟨y, (hancestor n).trans hy, fun k =>
      (htake k y ⟨_, hheight⟩).trans (hfrom n y hparent k)⟩
  refine ⟨(items.take (h + 1 - start)).reverse, .of_items hix.rooted hx hlength hget start, ?_,
    fun n => Iter.outputs_eq hreads (Iter.over_new x h start) n, fun fuel hfuel => ?_⟩
  · rw [List.reverse_reverse]
    exact hfrom 0 x rfl _
  refine Iter.collect_eq hreads (Iter.over_new x h start) ?_
  rw [Iter.remaining_new, List.length_reverse, List.length_take]
  omega

end Forest

end Batches
