import Mathlib.Data.List.Induction
import Mathlib.Algebra.BigOperators.Ring.List
import Mathlib.Algebra.Order.BigOperators.Group.List
import Mathlib.Algebra.Order.Ring.Nat
import Peerbit.SharedLog.RangeIndex

/-!
# The search around a point

`collectClosestAround` reads the ranges around a point in batches of a hundred,
from the ranges below it and those above it, and shows each to a collector.

The search is over when the iterators of the index are all done.  What their
joins have read of them and not yet yielded stays in the queues, and is never
seen.
-/

namespace Peerbit
namespace SharedLog

/-! ### What is left to read -/

/-- An iterator that every read of which takes something away, be it that the
iterator is done. -/
class FiniteIterator (ι : Type) extends IndexIterator ι where
  cost : ι → Nat
  cost_next (iterator : ι) {n : Nat} (hn : 0 < n) (hdone : done iterator = false) :
    cost (next n iterator).2 + (next n iterator).1.length < cost iterator

def ResultIterator.cost (iterator : ResultIterator) : Nat :=
  2 * iterator.arr.length + if iterator.isDone then 0 else 1

theorem ResultIterator.cost_next (iterator : ResultIterator) {n : Nat} (hn : 0 < n)
    (hdone : iterator.isDone = false) :
    (IndexIterator.next n iterator).2.cost + (IndexIterator.next n iterator).1.length <
      iterator.cost := by
  obtain ⟨arr, isDone, engine⟩ := iterator
  obtain rfl : isDone = false := hdone
  cases engine <;>
    simp only [IndexIterator.next, IndexEngine.isLast, cost, List.length_take,
      List.length_drop, Bool.false_or, decide_eq_true_eq, Bool.false_eq_true, if_false] <;>
    split <;> omega

instance : FiniteIterator ResultIterator where
  cost := ResultIterator.cost
  cost_next iterator _ hn hdone := iterator.cost_next hn hdone

/-! ### Pulling from the queues -/

theorem closestQueue_valid {queues : List Queue} {j dist : Nat}
    (h : closestQueue queues = some (j, dist)) :
    ∃ el rest, queues[j]? = some (el :: rest) := by
  have hall : ∀ closest, closestQueue queues = some closest →
      ∃ el rest, queues[closest.1]? = some (el :: rest) := by
    rw [closestQueue]
    refine List.foldlRecOn
      (motive := fun found : Option (Nat × Nat) => ∀ closest, found = some closest →
        ∃ el rest, queues[closest.1]? = some (el :: rest))
      queues.zipIdx _ (fun closest h => (nomatch h)) ?_
    rintro closest hclosest ⟨queue, i⟩ hqueue
    rw [List.mem_zipIdx_iff_getElem?] at hqueue
    cases queue with
    | nil => exact hclosest
    | cons first rest =>
        have hfirst : ∀ c, some (i, first.2) = some c →
            ∃ el rest, queues[c.1]? = some (el :: rest) := by
          rintro c hc
          obtain rfl := Option.some.inj hc
          exact ⟨first, rest, hqueue⟩
        cases closest with
        | none => exact hfirst
        | some closest =>
            simp only [List.head?_cons]
            split
            · exact hfirst
            · exact hclosest
  exact hall _ h

theorem closestQueue_eq_none {queues : List Queue}
    (h : closestQueue queues = none) : ∀ queue ∈ queues, queue = [] := by
  have hall : ∀ queue ∈ queues.zipIdx, queue.1 = [] := by
    rw [closestQueue] at h
    generalize queues.zipIdx = l at h
    induction l using List.reverseRecOn with
    | nil => exact fun queue hqueue => absurd hqueue List.not_mem_nil
    | append_singleton l queue ih =>
        rw [List.foldl_append, List.foldl_cons, List.foldl_nil] at h
        rw [List.forall_mem_append, List.forall_mem_singleton]
        split at h
        · rename_i hhead
          exact ⟨ih h, List.head?_eq_none_iff.mp hhead⟩
        · cases h
        · split at h <;> cases h
  intro queue hqueue
  obtain ⟨i, hi⟩ := List.mem_iff_getElem?.mp hqueue
  exact hall (queue, i) (List.mem_zipIdx_iff_getElem?.mpr hi)

/-- The number of results that are read and not yet yielded. -/
def queued (queues : List Queue) : Nat :=
  (queues.map List.length).sum

theorem queued_modify_tail {queues : List Queue} {j : Nat}
    {el : ReplicationRangeIndexable × Nat} {rest : Queue}
    (h : queues[j]? = some (el :: rest)) :
    queued (queues.modify j List.tail) + 1 = queued queues := by
  induction queues generalizing j with
  | nil => simp at h
  | cons queue queues ih =>
      cases j with
      | zero =>
          obtain rfl : queue = el :: rest := by simpa using h
          simp [queued]
          omega
      | succ j =>
          have htail := ih (j := j) (by simpa using h)
          simp only [queued, List.modify_succ_cons, List.map_cons, List.sum_cons] at htail ⊢
          omega

theorem pullClosest_spec (count : Nat) (queues : List Queue) :
    (pullClosest count queues).1.length + queued (pullClosest count queues).2 =
        queued queues ∧
      (pullClosest count queues).2.length = queues.length ∧
      (count ≤ queued queues → (pullClosest count queues).1.length = count) := by
  induction count generalizing queues with
  | zero => simp [pullClosest]
  | succ count ih =>
      rw [pullClosest]
      cases hclosest : closestQueue queues with
      | none =>
          have hempty := closestQueue_eq_none hclosest
          have hzero : queued queues = 0 := by
            have hmap : queues.map List.length = queues.map (fun _ => 0) :=
              List.map_congr_left (fun queue hqueue => by rw [hempty queue hqueue]; rfl)
            rw [queued, hmap, List.map_const', List.sum_replicate_nat, Nat.mul_zero]
          simp [hzero]
      | some closest =>
          obtain ⟨j, dist⟩ := closest
          obtain ⟨el, rest, hj⟩ := closestQueue_valid hclosest
          have htail := queued_modify_tail hj
          obtain ⟨hsum, hlength, hfull⟩ := ih (queues.modify j List.tail)
          have hhead : ((queues.getD j []).head?.toList.map Prod.fst).length = 1 := by
            rw [List.getD_eq_getElem?_getD, hj]
            rfl
          simp only [List.length_append, hhead]
          rw [List.length_modify] at hlength
          refine ⟨by omega, hlength, fun hcount => ?_⟩
          have hmore := hfull (by omega)
          omega

/-! ### Joins are finite -/

section Joins

variable {ι : Type} [FiniteIterator ι]

def JoinIterator.cost (iterator : JoinIterator ι) : Nat :=
  (iterator.sources.map
    (fun source => 2 * FiniteIterator.cost source.1 + 2 * source.2.length)).sum

/-- Filling a queue takes more from its iterator than it adds to the queue. -/
theorem cost_fillQueue (distance : ReplicationRangeIndexable → Nat) {count : Nat}
    (hcount : 0 < count) (source : ι × Queue) :
    FiniteIterator.cost (fillQueue distance count source).1 +
        (fillQueue distance count source).2.length ≤
      FiniteIterator.cost source.1 + source.2.length ∧
    (IndexIterator.done source.1 = false → source.2.length < count →
      FiniteIterator.cost (fillQueue distance count source).1 +
          (fillQueue distance count source).2.length <
        FiniteIterator.cost source.1 + source.2.length) := by
  rw [fillQueue]
  split
  case isTrue h =>
    have hcost := FiniteIterator.cost_next source.1 hcount h.2
    simp only [List.length_append, List.length_map]
    exact ⟨by omega, fun _ _ => by omega⟩
  case isFalse h =>
    exact ⟨Nat.le_refl _, fun hdone hlength => absurd ⟨hlength, hdone⟩ h⟩

theorem sum_cost_zip {iterators : List ι} {queues : List Queue}
    (hlength : queues.length = iterators.length) :
    ((iterators.zip queues).map (fun source =>
        2 * FiniteIterator.cost source.1 + 2 * source.2.length)).sum =
      2 * (iterators.map FiniteIterator.cost).sum + 2 * queued queues := by
  induction iterators generalizing queues with
  | nil =>
      obtain rfl := List.length_eq_zero_iff.mp hlength
      rfl
  | cons iterator iterators ih =>
      cases queues with
      | nil => cases hlength
      | cons queue queues =>
          have htail := ih (Nat.succ.inj hlength)
          simp only [queued, List.zip_cons_cons, List.map_cons, List.sum_cons] at htail ⊢
          omega

theorem sum_cost_add_queued (sources : List (ι × Queue)) :
    (sources.map (fun source =>
        FiniteIterator.cost source.1 + source.2.length)).sum =
      ((sources.map Prod.fst).map FiniteIterator.cost).sum +
        queued (sources.map Prod.snd) := by
  induction sources with
  | nil => rfl
  | cons source sources ih =>
      simp only [queued, List.map_cons, List.sum_cons] at ih ⊢
      omega

theorem JoinIterator.cost_eq (iterator : JoinIterator ι) :
    iterator.cost = 2 * (iterator.sources.map (fun source =>
      FiniteIterator.cost source.1 + source.2.length)).sum := by
  rw [JoinIterator.cost, ← List.sum_map_mul_left]
  simp only [Nat.mul_add]

theorem JoinIterator.cost_next (iterator : JoinIterator ι) {count : Nat}
    (hcount : 0 < count) (hdone : IndexIterator.done iterator = false) :
    (IndexIterator.next count iterator).2.cost +
        (IndexIterator.next count iterator).1.length < iterator.cost := by
  let filled := iterator.sources.map (fillQueue iterator.distance count)
  obtain ⟨hsum, hlength, hfull⟩ := pullClosest_spec count (filled.map Prod.snd)
  have hcost : (IndexIterator.next count iterator).2.cost =
      2 * ((filled.map Prod.fst).map FiniteIterator.cost).sum +
        2 * queued (pullClosest count (filled.map Prod.snd)).2 :=
    sum_cost_zip ((hlength.trans (List.length_map _)).trans (List.length_map _).symm)
  have hfilled := sum_cost_add_queued filled
  have hle : (filled.map (fun source =>
        FiniteIterator.cost source.1 + source.2.length)).sum ≤
      (iterator.sources.map (fun source =>
        FiniteIterator.cost source.1 + source.2.length)).sum := by
    rw [List.map_map]
    exact List.sum_le_sum fun source _ => (cost_fillQueue _ hcount source).1
  rw [hcost, iterator.cost_eq]
  change _ + (pullClosest count (filled.map Prod.snd)).1.length < _
  obtain ⟨source, hsource, hopen⟩ : ∃ source ∈ iterator.sources,
      IndexIterator.done source.1 = false := by
    simpa [IndexIterator.done] using hdone
  by_cases hshort : source.2.length < count
  · -- something is read
    have hlt : (filled.map (fun source =>
          FiniteIterator.cost source.1 + source.2.length)).sum <
        (iterator.sources.map (fun source =>
          FiniteIterator.cost source.1 + source.2.length)).sum := by
      rw [List.map_map]
      exact List.sum_lt_sum _ _ (fun source _ => (cost_fillQueue _ hcount source).1)
        ⟨source, hsource, (cost_fillQueue _ hcount source).2 hopen hshort⟩
    omega
  · -- something is pulled
    have hmany : count ≤ queued (filled.map Prod.snd) := by
      have hmem : (fillQueue iterator.distance count source).2.length ∈
          (filled.map Prod.snd).map List.length := by
        simp only [filled, List.map_map]
        exact List.mem_map.mpr ⟨source, hsource, rfl⟩
      have hle := List.single_le_sum (fun _ _ => Nat.zero_le _) _ hmem
      rw [fillQueue, if_neg (fun h => hshort h.1)] at hle
      exact Nat.le_trans (Nat.le_of_not_lt hshort) hle
    have hpulled := hfull hmany
    omega

instance : FiniteIterator (JoinIterator ι) where
  cost := JoinIterator.cost
  cost_next iterator _ hcount hdone := iterator.cost_next hcount hdone

end Joins

/-! ### Reading in batches -/

section Batches

variable {ι : Type} [IndexIterator ι] {σ : Type}

/-- The loop over a batch: it returns as soon as the collector is done. -/
def collectBatch (collector : σ → ReplicationRangeIndexable → σ) (done : σ → Bool) :
    List ReplicationRangeIndexable → σ → σ
  | [], s => s
  | rect :: res, s =>
      if done (collector s rect) then collector s rect
      else collectBatch collector done res (collector s rect)

/-- The loop over the batches. -/
def collectLoop (collector : σ → ReplicationRangeIndexable → σ) (done : σ → Bool) :
    Nat → ι → σ → σ
  | 0, _, s => s
  | fuel + 1, iterator, s =>
      if IndexIterator.done iterator || done s then s
      else
        let res := IndexIterator.next 100 iterator
        collectLoop collector done fuel res.2 (collectBatch collector done res.1 s)

/-- All that batches of a size hold. -/
def readBatches (count : Nat) : Nat → ι → List ReplicationRangeIndexable
  | 0, _ => []
  | fuel + 1, iterator =>
      if IndexIterator.done iterator then []
      else
        let res := IndexIterator.next count iterator
        res.1 ++ readBatches count fuel res.2

/-- All that the batches hold. -/
def readAll : Nat → ι → List ReplicationRangeIndexable
  | 0, _ => []
  | fuel + 1, iterator =>
      if IndexIterator.done iterator then []
      else
        let res := IndexIterator.next 100 iterator
        res.1 ++ readAll fuel res.2

theorem collectBatch_append {collector : σ → ReplicationRangeIndexable → σ}
    {done : σ → Bool} (l l' : List ReplicationRangeIndexable) {s : σ}
    (hs : done s = false) :
    collectBatch collector done (l ++ l') s =
      if done (collectBatch collector done l s) then collectBatch collector done l s
      else collectBatch collector done l' (collectBatch collector done l s) := by
  induction l generalizing s with
  | nil => simp [collectBatch, hs]
  | cons rect l ih =>
      by_cases hdone : done (collector s rect)
      · simp [collectBatch, hdone]
      · simp [collectBatch, hdone, ih (by simpa using hdone)]

/-- The search shows what the batches hold until the collector is done. -/
theorem collectLoop_eq {collector : σ → ReplicationRangeIndexable → σ}
    {done : σ → Bool} (fuel : Nat) (iterator : ι) {s : σ} (hs : done s = false) :
    collectLoop collector done fuel iterator s =
      collectBatch collector done (readAll fuel iterator) s := by
  induction fuel generalizing iterator s with
  | zero => rfl
  | succ fuel ih =>
      rw [collectLoop, readAll]
      by_cases hiterator : IndexIterator.done iterator = true
      · simp [hiterator, collectBatch]
      · simp only [hiterator, hs, Bool.or_false, Bool.false_eq_true, if_false]
        rw [collectBatch_append _ _ hs]
        split
        case isTrue hdone =>
          cases fuel with
          | zero => rfl
          | succ fuel => rw [collectLoop, hdone, Bool.or_true, if_pos rfl]
        case isFalse hdone => exact ih _ (by simpa using hdone)

theorem readAll_eq_readBatches (fuel : Nat) (iterator : ι) :
    readAll fuel iterator = readBatches 100 fuel iterator := by
  induction fuel generalizing iterator with
  | zero => rfl
  | succ fuel ih => simp only [readAll, readBatches, ih]

theorem readBatches_of_done {count fuel : Nat} {iterator : ι}
    (hdone : IndexIterator.done iterator = true) : readBatches count fuel iterator = [] := by
  cases fuel with
  | zero => rfl
  | succ fuel => rw [readBatches, if_pos hdone]

/-- More batches than an iterator costs read no more. -/
theorem readBatches_of_cost_le {ι : Type} [FiniteIterator ι] {count fuel fuel' : Nat}
    {iterator : ι} (hcount : 0 < count) (hfuel : FiniteIterator.cost iterator ≤ fuel)
    (hfuel' : FiniteIterator.cost iterator ≤ fuel') :
    readBatches count fuel iterator = readBatches count fuel' iterator := by
  induction fuel generalizing fuel' iterator with
  | zero =>
      cases hdone : IndexIterator.done iterator with
      | true => rw [readBatches_of_done hdone, readBatches_of_done hdone]
      | false =>
          have hnext := FiniteIterator.cost_next iterator Nat.one_pos hdone
          omega
  | succ fuel ih =>
      cases hdone : IndexIterator.done iterator with
      | true => rw [readBatches_of_done hdone, readBatches_of_done hdone]
      | false =>
          have hnext := FiniteIterator.cost_next iterator hcount hdone
          obtain ⟨fuel', rfl⟩ : ∃ k, fuel' = k + 1 := ⟨fuel' - 1, by omega⟩
          have hrest : readBatches count fuel (IndexIterator.next count iterator).2 =
              readBatches count fuel' (IndexIterator.next count iterator).2 :=
            ih (by omega) (by omega)
          simp only [readBatches, hdone, hrest]

theorem readAll_of_cost_le {ι : Type} [FiniteIterator ι] {fuel fuel' : Nat}
    {iterator : ι} (hfuel : FiniteIterator.cost iterator ≤ fuel)
    (hfuel' : FiniteIterator.cost iterator ≤ fuel') :
    readAll fuel iterator = readAll fuel' iterator := by
  rw [readAll_eq_readBatches, readAll_eq_readBatches]
  exact readBatches_of_cost_le (by decide) hfuel hfuel'

/-! ### What a search yields -/

section Yields

variable {ι : Type} [IndexIterator ι]
variable {P : ReplicationRangeIndexable → Prop} {Inv : ι → Prop}

/-- Reading keeps the invariant, and yields what has the property. -/
def Yields (P : ReplicationRangeIndexable → Prop) (Inv : ι → Prop) : Prop :=
  ∀ iterator n, Inv iterator → Inv (IndexIterator.next n iterator).2 ∧
    ∀ el ∈ (IndexIterator.next n iterator).1, P el

theorem Yields.of_mem_readAll (hyields : Yields P Inv) {fuel : Nat} {iterator : ι}
    (hiterator : Inv iterator) {range : ReplicationRangeIndexable}
    (h : range ∈ readAll fuel iterator) : P range := by
  induction fuel generalizing iterator with
  | zero => simp [readAll] at h
  | succ fuel ih =>
      rw [readAll] at h
      split at h
      · cases h
      · rcases List.mem_append.mp h with h | h
        · exact (hyields iterator 100 hiterator).2 range h
        · exact ih (hyields iterator 100 hiterator).1 h

theorem ResultIterator.yields (P : ReplicationRangeIndexable → Prop) :
    Yields P (fun iterator : ResultIterator => ∀ el ∈ iterator.arr, P el) :=
  fun _ _ h => ⟨fun el hel => h el (List.mem_of_mem_drop hel),
    fun el hel => h el (List.mem_of_mem_take hel)⟩

theorem queuesAll_pullClosest {count : Nat} {queues : List Queue}
    (h : QueuesAll P queues) : QueuesAll P (pullClosest count queues).2 := by
  induction count generalizing queues with
  | zero => exact h
  | succ count ih =>
      rw [pullClosest]
      split
      · exact h
      · refine ih fun queue hqueue el hel => ?_
        obtain ⟨i, hi, hget⟩ := List.mem_iff_getElem.mp hqueue
        rw [List.getElem_modify] at hget
        have hlt : i < queues.length := by simpa using hi
        rw [← hget] at hel
        split at hel
        · exact h _ (List.getElem_mem hlt) el (List.mem_of_mem_tail hel)
        · exact h _ (List.getElem_mem hlt) el hel

/-- What holds of the iterators of a join and of its queues. -/
def JoinInv (P : ReplicationRangeIndexable → Prop) (Inv : ι → Prop)
    (iterator : JoinIterator ι) : Prop :=
  ∀ source ∈ iterator.sources, Inv source.1 ∧ ∀ el ∈ source.2, P el.1

theorem Yields.join (hyields : Yields P Inv) : Yields P (JoinInv P Inv) := by
  intro iterator n hinv
  have hfill : ∀ source ∈ iterator.sources.map (fillQueue iterator.distance n),
      Inv source.1 ∧ ∀ el ∈ source.2, P el.1 := by
    intro source hsource
    obtain ⟨old, hold, rfl⟩ := List.mem_map.mp hsource
    obtain ⟨hiterator, hqueue⟩ := hinv old hold
    rw [fillQueue]
    split
    · obtain ⟨hkeep, hread⟩ := hyields old.1 n hiterator
      refine ⟨hkeep, fun el hel => ?_⟩
      rcases List.mem_append.mp hel with hel | hel
      · exact hqueue el hel
      · obtain ⟨range, hrange, rfl⟩ := List.mem_map.mp hel
        exact hread range hrange
    · exact ⟨hiterator, hqueue⟩
  have hqueues : QueuesAll P
      ((iterator.sources.map (fillQueue iterator.distance n)).map Prod.snd) := by
    intro queue hqueue
    obtain ⟨source, hsource, rfl⟩ := List.mem_map.mp hqueue
    exact (hfill source hsource).2
  refine ⟨fun source hsource => ?_, fun el hel => of_mem_pullClosest hqueues hel⟩
  obtain ⟨hfst, hsnd⟩ := List.of_mem_zip hsource
  obtain ⟨old, hold, heq⟩ := List.mem_map.mp hfst
  rw [← heq]
  exact ⟨(hfill old hold).1, fun el hel => queuesAll_pullClosest hqueues _ hsnd el hel⟩

end Yields

end Batches

/-! ### Around a point -/

/-- The `aroundIterator` of `collectClosestAround`. -/
def aroundIterator (R : Resolution) (peers : ReplicationIndex) (point : Nat)
    (engine : IndexEngine := .simple) : JoinIterator (JoinIterator ResultIterator) :=
  closestAround R peers point false false {} engine

/-- `collectClosestAround`, with a number of batches that is enough to read all
iterators (`readAll_of_cost_le`). -/
def collectClosestAround {σ : Type} (R : Resolution) (peers : ReplicationIndex)
    (collector : σ → ReplicationRangeIndexable → σ) (point : Nat) (done : σ → Bool)
    (s : σ) (engine : IndexEngine := .simple) : σ :=
  let iterator := aroundIterator R peers point engine
  collectLoop collector done (FiniteIterator.cost iterator) iterator s

/-- The ranges that a search reads when its collector is never done. -/
def readAround (R : Resolution) (peers : ReplicationIndex) (point : Nat)
    (engine : IndexEngine := .simple) : List ReplicationRangeIndexable :=
  let iterator := aroundIterator R peers point engine
  readAll (FiniteIterator.cost iterator) iterator

variable {engine : IndexEngine}

theorem collectClosestAround_eq {σ : Type} {R : Resolution} {peers : ReplicationIndex}
    {collector : σ → ReplicationRangeIndexable → σ} {point : Nat} {done : σ → Bool}
    {s : σ} (hs : done s = false) :
    collectClosestAround R peers collector point done s engine =
      collectBatch collector done (readAround R peers point engine) s :=
  collectLoop_eq _ _ hs

/-- A search reads ranges of the index that have a width and are not strict. -/
theorem of_mem_readAround {R : Resolution} {peers : ReplicationIndex} {point : Nat}
    {range : ReplicationRangeIndexable} (h : range ∈ readAround R peers point engine) :
    range ∈ peers ∧ 0 < range.width ∧ range.mode = .NonStrict := by
  let P := fun range : ReplicationRangeIndexable =>
    range ∈ peers ∧ 0 < range.width ∧ range.mode = .NonStrict
  have hresults : ∀ direction p equality, ∀ el ∈
      (closestResults direction peers p equality false {} engine).arr, P el := by
    intro direction p equality el hel
    have hfilter := (List.perm_insertionSort _ _).mem_iff.mp hel
    obtain ⟨hmem, hcandidate⟩ := List.mem_filter.mp hfilter
    have hboth := (Bool.and_eq_true _ _).mp hcandidate
    exact ⟨hmem, by simpa [closestCandidate] using hboth.2⟩
  refine (ResultIterator.yields P).join.join.of_mem_readAll ?_ h
  intro source hsource
  simp only [aroundIterator, closestAround, joinIterator, List.map_cons, List.map_nil,
    List.mem_cons, List.not_mem_nil, or_false] at hsource
  rcases hsource with rfl | rfl <;>
    refine ⟨fun inner hinner => ?_, by simp⟩ <;>
    simp only [getClosest, joinIterator, List.map_cons, List.map_nil,
      List.mem_cons, List.not_mem_nil, or_false] at hinner <;>
    rcases hinner with rfl | rfl <;>
    exact ⟨hresults _ _ _, by simp⟩

end SharedLog
end Peerbit
