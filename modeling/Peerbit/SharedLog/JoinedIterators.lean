import Mathlib.Data.List.Flatten
import Peerbit.SharedLog.ClosestAround

/-!
# Joined iterators

A join reads its iterators ahead into queues, and each call takes the closest elements
out of them.  It is done when its iterators are.  When a call reads the last elements of
all iterators and there are more than it returns, those that stay in the queues are never
returned (`not_complete_two`).

A call and the elements that are left after it are the elements that are left before it.
So the loop over the batches returns all elements if and only if no call is the last one
although there is more than it returns.
-/

namespace Peerbit
namespace SharedLog

/-! ### Queues -/

/-- The elements of the queues. -/
def elements (queues : List Queue) : List ReplicationRangeIndexable :=
  queues.flatMap (List.map Prod.fst)

theorem length_elements (queues : List Queue) : (elements queues).length = queued queues := by
  rw [elements, List.length_flatMap, queued]
  simp

theorem perm_modify_tail {queues : List Queue} {j : Nat}
    {el : ReplicationRangeIndexable × Nat} {rest : Queue}
    (h : queues[j]? = some (el :: rest)) :
    (el.1 :: elements (queues.modify j List.tail)).Perm (elements queues) := by
  induction queues generalizing j with
  | nil => simp at h
  | cons queue queues ih =>
      cases j with
      | zero =>
          obtain rfl : queue = el :: rest := by simpa using h
          simp [elements]
      | succ j =>
          have htail := ih (j := j) (by simpa using h)
          rw [List.modify_succ_cons]
          simp only [elements, List.flatMap_cons] at htail ⊢
          exact List.perm_middle.symm.trans (htail.append_left _)

/-- Nothing is lost, and nothing added, when elements are pulled. -/
theorem perm_pullClosest (count : Nat) (queues : List Queue) :
    ((pullClosest count queues).1 ++ elements (pullClosest count queues).2).Perm
      (elements queues) := by
  induction count generalizing queues with
  | zero => exact List.Perm.refl _
  | succ count ih =>
      rw [pullClosest]
      cases hclosest : closestQueue queues with
      | none => exact List.Perm.refl _
      | some closest =>
          obtain ⟨j, dist⟩ := closest
          obtain ⟨el, rest, hj⟩ := closestQueue_valid hclosest
          have hhead : (queues.getD j []).head?.toList.map Prod.fst = [el.1] := by
            rw [List.getD_eq_getElem?_getD, hj]
            rfl
          simp only [hhead, List.cons_append, List.nil_append]
          exact ((ih (queues.modify j List.tail)).cons el.1).trans (perm_modify_tail hj)

/-- A call that may return all elements empties the queues. -/
theorem queued_pullClosest {count : Nat} {queues : List Queue}
    (h : queued queues ≤ count) : queued (pullClosest count queues).2 = 0 := by
  induction count generalizing queues with
  | zero => simpa [pullClosest] using h
  | succ count ih =>
      rw [pullClosest]
      cases hclosest : closestQueue queues with
      | none =>
          have hempty := closestQueue_eq_none hclosest
          rw [← length_elements, List.length_eq_zero_iff]
          exact List.flatMap_eq_nil_iff.mpr (fun queue hqueue => by rw [hempty queue hqueue]; rfl)
      | some closest =>
          obtain ⟨j, dist⟩ := closest
          obtain ⟨el, rest, hj⟩ := closestQueue_valid hclosest
          have htail := queued_modify_tail hj
          exact ih (by omega)

/-! ### What is left -/

/-- An iterator with the elements that are left.  It can be read on, without elements,
only until it is done (`FiniteIterator`), and is not done before all are read. -/
class ExhaustibleIterator (ι : Type) extends FiniteIterator ι where
  /-- What holds of the iterator between the reads. -/
  Sound : ι → Prop
  rest : ι → List ReplicationRangeIndexable
  sound_next (iterator : ι) {n : Nat} (hn : 0 < n) (hsound : Sound iterator) :
    Sound (next n iterator).2
  next_rest (iterator : ι) {n : Nat} (hn : 0 < n) (hsound : Sound iterator) :
    (next n iterator).1 ++ rest (next n iterator).2 = rest iterator
  rest_of_done (iterator : ι) (hsound : Sound iterator) :
    done iterator = true → rest iterator = []

instance : ExhaustibleIterator ResultIterator where
  Sound iterator := iterator.isDone = true → iterator.arr = []
  rest iterator := iterator.arr
  sound_next iterator n _ hsound hdone := by
    refine List.drop_eq_nil_of_le ?_
    rcases (Bool.or_eq_true _ _).mp hdone with hbefore | hlast
    · rw [hsound hbefore]
      exact Nat.zero_le _
    · exact iterator.engine.le_of_isLast hlast
  next_rest iterator n _ _ := List.take_append_drop n iterator.arr
  rest_of_done _ hsound hdone := hsound hdone

section Joins

variable {ι : Type} [ExhaustibleIterator ι]

namespace JoinIterator

/-- The elements in the queues and those that are left of the iterators. -/
def remaining (iterator : JoinIterator ι) : List ReplicationRangeIndexable :=
  iterator.sources.flatMap
    (fun source => source.2.map Prod.fst ++ ExhaustibleIterator.rest source.1)

def SoundSources (iterator : JoinIterator ι) : Prop :=
  ∀ source ∈ iterator.sources, ExhaustibleIterator.Sound source.1

/-- The next call is the last one, as each iterator is done or will be when the call has
read it, and there are more elements than the call returns. -/
def Overfull (count : Nat) (iterator : JoinIterator ι) : Prop :=
  (∀ source ∈ iterator.sources, IndexIterator.done source.1 = true ∨
    (source.2.length < count ∧
      IndexIterator.done (IndexIterator.next count source.1).2 = true)) ∧
  count < iterator.remaining.length

end JoinIterator

section Fill

variable {distance : ReplicationRangeIndexable → Nat} {count : Nat} {source : ι × Queue}

theorem fillQueue_sound (hcount : 0 < count)
    (hsound : ExhaustibleIterator.Sound source.1) :
    ExhaustibleIterator.Sound (fillQueue distance count source).1 := by
  rw [fillQueue]
  split
  · exact ExhaustibleIterator.sound_next source.1 hcount hsound
  · exact hsound

/-- A refill moves elements from the iterator into its queue. -/
theorem fillQueue_rest (hcount : 0 < count)
    (hsound : ExhaustibleIterator.Sound source.1) :
    (fillQueue distance count source).2.map Prod.fst ++
        ExhaustibleIterator.rest (fillQueue distance count source).1 =
      source.2.map Prod.fst ++ ExhaustibleIterator.rest source.1 := by
  rw [fillQueue]
  split
  · have hnext := ExhaustibleIterator.next_rest source.1 hcount hsound
    simp only [List.map_append, List.map_map]
    rw [List.append_assoc, ← hnext]
    congr 2
    exact List.map_id _
  · rfl

theorem done_fillQueue :
    IndexIterator.done (fillQueue distance count source).1 = true ↔
      IndexIterator.done source.1 = true ∨ (source.2.length < count ∧
        IndexIterator.done (IndexIterator.next count source.1).2 = true) := by
  rw [fillQueue]
  cases hdone : IndexIterator.done source.1 with
  | true => simp [hdone]
  | false =>
      by_cases hshort : source.2.length < count
      · simp [hshort]
      · simp [hshort, hdone]

end Fill

/-- The elements of queues and iterators that are put together. -/
theorem perm_flatMap_zip (iterators : List ι) {queues : List Queue}
    (hlength : queues.length = iterators.length) :
    ((iterators.zip queues).flatMap
      (fun source => source.2.map Prod.fst ++ ExhaustibleIterator.rest source.1)).Perm
      (elements queues ++ iterators.flatMap ExhaustibleIterator.rest) := by
  refine (List.flatMap_append_perm _ _ _).symm.trans ?_
  have hsnd : (iterators.zip queues).map Prod.snd = queues :=
    List.map_snd_zip hlength.le
  have hfst : (iterators.zip queues).map Prod.fst = iterators :=
    List.map_fst_zip hlength.ge
  refine List.Perm.of_eq (congrArg₂ (· ++ ·) ?_ ?_)
  · conv_rhs => rw [elements, ← hsnd, List.flatMap_map]
  · conv_rhs => rw [← hfst, List.flatMap_map]

namespace JoinIterator

variable {iterator : JoinIterator ι} {count : Nat}

theorem soundSources_next (hcount : 0 < count) (hsound : iterator.SoundSources) :
    SoundSources (IndexIterator.next count iterator).2 := by
  intro source hsource
  obtain ⟨old, hold, heq⟩ := List.mem_map.mp (List.of_mem_zip hsource).1
  obtain ⟨before, hbefore, rfl⟩ := List.mem_map.mp hold
  rw [← heq]
  exact fillQueue_sound hcount (hsound before hbefore)

/-- What the refills of a call leave in all. -/
theorem perm_remaining_filled (hcount : 0 < count) (hsound : iterator.SoundSources)
    {filled : List (ι × Queue)}
    (hfilled : filled = iterator.sources.map (fillQueue iterator.distance count)) :
    (elements (filled.map Prod.snd) ++
      (filled.map Prod.fst).flatMap ExhaustibleIterator.rest).Perm iterator.remaining := by
  have hsame : filled.flatMap
      (fun source => source.2.map Prod.fst ++ ExhaustibleIterator.rest source.1) =
        iterator.remaining := by
    rw [hfilled, List.flatMap_map]
    exact List.flatMap_congr (fun source hsource => fillQueue_rest hcount (hsound source hsource))
  rw [← hsame, elements, List.flatMap_map, List.flatMap_map]
  exact List.flatMap_append_perm _ _ _

/-- A call takes what it returns off what is left. -/
theorem perm_next (hcount : 0 < count) (hsound : iterator.SoundSources) :
    ((IndexIterator.next count iterator).1 ++
      remaining (IndexIterator.next count iterator).2).Perm iterator.remaining := by
  obtain ⟨filled, hfilled⟩ : ∃ filled,
      filled = iterator.sources.map (fillQueue iterator.distance count) := ⟨_, rfl⟩
  have hlength : (pullClosest count (filled.map Prod.snd)).2.length =
      (filled.map Prod.fst).length := by
    rw [(pullClosest_spec count _).2.1, List.length_map, List.length_map]
  have hafter : (remaining (IndexIterator.next count iterator).2).Perm
      (elements (pullClosest count (filled.map Prod.snd)).2 ++
        (filled.map Prod.fst).flatMap ExhaustibleIterator.rest) := by
    rw [hfilled] at hlength ⊢
    exact perm_flatMap_zip _ hlength
  have hpage : (IndexIterator.next count iterator).1 =
      (pullClosest count (filled.map Prod.snd)).1 := by
    rw [hfilled]
    rfl
  rw [hpage]
  refine (hafter.append_left _).trans ?_
  rw [← List.append_assoc]
  exact ((perm_pullClosest count _).append_right _).trans
    (perm_remaining_filled hcount hsound hfilled)

theorem done_next :
    IndexIterator.done (IndexIterator.next count iterator).2 = true ↔
      ∀ source ∈ iterator.sources, IndexIterator.done source.1 = true ∨
        (source.2.length < count ∧
          IndexIterator.done (IndexIterator.next count source.1).2 = true) := by
  obtain ⟨filled, hfilled⟩ : ∃ filled,
      filled = iterator.sources.map (fillQueue iterator.distance count) := ⟨_, rfl⟩
  have hsources : (IndexIterator.next count iterator).2.sources =
      (filled.map Prod.fst).zip (pullClosest count (filled.map Prod.snd)).2 := by
    rw [hfilled]
    rfl
  have hlength : (filled.map Prod.fst).length ≤
      (pullClosest count (filled.map Prod.snd)).2.length := by
    rw [(pullClosest_spec count _).2.1, List.length_map, List.length_map]
  have hdone : IndexIterator.done (IndexIterator.next count iterator).2 =
      (filled.map Prod.fst).all IndexIterator.done := by
    change List.all (IndexIterator.next count iterator).2.sources _ = _
    rw [hsources, ← List.map_fst_zip hlength, List.all_map, List.map_fst_zip hlength]
    rfl
  rw [hdone, hfilled, List.all_map, List.all_map, List.all_eq_true]
  exact forall_congr' (fun source => forall_congr' (fun _ => done_fillQueue))

/-- The last call returns as many elements as are left, or as it is asked for. -/
theorem length_next_of_done (hcount : 0 < count) (hsound : iterator.SoundSources)
    (hdone : IndexIterator.done (IndexIterator.next count iterator).2 = true) :
    (IndexIterator.next count iterator).1.length =
      min count iterator.remaining.length := by
  obtain ⟨filled, hfilled⟩ : ∃ filled,
      filled = iterator.sources.map (fillQueue iterator.distance count) := ⟨_, rfl⟩
  have hempty : (filled.map Prod.fst).flatMap ExhaustibleIterator.rest = [] := by
    rw [List.flatMap_eq_nil_iff]
    intro inner hinner
    obtain ⟨source, hsource, rfl⟩ := List.mem_map.mp hinner
    obtain ⟨before, hbefore, rfl⟩ := List.mem_map.mp (hfilled ▸ hsource)
    exact ExhaustibleIterator.rest_of_done _ (fillQueue_sound hcount (hsound before hbefore))
      (done_fillQueue.mpr (done_next.mp hdone before hbefore))
  have hqueued : queued (filled.map Prod.snd) = iterator.remaining.length := by
    have hperm := perm_remaining_filled hcount hsound hfilled
    rw [hempty, List.append_nil] at hperm
    rw [← length_elements, hperm.length_eq]
  have hpage : (IndexIterator.next count iterator).1 =
      (pullClosest count (filled.map Prod.snd)).1 := by
    rw [hfilled]
    rfl
  obtain ⟨hsum, _, hfull⟩ := pullClosest_spec count (filled.map Prod.snd)
  rw [hpage]
  by_cases hmany : count ≤ queued (filled.map Prod.snd)
  · rw [hfull hmany]
    omega
  · have hzero := queued_pullClosest (show queued (filled.map Prod.snd) ≤ count by omega)
    omega

/-- A call leaves something behind in a join that is done if and only if it is overfull. -/
theorem remaining_next_iff (hcount : 0 < count) (hsound : iterator.SoundSources) :
    (IndexIterator.done (IndexIterator.next count iterator).2 = true →
      remaining (IndexIterator.next count iterator).2 = []) ↔ ¬ iterator.Overfull count := by
  rw [Overfull, ← done_next, not_and]
  refine forall_congr' (fun hdone => ?_)
  have hlength := (perm_next hcount hsound).length_eq
  rw [List.length_append, length_next_of_done hcount hsound hdone] at hlength
  rw [← List.length_eq_zero_iff]
  omega

end JoinIterator

/-! ### The loop -/

section Loop

variable {κ : Type} [IndexIterator κ]

/-- The states in which the loop over the batches calls `next`. -/
inductive Called (count : Nat) : κ → κ → Prop where
  | first {iterator : κ} (hopen : IndexIterator.done iterator = false) :
      Called count iterator iterator
  | next {iterator called : κ} (hopen : IndexIterator.done iterator = false)
      (hcalled : Called count (IndexIterator.next count iterator).2 called) :
      Called count iterator called

theorem not_called_of_done {count : Nat} {iterator called : κ}
    (hdone : IndexIterator.done iterator = true) : ¬ Called count iterator called := by
  intro hcalled
  cases hcalled with
  | first hopen => exact absurd (hopen.symm.trans hdone) (by decide)
  | next hopen _ => exact absurd (hopen.symm.trans hdone) (by decide)

theorem called_iff {count : Nat} {iterator called : κ}
    (hopen : IndexIterator.done iterator = false) :
    Called count iterator called ↔
      called = iterator ∨ Called count (IndexIterator.next count iterator).2 called := by
  constructor
  · intro hcalled
    cases hcalled with
    | first _ => exact Or.inl rfl
    | next _ hcalled => exact Or.inr hcalled
  · rintro (rfl | hcalled)
    · exact .first hopen
    · exact .next hopen hcalled

end Loop

theorem perm_readBatches_of_done {iterator : JoinIterator ι} {count : Nat}
    (hdone : IndexIterator.done iterator = true) (fuel : Nat) :
    (readBatches count fuel iterator).Perm iterator.remaining ↔
      (true = true → iterator.remaining = []) ∧
        ∀ called, Called count iterator called → ¬ called.Overfull count := by
  rw [readBatches_of_done hdone, List.nil_perm]
  exact ⟨fun h => ⟨fun _ => h, fun _ hcalled => absurd hcalled (not_called_of_done hdone)⟩,
    fun h => h.1 rfl⟩

/-- The loop returns all elements, unless one of its calls is overfull. -/
theorem perm_readBatches_iff {iterator : JoinIterator ι} {count : Nat} (hcount : 0 < count)
    (hsound : iterator.SoundSources) {fuel : Nat}
    (hfuel : FiniteIterator.cost iterator ≤ fuel) :
    (readBatches count fuel iterator).Perm iterator.remaining ↔
      (IndexIterator.done iterator = true → iterator.remaining = []) ∧
        ∀ called, Called count iterator called → ¬ called.Overfull count := by
  induction fuel generalizing iterator with
  | zero =>
      cases hdone : IndexIterator.done iterator with
      | true => exact perm_readBatches_of_done hdone 0
      | false =>
          have hcost := FiniteIterator.cost_next iterator hcount hdone
          omega
  | succ fuel ih =>
      cases hdone : IndexIterator.done iterator with
      | true => exact perm_readBatches_of_done hdone (fuel + 1)
      | false =>
          have hcost := FiniteIterator.cost_next iterator hcount hdone
          have hnext := JoinIterator.perm_next hcount hsound
          have hrest := ih (JoinIterator.soundSources_next hcount hsound)
            (show FiniteIterator.cost (IndexIterator.next count iterator).2 ≤ fuel by omega)
          have hcalled : (∀ called, Called count iterator called → ¬ called.Overfull count) ↔
              ¬ iterator.Overfull count ∧
                ∀ called, Called count (IndexIterator.next count iterator).2 called →
                  ¬ called.Overfull count := by
            simp only [called_iff hdone, forall_eq_or_imp]
          rw [readBatches, if_neg (by simp [hdone]), hcalled,
            ← JoinIterator.remaining_next_iff hcount hsound, ← hrest]
          constructor
          · intro hall
            exact ⟨fun h => absurd h (by decide),
              (List.perm_append_left_iff _).mp (hall.trans hnext.symm)⟩
          · rintro ⟨-, hall⟩
            exact (hall.append_left _).trans hnext

theorem remaining_joinIterator (iterators : List ι)
    (distance : ReplicationRangeIndexable → Nat) :
    (joinIterator iterators distance).remaining =
      iterators.flatMap ExhaustibleIterator.rest := by
  rw [JoinIterator.remaining, joinIterator, List.flatMap_map]
  rfl

/-- The loop over batches of a join ends, and returns every element of every iterator
once, if and only if no call of it is the last one although more elements are left than
it returns. -/
theorem readBatches_joinIterator_iff (iterators : List ι)
    (hsound : ∀ iterator ∈ iterators, ExhaustibleIterator.Sound iterator)
    (distance : ReplicationRangeIndexable → Nat) {count : Nat} (hcount : 0 < count) :
    (∃ fuel, ∀ more, fuel ≤ more →
      (readBatches count more (joinIterator iterators distance)).Perm
        (iterators.flatMap ExhaustibleIterator.rest)) ↔
      ∀ called, Called count (joinIterator iterators distance) called →
        ¬ called.Overfull count := by
  have hsources : (joinIterator iterators distance).SoundSources := by
    intro source hsource
    obtain ⟨iterator, hiterator, rfl⟩ := List.mem_map.mp hsource
    exact hsound iterator hiterator
  have hdone : IndexIterator.done (joinIterator iterators distance) = true →
      (joinIterator iterators distance).remaining = [] := by
    intro hdone
    rw [remaining_joinIterator, List.flatMap_eq_nil_iff]
    intro iterator hiterator
    refine ExhaustibleIterator.rest_of_done iterator (hsound iterator hiterator) ?_
    exact List.all_eq_true.mp hdone (iterator, []) (List.mem_map_of_mem hiterator)
  rw [← remaining_joinIterator iterators distance]
  constructor
  · rintro ⟨fuel, hall⟩
    exact ((perm_readBatches_iff hcount hsources (le_max_right fuel _)).mp
      (hall _ (le_max_left fuel _))).2
  · intro hcalled
    exact ⟨FiniteIterator.cost (joinIterator iterators distance), fun more hmore =>
      (perm_readBatches_iff hcount hsources hmore).mpr ⟨hdone, hcalled⟩⟩

end Joins

/-- An iterator over one range that has not been read. -/
def singleResult (start : Nat) : ResultIterator where
  arr := [{ id := "r", hash := "peer", timestamp := 0, start1 := start, end1 := start + 10,
            start2 := start, end2 := start + 10, width := 10, mode := .NonStrict }]
  isDone := false

/-- The first call reads both ranges, and returns one of them. -/
theorem not_complete_two :
    ¬ ∃ fuel, ∀ more, fuel ≤ more →
      (readBatches 1 more (joinIterator [singleResult 10, singleResult 30]
        (rangeDistance .u32 0 .above))).Perm
          ([singleResult 10, singleResult 30].flatMap ExhaustibleIterator.rest) := by
  rintro ⟨fuel, hall⟩
  have hlength := (hall (fuel + 1) (Nat.le_succ fuel)).length_eq
  rw [readBatches, if_neg (by decide)] at hlength
  rw [List.length_append, readBatches_of_done (by decide)] at hlength
  exact absurd hlength (by decide)

/-- One call returns both ranges. -/
theorem complete_two :
    ∃ fuel, ∀ more, fuel ≤ more →
      (readBatches 2 more (joinIterator [singleResult 10, singleResult 30]
        (rangeDistance .u32 0 .above))).Perm
          ([singleResult 10, singleResult 30].flatMap ExhaustibleIterator.rest) := by
  refine (readBatches_joinIterator_iff [singleResult 10, singleResult 30] ?_
    (rangeDistance .u32 0 .above) (show 0 < 2 by decide)).mpr ?_
  · simp [singleResult, ExhaustibleIterator.Sound]
  · intro called hcalled
    have hfirst : IndexIterator.done (joinIterator [singleResult 10, singleResult 30]
        (rangeDistance .u32 0 .above)) = false := by
      decide
    rcases (called_iff hfirst).mp hcalled with rfl | hlater
    · intro hoverfull
      exact absurd hoverfull.2 (by decide)
    · exact absurd hlater (not_called_of_done (by decide))

end SharedLog
end Peerbit
