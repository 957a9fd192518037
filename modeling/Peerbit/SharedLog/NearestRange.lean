import Mathlib.Data.List.Induction
import Mathlib.Order.Bounds.Basic
import Peerbit.SharedLog.RangeIndex

/-!
# The nearest range

`getClosest` joins two sorted queries: the ranges strictly beyond the point, and all
ranges from the other end of the ring on.  The first element of the join is the first one
of a query with the least distance (`fetchOne_joinIterator`).

The first element beyond the point is nearer than all others beyond it.  A range that is
not beyond the point is reached over the end of the ring, and the first element from the
other end is reached as early as any.  So the nearer one of the two is the nearest range.
-/

namespace Peerbit
namespace SharedLog

/-! ### The first element of a join -/

/-- One queue more. -/
def closerQueue (closest : Option (Nat × Nat)) (queue : Queue × Nat) : Option (Nat × Nat) :=
  match queue.1.head?, closest with
  | none, _ => closest
  | some first, none => some (queue.2, first.2)
  | some first, some (j, dist) =>
      if first.2 < dist then some (queue.2, first.2) else some (j, dist)

theorem closestQueue_eq_foldl (queues : List Queue) :
    closestQueue queues = queues.zipIdx.foldl closerQueue none :=
  rfl

/-- The least first element of the queues, and its queue; or there is none. -/
def LeastFirst (l : List (Queue × Nat)) : Option (Nat × Nat) → Prop
  | none => ∀ queue ∈ l, queue.1 = []
  | some (j, dist) =>
      (∃ el rest, (el :: rest, j) ∈ l ∧ el.2 = dist) ∧
        ∀ queue ∈ l, ∀ el, queue.1.head? = some el → dist ≤ el.2

section Closer

variable {l : List (Queue × Nat)} {closest : Option (Nat × Nat)} {i : Nat}

/-- An empty queue changes nothing. -/
theorem LeastFirst.append_nil (h : LeastFirst l closest) :
    LeastFirst (l ++ [([], i)]) closest := by
  cases closest with
  | none =>
      intro queue hqueue
      rcases List.mem_append.mp hqueue with hmem | hlast
      · exact h queue hmem
      · rw [List.mem_singleton.mp hlast]
  | some found =>
      obtain ⟨⟨el, rest, hmem, hdist⟩, hleast⟩ := h
      refine ⟨⟨el, rest, List.mem_append_left _ hmem, hdist⟩, ?_⟩
      intro queue hqueue el' hel'
      rcases List.mem_append.mp hqueue with hmem' | hlast
      · exact hleast queue hmem' el' hel'
      · rw [List.mem_singleton.mp hlast] at hel'
        cases hel'

/-- The first element of another queue is the least one so far, or it is not. -/
theorem LeastFirst.append_cons (h : LeastFirst l closest) (first : ReplicationRangeIndexable × Nat)
    (rest' : Queue) :
    LeastFirst (l ++ [(first :: rest', i)]) (closerQueue closest (first :: rest', i)) := by
  have hlast : ∀ queue ∈ [((first :: rest' : Queue), i)], ∀ el',
      queue.1.head? = some el' → first = el' := by
    intro queue hqueue el' hel'
    rw [List.mem_singleton.mp hqueue] at hel'
    exact Option.some.inj hel'
  cases closest with
  | none =>
      refine ⟨⟨first, rest', by simp, rfl⟩, fun queue hqueue el hel => ?_⟩
      rcases List.mem_append.mp hqueue with hmem | hqueue
      · rw [h queue hmem] at hel
        cases hel
      · rw [hlast queue hqueue el hel]
  | some found =>
      obtain ⟨j, dist⟩ := found
      obtain ⟨⟨el, rest, hmem, hdist⟩, hleast⟩ := h
      change LeastFirst _ (if first.2 < dist then some (i, first.2) else some (j, dist))
      split
      · rename_i hcloser
        refine ⟨⟨first, rest', by simp, rfl⟩, fun queue hqueue el' hel' => ?_⟩
        rcases List.mem_append.mp hqueue with hmem' | hqueue
        · exact hcloser.le.trans (hleast queue hmem' el' hel')
        · rw [hlast queue hqueue el' hel']
      · rename_i hfar
        refine ⟨⟨el, rest, List.mem_append_left _ hmem, hdist⟩, ?_⟩
        intro queue hqueue el' hel'
        rcases List.mem_append.mp hqueue with hmem' | hqueue
        · exact hleast queue hmem' el' hel'
        · rw [← hlast queue hqueue el' hel']
          omega

end Closer

theorem leastFirst_foldl (l : List (Queue × Nat)) :
    LeastFirst l (l.foldl closerQueue none) := by
  induction l using List.reverseRecOn with
  | nil => exact fun queue hqueue => absurd hqueue List.not_mem_nil
  | append_singleton l queue ih =>
      obtain ⟨queue, i⟩ := queue
      rw [List.foldl_append, List.foldl_cons, List.foldl_nil]
      cases queue with
      | nil => exact ih.append_nil
      | cons first rest => exact ih.append_cons first rest

section Join

variable {ι : Type} [IndexIterator ι] {iterators : List ι}
  {distance : ReplicationRangeIndexable → Nat}

/-- What the first call of a join finds in its queues. -/
def firstQueues (iterators : List ι) (distance : ReplicationRangeIndexable → Nat) :
    List Queue :=
  iterators.map (fun iterator =>
    (IndexIterator.next 1 iterator).1.map (fun el => (el, distance el)))

theorem fetchOne_joinIterator_eq
    (hopen : ∀ iterator ∈ iterators, IndexIterator.done iterator = false) :
    fetchOne (joinIterator iterators distance) =
      (closestQueue (firstQueues iterators distance)).bind (fun closest =>
        ((firstQueues iterators distance).getD closest.1 []).head?.map Prod.fst) := by
  have hqueues : (((joinIterator iterators distance).sources.map
      (fillQueue distance 1)).map Prod.snd) = firstQueues iterators distance := by
    rw [joinIterator, List.map_map, List.map_map, firstQueues]
    refine List.map_congr_left (fun iterator hiterator => ?_)
    simp [fillQueue, hopen iterator hiterator]
  have hpull : fetchOne (joinIterator iterators distance) =
      (pullClosest 1 (firstQueues iterators distance)).1.head? := by
    rw [← hqueues]
    rfl
  rw [hpull, pullClosest]
  cases closestQueue (firstQueues iterators distance) with
  | none => rfl
  | some closest =>
      simp only [Option.bind_some, pullClosest, List.append_nil]
      cases ((firstQueues iterators distance).getD closest.1 []).head? with
      | none => rfl
      | some el => rfl

variable (iterators distance) in
/-- The first element of a join is the closest one of the first elements. -/
theorem fetchOne_joinIterator
    (hopen : ∀ iterator ∈ iterators, IndexIterator.done iterator = false) :
    match fetchOne (joinIterator iterators distance) with
    | some range => (∃ iterator ∈ iterators, fetchOne iterator = some range) ∧
        ∀ iterator ∈ iterators, ∀ other, fetchOne iterator = some other →
          distance range ≤ distance other
    | none => ∀ iterator ∈ iterators, fetchOne iterator = none := by
  have hleast := leastFirst_foldl (firstQueues iterators distance).zipIdx
  rw [← closestQueue_eq_foldl] at hleast
  rw [fetchOne_joinIterator_eq hopen]
  have hqueues : ∀ iterator ∈ iterators, ∃ i,
      ((IndexIterator.next 1 iterator).1.map (fun el => (el, distance el)), i) ∈
        (firstQueues iterators distance).zipIdx := by
    intro iterator hiterator
    obtain ⟨i, hi⟩ := List.mem_iff_getElem?.mp hiterator
    refine ⟨i, List.mem_zipIdx_iff_getElem?.mpr ?_⟩
    rw [firstQueues, List.getElem?_map, hi, Option.map_some]
  have hhead : ∀ iterator : ι,
      ((IndexIterator.next 1 iterator).1.map (fun el => (el, distance el))).head? =
        (fetchOne iterator).map (fun el => (el, distance el)) :=
    fun iterator => List.head?_map
  cases hclosest : closestQueue (firstQueues iterators distance) with
  | none =>
      rw [hclosest] at hleast
      intro iterator hiterator
      obtain ⟨i, hi⟩ := hqueues iterator hiterator
      have hnone := hhead iterator
      rw [show List.map _ (IndexIterator.next 1 iterator).1 = [] from hleast _ hi] at hnone
      exact Option.map_eq_none_iff.mp hnone.symm
  | some closest =>
      obtain ⟨j, dist⟩ := closest
      rw [hclosest] at hleast
      obtain ⟨⟨el, rest, hmem, rfl⟩, hall⟩ := hleast
      have hj := List.mem_zipIdx_iff_getElem?.mp hmem
      have hget : ((firstQueues iterators distance).getD j []).head? = some el := by
        rw [List.getD_eq_getElem?_getD, hj]
        rfl
      rw [Option.bind_some, hget, Option.map_some]
      obtain ⟨iterator, hi, hqueue⟩ :=
        Option.map_eq_some_iff.mp ((List.getElem?_map ..).symm.trans hj)
      have hiterator := List.mem_of_getElem? hi
      have hfirst := hhead iterator
      rw [hqueue, List.head?_cons] at hfirst
      obtain ⟨range, hrange, hel⟩ := Option.map_eq_some_iff.mp hfirst.symm
      obtain rfl := hel
      refine ⟨⟨iterator, hiterator, hrange⟩, fun iterator' hiterator' other hother => ?_⟩
      obtain ⟨i', hi'⟩ := hqueues iterator' hiterator'
      refine hall _ hi' (other, distance other) ?_
      rw [hhead iterator', hother, Option.map_some]

end Join

/-! ### The queries -/

/-- The options that a range has to meet: a width, no strictness unless it is included,
the owner if one is given, and an age of at least, or at most, the role age. -/
structure Eligible (includeStrict : Bool) (options : ClosestOptions)
    (range : ReplicationRangeIndexable) : Prop where
  width : 0 < range.width
  mode : includeStrict = false → range.mode = .NonStrict
  owner : ∀ hash, options.hash = some hash → hash ≠ "" → range.hash = hash
  age : ∀ time, options.time = some time →
    if time.matured then (time.roleAgeLimit : Int) ≤ (time.now : Int) - range.timestamp
    else (time.now : Int) - range.timestamp ≤ time.roleAgeLimit

theorem closestCandidate_iff {includeStrict : Bool} {options : ClosestOptions}
    {range : ReplicationRangeIndexable} :
    closestCandidate includeStrict options range = true ↔
      Eligible includeStrict options range := by
  have htime : options.time.all (fun time => time.closest range) = true ↔
      ∀ time, options.time = some time →
        if time.matured then (time.roleAgeLimit : Int) ≤ (time.now : Int) - range.timestamp
        else (time.now : Int) - range.timestamp ≤ time.roleAgeLimit := by
    cases options.time with
    | none => simp
    | some time =>
        rw [Option.all_some, TimeFilter.closest]
        simp only [Option.some.injEq, forall_eq']
        split
        · rw [decide_eq_true_eq]
          omega
        · rw [decide_eq_true_eq]
          omega
  have howner : options.hash.all
        (fun hash => decide (hash = "") || decide (range.hash = hash)) = true ↔
      ∀ hash, options.hash = some hash → hash ≠ "" → range.hash = hash := by
    cases options.hash with
    | none => simp
    | some hash => simp [or_iff_not_imp_left]
  rw [closestCandidate, Bool.and_eq_true, Bool.and_eq_true, Bool.and_eq_true, htime, howner]
  constructor
  · rintro ⟨⟨⟨hage, hwidth⟩, hmode⟩, hhash⟩
    refine ⟨by simpa using hwidth, fun hstrict => ?_, hhash, hage⟩
    simpa [hstrict] using hmode
  · intro h
    refine ⟨⟨⟨h.age, by simpa using h.width⟩, ?_⟩, h.owner⟩
    cases includeStrict with
    | false => simpa using h.mode rfl
    | true => rfl

/-- The position by which a query is sorted, the nearest first. -/
def sortKey (direction : Direction) (range : ReplicationRangeIndexable) : Int :=
  match direction with
  | .below => -(range.end2 : Int)
  | _ => (range.start1 : Int)

section Sorted

variable {direction : Direction} {a b c : ReplicationRangeIndexable}

theorem closestBefore_iff :
    closestBefore direction a b = true ↔
      sortKey direction a < sortKey direction b ∨
        (sortKey direction a = sortKey direction b ∧ (a.timestamp < b.timestamp ∨
          (a.timestamp = b.timestamp ∧ a.hash ≤ b.hash))) := by
  simp only [closestBefore, Bool.or_eq_true, Bool.and_eq_true, decide_eq_true_eq]
  rfl

theorem closestBefore_total (a b : ReplicationRangeIndexable) :
    closestBefore direction a b = true ∨ closestBefore direction b a = true := by
  rw [closestBefore_iff, closestBefore_iff]
  rcases Int.lt_trichotomy (sortKey direction a) (sortKey direction b) with h | h | h
  · exact Or.inl (Or.inl h)
  · rcases Nat.lt_trichotomy a.timestamp b.timestamp with ht | ht | ht
    · exact Or.inl (Or.inr ⟨h, Or.inl ht⟩)
    · rcases String.le_total a.hash b.hash with hhash | hhash
      · exact Or.inl (Or.inr ⟨h, Or.inr ⟨ht, hhash⟩⟩)
      · exact Or.inr (Or.inr ⟨h.symm, Or.inr ⟨ht.symm, hhash⟩⟩)
    · exact Or.inr (Or.inr ⟨h.symm, Or.inl ht⟩)
  · exact Or.inr (Or.inl h)

theorem closestBefore_trans (hab : closestBefore direction a b = true)
    (hbc : closestBefore direction b c = true) : closestBefore direction a c = true := by
  rw [closestBefore_iff] at hab hbc ⊢
  rcases hab with hab | ⟨hab, htab⟩
  · rcases hbc with hbc | ⟨hbc, _⟩
    · exact Or.inl (hab.trans hbc)
    · exact Or.inl (hbc ▸ hab)
  · rcases hbc with hbc | ⟨hbc, htbc⟩
    · exact Or.inl (hab ▸ hbc)
    · refine Or.inr ⟨hab.trans hbc, ?_⟩
      rcases htab with htab | ⟨htab, hhab⟩
      · rcases htbc with htbc | ⟨htbc, _⟩
        · exact Or.inl (htab.trans htbc)
        · exact Or.inl (htbc ▸ htab)
      · rcases htbc with htbc | ⟨htbc, hhbc⟩
        · exact Or.inl (htab ▸ htbc)
        · exact Or.inr ⟨htab.trans htbc, String.le_trans hhab hhbc⟩

end Sorted

section Results

variable {direction : Direction} {rects : ReplicationIndex} {p : Nat}
  {equality includeStrict : Bool} {options : ClosestOptions} {range : ReplicationRangeIndexable}

theorem mem_closestResults :
    range ∈ (closestResults direction rects p equality includeStrict options).arr ↔
      range ∈ rects ∧ besidePoint direction p equality range = true ∧
        Eligible includeStrict options range := by
  rw [closestResults, (List.perm_insertionSort _ _).mem_iff, List.mem_filter,
    Bool.and_eq_true, closestCandidate_iff]

variable (direction rects p equality includeStrict options) in
theorem sorted_closestResults :
    (closestResults direction rects p equality includeStrict options).arr.Pairwise
      (fun a b => sortKey direction a ≤ sortKey direction b) := by
  have : Std.Total (fun a b => closestBefore direction a b = true) := ⟨closestBefore_total⟩
  have : IsTrans ReplicationRangeIndexable (fun a b => closestBefore direction a b = true) :=
    ⟨fun _ _ _ => closestBefore_trans⟩
  refine (List.pairwise_insertionSort _ _).imp (fun h => ?_)
  rcases closestBefore_iff.mp h with h | ⟨h, _⟩
  · exact h.le
  · exact h.le

variable (direction rects p equality includeStrict options) in
/-- The first result of a query is an eligible range beside the point, before all
others. -/
theorem fetchOne_closestResults :
    match fetchOne (closestResults direction rects p equality includeStrict options) with
    | some range => range ∈ rects ∧ besidePoint direction p equality range = true ∧
        Eligible includeStrict options range ∧
        ∀ other ∈ rects, besidePoint direction p equality other = true →
          Eligible includeStrict options other → sortKey direction range ≤ sortKey direction other
    | none => ∀ range ∈ rects, besidePoint direction p equality range = true →
        ¬ Eligible includeStrict options range := by
  have hfetch : fetchOne (closestResults direction rects p equality includeStrict options) =
      (closestResults direction rects p equality includeStrict options).arr.head? := by
    change (List.take 1 _).head? = _
    rw [List.head?_take, if_neg (by decide)]
  rw [hfetch]
  have hsorted := sorted_closestResults direction rects p equality includeStrict options
  cases harr : (closestResults direction rects p equality includeStrict options).arr with
  | nil =>
      intro range hrange hbeside heligible
      have hmem := mem_closestResults.mpr ⟨hrange, hbeside, heligible⟩
      rw [harr] at hmem
      cases hmem
  | cons first rest =>
      obtain ⟨hrange, hbeside, heligible⟩ := mem_closestResults.mp
        (harr ▸ List.mem_cons_self : first ∈ _)
      refine ⟨hrange, hbeside, heligible, fun other hother hbeside' heligible' => ?_⟩
      have hmem := mem_closestResults.mpr ⟨hother, hbeside', heligible'⟩
      rw [harr] at hmem hsorted
      rcases List.mem_cons.mp hmem with rfl | hrest
      · exact le_refl _
      · exact List.rel_of_pairwise_cons hsorted hrest

end Results

/-! ### The nearest range -/

/-- The boundary that is walked to. -/
def boundary (direction : Direction) (range : ReplicationRangeIndexable) : Nat :=
  match direction with
  | .below => range.end2
  | _ => range.start1

/-- From a point, upwards or downwards, a boundary is `d` steps away: straight, where no
step is none, or over the end of the ring. -/
def StepsAway (R : Resolution) (direction : Direction) (point boundary d : Nat) : Prop :=
  match direction with
  | .below => (0 < d ∧ boundary + d = point) ∨ boundary + d = R.maxValue + point
  | _ => (0 < d ∧ point + d = boundary) ∨ point + d = R.maxValue + boundary

section Nearest

variable {R : Resolution} {direction : Direction} {rects : ReplicationIndex} {point : Nat}
  {a b range : ReplicationRangeIndexable}

/-- The distance that a join sorts by is the least number of steps. -/
theorem isLeast_rangeDistance (hdirection : direction ≠ .closest) (hpoint : point ≤ R.maxValue)
    (hboundary : boundary direction range ≤ R.maxValue) :
    IsLeast {d | StepsAway R direction point (boundary direction range) d}
      (rangeDistance R point direction range) := by
  cases direction with
  | closest => exact absurd rfl hdirection
  | above =>
      simp only [boundary] at hboundary
      simp only [IsLeast, lowerBounds, Set.mem_ofPred_eq, StepsAway, boundary, rangeDistance,
        getDistance]
      split
      · exact ⟨by omega, fun d hd => by omega⟩
      · exact ⟨by omega, fun d hd => by omega⟩
  | below =>
      simp only [boundary] at hboundary
      simp only [IsLeast, lowerBounds, Set.mem_ofPred_eq, StepsAway, boundary, rangeDistance,
        getDistance]
      split
      · exact ⟨by omega, fun d hd => by omega⟩
      · exact ⟨by omega, fun d hd => by omega⟩

/-- Of two ranges beyond the point, and of two that are not, the one that is sorted first
is not further away. -/
theorem rangeDistance_le (hdirection : direction ≠ .closest) (hpoint : point ≤ R.maxValue)
    (hmax : boundary direction a ≤ R.maxValue)
    (hsame : besidePoint direction point false a = besidePoint direction point false b)
    (hkey : sortKey direction a ≤ sortKey direction b) :
    rangeDistance R point direction a ≤ rangeDistance R point direction b := by
  cases direction with
  | closest => exact absurd rfl hdirection
  | above =>
      simp only [besidePoint, decide_eq_decide] at hsame
      simp only [sortKey] at hkey
      simp only [rangeDistance, getDistance]
      split
      · split
        · omega
        · omega
      · split
        · omega
        · omega
  | below =>
      simp only [besidePoint, decide_eq_decide] at hsame
      simp only [sortKey] at hkey
      simp only [boundary] at hmax
      simp only [rangeDistance, getDistance]
      split
      · split
        · omega
        · omega
      · split
        · omega
        · omega

/-- What is sorted before a range that is not beyond the point is not beyond it. -/
theorem besidePoint_of_sortKey (hkey : sortKey direction a ≤ sortKey direction b)
    (hb : besidePoint direction point false b = false) :
    besidePoint direction point false a = false := by
  cases direction with
  | below =>
      simp only [besidePoint, decide_eq_false_iff_not, sortKey] at hb hkey ⊢
      omega
  | above =>
      simp only [besidePoint, decide_eq_false_iff_not, sortKey] at hb hkey ⊢
      omega
  | closest =>
      simp only [besidePoint, decide_eq_false_iff_not, sortKey] at hb hkey ⊢
      omega

/-- Every range is beside the other end of the ring. -/
theorem besidePoint_farEnd (hmax : boundary direction range ≤ R.maxValue) :
    besidePoint direction (if direction = .below then R.maxValue else 0) true range = true := by
  cases direction with
  | below => exact decide_eq_true hmax
  | above => exact decide_eq_true (Nat.zero_le range.start1)
  | closest => exact decide_eq_true (Nat.zero_le range.start1)

theorem boundary_le_maxValue (hshape : range.Shape R) (direction : Direction) :
    boundary direction range ≤ R.maxValue := by
  cases direction with
  | below =>
      cases hshape with
      | single _ hend _ hmax _ => exact hend.le.trans hmax
      | wrapping _ _ hend _ hmax _ => exact hend.trans hmax
  | above => exact hshape.start_le
  | closest => exact hshape.start_le

/-- The two queries of `getClosest`. -/
def closestQueries (R : Resolution) (direction : Direction) (rects : ReplicationIndex)
    (point : Nat) (includeStrict : Bool) (options : ClosestOptions) : List ResultIterator :=
  [closestResults direction rects point false includeStrict options,
    closestResults direction rects (if direction = .below then R.maxValue else 0) true
      includeStrict options]

variable {includeStrict : Bool} {options : ClosestOptions}

/-- What the queries find is eligible. -/
theorem eligible_of_fetchOne {iterator : ResultIterator}
    (hiterator : iterator ∈ closestQueries R direction rects point includeStrict options)
    (hfetch : fetchOne iterator = some range) :
    range ∈ rects ∧ Eligible includeStrict options range := by
  have hresults : ∀ p equality,
      iterator = closestResults direction rects p equality includeStrict options →
        range ∈ rects ∧ Eligible includeStrict options range := by
    rintro p equality rfl
    have hfirst := fetchOne_closestResults direction rects p equality includeStrict options
    rw [hfetch] at hfirst
    exact ⟨hfirst.1, hfirst.2.2.1⟩
  rcases List.mem_cons.mp hiterator with h | h
  · exact hresults _ _ h
  · exact hresults _ _ (List.mem_singleton.mp h)

/-- One of the queries starts with a range that is not further away than an eligible
one. -/
theorem exists_fetchOne_le (hdirection : direction ≠ .closest) (hpoint : point ≤ R.maxValue)
    (hshape : ∀ range ∈ rects, range.Shape R) (hrange : range ∈ rects)
    (heligible : Eligible includeStrict options range) :
    ∃ iterator ∈ closestQueries R direction rects point includeStrict options,
      ∃ first, fetchOne iterator = some first ∧
        rangeDistance R point direction first ≤ rangeDistance R point direction range := by
  cases hbeyond : besidePoint direction point false range with
  | true =>
      refine ⟨_, List.mem_cons_self, ?_⟩
      have hfirst := fetchOne_closestResults direction rects point false includeStrict options
      cases hfetch : fetchOne (closestResults direction rects point false includeStrict
          options) with
      | none =>
          rw [hfetch] at hfirst
          exact absurd heligible (hfirst range hrange hbeyond)
      | some first =>
          rw [hfetch] at hfirst
          obtain ⟨hmem, hbeside, _, hleast⟩ := hfirst
          refine ⟨first, rfl, rangeDistance_le hdirection hpoint
            (boundary_le_maxValue (hshape first hmem) direction) ?_
            (hleast range hrange hbeyond heligible)⟩
          rw [hbeside, hbeyond]
  | false =>
      refine ⟨_, List.mem_cons_of_mem _ List.mem_cons_self, ?_⟩
      have hend := besidePoint_farEnd (boundary_le_maxValue (hshape range hrange) direction)
      have hfirst := fetchOne_closestResults direction rects
        (if direction = .below then R.maxValue else 0) true includeStrict options
      cases hfetch : fetchOne (closestResults direction rects
          (if direction = .below then R.maxValue else 0) true includeStrict options) with
      | none =>
          rw [hfetch] at hfirst
          exact absurd heligible (hfirst range hrange hend)
      | some first =>
          rw [hfetch] at hfirst
          obtain ⟨hmem, _, _, hleast⟩ := hfirst
          have hkey := hleast range hrange hend heligible
          refine ⟨first, rfl, rangeDistance_le hdirection hpoint
            (boundary_le_maxValue (hshape first hmem) direction) ?_ hkey⟩
          rw [hbeyond, besidePoint_of_sortKey hkey hbeyond]

end Nearest

/-- The first element of `getClosest` is an eligible range, and no eligible range is fewer
steps away.  There is none only if no range is eligible.  The engine does not matter. -/
theorem nearest_getClosest {R : Resolution} {direction : Direction}
    (hdirection : direction ≠ .closest) {rects : ReplicationIndex}
    (hshape : ∀ range ∈ rects, range.Shape R) {point : Nat} (hpoint : point ≤ R.maxValue)
    (includeStrict : Bool) (options : ClosestOptions) (engine : IndexEngine) :
    match fetchOne (getClosest R direction rects point includeStrict options engine) with
    | some range => range ∈ rects ∧ Eligible includeStrict options range ∧
        ∃ d, IsLeast {d | StepsAway R direction point (boundary direction range) d} d ∧
          ∀ other ∈ rects, Eligible includeStrict options other →
            ∀ d', StepsAway R direction point (boundary direction other) d' → d ≤ d'
    | none => ∀ range ∈ rects, ¬ Eligible includeStrict options range := by
  rw [fetchOne_getClosest_engine]
  have hleast : ∀ range ∈ rects,
      IsLeast {d | StepsAway R direction point (boundary direction range) d}
        (rangeDistance R point direction range) := fun range hrange =>
    isLeast_rangeDistance hdirection hpoint (boundary_le_maxValue (hshape range hrange) direction)
  have hjoin := fetchOne_joinIterator
    (closestQueries R direction rects point includeStrict options)
    (rangeDistance R point direction) (by simp [closestQueries, closestResults, IndexIterator.done])
  have hget : getClosest R direction rects point includeStrict options =
      joinIterator (closestQueries R direction rects point includeStrict options)
        (rangeDistance R point direction) :=
    rfl
  rw [hget]
  cases hfetch : fetchOne (joinIterator
      (closestQueries R direction rects point includeStrict options)
      (rangeDistance R point direction)) with
  | none =>
      rw [hfetch] at hjoin
      intro range hrange heligible
      obtain ⟨iterator, hiterator, first, hfirst, _⟩ :=
        exists_fetchOne_le hdirection hpoint hshape hrange heligible
      rw [hjoin iterator hiterator] at hfirst
      cases hfirst
  | some range =>
      rw [hfetch] at hjoin
      obtain ⟨⟨iterator, hiterator, hfirst⟩, hclosest⟩ := hjoin
      obtain ⟨hrange, heligible⟩ := eligible_of_fetchOne hiterator hfirst
      refine ⟨hrange, heligible, _, hleast range hrange, ?_⟩
      intro other hother heligible' d' hd'
      obtain ⟨iterator', hiterator', first, hfirst', hle⟩ :=
        exists_fetchOne_le hdirection hpoint hshape hother heligible'
      exact ((hclosest iterator' hiterator' first hfirst').trans hle).trans
        ((hleast other hother).2 hd')

/-- A range of ten points. -/
def tenFromStart (start : Nat) : ReplicationRangeIndexable where
  id := "r"
  hash := "peer"
  timestamp := 0
  start1 := start
  end1 := start + 10
  start2 := start
  end2 := start + 10
  width := 10
  mode := .NonStrict

/-- Upwards from 30 one comes to 10 before one comes to 30 again. -/
theorem nearest_overTheEnd :
    ∃ range, fetchOne (getClosest .u32 .above [tenFromStart 30, tenFromStart 10] 30 false {}
        .sqlite3) = some range ∧ range.start1 = 10 ∧
      ∃ d, IsLeast {d | StepsAway .u32 .above 30 (boundary .above range) d} d ∧
        ∀ other ∈ [tenFromStart 30, tenFromStart 10], Eligible false {} other →
          ∀ d', StepsAway .u32 .above 30 (boundary .above other) d' → d ≤ d' := by
  have hshape : ∀ range ∈ [tenFromStart 30, tenFromStart 10], range.Shape .u32 := by
    simp only [List.mem_cons, List.not_mem_nil, or_false, forall_eq_or_imp, forall_eq]
    exact ⟨.single rfl rfl (by decide) (by decide) rfl,
      .single rfl rfl (by decide) (by decide) rfl⟩
  have hfetch : fetchOne (getClosest .u32 .above [tenFromStart 30, tenFromStart 10] 30 false
      {} .sqlite3) = some (tenFromStart 10) := by
    decide
  have hnearest := nearest_getClosest (show Direction.above ≠ .closest by decide) hshape
    (show 30 ≤ Resolution.maxValue .u32 by decide) false {} .sqlite3
  rw [hfetch] at hnearest
  exact ⟨tenFromStart 10, hfetch, rfl, hnearest.2.2⟩

end SharedLog
end Peerbit
