import Mathlib.Data.List.Sort
import Peerbit.SharedLog.Ranges

/-!
# Queries on the replication index

The replication index holds the ranges of all peers.  It is a list here: the
order in which the index engine yields what a query without a sort finds.

The queries come in two families: the ranges that contain a point, and the
ranges that start or end closest to it.  The closest ones are read from several
sorted results at once, which `joinIterator` merges by distance.

The engines `HashmapIndex` and `SQLiteIndex` differ in when a query is done.  A first
read is the same for both (`fetchOne_getClosest_engine`); where more is read, the engine
is an argument.
-/

namespace Peerbit
namespace SharedLog

abbrev ReplicationIndex := List ReplicationRangeIndexable

/-- `options.time`. -/
structure TimeFilter where
  roleAgeLimit : Nat
  matured : Bool
  now : Nat
deriving Repr, DecidableEq

/-- `isMatured`. -/
def isMatured (segment : ReplicationRangeIndexable) (now minAge : Nat) : Bool :=
  decide ((minAge : Int) ≤ (now : Int) - segment.timestamp)

/-! ### Ranges that contain a point -/

/-- The time part of a containing query: `LessOrEqual` or `Greater`. -/
def TimeFilter.containing
    (time : TimeFilter) (range : ReplicationRangeIndexable) : Bool :=
  if time.matured then
    decide ((range.timestamp : Int) ≤ (time.now : Int) - time.roleAgeLimit)
  else
    decide ((time.now : Int) - time.roleAgeLimit < (range.timestamp : Int))

/-- `createContainingPartialPointQuery` with the index it is put to. -/
def rangesContainingPartialPoint
    (rects : ReplicationIndex) (point : Nat) (first : Bool) :
    List ReplicationRangeIndexable :=
  rects.filter (fun range =>
    if first then
      decide (range.start1 ≤ point) && decide (point < range.end1)
    else
      decide (range.start2 ≤ point) && decide (point < range.end2))

/-- `allRangesContainingPoint` for one point, without a time filter: the ranges
whose second segment contains the point, then those whose first one does. -/
def allRangesContainingPoint
    (rects : ReplicationIndex) (point : Nat) : List ReplicationRangeIndexable :=
  rangesContainingPartialPoint rects point false ++
    rangesContainingPartialPoint rects point true

/-- `createContainingPointQuery` with the index it is put to. -/
def rangesContainingPoint
    (rects : ReplicationIndex) (point : Nat) (time : Option TimeFilter) :
    List ReplicationRangeIndexable :=
  rects.filter (fun range =>
    range.contains point && time.all (fun time => time.containing range))

/-- `Sort({ key: "end2", direction: DESC })`. -/
def sortByLargestEnd2
    (ranges : List ReplicationRangeIndexable) : List ReplicationRangeIndexable :=
  ranges.insertionSort (fun a b => b.end2 ≤ a.end2)

theorem mem_rangesContainingPoint
    {rects : ReplicationIndex} {point : Nat} {time : Option TimeFilter}
    {range : ReplicationRangeIndexable} :
    range ∈ rangesContainingPoint rects point time ↔
      range ∈ rects ∧ range.contains point = true ∧
        ∀ t ∈ time, t.containing range = true := by
  cases time <;> simp [rangesContainingPoint]

theorem mem_allRangesContainingPoint
    {rects : ReplicationIndex} {point : Nat}
    {range : ReplicationRangeIndexable} :
    range ∈ allRangesContainingPoint rects point ↔
      range ∈ rects ∧ range.contains point = true := by
  simp only [allRangesContainingPoint, rangesContainingPartialPoint,
    List.mem_append, List.mem_filter, ReplicationRangeIndexable.contains_iff]
  simp
  tauto

@[simp] theorem mem_sortByLargestEnd2
    {ranges : List ReplicationRangeIndexable}
    {range : ReplicationRangeIndexable} :
    range ∈ sortByLargestEnd2 ranges ↔ range ∈ ranges :=
  (List.perm_insertionSort _ ranges).mem_iff

/-! ### Distances on the ring -/

/-- `"above" | "below" | "closest"`. -/
inductive Direction where
  | above
  | below
  | closest
deriving Repr, DecidableEq

/-- `diff`, the absolute value of the difference. -/
def diff (a b : Nat) : Nat := (a - b) + (b - a)

/-- `getDistance`, for points of the ring. -/
def getDistance (a b : Nat) (direction : Direction) (max : Nat) : Nat :=
  match direction with
  | .closest =>
      if a = b then 0
      else if diff a b < diff max (diff a b) then diff a b
      else diff max (diff a b)
  | .above => if a ≤ b then max - b + a else a - b
  | .below => if b ≤ a then max - a + b else b - a

/-- The distance `joinIterator` sorts a range by. -/
def rangeDistance
    (R : Resolution) (point : Nat) (direction : Direction)
    (range : ReplicationRangeIndexable) : Nat :=
  match direction with
  | .closest =>
      min (getDistance range.start1 point .closest R.maxValue)
        (getDistance range.end2 point .closest R.maxValue)
  | .above => getDistance range.start1 point .above R.maxValue
  | .below => getDistance range.end2 point .below R.maxValue

/-! ### Iterators -/

/-- `next` and `done` of the interface `IndexIterator`; `done` says whether
`done()` is `true` (it is `undefined` before the first read). -/
class IndexIterator (ι : Type) where
  next : Nat → ι → List ReplicationRangeIndexable × ι
  done : ι → Bool

/-- The engines of an index.  They tell the end of a query in two ways. -/
inductive IndexEngine where
  | simple
  | sqlite3
deriving Repr, DecidableEq

/-- Whether a read of `n` results is the last one, where `left` results are left.
`HashmapIndex` sees that nothing is left; `SQLiteIndex` waits for a read that is not
full. -/
def IndexEngine.isLast (engine : IndexEngine) (left n : Nat) : Bool :=
  match engine with
  | .simple => decide (left ≤ n)
  | .sqlite3 => decide (left < n)

theorem IndexEngine.le_of_isLast (engine : IndexEngine) {left n : Nat}
    (h : engine.isLast left n = true) : left ≤ n := by
  cases engine with
  | simple => exact of_decide_eq_true h
  | sqlite3 => exact (of_decide_eq_true h).le

theorem IndexEngine.isLast_of_lt (engine : IndexEngine) {left n : Nat} (h : left < n) :
    engine.isLast left n = true := by
  cases engine with
  | simple => exact decide_eq_true h.le
  | sqlite3 => exact decide_eq_true h

/-- What an index engine returns for a query: the results not yet read. -/
structure ResultIterator where
  arr : List ReplicationRangeIndexable
  isDone : Bool
  engine : IndexEngine := .simple
deriving Repr, DecidableEq

instance : IndexIterator ResultIterator where
  next n iterator :=
    (iterator.arr.take n,
      { iterator with
        arr := iterator.arr.drop n
        isDone := iterator.isDone || iterator.engine.isLast iterator.arr.length n })
  done iterator := iterator.isDone

abbrev Queue := List (ReplicationRangeIndexable × Nat)

/-- `joinIterator`: the iterators it reads, each with its queue. -/
structure JoinIterator (ι : Type) where
  distance : ReplicationRangeIndexable → Nat
  sources : List (ι × Queue)

def joinIterator
    {ι : Type} (iterators : List ι)
    (distance : ReplicationRangeIndexable → Nat) : JoinIterator ι :=
  { distance := distance
    sources := iterators.map (fun iterator => (iterator, [])) }

/-- The queue with the closest first element; the first such queue. -/
def closestQueue (queues : List Queue) : Option (Nat × Nat) :=
  queues.zipIdx.foldl
    (fun closest queue =>
      match queue.1.head?, closest with
      | none, _ => closest
      | some first, none => some (queue.2, first.2)
      | some first, some (j, dist) =>
          if first.2 < dist then some (queue.2, first.2) else some (j, dist))
    none

/-- Pull the `count` closest elements from the queues. -/
def pullClosest :
    Nat → List Queue → List ReplicationRangeIndexable × List Queue
  | 0, queues => ([], queues)
  | count + 1, queues =>
      match closestQueue queues with
      | none => ([], queues)
      | some (j, _) =>
          let closest := (queues.getD j []).head?.toList.map Prod.fst
          let pulled := pullClosest count (queues.modify j List.tail)
          (closest ++ pulled.1, pulled.2)

/-- Read on in an iterator whose queue is too short. -/
def fillQueue
    {ι : Type} [IndexIterator ι]
    (distance : ReplicationRangeIndexable → Nat) (count : Nat)
    (source : ι × Queue) : ι × Queue :=
  if source.2.length < count ∧ IndexIterator.done source.1 = false then
    let res := IndexIterator.next count source.1
    (res.2, source.2 ++ res.1.map (fun el => (el, distance el)))
  else
    source

instance {ι : Type} [IndexIterator ι] : IndexIterator (JoinIterator ι) where
  next count iterator :=
    let filled := iterator.sources.map (fillQueue iterator.distance count)
    let pulled := pullClosest count (filled.map Prod.snd)
    (pulled.1, { iterator with sources := (filled.map Prod.fst).zip pulled.2 })
  done iterator :=
    iterator.sources.all (fun source => IndexIterator.done source.1)

/-- `fetchOne`. -/
def fetchOne {ι : Type} [IndexIterator ι] (iterator : ι) :
    Option ReplicationRangeIndexable :=
  (IndexIterator.next 1 iterator).1.head?

/-- Everything in the queues has the property `P`. -/
def QueuesAll
    (P : ReplicationRangeIndexable → Prop) (queues : List Queue) : Prop :=
  ∀ queue ∈ queues, ∀ el ∈ queue, P el.1

theorem of_mem_pullClosest
    {P : ReplicationRangeIndexable → Prop}
    {count : Nat} {queues : List Queue} {range : ReplicationRangeIndexable}
    (hqueues : QueuesAll P queues)
    (hrange : range ∈ (pullClosest count queues).1) :
    P range := by
  induction count generalizing queues with
  | zero => simp [pullClosest] at hrange
  | succ count ih =>
      unfold pullClosest at hrange
      split at hrange
      · simp at hrange
      · rename_i j dist hclosest
        rcases List.mem_append.mp hrange with hhead | htail
        · rw [List.getD_eq_getElem?_getD] at hhead
          cases hj : queues[j]? with
          | none => simp [hj] at hhead
          | some queue =>
              cases queue with
              | nil => simp [hj] at hhead
              | cons el queue =>
                  simp only [hj, Option.getD_some, List.head?_cons,
                    Option.toList_some, List.map_cons, List.map_nil,
                    List.mem_singleton] at hhead
                  rw [hhead]
                  exact hqueues _ (List.mem_of_getElem? hj) el
                    List.mem_cons_self
        · refine ih ?_ htail
          intro queue hqueue el hel
          obtain ⟨i, hi, hget⟩ := List.mem_iff_getElem.mp hqueue
          rw [List.getElem_modify] at hget
          have hlt : i < queues.length := by simpa using hi
          split at hget
          · rw [← hget] at hel
            exact hqueues _ (List.getElem_mem hlt) el (List.mem_of_mem_tail hel)
          · rw [← hget] at hel
            exact hqueues _ (List.getElem_mem hlt) el hel

/-- A join yields what its iterators yield. -/
theorem of_mem_next_joinIterator
    {ι : Type} [IndexIterator ι] {P : ReplicationRangeIndexable → Prop}
    {iterators : List ι} {distance : ReplicationRangeIndexable → Nat}
    {count : Nat} {range : ReplicationRangeIndexable}
    (hiterators : ∀ iterator ∈ iterators, ∀ el,
      el ∈ (IndexIterator.next count iterator).1 → P el)
    (hrange : range ∈
      (IndexIterator.next count (joinIterator iterators distance)).1) :
    P range := by
  refine of_mem_pullClosest ?_ hrange
  intro queue hqueue el hel
  simp only [joinIterator, List.map_map, List.mem_map,
    Function.comp_apply] at hqueue
  obtain ⟨iterator, hiterator, rfl⟩ := hqueue
  unfold fillQueue at hel
  split at hel
  · simp only [List.nil_append, List.mem_map] at hel
    obtain ⟨x, hx, rfl⟩ := hel
    exact hiterators iterator hiterator x hx
  · simp at hel

/-! ### Ranges closest to a point -/

/-- The time part of a closest query: `LessOrEqual` or `GreaterOrEqual`. -/
def TimeFilter.closest
    (time : TimeFilter) (range : ReplicationRangeIndexable) : Bool :=
  if time.matured then
    decide ((range.timestamp : Int) ≤ (time.now : Int) - time.roleAgeLimit)
  else
    decide ((time.now : Int) - time.roleAgeLimit ≤ (range.timestamp : Int))

/-- The options of `getClosest`. -/
structure ClosestOptions where
  hash : Option PeerHash := none
  time : Option TimeFilter := none
deriving Repr, DecidableEq

/-- The queries of `getClosest` that do not depend on the point. -/
def closestCandidate
    (includeStrict : Bool) (options : ClosestOptions)
    (range : ReplicationRangeIndexable) : Bool :=
  options.time.all (fun time => time.closest range) &&
    decide (0 < range.width) &&
    (includeStrict || decide (range.mode = .NonStrict)) &&
    -- an empty hash is as good as none
    options.hash.all (fun hash => decide (hash = "") || decide (range.hash = hash))

/-- `createQueries`: below or above the point. -/
def besidePoint
    (direction : Direction) (p : Nat) (equality : Bool)
    (range : ReplicationRangeIndexable) : Bool :=
  match direction, equality with
  | .below, true => decide (range.end2 ≤ p)
  | .below, false => decide (range.end2 < p)
  | _, true => decide (p ≤ range.start1)
  | _, false => decide (p < range.start1)

/-- The sort of a closest query: by position, then the oldest, then by hash. -/
def closestBefore
    (direction : Direction) (a b : ReplicationRangeIndexable) : Bool :=
  let key := fun (range : ReplicationRangeIndexable) =>
    match direction with
    | .below => -(range.end2 : Int)
    | _ => (range.start1 : Int)
  decide (key a < key b) ||
    (decide (key a = key b) &&
      (decide (a.timestamp < b.timestamp) ||
        (decide (a.timestamp = b.timestamp) && decide (a.hash ≤ b.hash))))

/-- One of the two iterators of `getClosest`. -/
def closestResults
    (direction : Direction) (rects : ReplicationIndex) (p : Nat)
    (equality includeStrict : Bool) (options : ClosestOptions)
    (engine : IndexEngine := .simple) : ResultIterator :=
  { arr := (rects.filter (fun range =>
      besidePoint direction p equality range &&
        closestCandidate includeStrict options range)).insertionSort
          (fun a b => closestBefore direction a b = true)
    isDone := false
    engine := engine }

/-- `getClosest`: the results beside the point, joined with those from the
other end of the ring. -/
def getClosest
    (R : Resolution) (direction : Direction) (rects : ReplicationIndex)
    (point : Nat) (includeStrict : Bool) (options : ClosestOptions)
    (engine : IndexEngine := .simple) : JoinIterator ResultIterator :=
  let farEnd := if direction = .below then R.maxValue else 0
  joinIterator
    [closestResults direction rects point false includeStrict options engine,
      closestResults direction rects farEnd true includeStrict options engine]
    (rangeDistance R point direction)

/-- The iterator that joins the closest ranges below and above a point. -/
def closestAround
    (R : Resolution) (rects : ReplicationIndex) (point : Nat)
    (includeStrictBelow includeStrictAbove : Bool) (options : ClosestOptions)
    (engine : IndexEngine := .simple) : JoinIterator (JoinIterator ResultIterator) :=
  joinIterator
    [getClosest R .below rects point includeStrictBelow options engine,
      getClosest R .above rects point includeStrictAbove options engine]
    (rangeDistance R point .closest)

/-- A first read is the same for both engines. -/
theorem fetchOne_getClosest_engine
    (R : Resolution) (direction : Direction) (rects : ReplicationIndex)
    (point : Nat) (includeStrict : Bool) (options : ClosestOptions)
    (engine : IndexEngine) :
    fetchOne (getClosest R direction rects point includeStrict options engine) =
      fetchOne (getClosest R direction rects point includeStrict options) :=
  rfl

/-- Also where the ranges on both sides of a point are joined. -/
theorem fetchOne_closestAround_engine
    (R : Resolution) (rects : ReplicationIndex) (point : Nat)
    (includeStrictBelow includeStrictAbove : Bool) (options : ClosestOptions)
    (engine : IndexEngine) :
    fetchOne
        (closestAround R rects point includeStrictBelow includeStrictAbove options
          engine) =
      fetchOne
        (closestAround R rects point includeStrictBelow includeStrictAbove options) :=
  rfl

/-- `fetchOne` of `getClosestAroundOrContaining`: a containing range where there
is one, else the closest. -/
def fetchOneClosest
    (R : Resolution) (peers : ReplicationIndex) (point : Nat)
    (includeStrictBelow includeStrictAbove : Bool)
    (time : Option TimeFilter) : Option ReplicationRangeIndexable :=
  match rangesContainingPoint peers point time with
  | containing :: _ => some containing
  | [] =>
      fetchOne
        (closestAround R peers point includeStrictBelow includeStrictAbove
          { time := time })

/-- What a closest query yields is a candidate of the index. -/
theorem of_mem_next_getClosest
    {R : Resolution} {direction : Direction} {rects : ReplicationIndex}
    {point count : Nat} {includeStrict : Bool} {options : ClosestOptions}
    {range : ReplicationRangeIndexable}
    (h : range ∈ (IndexIterator.next count
      (getClosest R direction rects point includeStrict options)).1) :
    range ∈ rects ∧ closestCandidate includeStrict options range = true := by
  refine of_mem_next_joinIterator (P := fun range =>
    range ∈ rects ∧ closestCandidate includeStrict options range = true) ?_ h
  intro iterator hiterator el hel
  have hsorted :
      ∀ p equality,
        el ∈ (closestResults direction rects p equality includeStrict
          options).arr →
        el ∈ rects ∧ closestCandidate includeStrict options el = true := by
    intro p equality hmem
    have hfilter := (List.perm_insertionSort _ _).mem_iff.mp hmem
    simp only [List.mem_filter, Bool.and_eq_true] at hfilter
    exact ⟨hfilter.1, hfilter.2.2⟩
  simp only [List.mem_cons, List.not_mem_nil, or_false] at hiterator
  rcases hiterator with rfl | rfl
  · exact hsorted _ _ (List.mem_of_mem_take hel)
  · exact hsorted _ _ (List.mem_of_mem_take hel)

theorem mem_of_fetchOne_getClosest
    {R : Resolution} {direction : Direction} {rects : ReplicationIndex}
    {point : Nat} {includeStrict : Bool} {options : ClosestOptions}
    {range : ReplicationRangeIndexable}
    (h : fetchOne (getClosest R direction rects point includeStrict options) =
      some range) :
    range ∈ rects :=
  (of_mem_next_getClosest (List.mem_of_head? h)).1

end SharedLog
end Peerbit
