import Peerbit.Lib.InsertionMap
import Peerbit.Log.Entry
import Peerbit.SharedLog.SyncRange

/-!
# The coordinate index

The coordinate index holds the coordinates of the entries.  An entry whose leaders were
too few, or did not all have a range over one of its coordinates, is assigned to a range
boundary when its coordinates are persisted.
-/

namespace Peerbit
namespace SharedLog

open Log (Hash)

/-- What the queries on the coordinate index read of an `EntryReplicated`. -/
structure EntryReplicated where
  hash : Hash
  coordinates : List UInt64
  assignedToRangeBoundary : Bool
deriving Repr, DecidableEq

/-- The coordinates, as points of the ring. -/
def EntryReplicated.points (entry : EntryReplicated) : List Nat :=
  entry.coordinates.map UInt64.toNat

/-- An entry matches a query by one of its coordinates: all conditions on them are put to
one joined row. -/
def EntryReplicated.matchesSome (query : Nat → Bool) (entry : EntryReplicated) : Bool :=
  entry.points.any query

/-- `matchEntriesInRangeQuery(range)`. -/
def EntryReplicated.inRange (range : ReplicationRangeIndexable) (entry : EntryReplicated) :
    Bool :=
  entry.matchesSome
    (matchEntriesInRangeQuery range.start1 range.end1 range.start2 range.end2)

/-- `shouldAssigneToRangeBoundary`; `none` is `false`. -/
def shouldAssigneToRangeBoundary (leaders : Option (Lib.InsertionMap PeerHash Bool))
    (minReplicas : Nat) : Bool :=
  match leaders with
  | none => true
  | some leaders =>
      decide (leaders.keys.length < minReplicas) ||
        leaders.keys.any (fun hash => decide (leaders.get hash = some false))

/-- `persistCoordinate`, for an entry without a `prev`: the entry is put into the index,
and the entries that it follows are deleted. -/
def persistCoordinate (index : List EntryReplicated) (hash : Hash) (next : List Hash)
    (coordinates : List UInt64) (leaders : Option (Lib.InsertionMap PeerHash Bool))
    (replicas : Nat) : List EntryReplicated :=
  let put := index.filter (fun e => decide (e.hash ≠ hash)) ++
    [{ hash := hash
       coordinates := coordinates
       assignedToRangeBoundary := shouldAssigneToRangeBoundary leaders replicas }]
  put.filter (fun e => decide (e.hash ∉ next))

/-- An entry is matched by a range when the range contains a coordinate of it. -/
theorem EntryReplicated.inRange_iff {range : ReplicationRangeIndexable}
    {entry : EntryReplicated} :
    entry.inRange range = true ↔ ∃ point ∈ entry.points, range.contains point = true := by
  rw [inRange, matchesSome, List.any_eq_true]
  refine exists_congr fun point => and_congr_right fun _ => ?_
  rw [range.contains_iff, matchEntriesInRangeQuery]
  split
  · simp
    omega
  · simp

/-- When an entry is not assigned to a range boundary, its leaders have ranges over its
coordinates. -/
theorem get_of_not_assigned {leaders : Lib.InsertionMap PeerHash Bool} {minReplicas : Nat}
    (h : shouldAssigneToRangeBoundary (some leaders) minReplicas = false) {hash : PeerHash}
    (hhash : hash ∈ leaders.keys) : leaders.get hash = some true := by
  have hmarked := (Bool.or_eq_false_iff.mp h).2
  rw [List.any_eq_false] at hmarked
  have hnot := hmarked hash hhash
  rw [decide_eq_true_eq] at hnot
  obtain ⟨intersecting, hget⟩ := Option.isSome_iff_exists.mp ((leaders.mem_keys hash).mp hhash)
  cases intersecting with
  | true => exact hget
  | false => exact absurd hget hnot

end SharedLog
end Peerbit
