import Peerbit.Lib.Machines
import Peerbit.SharedLog.Coordinates
import Peerbit.SharedLog.LostRebalance
import Peerbit.SharedLog.SampleHint

/-!
# Rebalancing

When a batch of replication changes has been applied to the replication index, the
entries whose leaders may be others now are looked at again.  `toRebalance` finds them
by the merged changes, which match their coordinates, or by their assignment to a range
boundary.

The assignment is made when the coordinates are persisted, and `onReplicationChange`
does not renew it.  So an entry that has come to be led by a close range is not found
when another range comes closer (`StaleBoundary.not_findsAffected`).
-/

namespace Peerbit
namespace SharedLog

open Lib
open Log (Hash)

/-! ### A batch -/

section Batches

variable (rangeHash : ReplicationRangeIndexable → String)

/-- `toRebalance`, and the history that it leaves. -/
def toRebalance (changeOrChanges : ChangesOrChangesArr) (index : List EntryReplicated)
    (rebalanceHistory : RebalanceHistory) : List EntryReplicated × RebalanceHistory :=
  let merged := mergeReplicationChanges rangeHash changeOrChanges rebalanceHistory
  let onlyStrict := merged.1.all (fun c => decide (c.range.mode = .Strict))
  (index.filter (fun e => merged.1.any (fun c => e.inRange c.range) ||
    ((!onlyStrict || decide (merged.1.length = 0)) && e.assignedToRangeBoundary)), merged.2)

/-- A change as it is applied to the replication index.  What is removed or replaced is
in the index.  What is added is there already, when it has matured or is announced again,
or has an id of its own. -/
def applyChange (peers : ReplicationIndex) (change : ReplicationChange) :
    Option ReplicationIndex :=
  if change.isRemoval then
    if change.range ∈ peers then
      some (peers.filter (fun r => decide (r.id ≠ change.range.id)))
    else none
  else if change.range ∈ peers then some peers
  else if peers.any (fun r => decide (r.id = change.range.id)) then none
  else some (peers ++ [change.range])

def applyChanges (peers : ReplicationIndex) : List ReplicationChange → Option ReplicationIndex
  | [] => some peers
  | change :: changes =>
      (applyChange peers change).bind (fun peers => applyChanges peers changes)

end Batches

/-! ### Runs -/

/-- A batch that was processed. -/
structure Rebalanced where
  now : Nat
  before : ReplicationIndex
  after : ReplicationIndex
  entries : List EntryReplicated
  yielded : List EntryReplicated

structure RebalanceState where
  now : Nat
  replicationIndex : ReplicationIndex
  entryCoordinatesIndex : List EntryReplicated
  recentlyRebalanced : RebalanceHistory
  last : Option Rebalanced

inductive RebalanceAction where
  | tick (now : Nat)
  /-- An entry is appended; its leaders are found with some role age and some hint. -/
  | append (hash : Hash) (next : List Hash) (coordinates : List UInt64) (roleAge : Nat)
      (uniqueReplicators : List PeerHash)
  | batch (changes : ChangesOrChangesArr)

section Machines

variable (rangeHash : ReplicationRangeIndexable → String) (R : Resolution)
variable (engine : IndexEngine)

/-- The peers that lead an entry, at the role age zero. -/
def leadersOf (now : Nat) (peers : ReplicationIndex) (entry : EntryReplicated) :
    Finset PeerHash :=
  (getSamples 0 now R peers entry.points {} engine).keys.toFinset

/-- The ranges of a batch are as the constructor builds them. -/
def rebalanceStep (s : RebalanceState) : RebalanceAction → Option RebalanceState
  | .tick now => if s.now ≤ now then some { s with now := now } else none
  | .append hash next coordinates roleAge uniqueReplicators =>
      let leaders := getSamples roleAge s.now R s.replicationIndex
        (coordinates.map UInt64.toNat) { uniqueReplicators := some uniqueReplicators } engine
      some
        { s with
          entryCoordinatesIndex := persistCoordinate s.entryCoordinatesIndex hash next
            coordinates (some leaders) coordinates.length }
  | .batch changes =>
      if ∀ c ∈ changes.flat, c.range.start2 = c.range.start1 → c.range.end2 ≤ c.range.end1 then
        (applyChanges s.replicationIndex changes.flat).map (fun after =>
          let yielded := toRebalance rangeHash changes s.entryCoordinatesIndex
            s.recentlyRebalanced
          { s with
            replicationIndex := after
            recentlyRebalanced := yielded.2
            last := some
              { now := s.now
                before := s.replicationIndex
                after := after
                entries := s.entryCoordinatesIndex
                yielded := yielded.1 } })
      else none

/-- Nothing is in the log or in the indices at first. -/
def rebalancing (clock : Nat → Int) : Machine RebalanceState RebalanceAction where
  init :=
    { now := 0
      replicationIndex := []
      entryCoordinatesIndex := []
      recentlyRebalanced :=
        { cache := Utils.Cache.empty 10000 (some 100000), clock := clock, readings := 0 }
      last := none }
  step := rebalanceStep rangeHash R engine

/-- Every entry whose leaders differ before and after the last batch is yielded. -/
def FindsAffected (s : RebalanceState) : Prop :=
  ∀ batch, s.last = some batch → ∀ e ∈ batch.entries,
    leadersOf R engine batch.now batch.before e ≠ leadersOf R engine batch.now batch.after e →
      e ∈ batch.yielded

end Machines

end SharedLog
end Peerbit
