import Mathlib.Data.Finset.Basic
import Peerbit.Lib.Machines
import Peerbit.SharedLog.CoveringRanges
import Peerbit.SharedLog.DebounceChanges
import Peerbit.SharedLog.RangeIndex

/-!
# The replication state

What a shared log knows about who replicates what: the replication index, the set
of the peers in it, and a timer for each range that has not matured yet.  Ranges
are added, with or without a reset of what their peer had before, ranges are
removed, and peers are.

All changes that are passed to `replicationChangeDebounceFn` are kept, one after
the other.  Events and messages to other peers are left out.
-/

namespace Peerbit
namespace SharedLog

/-! ### The index -/

/-- The ranges of the replication index, one for each id. -/
structure ReplicationRanges where
  ranges : ReplicationIndex
  nodup : (ranges.map ReplicationRangeIndexable.id).Nodup

namespace ReplicationRanges

def empty : ReplicationRanges where
  ranges := []
  nodup := List.nodup_nil

/-- `del` with a query. -/
def del (index : ReplicationRanges) (query : ReplicationRangeIndexable → Bool) :
    ReplicationRanges where
  ranges := index.ranges.filter (fun r => !query r)
  nodup := index.nodup.sublist (List.filter_sublist.map _)

/-- `put`: a range takes the place of the one with its id. -/
def put (index : ReplicationRanges) (range : ReplicationRangeIndexable) :
    ReplicationRanges where
  ranges :=
    if range.id ∈ index.ranges.map ReplicationRangeIndexable.id then
      index.ranges.map (fun r => if r.id = range.id then range else r)
    else index.ranges ++ [range]
  nodup := by
    split
    · have hids : (index.ranges.map (fun r => if r.id = range.id then range else r)).map
          ReplicationRangeIndexable.id = index.ranges.map ReplicationRangeIndexable.id := by
        rw [List.map_map]
        refine List.map_congr_left fun r _ => ?_
        simp only [Function.comp_apply]
        split
        · rename_i h
          exact h.symm
        · rfl
      rw [hids]
      exact index.nodup
    · rename_i hnew
      rw [List.map_append, List.map_singleton]
      exact (List.perm_append_singleton _ _).nodup_iff.mpr
        (List.nodup_cons.mpr ⟨hnew, index.nodup⟩)

variable {index : ReplicationRanges} {r range : ReplicationRangeIndexable}

theorem mem_del {query : ReplicationRangeIndexable → Bool} :
    r ∈ (index.del query).ranges ↔ r ∈ index.ranges ∧ query r = false := by
  simp [del]

theorem mem_put :
    r ∈ (index.put range).ranges ↔
      r = range ∨ (r ∈ index.ranges ∧ r.id ≠ range.id) := by
  simp only [put]
  split
  · rename_i hmem
    obtain ⟨old, hold, hid⟩ := List.mem_map.mp hmem
    rw [List.mem_map]
    constructor
    · rintro ⟨r', hr', rfl⟩
      split
      · exact .inl rfl
      · rename_i hne
        exact .inr ⟨hr', hne⟩
    · rintro (rfl | ⟨hr, hne⟩)
      · exact ⟨old, hold, if_pos hid⟩
      · exact ⟨r, hr, if_neg hne⟩
  · rename_i hnew
    rw [List.mem_append, List.mem_singleton, or_comm]
    refine or_congr_right (and_iff_left_of_imp fun hr hid => hnew ?_).symm
    rw [← hid]
    exact List.mem_map_of_mem hr

/-- A range is known by its id. -/
theorem eq_of_id (hr : r ∈ index.ranges) (hrange : range ∈ index.ranges)
    (hid : r.id = range.id) : r = range :=
  List.inj_on_of_nodup_map index.nodup hr hrange hid

/-- `get`. -/
def get (index : ReplicationRanges) (id : String) : Option ReplicationRangeIndexable :=
  index.ranges.find? (fun r => decide (r.id = id))

theorem get_eq_some_iff {id : String} :
    index.get id = some r ↔ r ∈ index.ranges ∧ r.id = id := by
  constructor
  · intro h
    have hid := List.find?_some h
    exact ⟨List.mem_of_find?_eq_some h, of_decide_eq_true hid⟩
  · rintro ⟨hmem, rfl⟩
    cases hget : index.get r.id with
    | none => exact absurd (List.find?_eq_none.mp hget r hmem) (by simp)
    | some r' =>
        have hid := List.find?_some hget
        rw [index.eq_of_id (List.mem_of_find?_eq_some hget) hmem (of_decide_eq_true hid)]

end ReplicationRanges

/-! ### Adding and removing -/

/-- A timer of `pendingMaturity`, with what it closes over: the change that it will
announce, and the option `rebalance`. -/
structure MaturityTimer where
  diff : ReplicationChange
  rebalance : Bool
deriving Repr, DecidableEq

/-- `pendingMaturity` is a map for each peer, from the ids of its ranges; `changes`
is what was passed to `replicationChangeDebounceFn`. -/
structure ReplicationState where
  replicationIndex : ReplicationRanges
  uniqueReplicators : Finset PeerHash
  pendingMaturity : PeerHash → String → Option MaturityTimer
  changes : List ReplicationChange

def ReplicationState.init : ReplicationState where
  replicationIndex := .empty
  uniqueReplicators := ∅
  pendingMaturity := fun _ _ => none
  changes := []

/-- Sets, replaces or clears a timer. -/
def setTimer (timers : PeerHash → String → Option MaturityTimer) (hash : PeerHash)
    (id : String) (timer : Option MaturityTimer) :
    PeerHash → String → Option MaturityTimer :=
  Function.update timers hash (Function.update (timers hash) id timer)

/-- The options of `addReplicationRange`, the time at which it is called and the
role age at that time. -/
structure AddOptions where
  reset : Bool := false
  checkDuplicates : Bool := false
  timestamp : Int := 0
  rebalance : Bool := true
  now : Nat := 0
  minRoleAge : Nat := 0
deriving Repr, DecidableEq

def batchSize : Nat := 100

/-- The batches that a list of ranges is looked up in. -/
def batches (ranges : List ReplicationRangeIndexable) :
    List (List ReplicationRangeIndexable) :=
  (List.range ((ranges.length + (batchSize - 1)) / batchSize)).map
    (fun i => (ranges.drop (i * batchSize)).take batchSize)

/-- What is found under the ids of a batch: the index combines the elements of a
query list by `And`. -/
def existingOfBatch (index : ReplicationRanges) (batch : List ReplicationRangeIndexable) :
    List ReplicationRangeIndexable :=
  index.ranges.filter (fun r => batch.all (fun x => decide (r.id = x.id)))

def existingOf (index : ReplicationRanges) (ranges : List ReplicationRangeIndexable) :
    List ReplicationRangeIndexable :=
  (batches ranges).flatMap (existingOfBatch index)

/-- `existingMap`. -/
def existingMap (existing : List ReplicationRangeIndexable) :
    String → Option ReplicationRangeIndexable :=
  existing.foldl (fun map result => Function.update map result.id (some result))
    (fun _ => none)

/-- The ranges that are left after the check for duplicates. -/
def deduplicated (index : ReplicationRanges) (ranges : List ReplicationRangeIndexable)
    (options : AddOptions) : List ReplicationRangeIndexable :=
  if options.reset = false ∧ options.checkDuplicates = true then
    ranges.filter (fun range => !countCoveringRangesSameOwner index.ranges range)
  else ranges

/-- The `diffs` of `addReplicationRange`. -/
def diffsOf (index : ReplicationRanges) (ranges : List ReplicationRangeIndexable)
    (from_ : PeerHash) (options : AddOptions) : List ReplicationChange :=
  if options.reset then
    (index.ranges.filter (fun r => decide (r.hash = from_))).map
        (fun x => { type := .removed, range := x, timestamp := options.timestamp }) ++
      ranges.map
        (fun x => { type := .added false, range := x, timestamp := options.timestamp })
  else
    changesOfRanges (existingMap (existingOf index ranges))
      (deduplicated index ranges options)

/-- One pass of the loop over `diffs`. -/
def applyDiff (options : AddOptions) (s : ReplicationState) (diff : ReplicationChange) :
    ReplicationState :=
  match diff.type with
  | .added _ =>
      { s with
        replicationIndex := s.replicationIndex.put diff.range
        pendingMaturity :=
          if isMatured diff.range options.now options.minRoleAge then s.pendingMaturity
          else
            setTimer s.pendingMaturity diff.range.hash diff.range.id
              (some { diff := diff, rebalance := options.rebalance }) }
  | .removed =>
      { s with
        pendingMaturity :=
          setTimer s.pendingMaturity diff.range.hash diff.range.id none }
  | .replaced => s

/-- The state before the loop over `diffs`. -/
def beforeDiffs (s : ReplicationState) (from_ : PeerHash) (options : AddOptions) :
    ReplicationState :=
  { s with
    replicationIndex :=
      if options.reset then
        s.replicationIndex.del (fun r => decide (r.hash = from_))
      else s.replicationIndex
    uniqueReplicators := insert from_ s.uniqueReplicators }

section Operations

variable (isTrustedReplicator : PeerHash → Bool)

/-- `addReplicationRange`; it returns nothing where the peer is not trusted. -/
def addReplicationRange (s : ReplicationState) (ranges : List ReplicationRangeIndexable)
    (from_ : PeerHash) (options : AddOptions) :
    Option (List ReplicationChange) × ReplicationState :=
  if isTrustedReplicator from_ = false then (none, s)
  else
    let diffs := diffsOf s.replicationIndex ranges from_ options
    let added := diffs.foldl (applyDiff options) (beforeDiffs s from_ options)
    (some diffs,
      { added with
        changes := if options.rebalance then added.changes ++ diffs else added.changes })

/-- `removeReplicationRanges`; it throws where there are none.  Timers are looked up
under the `toString()` of a range, which shows its segments and is no id, so that
none is found. -/
def removeReplicationRanges (s : ReplicationState)
    (ranges : List ReplicationRangeIndexable) (from_ : PeerHash) :
    Option ReplicationState :=
  if ranges = [] then none
  else
    let index := s.replicationIndex.del
      (fun r => ranges.any (fun x => decide (r.id = x.id)))
    some
      { s with
        replicationIndex := index
        uniqueReplicators :=
          if index.ranges.any (fun r => decide (r.hash = from_)) then s.uniqueReplicators
          else s.uniqueReplicators.erase from_ }

/-- `removeReplicator`. -/
def removeReplicator (s : ReplicationState) (keyHash : PeerHash) (timestamp : Int) :
    ReplicationState where
  replicationIndex := s.replicationIndex.del (fun r => decide (r.hash = keyHash))
  uniqueReplicators := s.uniqueReplicators.erase keyHash
  pendingMaturity := Function.update s.pendingMaturity keyHash (fun _ => none)
  changes :=
    s.changes ++
      (s.replicationIndex.ranges.filter (fun r => decide (r.hash = keyHash))).map
        (fun x => { type := .removed, range := x, timestamp := timestamp })

/-- What a timer does when it fires. -/
def fireTimer (s : ReplicationState) (hash : PeerHash) (id : String) :
    Option ReplicationState :=
  (s.pendingMaturity hash id).map fun timer =>
    { s with
      pendingMaturity := setTimer s.pendingMaturity hash id none
      changes :=
        if timer.rebalance = true ∧ timer.diff.range.mode ≠ .Strict then
          s.changes ++ [{ timer.diff with type := .added true }]
        else s.changes }

/-! ### Runs -/

inductive ReplicationAction where
  | addReplicationRange (ranges : List ReplicationRangeIndexable) (from_ : PeerHash)
      (options : AddOptions)
  | removeReplicationRanges (ranges : List ReplicationRangeIndexable)
      (from_ : PeerHash)
  | removeReplicator (keyHash : PeerHash) (timestamp : Int)
  | timer (hash : PeerHash) (id : String)
deriving Repr, DecidableEq

/-- The ranges that are added are built for the peer they are added for. -/
def replicationStep (s : ReplicationState) : ReplicationAction → Option ReplicationState
  | .addReplicationRange ranges from_ options =>
      if ∀ range ∈ ranges, range.hash = from_ then
        some (addReplicationRange isTrustedReplicator s ranges from_ options).2
      else none
  | .removeReplicationRanges ranges from_ => removeReplicationRanges s ranges from_
  | .removeReplicator keyHash timestamp => some (removeReplicator s keyHash timestamp)
  | .timer hash id => fireTimer s hash id

def replicationMachine : Lib.Machine ReplicationState ReplicationAction where
  init := .init
  step := replicationStep isTrustedReplicator

end Operations

end SharedLog
end Peerbit
