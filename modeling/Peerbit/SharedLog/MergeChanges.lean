import Peerbit.Utils.Cache
import Peerbit.SharedLog.RangeDifference

/-!
# Merging a batch of replication changes

A batch of changes to the replication index says which ranges a peer has added,
removed or replaced.  Before the entries under these ranges are looked at again,
`mergeReplicationChanges` groups the batch by peer, sorts every group by the
timestamp of its ranges, and lets a removal that was rebalanced before cancel
against the additions that come after it.

The loop over a group appends work to the list it iterates over and remembers
by position which additions were consumed.  Both are kept here in the list of
the changes still to come: a change is paired with whether it was consumed.

The loop keeps the points of the additions (`mergeLoop_keeps_added`) and
invents none (`of_mem_mergeLoop`).
-/

namespace Peerbit
namespace SharedLog

open Utils

/-- The `type` of a change, with the flag only an addition has. -/
inductive ChangeType where
  | added (matured : Bool)
  | removed
  | replaced
deriving Repr, DecidableEq

structure ReplicationChange where
  type : ChangeType
  range : ReplicationRangeIndexable
  timestamp : Int
deriving Repr, DecidableEq

namespace ReplicationChange

/-- `type === "removed" || type === "replaced"`. -/
def isRemoval (change : ReplicationChange) : Bool :=
  match change.type with
  | .removed => true
  | .replaced => true
  | .added _ => false

/-- `type === "added" && !matured`. -/
def isFresh (change : ReplicationChange) : Bool :=
  match change.type with
  | .added matured => !matured
  | _ => false

theorem isRemoval_of_isFresh
    {change : ReplicationChange}
    (h : change.isFresh = true) :
    change.isRemoval = false := by
  revert h
  cases ht : change.type <;> simp [isFresh, isRemoval, ht]

end ReplicationChange

/-- The rebalance history: a cache without values, and the readings the clock
will give to the calls that ask it for the time. -/
structure RebalanceHistory where
  cache : Cache String Unit
  clock : Nat → Int
  readings : Nat

namespace RebalanceHistory

def has (history : RebalanceHistory) (key : String) :
    Bool × RebalanceHistory :=
  let r := history.cache.has (history.clock history.readings) key
  (r.1, { history with cache := r.2, readings := history.readings + 1 })

def add (history : RebalanceHistory) (key : String) : RebalanceHistory :=
  { history with
    cache := history.cache.add (history.clock history.readings) key none 1
    readings := history.readings + 1 }

def del (history : RebalanceHistory) (key : String) : RebalanceHistory :=
  { history with cache := history.cache.del key }

end RebalanceHistory

/-- `changesOrChangesArr`: one batch, or several to be flattened. -/
inductive ChangesOrChangesArr where
  | one (changes : List ReplicationChange)
  | several (changesArr : List (List ReplicationChange))

def ChangesOrChangesArr.flat :
    ChangesOrChangesArr → List ReplicationChange
  | .one changes => changes
  | .several changesArr => changesArr.flatten

/-- One step of the grouping loop; the map keeps its keys in the order in which
they came. -/
def pushToGroup (change : ReplicationChange) :
    List (PeerHash × List ReplicationChange) →
      List (PeerHash × List ReplicationChange)
  | [] => [(change.range.hash, [change])]
  | (key, prev) :: rest =>
      if key = change.range.hash then
        (key, prev ++ [change]) :: rest
      else
        (key, prev) :: pushToGroup change rest

def groupByHash (changes : List ReplicationChange) :
    List (PeerHash × List ReplicationChange) :=
  changes.foldl (fun grouped change => pushToGroup change grouped) []

/-- "sort by timestamp so newest is last"; the sort is stable. -/
def sortByRangeTimestamp (v : List ReplicationChange) :
    List ReplicationChange :=
  v.insertionSort (fun a b => a.range.timestamp ≤ b.range.timestamp)

section Merge

variable (rangeHash : ReplicationRangeIndexable → String)

/-- What a known removal leaves of itself next to a fresh addition. -/
def updatedRemoved (removal : ReplicationChange)
    (pending : List (Bool × ReplicationChange)) : List ReplicationChange :=
  (pending.filter (fun e => e.2.isFresh)).flatMap (fun newer =>
    (symmetricDifferenceRanges removal.range newer.2.range).rangesFromA.map
      (fun diff =>
        { type := .removed, range := diff, timestamp := removal.timestamp }))

/-- What a fresh addition leaves of itself next to a known removal: pushed to
the end of the list under iteration. -/
def updatedNewer (removal : ReplicationChange)
    (pending : List (Bool × ReplicationChange)) : List ReplicationChange :=
  (pending.filter (fun e => e.2.isFresh)).flatMap (fun newer =>
    (symmetricDifferenceRanges removal.range newer.2.range).rangesFromB.map
      (fun diff =>
        { type := .added false, range := diff
          timestamp := newer.2.timestamp }))

/-- The list still to iterate over after a known removal: every fresh addition
is consumed, what is left of it is appended. -/
def cancelPending (removal : ReplicationChange)
    (pending : List (Bool × ReplicationChange)) :
    List (Bool × ReplicationChange) :=
  pending.map (fun e => (e.1 || e.2.isFresh, e.2)) ++
    (updatedNewer removal pending).map (fun change => (false, change))

theorem mem_updatedRemoved
    {removal change : ReplicationChange}
    {pending : List (Bool × ReplicationChange)} :
    change ∈ updatedRemoved removal pending ↔
      ∃ e ∈ pending, e.2.isFresh = true ∧
        ∃ diff ∈ differenceRanges removal.range e.2.range,
          change = { type := .removed, range := diff
                     timestamp := removal.timestamp } := by
  simp only [updatedRemoved, symmetricDifferenceRanges, List.mem_flatMap,
    List.mem_filter, List.mem_map, and_assoc, eq_comm]

theorem mem_updatedNewer
    {removal change : ReplicationChange}
    {pending : List (Bool × ReplicationChange)} :
    change ∈ updatedNewer removal pending ↔
      ∃ e ∈ pending, e.2.isFresh = true ∧
        ∃ diff ∈ differenceRanges e.2.range removal.range,
          change = { type := .added false, range := diff
                     timestamp := e.2.timestamp } := by
  simp only [updatedNewer, symmetricDifferenceRanges, List.mem_flatMap,
    List.mem_filter, List.mem_map, and_assoc, eq_comm]

/-- The removals in a list still to iterate over. -/
def removalCount (pending : List (Bool × ReplicationChange)) : Nat :=
  pending.countP (fun e => e.2.isRemoval)

theorem isRemoval_of_mem_updatedNewer
    {removal change : ReplicationChange}
    {pending : List (Bool × ReplicationChange)}
    (h : change ∈ updatedNewer removal pending) :
    change.isRemoval = false := by
  obtain ⟨_, _, _, _, _, rfl⟩ := mem_updatedNewer.mp h
  rfl

theorem removalCount_cancelPending
    (removal : ReplicationChange)
    (pending : List (Bool × ReplicationChange)) :
    removalCount (cancelPending removal pending) = removalCount pending := by
  have hnone :
      ((updatedNewer removal pending).map
        (fun change => (false, change))).countP (fun e => e.2.isRemoval) =
        0 := by
    rw [List.countP_eq_zero]
    intro e he
    obtain ⟨change, hchange, rfl⟩ := List.mem_map.mp he
    simp [isRemoval_of_mem_updatedNewer hchange]
  rw [removalCount, cancelPending, List.countP_append, hnone, List.countP_map]
  rfl

/-- The loop over one group of more than one change. -/
def mergeLoop (history : RebalanceHistory) :
    List (Bool × ReplicationChange) →
      List ReplicationChange × RebalanceHistory
  | [] => ([], history)
  | (consumed, change) :: pending =>
      if _hremoval : change.isRemoval = true then
        let known := history.has (rangeHash change.range)
        if known.1 then
          let r :=
            mergeLoop (known.2.del (rangeHash change.range))
              (cancelPending change pending)
          (updatedRemoved change pending ++ r.1, r.2)
        else
          let r := mergeLoop known.2 pending
          (change :: r.1, r.2)
      else
        let r := mergeLoop (history.add (rangeHash change.range)) pending
        (if consumed then r.1 else change :: r.1, r.2)
termination_by pending => (removalCount pending, pending.length)
decreasing_by
  · refine Prod.Lex.left _ _ ?_
    rw [removalCount_cancelPending]
    simp [removalCount, _hremoval]
  · refine Prod.Lex.left _ _ ?_
    simp [removalCount, _hremoval]
  · have hcount :
        removalCount ((consumed, change) :: pending) =
          removalCount pending := by
      simp [removalCount, _hremoval]
    rw [hcount]
    exact Prod.Lex.right _ (by simp)

/-- The body of the loop over the groups. -/
def mergeGroup (v : List ReplicationChange) (history : RebalanceHistory) :
    List ReplicationChange × RebalanceHistory :=
  if 1 < v.length then
    mergeLoop rangeHash history
      ((sortByRangeTimestamp v).map (fun change => (false, change)))
  else
    (v, v.foldl (fun history change => history.add (rangeHash change.range))
      history)

def mergeGroups (history : RebalanceHistory) :
    List (PeerHash × List ReplicationChange) →
      List ReplicationChange × RebalanceHistory
  | [] => ([], history)
  | (_, v) :: grouped =>
      let r := mergeGroup rangeHash v history
      let rest := mergeGroups r.2 grouped
      (r.1 ++ rest.1, rest.2)

def mergeReplicationChanges (changesOrChangesArr : ChangesOrChangesArr)
    (rebalanceHistory : RebalanceHistory) :
    List ReplicationChange × RebalanceHistory :=
  mergeGroups rangeHash rebalanceHistory
    (groupByHash changesOrChangesArr.flat)

end Merge

/-! ### The loop over a group -/

/-- The change belongs to the peer, and its range can be split. -/
def OwnedBy (h : PeerHash) (change : ReplicationChange) : Prop :=
  change.range.hash = h ∧ change.range.SegmentsApart

section Loop

variable {h : PeerHash} {p : Nat}

theorem ownedBy_updatedRemoved
    {removal : ReplicationChange} {pending : List (Bool × ReplicationChange)}
    (hremoval : OwnedBy h removal)
    (hpending : ∀ e ∈ pending, OwnedBy h e.2) :
    ∀ c ∈ updatedRemoved removal pending, OwnedBy h c := by
  intro c hc
  obtain ⟨e, he, _, diff, hdiff, rfl⟩ := mem_updatedRemoved.mp hc
  obtain ⟨happart, hhash, _⟩ :=
    of_mem_differenceRanges hremoval.2 (hpending e he).2 hdiff
  exact ⟨hhash.trans hremoval.1, happart⟩

theorem ownedBy_cancelPending
    {removal : ReplicationChange} {pending : List (Bool × ReplicationChange)}
    (hremoval : OwnedBy h removal)
    (hpending : ∀ e ∈ pending, OwnedBy h e.2) :
    ∀ e ∈ cancelPending removal pending, OwnedBy h e.2 := by
  intro e he
  rcases List.mem_append.mp he with he | he
  · obtain ⟨e', he', rfl⟩ := List.mem_map.mp he
    exact hpending e' he'
  · obtain ⟨d, hd, rfl⟩ := List.mem_map.mp he
    obtain ⟨newer, hnewer, _, diff, hdiff, rfl⟩ := mem_updatedNewer.mp hd
    obtain ⟨happart, hhash, _⟩ :=
      of_mem_differenceRanges (hpending newer hnewer).2 hremoval.2 hdiff
    exact ⟨hhash.trans (hpending newer hnewer).1, happart⟩

/-- What is left of a known removal: its points outside some fresh addition. -/
theorem exists_contains_updatedRemoved
    {removal : ReplicationChange} {pending : List (Bool × ReplicationChange)}
    (hremoval : OwnedBy h removal)
    (hpending : ∀ e ∈ pending, OwnedBy h e.2) :
    (∃ c ∈ updatedRemoved removal pending, c.range.contains p = true) ↔
      removal.range.contains p = true ∧
        ∃ e ∈ pending, e.2.isFresh = true ∧ ¬ e.2.range.contains p = true := by
  constructor
  · rintro ⟨c, hc, hp⟩
    obtain ⟨e, he, hfresh, diff, hdiff, rfl⟩ := mem_updatedRemoved.mp hc
    obtain ⟨hin, hout⟩ :=
      (exists_contains_differenceRanges hremoval.2 (hpending e he).2 p).mp
        ⟨diff, hdiff, hp⟩
    exact ⟨hin, e, he, hfresh, hout⟩
  · rintro ⟨hin, e, he, hfresh, hout⟩
    obtain ⟨diff, hdiff, hp⟩ :=
      (exists_contains_differenceRanges hremoval.2 (hpending e he).2 p).mpr
        ⟨hin, hout⟩
    exact ⟨_, mem_updatedRemoved.mpr ⟨e, he, hfresh, diff, hdiff, rfl⟩, hp⟩

/-- What is appended for a known removal: the points of the fresh additions
outside it. -/
theorem exists_contains_updatedNewer
    {removal : ReplicationChange} {pending : List (Bool × ReplicationChange)}
    (hremoval : OwnedBy h removal)
    (hpending : ∀ e ∈ pending, OwnedBy h e.2) :
    (∃ c ∈ updatedNewer removal pending, c.range.contains p = true) ↔
      ¬ removal.range.contains p = true ∧
        ∃ e ∈ pending, e.2.isFresh = true ∧ e.2.range.contains p = true := by
  constructor
  · rintro ⟨c, hc, hp⟩
    obtain ⟨e, he, hfresh, diff, hdiff, rfl⟩ := mem_updatedNewer.mp hc
    obtain ⟨hin, hout⟩ :=
      (exists_contains_differenceRanges (hpending e he).2 hremoval.2 p).mp
        ⟨diff, hdiff, hp⟩
    exact ⟨hout, e, he, hfresh, hin⟩
  · rintro ⟨hout, e, he, hfresh, hin⟩
    obtain ⟨diff, hdiff, hp⟩ :=
      (exists_contains_differenceRanges (hpending e he).2 hremoval.2 p).mpr
        ⟨hin, hout⟩
    exact ⟨_, mem_updatedNewer.mpr ⟨e, he, hfresh, diff, hdiff, rfl⟩, hp⟩

theorem isFresh_of_mem_updatedNewer
    {removal change : ReplicationChange}
    {pending : List (Bool × ReplicationChange)}
    (hc : change ∈ updatedNewer removal pending) :
    change.isFresh = true := by
  obtain ⟨_, _, _, _, _, rfl⟩ := mem_updatedNewer.mp hc
  rfl

variable (rangeHash : ReplicationRangeIndexable → String)

/-- Every change the loop returns belongs to the peer of the group, and its
points are points of the group. -/
theorem of_mem_mergeLoop
    (history : RebalanceHistory) (pending : List (Bool × ReplicationChange))
    (hpending : ∀ e ∈ pending, OwnedBy h e.2) :
    ∀ c ∈ (mergeLoop rangeHash history pending).1,
      OwnedBy h c ∧
        (c.range.contains p = true →
          ∃ e ∈ pending, e.2.range.contains p = true) := by
  induction history, pending using mergeLoop.induct rangeHash with
  | case1 history =>
      intro c hc
      simp [mergeLoop] at hc
  | case2 history consumed change pending hremoval known hknown ih =>
      have hchange : OwnedBy h change := hpending (consumed, change) (by simp)
      have htail : ∀ e ∈ pending, OwnedBy h e.2 := fun e he =>
        hpending e (List.mem_cons_of_mem _ he)
      intro c hc
      rw [mergeLoop, dif_pos hremoval, if_pos hknown] at hc
      rcases List.mem_append.mp hc with hc | hc
      · refine ⟨ownedBy_updatedRemoved hchange htail c hc, fun hp => ?_⟩
        obtain ⟨hin, _⟩ :=
          (exists_contains_updatedRemoved hchange htail).mp ⟨c, hc, hp⟩
        exact ⟨(consumed, change), by simp, hin⟩
      · obtain ⟨hown, hpoint⟩ :=
          ih (ownedBy_cancelPending hchange htail) c hc
        refine ⟨hown, fun hp => ?_⟩
        obtain ⟨e, he, hep⟩ := hpoint hp
        rcases List.mem_append.mp he with he | he
        · obtain ⟨e', he', rfl⟩ := List.mem_map.mp he
          exact ⟨e', List.mem_cons_of_mem _ he', hep⟩
        · obtain ⟨d, hd, rfl⟩ := List.mem_map.mp he
          obtain ⟨_, e', he', _, hep'⟩ :=
            (exists_contains_updatedNewer hchange htail).mp ⟨d, hd, hep⟩
          exact ⟨e', List.mem_cons_of_mem _ he', hep'⟩
  | case3 history consumed change pending hremoval known hknown ih =>
      intro c hc
      rw [mergeLoop, dif_pos hremoval, if_neg hknown] at hc
      rcases List.mem_cons.mp hc with rfl | hc
      · exact ⟨hpending (consumed, c) (by simp),
          fun hp => ⟨(consumed, c), by simp, hp⟩⟩
      · obtain ⟨hown, hpoint⟩ :=
          ih (fun e he => hpending e (List.mem_cons_of_mem _ he)) c hc
        refine ⟨hown, fun hp => ?_⟩
        obtain ⟨e, he, hep⟩ := hpoint hp
        exact ⟨e, List.mem_cons_of_mem _ he, hep⟩
  | case4 history consumed change pending hremoval ih =>
      intro c hc
      rw [mergeLoop, dif_neg hremoval] at hc
      have hc' : c = change ∨
          c ∈ (mergeLoop rangeHash
            (history.add (rangeHash change.range)) pending).1 := by
        cases consumed with
        | true => exact Or.inr (by simpa using hc)
        | false => simpa using hc
      rcases hc' with rfl | hc'
      · exact ⟨hpending (consumed, c) (by simp),
          fun hp => ⟨(consumed, c), by simp, hp⟩⟩
      · obtain ⟨hown, hpoint⟩ :=
          ih (fun e he => hpending e (List.mem_cons_of_mem _ he)) c hc'
        refine ⟨hown, fun hp => ?_⟩
        obtain ⟨e, he, hep⟩ := hpoint hp
        exact ⟨e, List.mem_cons_of_mem _ he, hep⟩

/-- A point of an addition that was not consumed, in no removal still to come,
is in the range of a returned change: each removal that consumes the addition
appends what is outside it. -/
theorem mergeLoop_keeps_added
    (history : RebalanceHistory) (pending : List (Bool × ReplicationChange))
    (hpending : ∀ e ∈ pending, OwnedBy h e.2)
    (hnone : ∀ e ∈ pending,
      e.2.isRemoval = true → ¬ e.2.range.contains p = true)
    (hadded : ∃ c, (false, c) ∈ pending ∧ c.isRemoval = false ∧
      c.range.contains p = true) :
    ∃ c ∈ (mergeLoop rangeHash history pending).1,
      c.range.contains p = true := by
  induction history, pending using mergeLoop.induct rangeHash with
  | case1 history => simp at hadded
  | case2 history consumed change pending hremoval known hknown ih =>
      have hchange : OwnedBy h change := hpending (consumed, change) (by simp)
      have htail : ∀ e ∈ pending, OwnedBy h e.2 := fun e he =>
        hpending e (List.mem_cons_of_mem _ he)
      have hout : ¬ change.range.contains p = true :=
        hnone (consumed, change) (by simp) hremoval
      obtain ⟨c, hc, hcadd, hcp⟩ := hadded
      have hc' : (false, c) ∈ pending := by
        rcases List.mem_cons.mp hc with he | hc
        · obtain ⟨_, rfl⟩ := Prod.mk.inj he
          simp [hremoval] at hcadd
        · exact hc
      rw [mergeLoop, dif_pos hremoval, if_pos hknown]
      have hnone' : ∀ e ∈ cancelPending change pending,
          e.2.isRemoval = true → ¬ e.2.range.contains p = true := by
        intro e he hrem
        rcases List.mem_append.mp he with he | he
        · obtain ⟨e', he', rfl⟩ := List.mem_map.mp he
          exact hnone e' (List.mem_cons_of_mem _ he') hrem
        · obtain ⟨d, hd, rfl⟩ := List.mem_map.mp he
          simp [isRemoval_of_mem_updatedNewer hd] at hrem
      have hadded' : ∃ c, (false, c) ∈ cancelPending change pending ∧
          c.isRemoval = false ∧ c.range.contains p = true := by
        by_cases hfresh : c.isFresh = true
        · -- consumed: what is outside the removal was appended
          obtain ⟨d, hd, hdp⟩ :=
            (exists_contains_updatedNewer hchange htail).mpr
              ⟨hout, (false, c), hc', hfresh, hcp⟩
          exact ⟨d,
            List.mem_append_right _ (List.mem_map.mpr ⟨d, hd, rfl⟩),
            isRemoval_of_mem_updatedNewer hd, hdp⟩
        · refine ⟨c, List.mem_append_left _ (List.mem_map.mpr ?_), hcadd, hcp⟩
          exact ⟨(false, c), hc', by simp [hfresh]⟩
      obtain ⟨r, hr, hrp⟩ :=
        ih (ownedBy_cancelPending hchange htail) hnone' hadded'
      exact ⟨r, List.mem_append_right _ hr, hrp⟩
  | case3 history consumed change pending hremoval known hknown ih =>
      obtain ⟨c, hc, hcadd, hcp⟩ := hadded
      have hc' : (false, c) ∈ pending := by
        rcases List.mem_cons.mp hc with he | hc
        · obtain ⟨_, rfl⟩ := Prod.mk.inj he
          simp [hremoval] at hcadd
        · exact hc
      rw [mergeLoop, dif_pos hremoval, if_neg hknown]
      obtain ⟨r, hr, hrp⟩ :=
        ih (fun e he => hpending e (List.mem_cons_of_mem _ he))
          (fun e he => hnone e (List.mem_cons_of_mem _ he))
          ⟨c, hc', hcadd, hcp⟩
      exact ⟨r, List.mem_cons_of_mem _ hr, hrp⟩
  | case4 history consumed change pending hremoval ih =>
      obtain ⟨c, hc, hcadd, hcp⟩ := hadded
      rw [mergeLoop, dif_neg hremoval]
      rcases List.mem_cons.mp hc with he | hc
      · obtain ⟨rfl, rfl⟩ := Prod.mk.inj he
        exact ⟨c, by simp, hcp⟩
      · obtain ⟨r, hr, hrp⟩ :=
          ih (fun e he => hpending e (List.mem_cons_of_mem _ he))
            (fun e he => hnone e (List.mem_cons_of_mem _ he))
            ⟨c, hc, hcadd, hcp⟩
        refine ⟨r, ?_, hrp⟩
        cases consumed with
        | true => simpa using hr
        | false => exact List.mem_cons_of_mem _ hr

end Loop

end SharedLog
end Peerbit
