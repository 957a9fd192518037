import Peerbit.SharedLog.MaturityTimers
import Peerbit.SharedLog.MergeRanges

/-!
# Ranges that are given up

When ranges are deleted from the replication index, the entries under them have to
be looked at again.  So the deleted ranges should be passed to
`replicationChangeDebounceFn`.

Not all callers of `removeReplicationRanges` do this: neither `unreplicate` of some
segments, nor `replicate` when it merges a range with indexed ones.  And a reset
reports the ranges of its peer, but not those of another peer whose ids it takes
(`removalsReported_iff`).
-/

namespace Peerbit
namespace SharedLog

/-! ### Segments to merge -/

structure AdjacentRanges where
  below : Option ReplicationRangeIndexable
  above : Option ReplicationRangeIndexable

/-- `getAdjecentSameOwner`. -/
def getAdjecentSameOwner (R : Resolution) (peers : ReplicationIndex)
    (range : ReplicationRangeIndexable) : AdjacentRanges :=
  let options : ClosestOptions := { hash := some range.hash }
  let closestBelow := fetchOne (getClosest R .below peers range.start1 true options)
  let closestAbove := fetchOne (getClosest R .above peers range.end2 true options)
  let idBelow := closestBelow.map ReplicationRangeIndexable.id
  { below := if idBelow = some range.id then none else closestBelow
    above :=
      if idBelow = closestAbove.map ReplicationRangeIndexable.id ∨
          idBelow = some range.id then none
      else closestAbove }

/-- `getCoveringRangesSameOwner`. -/
def getCoveringRangesSameOwner (rects : ReplicationIndex)
    (range : ReplicationRangeIndexable) : List ReplicationRangeIndexable :=
  rects.filter (fun stored =>
    (getCoveringRangeQuery range).all (fun query => query stored) &&
      decide (stored.hash = range.hash) && !decide (stored.id = range.id))

/-- `getAllMergeCandiates`. -/
def getAllMergeCandiates (R : Resolution) (peers : ReplicationIndex)
    (range : ReplicationRangeIndexable) : List ReplicationRangeIndexable :=
  let adjacent := getAdjecentSameOwner R peers range
  let ret :=
    (adjacent.below.toList ++ adjacent.above.toList ++
      getCoveringRangesSameOwner peers range).foldl
        (fun ret r => ret.set r.id r) (.empty : Lib.InsertionMap String _)
  ret.entries.map Prod.snd

/-- What a log does not change: its key, whom it trusts, and whether its domain
merges ranges; and whether it replicates adaptively at the time. -/
structure LogConfig where
  resolution : Resolution
  publicKey : PeerHash
  isTrustedReplicator : PeerHash → Bool
  canMerge : Option (ReplicationRangeIndexable → ReplicationRangeIndexable → Bool)
  isAdaptiveReplicating : Bool

section Operations

variable (log : LogConfig)

/-- With `mergeSegments`: the range to replicate, and the ranges to unreplicate.
`ids` are the ids that the merged ranges get where they need new ones; `none` is an
error, or that there is nothing to do. -/
def rangesToReplicate (peers : ReplicationIndex)
    (ranges : List ReplicationRangeIndexable) (ids : String × String) :
    Option (ReplicationRangeIndexable × List ReplicationRangeIndexable) :=
  let range :=
    if 1 < ranges.length then mergeRanges log.resolution ids.1 ranges else ranges.head?
  range.bind fun range =>
    match log.canMerge with
    | none => some (range, [])
    | some canMerge =>
        let existing := getAllMergeCandiates log.resolution peers range
        let mergeable := existing.filter (fun candidate => canMerge candidate range)
        let toKeep := (existing.filter (fun candidate => !canMerge candidate range)).map
          ReplicationRangeIndexable.id
        let merged :=
          if 1 < (mergeable ++ [range]).length then
            mergeRanges log.resolution ids.2 (mergeable ++ [range])
          else some range
        merged.map fun merged =>
          (merged, existing.filter (fun candidate =>
            decide (candidate.id ≠ merged.id) && decide (candidate.id ∉ toKeep)))

/-- `resolveReplicationRangesFromIdsAndKey`. -/
def resolveReplicationRanges (index : ReplicationRanges) (ids : List String)
    (from_ : PeerHash) : List ReplicationRangeIndexable :=
  index.ranges.filter (fun r => decide (r.id ∈ ids) && decide (r.hash = from_))

/-- What `unreplicate` is called with. -/
inductive UnreplicateOptions where
  | entry (offset : Nat)
  | segments (ids : List String)
  | everything
deriving Repr, DecidableEq

/-- The `segmentIds` of `unreplicate`. -/
def segmentIds (index : ReplicationRanges) : UnreplicateOptions → List String
  | .entry offset =>
      (index.ranges.filter (fun r => decide (r.width = 1) && decide (r.start1 = offset))).map
        ReplicationRangeIndexable.id
  | .segments ids => ids
  | .everything => []

/-- `unreplicate`; a call that throws leaves the state. -/
def unreplicate (s : ReplicationState) (options : UnreplicateOptions) (timestamp : Int) :
    ReplicationState :=
  match options with
  | .everything => removeReplicator s log.publicKey timestamp
  | options =>
      let ids := segmentIds s.replicationIndex options
      if ids = [] ∨ log.isAdaptiveReplicating = true then s
      else
        (removeReplicationRanges s
          (resolveReplicationRanges s.replicationIndex ids log.publicKey)
          log.publicKey).getD s

/-- `replicate` with `mergeSegments`, from the ranges that it has built on; it resets
also where no offset was given. -/
def replicateMerging (s : ReplicationState) (ranges : List ReplicationRangeIndexable)
    (ids : String × String) (options : AddOptions) : ReplicationState :=
  match rangesToReplicate log s.replicationIndex.ranges ranges ids with
  | none => s
  | some (range, rangesToUnreplicate) =>
      let removed :=
        if rangesToUnreplicate = [] then s
        else (removeReplicationRanges s rangesToUnreplicate log.publicKey).getD s
      (addReplicationRange log.isTrustedReplicator removed [range] log.publicKey
        options).2

/-- `StoppedReplicating` of another peer. -/
def onStoppedReplicating (s : ReplicationState) (ids : List String) (from_ : PeerHash)
    (timestamp : Int) : ReplicationState :=
  let rangesToRemove := resolveReplicationRanges s.replicationIndex ids from_
  match removeReplicationRanges s rangesToRemove from_ with
  | none => s
  | some s =>
      { s with
        changes := s.changes ++ rangesToRemove.map
          (fun range => { type := .removed, range := range, timestamp := timestamp }) }

/-- The operations that delete ranges. -/
inductive DeletingOperation where
  | unreplicate (options : UnreplicateOptions) (timestamp : Int)
  | replicateMerging (ranges : List ReplicationRangeIndexable) (ids : String × String)
      (options : AddOptions)
  | stoppedReplicating (ids : List String) (from_ : PeerHash) (timestamp : Int)
  /-- `AllReplicatingSegmentsMessage` of another peer. -/
  | allReplicating (ranges : List ReplicationRangeIndexable) (from_ : PeerHash)
      (timestamp : Int) (now minRoleAge : Nat)
  /-- The peer has left. -/
  | leave (hash : PeerHash) (timestamp : Int)

def DeletingOperation.run (s : ReplicationState) : DeletingOperation → ReplicationState
  | .unreplicate options timestamp => SharedLog.unreplicate log s options timestamp
  | .replicateMerging ranges ids options =>
      SharedLog.replicateMerging log s ranges ids options
  | .stoppedReplicating ids from_ timestamp => onStoppedReplicating s ids from_ timestamp
  | .allReplicating ranges from_ timestamp now minRoleAge =>
      (addReplicationRange log.isTrustedReplicator s
        (ranges.map (fun x => { x with hash := from_ })) from_
        { reset := true, checkDuplicates := true, timestamp := timestamp, now := now
          minRoleAge := minRoleAge }).2
  | .leave hash timestamp => removeReplicator s hash timestamp

end Operations

/-! ### What is reported -/

/-- The point is in a range of the peer. -/
def Covered (ranges : List ReplicationRangeIndexable) (hash : PeerHash) (p : Nat) : Prop :=
  ∃ r ∈ ranges, r.hash = hash ∧ r.contains p = true

/-- The point is in a removed or replaced range that was passed on between the two
states. -/
def Reported (s s' : ReplicationState) (p : Nat) : Prop :=
  ∃ change ∈ s'.changes.drop s.changes.length,
    change.isRemoval = true ∧ change.range.contains p = true

/-- Each point of a deleted range that its peer does not cover any more is reported. -/
def RemovalsReported (s s' : ReplicationState) : Prop :=
  ∀ r ∈ s.replicationIndex.ranges, r ∉ s'.replicationIndex.ranges →
    ∀ p, r.contains p = true →
      ¬ Covered s'.replicationIndex.ranges r.hash p → Reported s s' p

section Conditions

variable (log : LogConfig)

/-- The ranges with other ids than these. -/
def withoutIds (index : ReplicationRanges) (ranges : List ReplicationRangeIndexable) :
    ReplicationRanges :=
  index.del (fun r => ranges.any (fun x => decide (r.id = x.id)))

/-- The segments that are given up are covered by others of the peer. -/
def SegmentsCovered (index : ReplicationRanges) (ids : List String) (me : PeerHash) :
    Prop :=
  ∀ r ∈ index.ranges, r.hash = me → r.id ∈ ids → ∀ p, r.contains p = true →
    ∃ r' ∈ index.ranges, r'.hash = me ∧ r'.id ∉ ids ∧ r'.contains p = true

/-- A range of another peer whose id is taken is covered by its other ranges, or by
those that the reset reports. -/
def TakenCovered (index : ReplicationRanges) (ranges : List ReplicationRangeIndexable)
    (from_ : PeerHash) : Prop :=
  ∀ r ∈ index.ranges, r.hash ≠ from_ → (∃ x ∈ ranges, x.id = r.id) →
    ∀ p, r.contains p = true →
      Covered (withoutIds index ranges).ranges r.hash p ∨ Covered index.ranges from_ p

/-- The merged range is put into the index: with a reset, or if it is neither a
duplicate nor indexed already. -/
def AddsMerged (options : AddOptions) (rest : ReplicationRanges)
    (merged : ReplicationRangeIndexable) : Prop :=
  options.reset = true ∨
    (merged ∈ deduplicated rest [merged] options ∧
      ∀ prev ∈ rest.ranges, prev.id = merged.id → prev.equalRange merged = false)

/-- What adding the merged range takes out of the index. -/
def TakesOut (options : AddOptions) (rest : ReplicationRanges)
    (merged r : ReplicationRangeIndexable) : Prop :=
  (options.reset = true ∧ r.hash = log.publicKey) ∨
    (AddsMerged options rest merged ∧ r.id = merged.id)

/-- What it reports of this. -/
def ReportsTaken (options : AddOptions) (rest : ReplicationRanges)
    (merged r : ReplicationRangeIndexable) : Prop :=
  options.rebalance = true ∧
    if options.reset = true then r.hash = log.publicKey
    else AddsMerged options rest merged ∧ r.id = merged.id

/-- The ranges that are unreplicated, or taken out and not reported, are covered by
those that stay, by the merged one, or by those that are reported. -/
def MergeCovered (index : ReplicationRanges) (options : AddOptions)
    (merged : ReplicationRangeIndexable)
    (rangesToUnreplicate : List ReplicationRangeIndexable) : Prop :=
  let rest := withoutIds index rangesToUnreplicate
  if log.isTrustedReplicator log.publicKey = true then
    ∀ r ∈ index.ranges,
      r ∉ rest.ranges ∨
        (TakesOut log options rest merged r ∧ ¬ ReportsTaken log options rest merged r) →
      ∀ p, r.contains p = true →
        (∃ r' ∈ rest.ranges, ¬ TakesOut log options rest merged r' ∧ r'.hash = r.hash ∧
          r'.contains p = true) ∨
        (AddsMerged options rest merged ∧ merged.hash = r.hash ∧
          merged.contains p = true) ∨
        ∃ q ∈ rest.ranges, ReportsTaken log options rest merged q ∧ q.contains p = true
  else
    ∀ r ∈ index.ranges, r ∉ rest.ranges → ∀ p, r.contains p = true →
      Covered rest.ranges r.hash p

/-- Where an operation reports what it gives up. -/
def DeletingOperation.Reports (s : ReplicationState) : DeletingOperation → Prop
  | .unreplicate .everything _ => True
  | .unreplicate options _ =>
      log.isAdaptiveReplicating = false →
        SegmentsCovered s.replicationIndex (segmentIds s.replicationIndex options)
          log.publicKey
  | .replicateMerging ranges ids options =>
      ∀ merged rangesToUnreplicate,
        rangesToReplicate log s.replicationIndex.ranges ranges ids =
          some (merged, rangesToUnreplicate) →
        MergeCovered log s.replicationIndex options merged rangesToUnreplicate
  | .stoppedReplicating _ _ _ => True
  | .allReplicating ranges from_ _ _ _ =>
      log.isTrustedReplicator from_ = true → TakenCovered s.replicationIndex ranges from_
  | .leave _ _ => True

end Conditions

/-! ### The operations -/

section Reports

variable {log : LogConfig} {s s' : ReplicationState} {p : Nat}

/-- Where an operation ends up, given what it passes on. -/
theorem reported_iff {new : List ReplicationChange} (h : s'.changes = s.changes ++ new) :
    Reported s s' p ↔
      ∃ change ∈ new, change.isRemoval = true ∧ change.range.contains p = true := by
  rw [Reported, h, List.drop_left]

theorem removalsReported_of_index (h : s'.replicationIndex = s.replicationIndex) :
    RemovalsReported s s' := by
  intro r hr hgone
  rw [h] at hgone
  exact absurd hr hgone

theorem removalsReported_removeReplicator (s : ReplicationState) (keyHash : PeerHash)
    (timestamp : Int) : RemovalsReported s (removeReplicator s keyHash timestamp) := by
  intro r hr hgone p hp _
  have hhash : r.hash = keyHash := by
    by_contra hne
    exact hgone (ReplicationRanges.mem_del.mpr ⟨hr, decide_eq_false hne⟩)
  rw [reported_iff rfl]
  refine ⟨{ type := .removed, range := r, timestamp := timestamp },
    List.mem_map.mpr ⟨r, List.mem_filter.mpr ⟨hr, decide_eq_true hhash⟩, rfl⟩, rfl, hp⟩

theorem mem_resolveReplicationRanges {index : ReplicationRanges} {ids : List String}
    {from_ : PeerHash} {r : ReplicationRangeIndexable} :
    r ∈ resolveReplicationRanges index ids from_ ↔
      r ∈ index.ranges ∧ r.id ∈ ids ∧ r.hash = from_ := by
  simp [resolveReplicationRanges]

theorem mem_withoutIds {index : ReplicationRanges}
    {ranges : List ReplicationRangeIndexable} {r : ReplicationRangeIndexable} :
    r ∈ (withoutIds index ranges).ranges ↔
      r ∈ index.ranges ∧ ∀ x ∈ ranges, x.id ≠ r.id := by
  rw [withoutIds, ReplicationRanges.mem_del, List.any_eq_false]
  refine and_congr_right fun _ => forall₂_congr fun x _ => ?_
  rw [decide_eq_true_eq]
  exact ne_comm

theorem replicationIndex_remove {ranges : List ReplicationRangeIndexable}
    {from_ : PeerHash} (h : removeReplicationRanges s ranges from_ = some s') :
    s'.replicationIndex = withoutIds s.replicationIndex ranges ∧
      s'.changes = s.changes := by
  rw [removeReplicationRanges, Option.ite_none_left_eq_some] at h
  rw [← Option.some.inj h.2]
  exact ⟨rfl, rfl⟩

theorem removalsReported_stopped (s : ReplicationState) (ids : List String)
    (from_ : PeerHash) (timestamp : Int) :
    RemovalsReported s (onStoppedReplicating s ids from_ timestamp) := by
  rw [onStoppedReplicating]
  split
  · exact removalsReported_of_index rfl
  · rename_i s' hremoved
    obtain ⟨hindex, hchanges⟩ := replicationIndex_remove hremoved
    intro r hr hgone p hp _
    simp only [hindex] at hgone
    rw [mem_withoutIds, not_and] at hgone
    have htaken := hgone hr
    push Not at htaken
    obtain ⟨x, hx, hid⟩ := htaken
    have hmem := mem_resolveReplicationRanges.mp hx
    obtain rfl := ReplicationRanges.eq_of_id hmem.1 hr hid
    rw [reported_iff (by rw [hchanges])]
    exact ⟨{ type := .removed, range := x, timestamp := timestamp },
      List.mem_map_of_mem hx, rfl, hp⟩

/-- Nothing is passed on. -/
theorem removalsReported_silent_iff (h : s'.changes = s.changes) :
    RemovalsReported s s' ↔
      ∀ r ∈ s.replicationIndex.ranges, r ∉ s'.replicationIndex.ranges →
        ∀ p, r.contains p = true → Covered s'.replicationIndex.ranges r.hash p := by
  refine forall₂_congr fun r _ => forall_congr' fun _ => forall₂_congr fun p _ => ?_
  have hnone : ¬ Reported s s' p := by
    rw [reported_iff (by rw [h, List.append_nil])]
    rintro ⟨change, hchange, -⟩
    exact (nomatch hchange)
  exact ⟨fun h => by_contra fun hnot => hnone (h hnot), fun h hnot => absurd h hnot⟩

theorem removalsReported_segments_iff (s : ReplicationState) (options : UnreplicateOptions)
    (timestamp : Int) (hsegments : options ≠ .everything) :
    RemovalsReported s (unreplicate log s options timestamp) ↔
      (log.isAdaptiveReplicating = false →
        SegmentsCovered s.replicationIndex (segmentIds s.replicationIndex options)
          log.publicKey) := by
  have hunfold : unreplicate log s options timestamp =
      if segmentIds s.replicationIndex options = [] ∨ log.isAdaptiveReplicating = true then s
      else
        (removeReplicationRanges s
          (resolveReplicationRanges s.replicationIndex
            (segmentIds s.replicationIndex options) log.publicKey)
          log.publicKey).getD s := by
    cases options with
    | entry offset => rfl
    | segments ids => rfl
    | everything => exact absurd rfl hsegments
  rw [hunfold]
  generalize segmentIds s.replicationIndex options = ids
  split
  · rename_i hskip
    refine iff_of_true (removalsReported_of_index rfl) fun hadaptive => ?_
    rcases hskip with rfl | hskip
    · intro r _ _ hid
      cases hid
    · cases hadaptive.symm.trans hskip
  · rename_i hgo
    have hadaptive : log.isAdaptiveReplicating = false := by
      simpa using fun h => hgo (.inr h)
    rw [imp_iff_right hadaptive]
    cases hremoved : removeReplicationRanges s
        (resolveReplicationRanges s.replicationIndex ids log.publicKey) log.publicKey with
    | none =>
        refine iff_of_true (removalsReported_of_index rfl) fun r hr hhash hid => ?_
        rw [removeReplicationRanges, ite_eq_left_iff] at hremoved
        have hempty : resolveReplicationRanges s.replicationIndex ids log.publicKey = [] := by
          by_contra hne
          cases hremoved hne
        have hmem := mem_resolveReplicationRanges.mpr ⟨hr, hid, hhash⟩
        rw [hempty] at hmem
        cases hmem
    | some s' =>
        obtain ⟨hindex, hchanges⟩ := replicationIndex_remove hremoved
        rw [Option.getD_some, removalsReported_silent_iff hchanges, hindex]
        -- what is left of the index: the ranges of other peers, and of other ids
        have hstays : ∀ r ∈ s.replicationIndex.ranges,
            r ∈ (withoutIds s.replicationIndex (resolveReplicationRanges s.replicationIndex
              ids log.publicKey)).ranges ↔ ¬ (r.hash = log.publicKey ∧ r.id ∈ ids) := by
          intro r hr
          rw [mem_withoutIds, and_iff_right hr]
          constructor
          · rintro hfree ⟨hhash, hid⟩
            exact hfree r (mem_resolveReplicationRanges.mpr ⟨hr, hid, hhash⟩) rfl
          · rintro hnot x hx hid
            obtain ⟨hmem, hid', hhash⟩ := mem_resolveReplicationRanges.mp hx
            obtain rfl := ReplicationRanges.eq_of_id hmem hr hid
            exact hnot ⟨hhash, hid'⟩
        refine forall₂_congr fun r hr => ?_
        rw [hstays r hr, not_not, and_imp]
        refine forall₂_congr fun hhash hid => forall₂_congr fun p _ => ?_
        rw [hhash, Covered]
        constructor
        · rintro ⟨r', hr', hhash', hp⟩
          have hmem := (mem_withoutIds.mp hr').1
          exact ⟨r', hmem, hhash', fun hid' => (hstays r' hmem).mp hr' ⟨hhash', hid'⟩, hp⟩
        · rintro ⟨r', hmem, hhash', hid', hp⟩
          exact ⟨r', (hstays r' hmem).mpr fun h => hid' h.2, hhash', hp⟩

/-! ### Adding -/

section Adding

variable {isTrustedReplicator : PeerHash → Bool} {from_ : PeerHash} {options : AddOptions}
variable {ranges : List ReplicationRangeIndexable}

theorem changes_add (htrusted : isTrustedReplicator from_ = true) :
    (addReplicationRange isTrustedReplicator s ranges from_ options).2.changes =
      s.changes ++
        (if options.rebalance = true then
          diffsOf s.replicationIndex ranges from_ options else []) := by
  have hchanges := (foldl_applyDiff options
    (diffsOf s.replicationIndex ranges from_ options)
    (beforeDiffs s from_ options)).2.2
  rw [addReplicationRange, if_neg (by simp [htrusted])]
  simp only [hchanges]
  split
  · rfl
  · rw [List.append_nil]
    rfl

/-- A reset reports the ranges of its peer. -/
theorem exists_removal_reset (index : ReplicationRanges) (hreset : options.reset = true) :
    (∃ change ∈ diffsOf index ranges from_ options,
        change.isRemoval = true ∧ change.range.contains p = true) ↔
      Covered index.ranges from_ p := by
  rw [diffsOf, if_pos hreset]
  constructor
  · rintro ⟨change, hchange, hremoval, hp⟩
    rcases List.mem_append.mp hchange with hremoved | hadded
    · obtain ⟨r, hr, rfl⟩ := List.mem_map.mp hremoved
      obtain ⟨hmem, hhash⟩ := List.mem_filter.mp hr
      exact ⟨r, hmem, of_decide_eq_true hhash, hp⟩
    · obtain ⟨x, -, rfl⟩ := List.mem_map.mp hadded
      cases hremoval
  · rintro ⟨r, hr, hhash, hp⟩
    refine ⟨{ type := .removed, range := r, timestamp := options.timestamp },
      List.mem_append_left _ (List.mem_map.mpr ⟨r, ?_, rfl⟩), rfl, hp⟩
    exact List.mem_filter.mpr ⟨hr, decide_eq_true hhash⟩

/-- After a reset, the ranges of the other peers are there whose ids were not taken. -/
theorem mem_reset_other (hfrom : ∀ x ∈ ranges, x.hash = from_)
    {r : ReplicationRangeIndexable} (hne : r.hash ≠ from_) :
    r ∈ (ranges.foldl ReplicationRanges.put
        (beforeDiffs s from_ options).replicationIndex).ranges ↔
      r ∈ (withoutIds s.replicationIndex ranges).ranges := by
  have hnot : r ∉ ranges := fun hmem => hne (hfrom r hmem)
  rw [mem_withoutIds]
  constructor
  · intro hr
    have hmem := (mem_of_mem_foldl_put hr).resolve_left hnot
    exact ⟨(mem_beforeDiffs.mp hmem).1, id_ne_of_mem_foldl_put hr hnot⟩
  · rintro ⟨hmem, hfree⟩
    exact mem_foldl_put_of_id_ne (mem_beforeDiffs.mpr ⟨hmem, fun _ => hne⟩) hfree

theorem removalsReported_reset_iff (htrusted : isTrustedReplicator from_ = true)
    (hreset : options.reset = true) (hrebalance : options.rebalance = true)
    (hfrom : ∀ x ∈ ranges, x.hash = from_) :
    RemovalsReported s (addReplicationRange isTrustedReplicator s ranges from_ options).2 ↔
      TakenCovered s.replicationIndex ranges from_ := by
  have hreported : ∀ p,
      Reported s (addReplicationRange isTrustedReplicator s ranges from_ options).2 p ↔
        Covered s.replicationIndex.ranges from_ p := by
    intro p
    rw [reported_iff (changes_add htrusted), if_pos hrebalance,
      exists_removal_reset _ hreset]
  have hindex : (addReplicationRange isTrustedReplicator s ranges from_
      options).2.replicationIndex =
      ranges.foldl ReplicationRanges.put (beforeDiffs s from_ options).replicationIndex := by
    rw [replicationIndex_add htrusted, addedRanges_reset _ hreset]
  have hcovered : ∀ hash p, hash ≠ from_ →
      (Covered (addReplicationRange isTrustedReplicator s ranges from_
          options).2.replicationIndex.ranges hash p ↔
        Covered (withoutIds s.replicationIndex ranges).ranges hash p) := by
    intro hash p hne
    rw [hindex]
    refine exists_congr fun r => ?_
    constructor
    · rintro ⟨hr, rfl, hp⟩
      exact ⟨(mem_reset_other hfrom hne).mp hr, rfl, hp⟩
    · rintro ⟨hr, rfl, hp⟩
      exact ⟨(mem_reset_other hfrom hne).mpr hr, rfl, hp⟩
  constructor
  · rintro h r hr hne ⟨x, hx, hid⟩ p hp
    rw [← hcovered r.hash p hne, ← hreported]
    refine or_iff_not_imp_left.mpr (h r hr ?_ p hp)
    rw [hindex, mem_reset_other hfrom hne, mem_withoutIds]
    exact fun hfree => hfree.2 x hx hid
  · intro h r hr hgone p hp hnot
    rw [hreported]
    by_cases hne : r.hash = from_
    · exact ⟨r, hr, hne, hp⟩
    · rw [hindex, mem_reset_other hfrom hne, mem_withoutIds, not_and] at hgone
      have htaken := hgone hr
      push Not at htaken
      rw [hcovered r.hash p hne] at hnot
      exact (h r hr hne htaken p hp).resolve_left hnot

/-- Only the ids of what a reset adds count. -/
theorem takenCovered_map_iff (index : ReplicationRanges)
    (f : ReplicationRangeIndexable → ReplicationRangeIndexable)
    (hf : ∀ x, (f x).id = x.id) :
    TakenCovered index (ranges.map f) from_ ↔ TakenCovered index ranges from_ := by
  simp [TakenCovered, withoutIds, List.any_map, Function.comp_def, hf]

/-! ### Adding the merged range -/

variable {merged r : ReplicationRangeIndexable}

theorem existingMap_single (index : ReplicationRanges) :
    existingMap (existingOf index [merged]) merged.id = some r ↔
      r ∈ index.ranges ∧ r.id = merged.id := by
  rw [existingMap_eq_some_iff]
  have hone : batches [merged] = [[merged]] := by
    simp [batches, batchSize, List.range_succ]
  have hbatch : ∃ batch ∈ batches [merged], ∀ y ∈ batch, y.id = merged.id := by
    simp [hone]
  rw [and_iff_left hbatch]

theorem addedRanges_single (index : ReplicationRanges) :
    (AddsMerged options index merged →
      addedRanges (diffsOf index [merged] from_ options) = [merged]) ∧
    (¬ AddsMerged options index merged →
      addedRanges (diffsOf index [merged] from_ options) = []) := by
  by_cases hreset : options.reset = true
  · exact ⟨fun _ => addedRanges_reset _ hreset, fun hnot => absurd (.inl hreset) hnot⟩
  · have hplain := Bool.eq_false_iff.mpr hreset
    have hadds : AddsMerged options index merged ↔
        merged ∈ addedRanges (diffsOf index [merged] from_ options) := by
      rw [AddsMerged, or_iff_right hreset, addedRanges_plain _ hplain, List.mem_filter,
        Bool.not_eq_true', Option.any_eq_false]
      refine and_congr_right fun _ => ⟨fun h prev hprev => ?_, fun h prev hprev hid => ?_⟩
      · obtain ⟨hmem, hid⟩ := (existingMap_single index).mp hprev
        simpa using h prev hmem hid
      · simpa using h prev ((existingMap_single index).mpr ⟨hprev, hid⟩)
    have hsub : (addedRanges (diffsOf index [merged] from_ options)).Sublist [merged] := by
      rw [addedRanges_plain _ hplain, deduplicated]
      split
      · exact List.filter_sublist.trans List.filter_sublist
      · exact List.filter_sublist
    rcases List.sublist_singleton.mp hsub with hnone | hone
    · rw [hadds, hnone]
      exact ⟨fun h => absurd h List.not_mem_nil, fun _ => rfl⟩
    · rw [hadds, hone]
      exact ⟨fun _ => rfl, fun h => absurd (List.mem_singleton.mpr rfl) h⟩

/-- The ranges that stay, and the merged one. -/
theorem mem_add_merged {rest : ReplicationState}
    (htrusted : log.isTrustedReplicator log.publicKey = true) :
    r ∈ (addReplicationRange log.isTrustedReplicator rest [merged] log.publicKey
        options).2.replicationIndex.ranges ↔
      (r ∈ rest.replicationIndex.ranges ∧
        ¬ TakesOut log options rest.replicationIndex merged r) ∨
      (AddsMerged options rest.replicationIndex merged ∧ r = merged) := by
  rw [replicationIndex_add htrusted, TakesOut]
  by_cases hadds : AddsMerged options rest.replicationIndex merged
  · rw [(addedRanges_single _).1 hadds, List.foldl_cons, List.foldl_nil,
      ReplicationRanges.mem_put, mem_beforeDiffs]
    simp only [hadds, true_and, not_or, not_and]
    tauto
  · have hreset : options.reset ≠ true := fun h => hadds (.inl h)
    rw [(addedRanges_single _).2 hadds, List.foldl_nil, mem_beforeDiffs]
    simp [hadds, hreset]

theorem exists_removal_merged (index : ReplicationRanges) (hreset : options.reset = false) :
    (∃ change ∈ diffsOf index [merged] from_ options,
        change.isRemoval = true ∧ change.range.contains p = true) ↔
      ∃ q ∈ index.ranges, (AddsMerged options index merged ∧ q.id = merged.id) ∧
        q.contains p = true := by
  rw [diffsOf, if_neg (by simp [hreset]), changesOfRanges_eq, AddsMerged,
    or_iff_right (by simp [hreset])]
  constructor
  · rintro ⟨change, hchange, hremoval, hp⟩
    obtain ⟨x, hx, hfor⟩ := List.mem_flatMap.mp hchange
    obtain rfl := List.mem_singleton.mp (deduplicated_subset index x hx)
    simp only [changesFor] at hfor
    split at hfor
    · rename_i prev hprev
      split at hfor
      · cases hfor
      · rename_i hchanged
        obtain ⟨hmem, hid⟩ := (existingMap_single index).mp hprev
        rcases List.mem_cons.mp hfor with rfl | hadded
        · refine ⟨prev, hmem, ⟨⟨hx, fun prev' hprev' hid' => ?_⟩, hid⟩, hp⟩
          rw [ReplicationRanges.eq_of_id hprev' hmem (hid'.trans hid.symm)]
          exact Bool.eq_false_iff.mpr hchanged
        · rw [List.mem_singleton.mp hadded] at hremoval
          cases hremoval
    · rw [List.mem_singleton.mp hfor] at hremoval
      cases hremoval
  · rintro ⟨q, hq, ⟨⟨hmerged, hchanged⟩, hid⟩, hp⟩
    refine ⟨replacedChange q merged, List.mem_flatMap.mpr ⟨merged, hmerged, ?_⟩, rfl, hp⟩
    rw [(existingMap_single index).mpr ⟨hq, hid⟩, changesFor,
      if_neg (by simp [hchanged q hq hid])]
    exact List.mem_cons_self

/-- What is reported when the merged range is added. -/
theorem reported_merged_iff {rest : ReplicationState} (hchanges : rest.changes = s.changes)
    (htrusted : log.isTrustedReplicator log.publicKey = true) :
    Reported s (addReplicationRange log.isTrustedReplicator rest [merged] log.publicKey
        options).2 p ↔
      ∃ q ∈ rest.replicationIndex.ranges,
        ReportsTaken log options rest.replicationIndex merged q ∧ q.contains p = true := by
  rw [reported_iff (by rw [changes_add htrusted, hchanges])]
  by_cases hrebalance : options.rebalance = true
  · simp only [ReportsTaken, hrebalance, if_true, true_and]
    by_cases hreset : options.reset = true
    · rw [exists_removal_reset _ hreset]
      simp only [hreset, if_true]
      rfl
    · rw [exists_removal_merged _ (Bool.eq_false_iff.mpr hreset)]
      simp only [hreset, Bool.false_eq_true, if_false]
  · simp [ReportsTaken, hrebalance]

end Adding

/-- Where the ranges were unreplicated before, and the merged one is added. -/
theorem removalsReported_merged_iff {rest : ReplicationState} {options : AddOptions}
    {merged : ReplicationRangeIndexable}
    {rangesToUnreplicate : List ReplicationRangeIndexable}
    (hindex : rest.replicationIndex = withoutIds s.replicationIndex rangesToUnreplicate)
    (hchanges : rest.changes = s.changes) :
    RemovalsReported s (addReplicationRange log.isTrustedReplicator rest [merged]
        log.publicKey options).2 ↔
      MergeCovered log s.replicationIndex options merged rangesToUnreplicate := by
  rw [MergeCovered]
  simp only [← hindex]
  split
  case isFalse htrusted =>
    rw [addReplicationRange, if_pos (by simpa using htrusted),
      removalsReported_silent_iff hchanges]
  case isTrue htrusted =>
    have hcovered : ∀ hash p,
        Covered (addReplicationRange log.isTrustedReplicator rest [merged] log.publicKey
            options).2.replicationIndex.ranges hash p ↔
          (∃ r' ∈ rest.replicationIndex.ranges,
            ¬ TakesOut log options rest.replicationIndex merged r' ∧ r'.hash = hash ∧
              r'.contains p = true) ∨
          (AddsMerged options rest.replicationIndex merged ∧ merged.hash = hash ∧
            merged.contains p = true) := by
      intro hash p
      rw [Covered]
      simp only [mem_add_merged htrusted, or_and_right, exists_or, and_assoc,
        exists_and_left, exists_eq_left]
    constructor
    · intro h r hr htaken p hp
      rw [← or_assoc, ← hcovered, ← reported_merged_iff hchanges htrusted]
      by_cases hself : AddsMerged options rest.replicationIndex merged ∧ r = merged
      · obtain ⟨hadds, rfl⟩ := hself
        exact .inl ((hcovered r.hash p).mpr (.inr ⟨hadds, rfl, hp⟩))
      · refine or_iff_not_imp_left.mpr (h r hr ?_ p hp)
        rw [mem_add_merged htrusted, or_iff_left hself]
        rintro ⟨hrest, hstays⟩
        exact htaken.elim (fun hnot => hnot hrest) fun h => hstays h.1
    · intro h r hr hgone p hp hnot
      rw [mem_add_merged htrusted, not_or, not_and, not_not] at hgone
      rw [reported_merged_iff hchanges htrusted]
      rw [hcovered, not_or] at hnot
      -- a range that is taken out and reported needs no cover
      by_cases htold : r ∈ rest.replicationIndex.ranges ∧
          ReportsTaken log options rest.replicationIndex merged r
      · exact ⟨r, htold.1, htold.2, hp⟩
      · have htaken : r ∉ rest.replicationIndex.ranges ∨
            (TakesOut log options rest.replicationIndex merged r ∧
              ¬ ReportsTaken log options rest.replicationIndex merged r) := by
          by_cases hrest : r ∈ rest.replicationIndex.ranges
          · exact .inr ⟨hgone.1 hrest, fun hreports => htold ⟨hrest, hreports⟩⟩
          · exact .inl hrest
        rcases h r hr htaken p hp with hstays | hmerged | hreported
        · exact absurd hstays hnot.1
        · exact absurd hmerged hnot.2
        · exact hreported

theorem withoutIds_nil (index : ReplicationRanges) : withoutIds index [] = index := by
  obtain ⟨ranges, hnodup⟩ := index
  simp [withoutIds, ReplicationRanges.del]

theorem removalsReported_merging_iff (s : ReplicationState)
    (ranges : List ReplicationRangeIndexable) (ids : String × String)
    (options : AddOptions) :
    RemovalsReported s (replicateMerging log s ranges ids options) ↔
      ∀ merged rangesToUnreplicate,
        rangesToReplicate log s.replicationIndex.ranges ranges ids =
          some (merged, rangesToUnreplicate) →
        MergeCovered log s.replicationIndex options merged rangesToUnreplicate := by
  rw [replicateMerging]
  split
  · rename_i hnothing
    refine iff_of_true (removalsReported_of_index rfl) fun merged rangesToUnreplicate h => ?_
    cases hnothing.symm.trans h
  · rename_i merged rangesToUnreplicate hplan
    have hplan' : (∀ merged' ranges', rangesToReplicate log s.replicationIndex.ranges ranges
        ids = some (merged', ranges') →
          MergeCovered log s.replicationIndex options merged' ranges') ↔
        MergeCovered log s.replicationIndex options merged rangesToUnreplicate := by
      simp [hplan]
    rw [hplan']
    by_cases hempty : rangesToUnreplicate = []
    · rw [if_pos hempty]
      exact removalsReported_merged_iff (by rw [hempty, withoutIds_nil]) rfl
    · rw [if_neg hempty]
      cases hremoved : removeReplicationRanges s rangesToUnreplicate log.publicKey with
      | none =>
          rw [removeReplicationRanges, if_neg hempty] at hremoved
          cases hremoved
      | some rest =>
          obtain ⟨hindex, hchanges⟩ := replicationIndex_remove hremoved
          exact removalsReported_merged_iff hindex hchanges

end Reports

/-- An operation reports what it gives up exactly under its condition. -/
theorem removalsReported_iff (log : LogConfig) (s : ReplicationState)
    (operation : DeletingOperation) :
    RemovalsReported s (operation.run log s) ↔ operation.Reports log s := by
  cases operation with
  | unreplicate options timestamp =>
      cases options with
      | everything =>
          exact iff_of_true (removalsReported_removeReplicator s _ timestamp) trivial
      | entry offset =>
          exact removalsReported_segments_iff s (.entry offset) timestamp (by simp)
      | segments ids =>
          exact removalsReported_segments_iff s (.segments ids) timestamp (by simp)
  | replicateMerging ranges ids options =>
      exact removalsReported_merging_iff s ranges ids options
  | stoppedReplicating ids from_ timestamp =>
      exact iff_of_true (removalsReported_stopped s ids from_ timestamp) trivial
  | allReplicating ranges from_ timestamp now minRoleAge =>
      rw [DeletingOperation.Reports, DeletingOperation.run]
      by_cases htrusted : log.isTrustedReplicator from_ = true
      · rw [imp_iff_right htrusted, removalsReported_reset_iff htrusted rfl rfl (by simp)]
        exact takenCovered_map_iff _ _ fun _ => rfl
      · refine iff_of_true ?_ fun h => absurd h htrusted
        rw [addReplicationRange, if_pos (by simpa using htrusted)]
        exact removalsReported_of_index rfl
  | leave hash timestamp =>
      exact iff_of_true (removalsReported_removeReplicator s hash timestamp) trivial

/-- A log gives up its only segment, and the points of it are not looked at again. -/
theorem not_removalsReported_segment :
    ∃ (log : LogConfig) (s : ReplicationState),
      (replicationMachine log.isTrustedReplicator).Run Lib.Machine.Free s ∧
      ¬ RemovalsReported s
        ((DeletingOperation.unreplicate (.segments ["1"]) 0).run log s) := by
  let log : LogConfig :=
    { resolution := .u32, publicKey := "a", isTrustedReplicator := fun _ => true
      canMerge := none, isAdaptiveReplicating := false }
  refine ⟨log, _, .of_exec .init [.addReplicationRange [MovedRanges.tenFrom "1" 0] "a" {}]
    rfl, fun h => ?_⟩
  obtain ⟨change, hchange, -⟩ := h (MovedRanges.tenFrom "1" 0) (by decide) (by decide) 5
    (by decide) (by rintro ⟨r, hr, -⟩; exact (nomatch hr))
  exact (nomatch hchange)

end SharedLog
end Peerbit
