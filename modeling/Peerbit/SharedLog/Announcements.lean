import Peerbit.Lib.LastWord
import Peerbit.SharedLog.GivenUpRanges

/-!
# Announcements of ranges

A peer announces its ranges: all of them, some that it has added, or the ids of some
that it has given up.  Another peer may handle these messages in another order than
they were sent in.

A message with ranges is dropped when a later one of these was handled before.  But
a later one need not name its ranges.  `StoppedReplicating` neither looks at the times
nor leaves its own.  And a range that is covered by another one of its peer is not
added at all, also if the other one is given up afterwards.  Where none of this
matters, the index holds what the peer has announced last (`announced_of_run`).
-/

namespace Peerbit
namespace SharedLog

/-! ### Messages -/

/-- The messages about the segments of a peer. -/
inductive SegmentsMessage (Segment : Type) where
  | AllReplicatingSegmentsMessage (segments : List Segment)
  | AddedReplicationSegmentMessage (segments : List Segment)
  | StoppedReplicating (segmentIds : List String)
deriving Repr, DecidableEq

namespace SegmentsMessage

variable {Segment Segment' : Type}

def map (f : Segment → Segment') : SegmentsMessage Segment → SegmentsMessage Segment'
  | .AllReplicatingSegmentsMessage segments =>
      .AllReplicatingSegmentsMessage (segments.map f)
  | .AddedReplicationSegmentMessage segments =>
      .AddedReplicationSegmentMessage (segments.map f)
  | .StoppedReplicating segmentIds => .StoppedReplicating segmentIds

def segments : SegmentsMessage Segment → List Segment
  | .AllReplicatingSegmentsMessage segments => segments
  | .AddedReplicationSegmentMessage segments => segments
  | .StoppedReplicating _ => []

end SegmentsMessage

/-- A receiver with its `latestReplicationInfoMessage`. -/
structure ReplicationReceiver where
  state : ReplicationState
  latestReplicationInfoMessage : PeerHash → Option Nat

section Handlers

variable (log : LogConfig)

/-- The handler of the messages with segments.  An older one than the latest is
dropped; a segment out of bounds is an error. -/
def onReplicationInfo (s : ReplicationReceiver) (reset : Bool)
    (segments : List ReplicationRangeMessage) (from_ : PeerHash)
    (timestamp now minRoleAge : Nat) : ReplicationReceiver :=
  if (s.latestReplicationInfoMessage from_).any (fun prev => decide (timestamp < prev)) then
    s
  else
    let latest := Function.update s.latestReplicationInfoMessage from_ (some timestamp)
    match segments.mapM
        (fun x => x.toReplicationRangeIndexable log.resolution from_) with
    | none => { s with latestReplicationInfoMessage := latest }
    | some ranges =>
        { state :=
            (addReplicationRange log.isTrustedReplicator s.state ranges from_
              { reset := reset, checkDuplicates := true, timestamp := timestamp
                now := now, minRoleAge := minRoleAge }).2
          latestReplicationInfoMessage := latest }

/-- `onMessage`, for the messages about segments. -/
def onSegmentsMessage (s : ReplicationReceiver)
    (message : SegmentsMessage ReplicationRangeMessage) (from_ : PeerHash)
    (timestamp now minRoleAge : Nat) : ReplicationReceiver :=
  if from_ = log.publicKey then s
  else
    match message with
    | .AllReplicatingSegmentsMessage segments =>
        onReplicationInfo log s true segments from_ timestamp now minRoleAge
    | .AddedReplicationSegmentMessage segments =>
        onReplicationInfo log s false segments from_ timestamp now minRoleAge
    | .StoppedReplicating segmentIds =>
        { s with state := onStoppedReplicating s.state segmentIds from_ now }

end Handlers

/-! ### The sender -/

/-- A message as it is sent, with the ranges of the sender. -/
structure Announcement where
  timestamp : Nat
  message : SegmentsMessage ReplicationRangeIndexable
deriving Repr, DecidableEq

/-- What a peer announces, with increasing times. -/
structure Announcements (R : Resolution) (from_ : PeerHash) where
  sent : List Announcement
  increasing : sent.Pairwise (fun a b => a.timestamp < b.timestamp)
  own : ∀ a ∈ sent, ∀ range ∈ a.message.segments,
    range.Shape R ∧ range.hash = from_

/-- The ranges of a peer after an announcement. -/
def announce (own : ReplicationRanges) (a : Announcement) : ReplicationRanges :=
  match a.message with
  | .AllReplicatingSegmentsMessage segments =>
      segments.foldl ReplicationRanges.put .empty
  | .AddedReplicationSegmentMessage segments => segments.foldl ReplicationRanges.put own
  | .StoppedReplicating segmentIds => own.del (fun r => decide (r.id ∈ segmentIds))

/-- The ranges of a peer after all that it has announced. -/
def ownRanges (sent : List Announcement) : ReplicationRanges :=
  sent.foldl announce .empty

/-! ### Runs -/

/-- A receiver, and what it has handled. -/
structure Exchange where
  receiver : ReplicationReceiver
  handled : List Announcement

/-- An announcement is handled, at some time of the receiver. -/
structure Arrival where
  announcement : Announcement
  now : Nat
  minRoleAge : Nat
deriving Repr, DecidableEq

section Machine

variable (log : LogConfig) (from_ : PeerHash) (sent : List Announcement)

/-- Each announcement is handled once. -/
def exchangeStep (e : Exchange) (arrival : Arrival) : Option Exchange :=
  let a := arrival.announcement
  if a ∈ sent ∧ a ∉ e.handled then
    some
      { receiver :=
          onSegmentsMessage log e.receiver
            (a.message.map ReplicationRangeIndexable.toReplicationRange) from_
            a.timestamp arrival.now arrival.minRoleAge
        handled := a :: e.handled }
  else none

def exchangeMachine (start : ReplicationReceiver) : Lib.Machine Exchange Arrival where
  init := { receiver := start, handled := [] }
  step := exchangeStep log from_ sent

end Machine

/-! ### What should come of it -/

namespace ReplicationRangeIndexable

/-- Both segments. -/
def bounds (range : ReplicationRangeIndexable) : (Nat × Nat) × (Nat × Nat) :=
  ((range.start1, range.end1), (range.start2, range.end2))

end ReplicationRangeIndexable

/-- The bounds of the range that a peer has under an id. -/
def boundsUnder (index : ReplicationRanges) (hash : PeerHash) (id : String) :
    Option ((Nat × Nat) × (Nat × Nat)) :=
  ((index.get id).filter (fun r => decide (r.hash = hash))).map
    ReplicationRangeIndexable.bounds

/-- Once all is handled, the index holds the ranges of the sender. -/
def Announced (sent : List Announcement) (from_ : PeerHash) (e : Exchange) : Prop :=
  (∀ a ∈ sent, a ∈ e.handled) →
    ∀ id, boundsUnder e.receiver.state.replicationIndex from_ id =
      boundsUnder (ownRanges sent) from_ id

/-! ### When it does -/

/-- The last range of a list under an id. -/
def lastUnder (ranges : List ReplicationRangeIndexable) (id : String) :
    Option ReplicationRangeIndexable :=
  ranges.reverse.find? (fun r => decide (r.id = id))

/-- What an announcement tells about an id: the bounds of its range, or that there is
none. -/
def Announcement.tells (a : Announcement) (id : String) :
    Option (Option ((Nat × Nat) × (Nat × Nat))) :=
  match a.message with
  | .AllReplicatingSegmentsMessage segments =>
      some ((lastUnder segments id).map ReplicationRangeIndexable.bounds)
  | .AddedReplicationSegmentMessage segments =>
      (lastUnder segments id).map fun range => some range.bounds
  | .StoppedReplicating segmentIds => if id ∈ segmentIds then some none else none

/-- A range that is not added: a duplicate, or found unchanged. -/
def Skipped (index : ReplicationRanges) (ranges : List ReplicationRangeIndexable)
    (x : ReplicationRangeIndexable) : Prop :=
  countCoveringRangesSameOwner index.ranges x = true ∨
    (existingMap (existingOf index ranges) x.id).any (fun prev => prev.equalRange x) = true

/-- Where the last range under an id is not added, it is indexed, and none of the
others is added. -/
def LosesNothing (index : ReplicationRanges) (ranges : List ReplicationRangeIndexable) :
    Prop :=
  ∀ id x, lastUnder ranges id = some x → Skipped index ranges x →
    boundsUnder index x.hash id = some x.bounds ∧
      ∀ y ∈ ranges, y.id = id → Skipped index ranges y

section Condition

variable (log : LogConfig) (from_ : PeerHash) (e : Exchange) (a : Announcement)

/-- A later message than this one was handled that tells about the id. -/
def Outdated (id : String) : Prop :=
  ∃ b ∈ e.handled, a.timestamp < b.timestamp ∧ b.tells id ≠ none

/-- What the announcement tells is indexed, or outdated. -/
def NotNeeded : Prop :=
  ∀ id told, a.tells id = some told →
    boundsUnder e.receiver.state.replicationIndex from_ id = told ∨ Outdated e a id

/-- It is as it should be that the segments of the announcement are taken: the
receiver trusts the sender, each range arrives as it is, and none is outdated. -/
structure TakesSegments (reset : Bool) : Prop where
  trusted : log.isTrustedReplicator from_ = true
  arrives : ∀ range ∈ a.message.segments, range.end2 = 0 → range.end1 = 0
  added : reset = false →
    LosesNothing e.receiver.state.replicationIndex a.message.segments
  current : ∀ id bounds, a.tells id = some (some bounds) → ¬ Outdated e a id

/-- A step after which the index holds what was announced last. -/
def HandledWell (arrival : Arrival) : Prop :=
  let a := arrival.announcement
  let latest := e.receiver.latestReplicationInfoMessage from_
  match a.message with
  | .AllReplicatingSegmentsMessage _ =>
      if latest.any (fun prev => decide (a.timestamp < prev)) then NotNeeded from_ e a
      else TakesSegments log from_ e a true
  | .AddedReplicationSegmentMessage _ =>
      if latest.any (fun prev => decide (a.timestamp < prev)) then NotNeeded from_ e a
      else TakesSegments log from_ e a false
  | .StoppedReplicating segmentIds =>
      ∀ id ∈ segmentIds,
        boundsUnder e.receiver.state.replicationIndex from_ id ≠ none → ¬ Outdated e a id

end Condition

/-! ### The index under an id -/

section Under

variable {index : ReplicationRanges} {hash : PeerHash} {id : String}
variable {range x : ReplicationRangeIndexable} {ranges : List ReplicationRangeIndexable}

theorem get_put (index : ReplicationRanges) (range : ReplicationRangeIndexable)
    (id : String) :
    (index.put range).get id = if range.id = id then some range else index.get id := by
  apply Option.ext
  intro r
  rw [ReplicationRanges.get_eq_some_iff, ReplicationRanges.mem_put]
  split
  · rename_i hid
    subst hid
    rw [Option.some.injEq]
    constructor
    · rintro ⟨rfl | ⟨-, hne⟩, heq⟩
      · rfl
      · exact absurd heq hne
    · rintro rfl
      exact ⟨.inl rfl, rfl⟩
  · rename_i hne
    rw [ReplicationRanges.get_eq_some_iff]
    constructor
    · rintro ⟨rfl | ⟨hr, -⟩, heq⟩
      · exact absurd heq hne
      · exact ⟨hr, heq⟩
    · rintro ⟨hr, rfl⟩
      exact ⟨.inr ⟨hr, Ne.symm hne⟩, rfl⟩

theorem lastUnder_append (ranges : List ReplicationRangeIndexable)
    (range : ReplicationRangeIndexable) (id : String) :
    lastUnder (ranges ++ [range]) id =
      if range.id = id then some range else lastUnder ranges id := by
  rw [lastUnder, List.reverse_append, List.reverse_singleton, List.singleton_append,
    List.find?_cons, lastUnder]
  by_cases hid : range.id = id
  · simp [hid]
  · simp [hid]

theorem get_foldl_put (index : ReplicationRanges) (ranges : List ReplicationRangeIndexable)
    (id : String) :
    (ranges.foldl ReplicationRanges.put index).get id =
      (lastUnder ranges id).or (index.get id) := by
  induction ranges using List.reverseRecOn with
  | nil => rfl
  | append_singleton ranges range ih =>
      rw [List.foldl_append, List.foldl_cons, List.foldl_nil, get_put, lastUnder_append, ih]
      split
      · rfl
      · rfl

/-- What a peer has under an id after ranges of its were put. -/
theorem boundsUnder_foldl_put (index : ReplicationRanges)
    (hranges : ∀ x ∈ ranges, x.hash = hash) (id : String) :
    boundsUnder (ranges.foldl ReplicationRanges.put index) hash id =
      ((lastUnder ranges id).map ReplicationRangeIndexable.bounds).or
        (boundsUnder index hash id) := by
  rw [boundsUnder, get_foldl_put]
  cases hlast : lastUnder ranges id with
  | none => rfl
  | some x =>
      have hmem : x ∈ ranges := List.mem_reverse.mp (List.mem_of_find?_eq_some hlast)
      simp [Option.filter, hranges x hmem]

theorem boundsUnder_eq_some_iff {b : (Nat × Nat) × (Nat × Nat)} :
    boundsUnder index hash id = some b ↔
      ∃ r ∈ index.ranges, r.id = id ∧ r.hash = hash ∧ r.bounds = b := by
  simp only [boundsUnder, Option.map_eq_some_iff, Option.filter_eq_some_iff,
    ReplicationRanges.get_eq_some_iff, decide_eq_true_eq]
  constructor
  · rintro ⟨r, ⟨⟨hr, hid⟩, hhash⟩, hb⟩
    exact ⟨r, hr, hid, hhash, hb⟩
  · rintro ⟨r, hr, hid, hhash, hb⟩
    exact ⟨r, ⟨⟨hr, hid⟩, hhash⟩, hb⟩

theorem boundsUnder_eq_none_iff :
    boundsUnder index hash id = none ↔ ∀ r ∈ index.ranges, r.id = id → r.hash ≠ hash := by
  rw [Option.eq_none_iff_forall_ne_some]
  constructor
  · intro h r hr hid hhash
    exact h _ (boundsUnder_eq_some_iff.mpr ⟨r, hr, hid, hhash, rfl⟩)
  · intro h b hb
    obtain ⟨r, hr, hid, hhash, -⟩ := boundsUnder_eq_some_iff.mp hb
    exact h r hr hid hhash

end Under

/-! ### What the messages do -/

section Messages

variable {R : Resolution} {from_ : PeerHash} {id : String} {s : ReplicationState}
variable {range : ReplicationRangeIndexable} {ranges : List ReplicationRangeIndexable}

open ReplicationRangeIndexable

/-- A range arrives as it is, unless its second segment is empty at zero. -/
theorem toReplicationRangeIndexable_toReplicationRange (hshape : range.Shape R)
    (hhash : range.hash = from_) (hend : range.end2 = 0 → range.end1 = 0) :
    range.toReplicationRange.toReplicationRangeIndexable R from_ = some range := by
  have hpos := R.maxValue_pos
  obtain ⟨rid, rhash, timestamp, start1, end1, start2, end2, width, mode⟩ := range
  subst hhash
  change construct R rid rhash timestamp mode start1 width = _
  cases hshape with
  | single hstart hend' hle hmax hwidth =>
      simp only at hstart hend' hle hmax hwidth
      have hsum : start1 + width = end1 := by omega
      rw [construct_of_le (by omega), hsum, hstart, hend']
  | wrapping hstart hend1 hend' hlt hmax hwidth =>
      simp only at hstart hend1 hend' hlt hmax hwidth hend
      have hsum : start1 + width - R.maxValue = end2 := by omega
      rw [construct_of_gt hmax (by omega) (by omega) (by omega), hsum, hstart, hend1]

theorem mapM_toReplicationRange (hown : ∀ x ∈ ranges, x.Shape R ∧ x.hash = from_)
    (hends : ∀ x ∈ ranges, x.end2 = 0 → x.end1 = 0) :
    (ranges.map toReplicationRange).mapM
      (fun x => x.toReplicationRangeIndexable R from_) = some ranges := by
  induction ranges with
  | nil => rfl
  | cons x ranges ih =>
      obtain ⟨hx, hrest⟩ := List.forall_mem_cons.mp hown
      obtain ⟨hend, hends⟩ := List.forall_mem_cons.mp hends
      rw [List.map_cons, List.mapM_cons, ih hrest hends,
        toReplicationRangeIndexable_toReplicationRange hx.1 hx.2 hend]
      rfl

variable {isTrustedReplicator : PeerHash → Bool} {options : AddOptions}

/-- After a reset the peer has what was added. -/
theorem boundsUnder_add_reset (htrusted : isTrustedReplicator from_ = true)
    (hhash : ∀ x ∈ ranges, x.hash = from_) (hreset : options.reset = true) (id : String) :
    boundsUnder (addReplicationRange isTrustedReplicator s ranges from_
        options).2.replicationIndex from_ id =
      (lastUnder ranges id).map bounds := by
  rw [replicationIndex_add htrusted, addedRanges_reset _ hreset,
    boundsUnder_foldl_put _ hhash]
  have hnone : boundsUnder (beforeDiffs s from_ options).replicationIndex from_ id = none :=
    boundsUnder_eq_none_iff.mpr fun r hr _ => (mem_beforeDiffs.mp hr).2 hreset
  rw [hnone, Option.or_none]

/-- The ranges that are added without a reset. -/
theorem mem_addedRanges_iff {index : ReplicationRanges} (hreset : options.reset = false)
    (hcheck : options.checkDuplicates = true) {x : ReplicationRangeIndexable} :
    x ∈ addedRanges (diffsOf index ranges from_ options) ↔
      x ∈ ranges ∧ ¬ Skipped index ranges x := by
  rw [addedRanges_plain index hreset, List.mem_filter, deduplicated,
    if_pos ⟨hreset, hcheck⟩, List.mem_filter, Skipped]
  simp only [Bool.not_eq_true', not_or, Bool.not_eq_true]
  tauto

theorem lastUnder_addedRanges {index : ReplicationRanges} (hreset : options.reset = false)
    (hcheck : options.checkDuplicates = true) {x : ReplicationRangeIndexable}
    (hlast : lastUnder ranges id = some x) (hadded : ¬ Skipped index ranges x) :
    lastUnder (addedRanges (diffsOf index ranges from_ options)) id = some x := by
  rw [addedRanges_plain index hreset, deduplicated, if_pos ⟨hreset, hcheck⟩, lastUnder,
    List.filter_filter, ← List.filter_reverse, List.find?_filter]
  rw [lastUnder] at hlast
  rw [List.find?_eq_some_iff_append] at hlast ⊢
  obtain ⟨hid, before, after, hsplit, hbefore⟩ := hlast
  refine ⟨?_, before, after, hsplit, fun y hy => ?_⟩
  · rw [Skipped, not_or, Bool.not_eq_true, Bool.not_eq_true] at hadded
    simp [hadded.1, hadded.2, hid]
  · have hne := hbefore y hy
    rw [Bool.not_eq_true'] at hne ⊢
    simp [of_decide_eq_false hne]

/-- Where nothing is lost, the peer has what was added and what it had. -/
theorem boundsUnder_add_plain (htrusted : isTrustedReplicator from_ = true)
    (hhash : ∀ x ∈ ranges, x.hash = from_) (hreset : options.reset = false)
    (hcheck : options.checkDuplicates = true)
    (hloses : LosesNothing s.replicationIndex ranges) (id : String) :
    boundsUnder (addReplicationRange isTrustedReplicator s ranges from_
        options).2.replicationIndex from_ id =
      ((lastUnder ranges id).map bounds).or
        (boundsUnder s.replicationIndex from_ id) := by
  have hbefore : (beforeDiffs s from_ options).replicationIndex = s.replicationIndex := by
    simp [beforeDiffs, hreset]
  have hadded : ∀ x ∈ addedRanges (diffsOf s.replicationIndex ranges from_ options),
      x.hash = from_ := fun x hx => hhash x ((mem_addedRanges_iff hreset hcheck).mp hx).1
  rw [replicationIndex_add htrusted, hbefore, boundsUnder_foldl_put _ hadded]
  cases hlast : lastUnder ranges id with
  | none =>
      have hnone : lastUnder (addedRanges (diffsOf s.replicationIndex ranges from_ options))
          id = none := by
        rw [lastUnder, List.find?_eq_none] at hlast ⊢
        intro y hy
        have hmem := ((mem_addedRanges_iff hreset hcheck).mp (List.mem_reverse.mp hy)).1
        exact hlast y (List.mem_reverse.mpr hmem)
      rw [hnone]
  | some x =>
      by_cases hskipped : Skipped s.replicationIndex ranges x
      · -- it is indexed, and stays
        obtain ⟨hheld, hall⟩ := hloses id x hlast hskipped
        have hmem := List.mem_reverse.mp (List.mem_of_find?_eq_some hlast)
        rw [hhash x hmem] at hheld
        have hnone : lastUnder (addedRanges (diffsOf s.replicationIndex ranges from_ options))
            id = none := by
          rw [lastUnder, List.find?_eq_none]
          intro y hy hid
          obtain ⟨hy, hnot⟩ := (mem_addedRanges_iff hreset hcheck).mp (List.mem_reverse.mp hy)
          exact hnot (hall y hy (of_decide_eq_true hid))
        rw [hnone, hheld]
        rfl
      · rw [lastUnder_addedRanges hreset hcheck hlast hskipped]

/-- The segments that a peer has stopped are gone, and no others of it. -/
theorem boundsUnder_onStoppedReplicating (ids : List String) (timestamp : Int)
    (id : String) :
    boundsUnder (onStoppedReplicating s ids from_ timestamp).replicationIndex from_ id =
      if id ∈ ids then none else boundsUnder s.replicationIndex from_ id := by
  rw [onStoppedReplicating, removeReplicationRanges]
  by_cases hnone : resolveReplicationRanges s.replicationIndex ids from_ = []
  · simp only [if_pos hnone]
    split
    · rename_i hid
      refine boundsUnder_eq_none_iff.mpr fun r hr hrid hhash => ?_
      have hmem := mem_resolveReplicationRanges.mpr ⟨hr, hrid ▸ hid, hhash⟩
      rw [hnone] at hmem
      cases hmem
    · rfl
  · rw [if_neg hnone]
    apply Option.ext
    intro b
    simp only [boundsUnder_eq_some_iff, ReplicationRanges.mem_del, List.any_eq_false,
      decide_eq_true_eq, mem_resolveReplicationRanges]
    split
    · rename_i hid
      refine iff_of_false ?_ (Option.some_ne_none b).symm
      rintro ⟨r, ⟨hr, hfree⟩, rfl, hhash, -⟩
      exact hfree r ⟨hr, hid, hhash⟩ rfl
    · rename_i hid
      rw [boundsUnder_eq_some_iff]
      constructor
      · rintro ⟨r, ⟨hr, -⟩, hrest⟩
        exact ⟨r, hr, hrest⟩
      · rintro ⟨r, hr, rfl, hrest⟩
        refine ⟨r, ⟨hr, fun x hx hxid => hid ?_⟩, rfl, hrest⟩
        rw [hxid]
        exact hx.2.1

theorem boundsUnder_del_ids (index : ReplicationRanges) (ids : List String)
    (hash : PeerHash) (id : String) :
    boundsUnder (index.del (fun r => decide (r.id ∈ ids))) hash id =
      if id ∈ ids then none else boundsUnder index hash id := by
  apply Option.ext
  intro b
  simp only [boundsUnder_eq_some_iff, ReplicationRanges.mem_del, decide_eq_false_iff_not]
  split
  · rename_i hid
    refine iff_of_false ?_ (nomatch ·)
    rintro ⟨r, ⟨-, hnot⟩, rfl, -⟩
    exact hnot hid
  · rename_i hid
    rw [boundsUnder_eq_some_iff]
    constructor
    · rintro ⟨r, ⟨hr, -⟩, hrest⟩
      exact ⟨r, hr, hrest⟩
    · rintro ⟨r, hr, rfl, hrest⟩
      exact ⟨r, ⟨hr, hid⟩, rfl, hrest⟩

/-- What an announcement tells comes true for the sender. -/
theorem boundsUnder_announce {a : Announcement} (own : ReplicationRanges) (id : String)
    (hown : ∀ x ∈ a.message.segments, x.hash = from_) :
    boundsUnder (announce own a) from_ id =
      (a.tells id).getD (boundsUnder own from_ id) := by
  obtain ⟨timestamp, message⟩ := a
  cases message with
  | AllReplicatingSegmentsMessage segments =>
      exact (boundsUnder_foldl_put .empty hown id).trans (Option.or_none)
  | AddedReplicationSegmentMessage segments =>
      refine (boundsUnder_foldl_put own hown id).trans ?_
      simp only [Announcement.tells, SegmentsMessage.segments]
      cases lastUnder segments id with
      | none => rfl
      | some range => rfl
  | StoppedReplicating ids =>
      refine (boundsUnder_del_ids own ids from_ id).trans ?_
      simp only [Announcement.tells]
      split
      · rfl
      · rfl

end Messages

/-! ### Steps and runs -/

section Steps

variable {log : LogConfig} {from_ : PeerHash} {e : Exchange} {a b : Announcement}
variable {id : String} {index : ReplicationRanges}

/-- The index holds what was announced last in the messages that were handled. -/
def HoldsLast (from_ : PeerHash) (handled : List Announcement)
    (index : ReplicationRanges) : Prop :=
  ∀ id, Lib.LastWord Announcement.timestamp Announcement.tells none handled id
    (boundsUnder index from_ id)

/-- The message has segments. -/
def Announcement.HasSegments (a : Announcement) : Prop :=
  ∀ ids, a.message ≠ .StoppedReplicating ids

/-- The latest time is that of the latest message with segments. -/
structure LatestTime (handled : List Announcement) (latest : Option Nat) : Prop where
  le : ∀ a ∈ handled, a.HasSegments → ∃ time, latest = some time ∧ a.timestamp ≤ time
  mem : ∀ time, latest = some time → ∃ a ∈ handled, a.HasSegments ∧ a.timestamp = time

/-- What holds after all that was handled. -/
structure ExchangeInv (from_ : PeerHash) (e : Exchange) : Prop where
  holds : HoldsLast from_ e.handled e.receiver.state.replicationIndex
  latest : LatestTime e.handled (e.receiver.latestReplicationInfoMessage from_)

theorem Announcement.tells_of_not_hasSegments (h : ¬ a.HasSegments)
    {told : Option ((Nat × Nat) × (Nat × Nat))} (htells : a.tells id = some told) :
    told = none := by
  simp only [HasSegments, not_forall, not_not] at h
  obtain ⟨ids, hids⟩ := h
  rw [Announcement.tells, hids] at htells
  obtain ⟨-, htold⟩ := Option.ite_none_right_eq_some.mp htells
  exact (Option.some.inj htold).symm

theorem LatestTime.of_stopped {latest : Option Nat} (h : LatestTime e.handled latest)
    (hstopped : ¬ a.HasSegments) : LatestTime (a :: e.handled) latest where
  le := List.forall_mem_cons.mpr ⟨fun hsegments => absurd hsegments hstopped, h.le⟩
  mem time htime := by
    obtain ⟨b, hb, hrest⟩ := h.mem time htime
    exact ⟨b, List.mem_cons_of_mem a hb, hrest⟩

theorem LatestTime.of_older {latest : Option Nat} (h : LatestTime e.handled latest)
    (holder : latest.any (fun prev => decide (a.timestamp < prev)) = true) :
    LatestTime (a :: e.handled) latest where
  le := by
    obtain ⟨time, htime, hlt⟩ := (Option.any_eq_true _ _).mp holder
    refine List.forall_mem_cons.mpr ⟨fun _ => ⟨time, htime, ?_⟩, h.le⟩
    exact (of_decide_eq_true hlt).le
  mem time htime := by
    obtain ⟨b, hb, hrest⟩ := h.mem time htime
    exact ⟨b, List.mem_cons_of_mem a hb, hrest⟩

/-- No message with segments is later than one that is not dropped. -/
theorem LatestTime.le_of_not_older {latest : Option Nat} (h : LatestTime e.handled latest)
    (hlatest : latest.any (fun prev => decide (a.timestamp < prev)) = false)
    (hb : b ∈ e.handled) (hsegments : b.HasSegments) : b.timestamp ≤ a.timestamp := by
  obtain ⟨time, rfl, hle⟩ := h.le b hb hsegments
  rw [Option.any_some, decide_eq_false_iff_not] at hlatest
  omega

theorem LatestTime.of_latest {latest : Option Nat} (h : LatestTime e.handled latest)
    (hsegments : a.HasSegments)
    (hlatest : latest.any (fun prev => decide (a.timestamp < prev)) = false) :
    LatestTime (a :: e.handled) (some a.timestamp) where
  le := List.forall_mem_cons.mpr ⟨fun _ => ⟨_, rfl, Nat.le_refl _⟩, fun _ hb hb' =>
    ⟨_, rfl, h.le_of_not_older hlatest hb hb'⟩⟩
  mem _ htime := ⟨a, List.mem_cons_self, hsegments, Option.some.inj htime⟩

/-- A message that is not needed may change nothing. -/
theorem HoldsLast.of_notNeeded
    (h : HoldsLast from_ e.handled e.receiver.state.replicationIndex)
    (hneeded : NotNeeded from_ e a) :
    HoldsLast from_ (a :: e.handled) e.receiver.state.replicationIndex := by
  intro id
  cases htells : a.tells id with
  | none => exact (h id).silent htells
  | some told =>
      rcases hneeded id told htells with hheld | ⟨b, hb, hlt, hspeaks⟩
      · exact (h id).repeated (htells.trans (congrArg some hheld.symm))
      · exact (h id).outdated hb hspeaks hlt.le

/-- A message that is not dropped is taken, where it does not bring back what was
stopped. -/
theorem HoldsLast.of_taken {latest : Option Nat}
    (h : HoldsLast from_ e.handled e.receiver.state.replicationIndex)
    (htime : LatestTime e.handled latest)
    (hlatest : latest.any (fun prev => decide (a.timestamp < prev)) = false)
    (hcurrent : ∀ id bounds, a.tells id = some (some bounds) → ¬ Outdated e a id)
    (htaken : ∀ id, boundsUnder index from_ id =
      (a.tells id).getD (boundsUnder e.receiver.state.replicationIndex from_ id)) :
    HoldsLast from_ (a :: e.handled) index := by
  intro id
  rw [htaken id]
  cases htells : a.tells id with
  | none => exact (h id).silent htells
  | some told =>
      rw [Option.getD_some]
      by_cases houtdated : Outdated e a id
      · -- all that came later about the id is that it was stopped
        obtain ⟨b, hb, hlt, hspeaks⟩ := houtdated
        have htold : told = none := by
          by_contra hsome
          obtain ⟨bounds, rfl⟩ := Option.ne_none_iff_exists'.mp hsome
          exact hcurrent id bounds htells ⟨b, hb, hlt, hspeaks⟩
        have hheld : boundsUnder e.receiver.state.replicationIndex from_ id = none := by
          rcases h id with ⟨hheld, -⟩ | ⟨n, hn, hlast, hle⟩
          · exact hheld
          · refine Announcement.tells_of_not_hasSegments (fun hsegments => ?_) hlast
            have hle' := htime.le_of_not_older hlatest hn hsegments
            have hbn := hle b hb hspeaks
            omega
        rw [htold]
        exact hheld ▸ (h id).outdated hb hspeaks hlt.le
      · refine Lib.lastWord_newest htells fun b hb hspeaks => ?_
        by_contra hnot
        exact houtdated ⟨b, hb, not_le.mp hnot, hspeaks⟩

/-- What is stopped is gone, where it was not announced again. -/
theorem HoldsLast.of_stopped {ids : List String}
    (h : HoldsLast from_ e.handled e.receiver.state.replicationIndex)
    (hmessage : a.message = .StoppedReplicating ids)
    (hcurrent : ∀ id ∈ ids,
      boundsUnder e.receiver.state.replicationIndex from_ id ≠ none → ¬ Outdated e a id)
    (htaken : ∀ id, boundsUnder index from_ id =
      if id ∈ ids then none
      else boundsUnder e.receiver.state.replicationIndex from_ id) :
    HoldsLast from_ (a :: e.handled) index := by
  intro id
  rw [htaken id]
  have htells : a.tells id = if id ∈ ids then some none else none := by
    rw [Announcement.tells, hmessage]
  split
  · rename_i hid
    rw [if_pos hid] at htells
    by_cases hheld : boundsUnder e.receiver.state.replicationIndex from_ id = none
    · have hword := (h id).repeated (m := a) (htells.trans (congrArg some hheld.symm))
      rwa [hheld] at hword
    · refine Lib.lastWord_newest htells fun b hb hspeaks => ?_
      by_contra hnot
      exact hcurrent id hid hheld ⟨b, hb, not_le.mp hnot, hspeaks⟩
  · rename_i hid
    rw [if_neg hid] at htells
    exact (h id).silent htells

variable {announcements : Announcements log.resolution from_}

/-- The messages with segments keep the invariant. -/
theorem exchangeInv_onReplicationInfo {reset : Bool} {now minRoleAge : Nat}
    (h : ExchangeInv from_ e) (hsegments : a.HasSegments)
    (hown : ∀ range ∈ a.message.segments,
      range.Shape log.resolution ∧ range.hash = from_)
    (htells : ∀ id held, (a.tells id).getD held =
      if reset then (lastUnder a.message.segments id).map ReplicationRangeIndexable.bounds
      else ((lastUnder a.message.segments id).map ReplicationRangeIndexable.bounds).or held)
    (hwell : if (e.receiver.latestReplicationInfoMessage from_).any
        (fun prev => decide (a.timestamp < prev)) then NotNeeded from_ e a
      else TakesSegments log from_ e a reset) :
    ExchangeInv from_
      { receiver :=
          onReplicationInfo log e.receiver reset
            (a.message.segments.map ReplicationRangeIndexable.toReplicationRange) from_
            a.timestamp now minRoleAge
        handled := a :: e.handled } := by
  rw [onReplicationInfo]
  cases holder : (e.receiver.latestReplicationInfoMessage from_).any
      (fun prev => decide (a.timestamp < prev)) with
  | true =>
      rw [holder, if_pos rfl] at hwell
      rw [if_pos rfl]
      exact ⟨h.holds.of_notNeeded hwell, h.latest.of_older holder⟩
  | false =>
      rw [holder, if_neg Bool.false_ne_true] at hwell
      rw [if_neg Bool.false_ne_true, mapM_toReplicationRange hown hwell.arrives]
      refine ⟨h.holds.of_taken h.latest holder hwell.current fun id => ?_, ?_⟩
      · rw [htells]
        have hhash : ∀ x ∈ a.message.segments, x.hash = from_ := fun x hx => (hown x hx).2
        cases reset with
        | true => exact boundsUnder_add_reset hwell.trusted hhash rfl id
        | false =>
            exact boundsUnder_add_plain hwell.trusted hhash rfl rfl (hwell.added rfl) id
      · simp only [Function.update_self]
        exact h.latest.of_latest hsegments holder

theorem exchangeInv_step {arrival : Arrival} {e' : Exchange} (h : ExchangeInv from_ e)
    (hself : from_ ≠ log.publicKey) (hwell : HandledWell log from_ e arrival)
    (hstep : exchangeStep log from_ announcements.sent e arrival = some e') :
    ExchangeInv from_ e' := by
  obtain ⟨⟨timestamp, message⟩, now, minRoleAge⟩ := arrival
  rw [exchangeStep, Option.ite_none_right_eq_some] at hstep
  obtain ⟨⟨hsent, -⟩, hstep⟩ := hstep
  rw [← Option.some.inj hstep]
  simp only [onSegmentsMessage, if_neg hself]
  have hown := announcements.own _ hsent
  cases message with
  | AllReplicatingSegmentsMessage segments =>
      refine exchangeInv_onReplicationInfo h (fun ids heq => by cases heq) hown ?_ hwell
      exact fun id held => rfl
  | AddedReplicationSegmentMessage segments =>
      refine exchangeInv_onReplicationInfo h (fun ids heq => by cases heq) hown ?_ hwell
      intro id held
      simp only [Announcement.tells, SegmentsMessage.segments]
      cases lastUnder segments id with
      | none => rfl
      | some range => rfl
  | StoppedReplicating ids =>
      refine ⟨h.holds.of_stopped rfl hwell fun id =>
        boundsUnder_onStoppedReplicating ids now id, ?_⟩
      exact h.latest.of_stopped fun hsegments => hsegments ids rfl

/-- Taking all announcements in their order leads to what was announced last. -/
theorem holdsLast_ownRanges (announcements : Announcements log.resolution from_) :
    HoldsLast from_ announcements.sent (ownRanges announcements.sent) := by
  intro id
  exact Lib.lastWord_foldl (boundsUnder · from_ ·)
    (fun own a ha =>
      boundsUnder_announce (a := a) own id fun x hx => (announcements.own a ha x hx).2)
    announcements.increasing

/-- What was handled was sent, and the invariant holds. -/
structure RunInv (announcements : Announcements log.resolution from_) (e : Exchange) :
    Prop where
  inv : ExchangeInv from_ e
  sent : ∀ a ∈ e.handled, a ∈ announcements.sent

theorem runInv_init {start : ReplicationReceiver}
    (hnone : ∀ r ∈ start.state.replicationIndex.ranges, r.hash ≠ from_)
    (hlatest : start.latestReplicationInfoMessage from_ = none) :
    RunInv announcements { receiver := start, handled := [] } where
  inv :=
    { holds := fun _ =>
        .inl ⟨boundsUnder_eq_none_iff.mpr fun r hr _ => hnone r hr, nofun⟩
      latest :=
        { le := nofun
          mem := fun _ htime => (nomatch hlatest.symm.trans htime) } }
  sent := nofun

theorem RunInv.step {arrival : Arrival} {e' : Exchange} (h : RunInv announcements e)
    (hself : from_ ≠ log.publicKey) (hwell : HandledWell log from_ e arrival)
    (hstep : exchangeStep log from_ announcements.sent e arrival = some e') :
    RunInv announcements e' where
  inv := exchangeInv_step h.inv hself hwell hstep
  sent := by
    rw [exchangeStep, Option.ite_none_right_eq_some] at hstep
    obtain ⟨⟨hmem, -⟩, hstep⟩ := hstep
    rw [← Option.some.inj hstep]
    exact List.forall_mem_cons.mpr ⟨hmem, h.sent⟩

theorem RunInv.announced (h : RunInv announcements e) :
    Announced announcements.sent from_ e := by
  intro hall id
  have hheld := (h.inv.holds id).of_mem_iff fun a => ⟨h.sent a, hall a⟩
  refine hheld.unique (holdsLast_ownRanges announcements id) fun a ha b hb htime => ?_
  have hnodup : (announcements.sent.map Announcement.timestamp).Nodup :=
    List.pairwise_map.mpr (announcements.increasing.imp Nat.ne_of_lt)
  exact List.inj_on_of_nodup_map hnodup ha hb htime

end Steps

/-- In a run whose steps meet the condition, the index holds the ranges of the sender
once all that it has announced is handled. -/
theorem announced_of_run (log : LogConfig) (from_ : PeerHash)
    (announcements : Announcements log.resolution from_) (start : ReplicationReceiver)
    (hself : from_ ≠ log.publicKey)
    (hnone : ∀ r ∈ start.state.replicationIndex.ranges, r.hash ≠ from_)
    (hlatest : start.latestReplicationInfoMessage from_ = none) (e : Exchange)
    (hrun : (exchangeMachine log from_ announcements.sent start).Run
      (HandledWell log from_) e) :
    Announced announcements.sent from_ e := by
  have hinv : RunInv announcements e := hrun.invariant (runInv_init hnone hlatest)
    fun e arrival e' h hwell hstep => h.step hself hwell hstep
  exact hinv.announced

namespace StoppedSegment

/-- A log that trusts all peers. -/
def log : LogConfig where
  resolution := .u32
  publicKey := "me"
  isTrustedReplicator := fun _ => true
  canMerge := none
  isAdaptiveReplicating := false

/-- It knows of no ranges. -/
def start : ReplicationReceiver where
  state := .init
  latestReplicationInfoMessage := fun _ => none

def added : Announcement where
  timestamp := 1
  message := .AddedReplicationSegmentMessage [MovedRanges.tenFrom "1" 0]

def stopped : Announcement where
  timestamp := 2
  message := .StoppedReplicating ["1"]

def all : Announcement where
  timestamp := 3
  message := .AllReplicatingSegmentsMessage [MovedRanges.tenFrom "2" 100]

/-- A peer adds a segment, gives it up and then announces another one. -/
def announcements : Announcements log.resolution "a" where
  sent := [added, stopped, all]
  increasing := by decide
  own := by
    have hshape : ∀ id start, start + 10 ≤ MAX_U32 →
        (MovedRanges.tenFrom id start).Shape .u32 := fun id start hle =>
      .single rfl rfl (Nat.le_add_right _ _) hle (Nat.add_sub_cancel_left _ _).symm
    simp only [List.forall_mem_cons, added, stopped, all, SegmentsMessage.segments,
      List.not_mem_nil, false_imp_iff, implies_true, and_true, true_and]
    exact ⟨⟨hshape "1" 0 (by decide), rfl⟩, hshape "2" 100 (by decide), rfl⟩

/-- An announcement is handled. -/
def handle (s : ReplicationReceiver) (a : Announcement) : ReplicationReceiver :=
  onSegmentsMessage log s (a.message.map ReplicationRangeIndexable.toReplicationRange) "a"
    a.timestamp 0 0

/-- Its first two announcements. -/
def addedAndStopped : Announcements log.resolution "a" where
  sent := [added, stopped]
  increasing := by decide
  own a ha := announcements.own a (List.mem_of_mem_take (i := 2) ha)

end StoppedSegment

open StoppedSegment in
/-- A segment is given up before the receiver knows of it, and comes to stay. -/
theorem not_announced_stopped :
    ∃ e, (exchangeMachine log "a" addedAndStopped.sent start).Run Lib.Machine.Free e ∧
      ¬ Announced addedAndStopped.sent "a" e := by
  refine ⟨_, .of_exec .init [⟨stopped, 0, 0⟩, ⟨added, 0, 0⟩] rfl, fun h => ?_⟩
  have hstays := h (by decide) "1"
  revert hstays
  decide

open StoppedSegment in
/-- The last announcement is handled first, and the others come too late. -/
theorem announced_reversed :
    ∃ e, (exchangeMachine log "a" announcements.sent start).Run (HandledWell log "a") e ∧
      e.handled = [stopped, added, all] ∧ Announced announcements.sent "a" e := by
  have hall : HandledWell log "a" ⟨start, []⟩ ⟨all, 0, 0⟩ := by
    change TakesSegments log "a" ⟨start, []⟩ all true
    refine ⟨rfl, by decide, fun h => (nomatch h), fun id bounds _ => ?_⟩
    rintro ⟨b, hb, -⟩
    exact (nomatch hb)
  have hadded : HandledWell log "a" ⟨handle start all, [all]⟩ ⟨added, 0, 0⟩ := by
    change NotNeeded "a" ⟨handle start all, [all]⟩ added
    exact fun id told _ => .inr ⟨all, List.mem_singleton_self all, by decide, nofun⟩
  have hstopped : HandledWell log "a" ⟨handle (handle start all) added, [added, all]⟩
      ⟨stopped, 0, 0⟩ := by
    intro id hid hheld
    obtain rfl := List.mem_singleton.mp hid
    exact absurd rfl hheld
  have hrun : (exchangeMachine log "a" announcements.sent start).Run (HandledWell log "a")
      ⟨handle (handle (handle start all) added) stopped, [stopped, added, all]⟩ :=
    .step (.step (.step .init hall rfl) hadded rfl) hstopped rfl
  exact ⟨_, hrun, rfl, announced_of_run log "a" announcements start (by decide)
    (fun r hr => (nomatch hr)) rfl _ hrun⟩

end SharedLog
end Peerbit
