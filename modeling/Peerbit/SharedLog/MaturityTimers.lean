import Peerbit.SharedLog.ReplicatorSet

/-!
# The timers of ranges that mature

A range that is added before it has reached the role age gets a timer, which
announces it when it has matured.  The timer should go, or announce the new range,
when the range is removed or replaced.

A reset of a peer clears its timers, and so does its removal.  But
`removeReplicationRanges` does not find the timers of its ranges; a matured range
leaves the timer of the range that it replaces; and a range that takes the id of
another peer's range leaves the timer of that one.
-/

namespace Peerbit
namespace SharedLog

/-- Every timer belongs to an indexed range of its peer, with the bounds that the
timer will announce. -/
def TimersFollow (s : ReplicationState) : Prop :=
  ∀ hash id timer, s.pendingMaturity hash id = some timer →
    timer.diff.range.id = id ∧
      ∃ r ∈ s.replicationIndex.ranges, r.id = id ∧ r.hash = hash ∧
        r.equalRange timer.diff.range = true

/-- A timer that fires announces a range that is indexed, if it announces one. -/
def AnnouncesIndexed (s : ReplicationState) : Prop :=
  ∀ hash id s', fireTimer s hash id = some s' →
    ∀ change ∈ s'.changes, change ∈ s.changes ∨
      ∃ r ∈ s.replicationIndex.ranges, r.id = change.range.id ∧
        r.equalRange change.range = true

/-- A range is added under an id without a timer of another peer; and if it has
matured, a timer of its own peer announces the same bounds. -/
def KeepsTimer (options : AddOptions) (s : ReplicationState) (diff : ReplicationChange) :
    Prop :=
  match diff.type with
  | .added _ =>
      (∀ hash, hash ≠ diff.range.hash → s.pendingMaturity hash diff.range.id = none) ∧
        (isMatured diff.range options.now options.minRoleAge = true →
          ∀ timer, s.pendingMaturity diff.range.hash diff.range.id = some timer →
            diff.range.equalRange timer.diff.range = true)
  | _ => True

/-- So are all of them, one after the other. -/
def KeepTimers (options : AddOptions) :
    ReplicationState → List ReplicationChange → Prop
  | _, [] => True
  | s, diff :: diffs =>
      KeepsTimer options s diff ∧ KeepTimers options (applyDiff options s diff) diffs

/-- A step that lets the timers follow. -/
def KeepsTimers (isTrustedReplicator : PeerHash → Bool) (s : ReplicationState) :
    ReplicationAction → Prop
  | .addReplicationRange ranges from_ options =>
      isTrustedReplicator from_ = true →
        KeepTimers options (beforeDiffs s from_ options)
          (diffsOf s.replicationIndex ranges from_ options)
  | .removeReplicationRanges ranges _ =>
      ∀ x ∈ ranges, ∀ hash, s.pendingMaturity hash x.id = none
  | .removeReplicator _ _ => True
  | .timer _ _ => True

/-! ### One change -/

section Changes

variable {options : AddOptions} {s : ReplicationState} {diff : ReplicationChange}
variable {diffs : List ReplicationChange}

theorem setTimer_self (timers : PeerHash → String → Option MaturityTimer)
    (hash : PeerHash) (id : String) (timer : Option MaturityTimer) :
    setTimer timers hash id timer hash id = timer := by
  simp [setTimer]

theorem setTimer_of_ne (timers : PeerHash → String → Option MaturityTimer)
    {hash hash' : PeerHash} {id id' : String} (timer : Option MaturityTimer)
    (hne : ¬ (hash' = hash ∧ id' = id)) :
    setTimer timers hash id timer hash' id' = timers hash' id' := by
  rw [setTimer]
  by_cases hhash : hash' = hash
  · subst hhash
    rw [Function.update_self, Function.update_of_ne fun hid => hne ⟨rfl, hid⟩]
  · rw [Function.update_of_ne hhash]

/-- The timers follow, except those that a change still to come will clear. -/
def FollowExcept (s : ReplicationState) (diffs : List ReplicationChange) : Prop :=
  ∀ hash id timer, s.pendingMaturity hash id = some timer →
    timer.diff.range.id = id ∧
      ((∃ r ∈ s.replicationIndex.ranges, r.id = id ∧ r.hash = hash ∧
          r.equalRange timer.diff.range = true) ∨
        ∃ diff ∈ diffs, diff.type = .removed ∧ diff.range.hash = hash ∧
          diff.range.id = id)

theorem equalRange_self (r : ReplicationRangeIndexable) : r.equalRange r = true := by
  simp [ReplicationRangeIndexable.equalRange]

theorem FollowExcept.removed (h : FollowExcept s (diff :: diffs))
    (htype : diff.type = .removed) : FollowExcept (applyDiff options s diff) diffs := by
  intro hash id timer htimer
  simp only [applyDiff, htype] at htimer ⊢
  have hne : ¬ (hash = diff.range.hash ∧ id = diff.range.id) := by
    rintro ⟨rfl, rfl⟩
    rw [setTimer_self] at htimer
    exact (nomatch htimer)
  rw [setTimer_of_ne _ _ hne] at htimer
  obtain ⟨hid, hindexed | ⟨diff', hdiff', htype', hhash', hid'⟩⟩ := h hash id timer htimer
  · exact ⟨hid, .inl hindexed⟩
  · rcases List.mem_cons.mp hdiff' with rfl | hdiff'
    · exact absurd ⟨hhash'.symm, hid'.symm⟩ hne
    · exact ⟨hid, .inr ⟨diff', hdiff', htype', hhash', hid'⟩⟩

/-- A removal is still to come after a change that is none. -/
theorem mem_tail_of_removed {diff' : ReplicationChange} (hmem : diff' ∈ diff :: diffs)
    (htype : diff.type ≠ .removed) (htype' : diff'.type = .removed) : diff' ∈ diffs := by
  rcases List.mem_cons.mp hmem with rfl | hmem
  · exact absurd htype' htype
  · exact hmem

theorem FollowExcept.replaced (h : FollowExcept s (diff :: diffs))
    (htype : diff.type = .replaced) : FollowExcept (applyDiff options s diff) diffs := by
  intro hash id timer htimer
  simp only [applyDiff, htype] at htimer ⊢
  obtain ⟨hid, hindexed | ⟨diff', hdiff', htype', hrest⟩⟩ := h hash id timer htimer
  · exact ⟨hid, .inl hindexed⟩
  · have htail := mem_tail_of_removed hdiff' (by simp [htype]) htype'
    exact ⟨hid, .inr ⟨diff', htail, htype', hrest⟩⟩

/-- A timer that is still there after a range was added is the new one of the range,
or an old one. -/
theorem timer_of_added {matured : Bool} (htype : diff.type = .added matured)
    {hash : PeerHash} {id : String} {timer : MaturityTimer}
    (htimer : (applyDiff options s diff).pendingMaturity hash id = some timer) :
    (timer.diff = diff ∧ hash = diff.range.hash ∧ id = diff.range.id) ∨
      s.pendingMaturity hash id = some timer ∧
        (hash = diff.range.hash → id = diff.range.id →
          isMatured diff.range options.now options.minRoleAge = true) := by
  simp only [applyDiff, htype] at htimer
  split at htimer
  · rename_i hmatured
    exact .inr ⟨htimer, fun _ _ => hmatured⟩
  · by_cases hself : hash = diff.range.hash ∧ id = diff.range.id
    · obtain ⟨rfl, rfl⟩ := hself
      rw [setTimer_self] at htimer
      rw [← Option.some.inj htimer]
      exact .inl ⟨rfl, rfl, rfl⟩
    · rw [setTimer_of_ne _ _ hself] at htimer
      exact .inr ⟨htimer, fun hhash hid => absurd ⟨hhash, hid⟩ hself⟩

theorem FollowExcept.added {matured : Bool} (h : FollowExcept s (diff :: diffs))
    (htype : diff.type = .added matured) (hkeeps : KeepsTimer options s diff) :
    FollowExcept (applyDiff options s diff) diffs := by
  simp only [KeepsTimer, htype] at hkeeps
  obtain ⟨hothers, hown⟩ := hkeeps
  have hindex : (applyDiff options s diff).replicationIndex =
      s.replicationIndex.put diff.range := by
    simp [applyDiff, htype]
  have hput : diff.range ∈ (s.replicationIndex.put diff.range).ranges :=
    ReplicationRanges.mem_put.mpr (.inl rfl)
  intro hash id timer htimer
  rw [hindex]
  rcases timer_of_added htype htimer with ⟨hdiff, rfl, rfl⟩ | ⟨htimer, hmatured⟩
  · refine ⟨by rw [hdiff], .inl ⟨diff.range, hput, rfl, rfl, ?_⟩⟩
    rw [hdiff]
    exact equalRange_self _
  · obtain ⟨hid, hindexed | ⟨diff', hdiff', htype', hrest⟩⟩ := h hash id timer htimer
    · refine ⟨hid, .inl ?_⟩
      by_cases hsame : id = diff.range.id
      · -- the range takes the place of the one that the timer belongs to
        subst hsame
        have hhash : hash = diff.range.hash := by
          by_contra hne
          rw [hothers hash hne] at htimer
          exact (nomatch htimer)
        subst hhash
        exact ⟨diff.range, hput, rfl, rfl, hown (hmatured rfl rfl) timer htimer⟩
      · obtain ⟨r, hr, hrid, hrhash, hequal⟩ := hindexed
        refine ⟨r, ReplicationRanges.mem_put.mpr (.inr ⟨hr, ?_⟩), hrid, hrhash, hequal⟩
        rw [hrid]
        exact hsame
    · have htail := mem_tail_of_removed hdiff' (by simp [htype]) htype'
      exact ⟨hid, .inr ⟨diff', htail, htype', hrest⟩⟩

theorem FollowExcept.foldl (h : FollowExcept s diffs) (hkeep : KeepTimers options s diffs) :
    TimersFollow (diffs.foldl (applyDiff options) s) := by
  induction diffs generalizing s with
  | nil =>
      intro hash id timer htimer
      obtain ⟨hid, hindexed | ⟨diff, hdiff, -⟩⟩ := h hash id timer htimer
      · exact ⟨hid, hindexed⟩
      · exact (nomatch hdiff)
  | cons diff diffs ih =>
      obtain ⟨hfirst, hrest⟩ := hkeep
      refine ih ?_ hrest
      cases htype : diff.type with
      | added matured => exact h.added htype hfirst
      | removed => exact h.removed htype
      | replaced => exact h.replaced htype

end Changes

/-! ### Steps and runs -/

section Steps

variable {isTrustedReplicator : PeerHash → Bool} {s s' : ReplicationState}
variable {ranges : List ReplicationRangeIndexable} {from_ : PeerHash}

/-- The changes of a reset clear the timers of the ranges that it deletes. -/
theorem followExcept_beforeDiffs {options : AddOptions} (h : TimersFollow s) :
    FollowExcept (beforeDiffs s from_ options)
      (diffsOf s.replicationIndex ranges from_ options) := by
  intro hash id timer htimer
  obtain ⟨hid, r, hr, hrid, hrhash, hequal⟩ := h hash id timer htimer
  refine ⟨hid, ?_⟩
  by_cases hdeleted : options.reset = true ∧ r.hash = from_
  · refine .inr ⟨{ type := .removed, range := r, timestamp := options.timestamp }, ?_, rfl,
      hrhash, hrid⟩
    rw [diffsOf, if_pos hdeleted.1]
    refine List.mem_append_left _ (List.mem_map.mpr ⟨r, ?_, rfl⟩)
    exact List.mem_filter.mpr ⟨hr, by simpa using hdeleted.2⟩
  · exact .inl ⟨r, mem_beforeDiffs.mpr ⟨hr, fun hreset hhash =>
      hdeleted ⟨hreset, hhash⟩⟩, hrid, hrhash, hequal⟩

theorem timersFollow_add {options : AddOptions} (h : TimersFollow s)
    (hkeeps : KeepsTimers isTrustedReplicator s
      (.addReplicationRange ranges from_ options)) :
    TimersFollow (addReplicationRange isTrustedReplicator s ranges from_ options).2 := by
  rw [addReplicationRange]
  split
  · exact h
  · rename_i htrusted
    exact (followExcept_beforeDiffs h).foldl (hkeeps (by simpa using htrusted))

theorem timersFollow_remove (h : TimersFollow s)
    (hkeeps : ∀ x ∈ ranges, ∀ hash, s.pendingMaturity hash x.id = none)
    (hstep : removeReplicationRanges s ranges from_ = some s') : TimersFollow s' := by
  rw [removeReplicationRanges, Option.ite_none_left_eq_some] at hstep
  obtain ⟨-, hstep⟩ := hstep
  rw [← Option.some.inj hstep]
  intro hash id timer htimer
  obtain ⟨hid, r, hr, hrid, hrest⟩ := h hash id timer htimer
  refine ⟨hid, r, ReplicationRanges.mem_del.mpr ⟨hr, ?_⟩, hrid, hrest⟩
  rw [List.any_eq_false]
  intro x hx hsame
  have hnone := hkeeps x hx hash
  rw [← of_decide_eq_true hsame, hrid] at hnone
  cases hnone.symm.trans htimer

theorem timersFollow_removeReplicator (h : TimersFollow s) (keyHash : PeerHash)
    (timestamp : Int) : TimersFollow (removeReplicator s keyHash timestamp) := by
  intro hash id timer htimer
  simp only [removeReplicator] at htimer ⊢
  by_cases hkey : hash = keyHash
  · rw [hkey, Function.update_self] at htimer
    cases htimer
  · rw [Function.update_of_ne hkey] at htimer
    obtain ⟨hid, r, hr, hrid, hrhash, hequal⟩ := h hash id timer htimer
    refine ⟨hid, r, ReplicationRanges.mem_del.mpr ⟨hr, ?_⟩, hrid, hrhash, hequal⟩
    rw [hrhash]
    exact decide_eq_false hkey

theorem timersFollow_timer (h : TimersFollow s) {hash : PeerHash} {id : String}
    (hstep : fireTimer s hash id = some s') : TimersFollow s' := by
  obtain ⟨timer, -, rfl⟩ := Option.map_eq_some_iff.mp hstep
  intro hash' id' timer' htimer
  simp only at htimer ⊢
  by_cases hself : hash' = hash ∧ id' = id
  · obtain ⟨rfl, rfl⟩ := hself
    rw [setTimer_self] at htimer
    exact (nomatch htimer)
  · rw [setTimer_of_ne _ _ hself] at htimer
    exact h hash' id' timer' htimer

theorem TimersFollow.announcesIndexed (h : TimersFollow s) : AnnouncesIndexed s := by
  intro hash id s' hstep change hchange
  obtain ⟨timer, htimer, rfl⟩ := Option.map_eq_some_iff.mp hstep
  simp only at hchange
  split at hchange
  · rcases List.mem_append.mp hchange with hold | hnew
    · exact .inl hold
    · rw [List.mem_singleton.mp hnew]
      obtain ⟨hid, r, hr, hrid, -, hequal⟩ := h hash id timer htimer
      exact .inr ⟨r, hr, hrid.trans hid.symm, hequal⟩
  · exact .inl hchange

end Steps

/-- In a run whose steps meet the condition, the timers always follow the ranges, and
announce ranges that are indexed. -/
theorem timersFollow_of_run (isTrustedReplicator : PeerHash → Bool) (s : ReplicationState)
    (hrun : (replicationMachine isTrustedReplicator).Run
      (KeepsTimers isTrustedReplicator) s) :
    TimersFollow s ∧ AnnouncesIndexed s := by
  have hfollow : TimersFollow s := by
    refine hrun.invariant (fun _ _ _ h => (nomatch h)) fun s a s' h hguard hstep => ?_
    cases a with
    | addReplicationRange ranges from_ options =>
        simp only [replicationMachine, replicationStep,
          Option.ite_none_right_eq_some] at hstep
        rw [← Option.some.inj hstep.2]
        exact timersFollow_add h hguard
    | removeReplicationRanges ranges from_ => exact timersFollow_remove h hguard hstep
    | removeReplicator keyHash timestamp =>
        rw [← Option.some.inj hstep]
        exact timersFollow_removeReplicator h keyHash timestamp
    | timer hash id => exact timersFollow_timer h hstep
  exact ⟨hfollow, hfollow.announcesIndexed⟩

/-! ### A timer that stays, and one that is replaced -/

section Youth

open MovedRanges (tenFrom)

/-- The options of an addition before the role age is reached. -/
def young : AddOptions where
  now := 1
  minRoleAge := 100

/-- A range that has not matured is added and removed: its timer stays, and announces
it. -/
theorem not_timersFollow_removed :
    ∃ s, (replicationMachine (fun _ => true)).Run Lib.Machine.Free s ∧
      ¬ (TimersFollow s ∧ AnnouncesIndexed s) := by
  refine ⟨_, .of_exec .init [.addReplicationRange [tenFrom "1" 0] "a" young,
    .removeReplicationRanges [tenFrom "1" 0] "a"] rfl, fun h => ?_⟩
  obtain ⟨-, r, hr, -⟩ := h.1 "a" "1" _ rfl
  exact (nomatch hr)

/-- It is added, and added again with other bounds. -/
theorem timersFollow_replaced :
    ∃ s, (replicationMachine (fun _ => true)).Run (KeepsTimers (fun _ => true)) s ∧
      (s.pendingMaturity "a" "1").map (fun timer => timer.diff.range) =
        some (tenFrom "1" 500) ∧
      TimersFollow s ∧ AnnouncesIndexed s := by
  have hfirst : (replicationMachine (fun _ => true)).Run (KeepsTimers (fun _ => true))
      (addReplicationRange (fun _ => true) .init [tenFrom "1" 0] "a" young).2 := by
    refine .step (a := .addReplicationRange [tenFrom "1" 0] "a" young) .init ?_ rfl
    exact fun _ => ⟨⟨fun _ _ => rfl, fun _ _ h => (nomatch h)⟩, trivial⟩
  generalize hs : (addReplicationRange (fun _ => true) .init [tenFrom "1" 0] "a" young).2 =
    s at hfirst
  have hothers : ∀ hash, hash ≠ "a" → s.pendingMaturity hash "1" = none := by
    intro hash hne
    rw [← hs]
    exact setTimer_of_ne _ _ fun h => hne h.1
  have hsecond : (replicationMachine (fun _ => true)).Run (KeepsTimers (fun _ => true))
      (addReplicationRange (fun _ => true) s [tenFrom "1" 500] "a" young).2 := by
    refine .step (a := .addReplicationRange [tenFrom "1" 500] "a" young) hfirst ?_ rfl
    intro _
    have hdiffs : diffsOf s.replicationIndex [tenFrom "1" 500] "a" young =
        [replacedChange (tenFrom "1" 0) (tenFrom "1" 500),
          addedChange (tenFrom "1" 500)] := by
      rw [← hs]
      decide
    rw [hdiffs]
    have hyoung : isMatured (tenFrom "1" 500) young.now young.minRoleAge = false := by decide
    exact ⟨trivial, ⟨hothers, fun hmatured => (nomatch hyoung.symm.trans hmatured)⟩, trivial⟩
  refine ⟨_, hsecond, ?_, timersFollow_of_run _ _ hsecond⟩
  rw [← hs]
  decide

end Youth

end SharedLog
end Peerbit
