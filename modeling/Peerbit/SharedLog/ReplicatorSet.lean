import Peerbit.SharedLog.ReplacedRanges

/-!
# The set of the replicators

`uniqueReplicators` is updated by hand next to the replication index.  A peer is put
into it whenever ranges are added for the peer, also where there are none; it is
taken out where the peer itself has no range left.  So the set is wrong when
nothing is added for a peer without ranges, and when the last range of a peer goes
in the name of another one: it is removed for that one, or a range of that one
takes its id.
-/

namespace Peerbit
namespace SharedLog

/-- The peer owns an indexed range. -/
def Owns (index : ReplicationRanges) (hash : PeerHash) : Prop :=
  ∃ r ∈ index.ranges, r.hash = hash

/-- The set holds the owners of the indexed ranges. -/
def ReplicatorsAgree (s : ReplicationState) : Prop :=
  ∀ hash, hash ∈ s.uniqueReplicators ↔ Owns s.replicationIndex hash

/-- Every peer but this one that owns ranges owns one without these ids. -/
def LeavesOthers (index : ReplicationRanges) (ranges : List ReplicationRangeIndexable)
    (from_ : PeerHash) : Prop :=
  ∀ hash, hash ≠ from_ → Owns index hash →
    ∃ r ∈ index.ranges, r.hash = hash ∧ ∀ x ∈ ranges, x.id ≠ r.id

/-- A step that keeps the set right. -/
def KeepsReplicators (isTrustedReplicator : PeerHash → Bool) (s : ReplicationState) :
    ReplicationAction → Prop
  | .addReplicationRange ranges from_ options =>
      isTrustedReplicator from_ = true →
        (ranges ≠ [] ∨ options.reset = false ∧ Owns s.replicationIndex from_) ∧
          LeavesOthers s.replicationIndex
            (deduplicated s.replicationIndex ranges options) from_
  | .removeReplicationRanges ranges from_ =>
      LeavesOthers s.replicationIndex ranges from_
  | .removeReplicator _ _ => True
  | .timer _ _ => True

/-! ### Ranges that are put -/

section Puts

variable {index : ReplicationRanges} {ranges : List ReplicationRangeIndexable}
variable {r x : ReplicationRangeIndexable}

/-- What is left of the index when ranges are put. -/
theorem mem_of_mem_foldl_put (h : r ∈ (ranges.foldl ReplicationRanges.put index).ranges) :
    r ∈ ranges ∨ r ∈ index.ranges := by
  induction ranges generalizing index with
  | nil => exact .inr h
  | cons x ranges ih =>
      rcases ih h with hr | hr
      · exact .inl (List.mem_cons_of_mem _ hr)
      · rcases ReplicationRanges.mem_put.mp hr with rfl | ⟨hr, -⟩
        · exact .inl List.mem_cons_self
        · exact .inr hr

theorem mem_foldl_put_of_id_ne (hr : r ∈ index.ranges) (hids : ∀ x ∈ ranges, x.id ≠ r.id) :
    r ∈ (ranges.foldl ReplicationRanges.put index).ranges := by
  induction ranges generalizing index with
  | nil => exact hr
  | cons x ranges ih =>
      obtain ⟨hx, hrest⟩ := List.forall_mem_cons.mp hids
      exact ih (ReplicationRanges.mem_put.mpr (.inr ⟨hr, hx.symm⟩)) hrest

variable (index) in
/-- An id that is put is there afterwards, with a range that was put. -/
theorem exists_mem_foldl_put (hx : x ∈ ranges) :
    ∃ r ∈ (ranges.foldl ReplicationRanges.put index).ranges, r ∈ ranges ∧ r.id = x.id := by
  induction ranges using List.reverseRecOn with
  | nil => exact (nomatch hx)
  | append_singleton ranges last ih =>
      rw [List.foldl_append, List.foldl_cons, List.foldl_nil]
      by_cases hid : x.id = last.id
      · exact ⟨last, ReplicationRanges.mem_put.mpr (.inl rfl), by simp, hid.symm⟩
      · have hx' : x ∈ ranges := by
          rcases List.mem_append.mp hx with hx | hx
          · exact hx
          · exact absurd (congrArg _ (List.mem_singleton.mp hx)) hid
        obtain ⟨r, hr, hmem, hid'⟩ := ih hx'
        refine ⟨r, ReplicationRanges.mem_put.mpr (.inr ⟨hr, ?_⟩),
          List.mem_append_left _ hmem, hid'⟩
        rw [hid']
        exact hid

/-- A range that was there is gone exactly when its id was put. -/
theorem id_ne_of_mem_foldl_put (h : r ∈ (ranges.foldl ReplicationRanges.put index).ranges)
    (hnot : r ∉ ranges) : ∀ x ∈ ranges, x.id ≠ r.id := by
  intro x hx hid
  obtain ⟨r', hr', hmem, hid'⟩ := exists_mem_foldl_put index hx
  have heq := ReplicationRanges.eq_of_id hr' h (hid'.trans hid)
  exact hnot (heq ▸ hmem)

end Puts

/-! ### What adding does -/

section Adding

variable {s : ReplicationState} {ranges : List ReplicationRangeIndexable}
variable {from_ hash : PeerHash} {options : AddOptions}

/-- The ranges of the changes that are additions. -/
def addedRanges (diffs : List ReplicationChange) : List ReplicationRangeIndexable :=
  (diffs.filter ReplicationChange.isAdded).map ReplicationChange.range

theorem foldl_applyDiff (options : AddOptions) (diffs : List ReplicationChange)
    (s : ReplicationState) :
    (diffs.foldl (applyDiff options) s).replicationIndex =
        (addedRanges diffs).foldl ReplicationRanges.put s.replicationIndex ∧
      (diffs.foldl (applyDiff options) s).uniqueReplicators = s.uniqueReplicators ∧
      (diffs.foldl (applyDiff options) s).changes = s.changes := by
  induction diffs generalizing s with
  | nil => exact ⟨rfl, rfl, rfl⟩
  | cons diff diffs ih =>
      obtain ⟨hindex, hunique, hchanges⟩ := ih (applyDiff options s diff)
      rw [List.foldl_cons, hindex, hunique, hchanges]
      obtain ⟨type, range, timestamp⟩ := diff
      cases type with
      | added matured => exact ⟨rfl, rfl, rfl⟩
      | removed => exact ⟨rfl, rfl, rfl⟩
      | replaced => exact ⟨rfl, rfl, rfl⟩

theorem addedRanges_append (diffs diffs' : List ReplicationChange) :
    addedRanges (diffs ++ diffs') = addedRanges diffs ++ addedRanges diffs' := by
  simp [addedRanges]

/-- With a reset all ranges are added. -/
theorem addedRanges_reset (index : ReplicationRanges) (hreset : options.reset = true) :
    addedRanges (diffsOf index ranges from_ options) = ranges := by
  rw [diffsOf, if_pos hreset, addedRanges_append]
  have hremoved : ∀ l : List ReplicationRangeIndexable, addedRanges (l.map (fun x =>
      { type := .removed, range := x, timestamp := options.timestamp })) = [] := by
    intro l
    simp [addedRanges, ReplicationChange.isAdded, ReplicationChange.isRemoval]
  rw [hremoved, List.nil_append]
  simp [addedRanges, ReplicationChange.isAdded, ReplicationChange.isRemoval,
    List.filter_map, Function.comp_def]

theorem addedRanges_changesFor (found : Option ReplicationRangeIndexable)
    (x : ReplicationRangeIndexable) :
    addedRanges (changesFor found x) =
      if found.any (fun prev => prev.equalRange x) then [] else [x] := by
  cases found with
  | none => rfl
  | some prev =>
      rw [changesFor, Option.any_some]
      split
      · rfl
      · rfl

/-- Without a reset, those are added that are no duplicates and not found unchanged. -/
theorem addedRanges_plain (index : ReplicationRanges) (hreset : options.reset = false) :
    addedRanges (diffsOf index ranges from_ options) =
      (deduplicated index ranges options).filter (fun x =>
        !(existingMap (existingOf index ranges) x.id).any (fun prev => prev.equalRange x)) := by
  rw [diffsOf, if_neg (by simp [hreset]), changesOfRanges_eq]
  induction deduplicated index ranges options with
  | nil => rfl
  | cons x l ih =>
      rw [List.flatMap_cons, addedRanges_append, addedRanges_changesFor, ih,
        List.filter_cons]
      cases Option.any _ _ with
      | true => rfl
      | false => rfl

/-- The index after ranges were added. -/
theorem replicationIndex_add {isTrustedReplicator : PeerHash → Bool}
    (htrusted : isTrustedReplicator from_ = true) :
    (addReplicationRange isTrustedReplicator s ranges from_
        options).2.replicationIndex =
      (addedRanges (diffsOf s.replicationIndex ranges from_ options)).foldl
        ReplicationRanges.put (beforeDiffs s from_ options).replicationIndex := by
  rw [addReplicationRange, if_neg (by simp [htrusted])]
  exact (foldl_applyDiff options _ _).1

theorem uniqueReplicators_add {isTrustedReplicator : PeerHash → Bool}
    (htrusted : isTrustedReplicator from_ = true) :
    (addReplicationRange isTrustedReplicator s ranges from_
        options).2.uniqueReplicators = insert from_ s.uniqueReplicators := by
  rw [addReplicationRange, if_neg (by simp [htrusted])]
  exact (foldl_applyDiff options _ _).2.1

/-! ### The owners after adding -/

variable (ranges from_ options) in
theorem addedRanges_subset (index : ReplicationRanges) :
    ∀ x ∈ addedRanges (diffsOf index ranges from_ options),
      x ∈ deduplicated index ranges options := by
  intro x hx
  by_cases hreset : options.reset = true
  · rw [addedRanges_reset index hreset] at hx
    rwa [deduplicated, if_neg (by simp [hreset])]
  · rw [addedRanges_plain index (Bool.eq_false_iff.mpr hreset)] at hx
    exact (List.mem_filter.mp hx).1

theorem deduplicated_subset (index : ReplicationRanges) :
    ∀ x ∈ deduplicated index ranges options, x ∈ ranges := by
  intro x hx
  rw [deduplicated] at hx
  split at hx
  · exact (List.mem_filter.mp hx).1
  · exact hx

/-- What is not added is covered by another range of its owner. -/
theorem exists_of_not_mem_deduplicated {index : ReplicationRanges}
    {x : ReplicationRangeIndexable} (hx : x ∈ ranges)
    (hnot : x ∉ deduplicated index ranges options) : Owns index x.hash := by
  rw [deduplicated] at hnot
  split at hnot
  · have hcovered : countCoveringRangesSameOwner index.ranges x = true := by
      by_contra hfree
      exact hnot (List.mem_filter.mpr ⟨hx, by simp [hfree]⟩)
    rw [countCoveringRangesSameOwner, decide_eq_true_eq, List.countP_pos_iff] at hcovered
    obtain ⟨stored, hstored, hmatch⟩ := hcovered
    simp only [Bool.and_eq_true, decide_eq_true_eq] at hmatch
    exact ⟨stored, hstored, hmatch.1.2⟩
  · exact absurd hx hnot

/-- Or it is indexed already, for its owner. -/
theorem exists_of_not_mem_addedRanges {index : ReplicationRanges}
    {x : ReplicationRangeIndexable} (hx : x ∈ deduplicated index ranges options)
    (hnot : x ∉ addedRanges (diffsOf index ranges from_ options)) :
    ∃ prev ∈ index.ranges, prev.id = x.id ∧ prev.hash = x.hash := by
  by_cases hreset : options.reset = true
  · rw [addedRanges_reset index hreset] at hnot
    exact absurd (deduplicated_subset index x hx) hnot
  · rw [addedRanges_plain index (Bool.eq_false_iff.mpr hreset), List.mem_filter,
      not_and] at hnot
    have hfound := hnot hx
    rw [Bool.not_eq_true', Bool.not_eq_false, Option.any_eq_true] at hfound
    obtain ⟨prev, hprev, hequal⟩ := hfound
    obtain ⟨hmem, hid, -⟩ := existingMap_eq_some_iff.mp hprev
    exact ⟨prev, hmem, hid, (equalRange_iff.mp hequal).1⟩

theorem mem_beforeDiffs {r : ReplicationRangeIndexable} :
    r ∈ (beforeDiffs s from_ options).replicationIndex.ranges ↔
      r ∈ s.replicationIndex.ranges ∧ (options.reset = true → r.hash ≠ from_) := by
  rw [beforeDiffs]
  by_cases hreset : options.reset = true
  · simp [hreset, ReplicationRanges.mem_del]
  · simp [hreset]

variable (s options) in
/-- The peer owns a range afterwards if one is added or it keeps one. -/
theorem owns_add_self {isTrustedReplicator : PeerHash → Bool}
    (htrusted : isTrustedReplicator from_ = true)
    (hfrom : ∀ x ∈ ranges, x.hash = from_) :
    Owns (addReplicationRange isTrustedReplicator s ranges from_
        options).2.replicationIndex from_ ↔
      ranges ≠ [] ∨ options.reset = false ∧ Owns s.replicationIndex from_ := by
  rw [replicationIndex_add htrusted]
  have hsub : ∀ x ∈ addedRanges (diffsOf s.replicationIndex ranges from_ options),
      x ∈ ranges := fun x hx =>
    deduplicated_subset _ x (addedRanges_subset ranges from_ options s.replicationIndex x hx)
  -- whatever is added belongs to the peer
  have hadded : ∀ x ∈ addedRanges (diffsOf s.replicationIndex ranges from_ options),
      Owns ((addedRanges (diffsOf s.replicationIndex ranges from_ options)).foldl
        ReplicationRanges.put (beforeDiffs s from_ options).replicationIndex) from_ := by
    intro x hx
    obtain ⟨r, hr, hmem, -⟩ := exists_mem_foldl_put _ hx
    exact ⟨r, hr, hfrom r (hsub r hmem)⟩
  have hkept : options.reset = false → Owns s.replicationIndex from_ →
      Owns ((addedRanges (diffsOf s.replicationIndex ranges from_ options)).foldl
        ReplicationRanges.put (beforeDiffs s from_ options).replicationIndex) from_ := by
    rintro hreset ⟨r, hr, hhash⟩
    by_cases hfree :
        ∀ x ∈ addedRanges (diffsOf s.replicationIndex ranges from_ options), x.id ≠ r.id
    · exact ⟨r, mem_foldl_put_of_id_ne (mem_beforeDiffs.mpr ⟨hr, by simp [hreset]⟩) hfree,
        hhash⟩
    · simp only [not_forall] at hfree
      obtain ⟨x, hx, -⟩ := hfree
      exact hadded x hx
  constructor
  · rintro ⟨r, hr, hhash⟩
    rcases mem_of_mem_foldl_put hr with hr | hr
    · exact .inl (List.ne_nil_of_mem (hsub r hr))
    · obtain ⟨hmem, hreset⟩ := mem_beforeDiffs.mp hr
      exact .inr ⟨Bool.eq_false_iff.mpr fun h => hreset h hhash, r, hmem, hhash⟩
  · rintro (hne | ⟨hreset, howns⟩)
    · obtain ⟨x, hx⟩ := List.exists_mem_of_ne_nil _ hne
      by_cases hnew : x ∈ addedRanges (diffsOf s.replicationIndex ranges from_ options)
      · exact hadded x hnew
      · have hreset : options.reset = false := by
          rw [Bool.eq_false_iff]
          intro hreset
          rw [addedRanges_reset _ hreset] at hnew
          exact hnew hx
        refine hkept hreset ?_
        rw [← hfrom x hx]
        by_cases hdup : x ∈ deduplicated s.replicationIndex ranges options
        · obtain ⟨prev, hprev, -, hhash⟩ := exists_of_not_mem_addedRanges hdup hnew
          exact ⟨prev, hprev, hhash⟩
        · exact exists_of_not_mem_deduplicated hx hdup
    · exact hkept hreset howns

variable (s options) in
/-- Another peer owns a range afterwards if it owns one whose id is not taken. -/
theorem owns_add_other {isTrustedReplicator : PeerHash → Bool}
    (htrusted : isTrustedReplicator from_ = true)
    (hfrom : ∀ x ∈ ranges, x.hash = from_) (hne : hash ≠ from_) :
    Owns (addReplicationRange isTrustedReplicator s ranges from_
        options).2.replicationIndex hash ↔
      ∃ r ∈ s.replicationIndex.ranges, r.hash = hash ∧
        ∀ x ∈ deduplicated s.replicationIndex ranges options, x.id ≠ r.id := by
  rw [replicationIndex_add htrusted]
  have hsub := addedRanges_subset ranges from_ options s.replicationIndex
  constructor
  · rintro ⟨r, hr, rfl⟩
    have hnot : r ∉ addedRanges (diffsOf s.replicationIndex ranges from_ options) :=
      fun hmem => hne (hfrom r (deduplicated_subset _ r (hsub r hmem)))
    have hfree := id_ne_of_mem_foldl_put hr hnot
    obtain ⟨hmem, -⟩ := mem_beforeDiffs.mp ((mem_of_mem_foldl_put hr).resolve_left hnot)
    refine ⟨r, hmem, rfl, fun x hx hid => ?_⟩
    by_cases hnew : x ∈ addedRanges (diffsOf s.replicationIndex ranges from_ options)
    · exact hfree x hnew hid
    · obtain ⟨prev, hprev, hid', hhash⟩ := exists_of_not_mem_addedRanges hx hnew
      obtain rfl := ReplicationRanges.eq_of_id hprev hmem (hid'.trans hid)
      exact hne (hhash.trans (hfrom x (deduplicated_subset _ x hx)))
  · rintro ⟨r, hr, rfl, hfree⟩
    refine ⟨r, mem_foldl_put_of_id_ne (mem_beforeDiffs.mpr ⟨hr, fun _ => hne⟩) ?_, rfl⟩
    exact fun x hx => hfree x (hsub x hx)

end Adding

/-! ### Steps and runs -/

section Steps

variable {isTrustedReplicator : PeerHash → Bool} {s s' : ReplicationState}
variable {ranges : List ReplicationRangeIndexable} {from_ : PeerHash}

/-- Adding ranges keeps the set right exactly under the condition. -/
theorem replicatorsAgree_add_iff {options : AddOptions} (h : ReplicatorsAgree s)
    (hfrom : ∀ x ∈ ranges, x.hash = from_) :
    ReplicatorsAgree (addReplicationRange isTrustedReplicator s ranges from_
        options).2 ↔
      KeepsReplicators isTrustedReplicator s
        (.addReplicationRange ranges from_ options) := by
  by_cases htrusted : isTrustedReplicator from_ = true
  · have hself := owns_add_self s options htrusted hfrom
    have hother : ∀ {hash}, hash ≠ from_ → _ := fun {hash} (hne : hash ≠ from_) =>
      owns_add_other s options htrusted hfrom hne
    rw [ReplicatorsAgree, uniqueReplicators_add htrusted, KeepsReplicators]
    constructor
    · intro hafter _
      refine ⟨hself.mp ((hafter from_).mp (Finset.mem_insert_self _ _)), ?_⟩
      intro hash hne howns
      exact (hother hne).mp
        ((hafter hash).mp (Finset.mem_insert_of_mem ((h hash).mpr howns)))
    · intro hkeeps hash
      obtain ⟨hkept, hleaves⟩ := hkeeps htrusted
      rw [Finset.mem_insert]
      by_cases hne : hash = from_
      · subst hne
        exact iff_of_true (.inl rfl) (hself.mpr hkept)
      · rw [or_iff_right hne, h hash, hother hne]
        constructor
        · exact hleaves hash hne
        · rintro ⟨r, hr, hhash, -⟩
          exact ⟨r, hr, hhash⟩
  · rw [addReplicationRange, if_pos (by simpa using htrusted)]
    exact iff_of_true h fun htrusted' => absurd htrusted' htrusted

/-- So does removing ranges. -/
theorem replicatorsAgree_remove_iff (h : ReplicatorsAgree s)
    (hstep : removeReplicationRanges s ranges from_ = some s') :
    ReplicatorsAgree s' ↔
      KeepsReplicators isTrustedReplicator s (.removeReplicationRanges ranges from_) := by
  rw [removeReplicationRanges] at hstep
  split at hstep
  · exact (nomatch hstep)
  obtain rfl := Option.some.inj hstep
  have hindex : ∀ hash,
      Owns (s.replicationIndex.del
        (fun r => ranges.any (fun x => decide (r.id = x.id)))) hash ↔
      ∃ r ∈ s.replicationIndex.ranges, r.hash = hash ∧ ∀ x ∈ ranges, x.id ≠ r.id := by
    intro hash
    simp only [Owns, ReplicationRanges.mem_del, List.any_eq_false, decide_eq_true_eq]
    constructor
    · rintro ⟨r, ⟨hr, hfree⟩, hhash⟩
      exact ⟨r, hr, hhash, fun x hx => (hfree x hx) ∘ Eq.symm⟩
    · rintro ⟨r, hr, hhash, hfree⟩
      exact ⟨r, ⟨hr, fun x hx => (hfree x hx) ∘ Eq.symm⟩, hhash⟩
  generalize hdel : s.replicationIndex.del
    (fun r => ranges.any (fun x => decide (r.id = x.id))) = index at hindex ⊢
  have hset : ∀ hash, (hash ∈ if index.ranges.any (fun r => decide (r.hash = from_)) then
      s.uniqueReplicators else s.uniqueReplicators.erase from_) ↔
      Owns s.replicationIndex hash ∧ (hash = from_ → Owns index from_) := by
    intro hash
    have hany : index.ranges.any (fun r => decide (r.hash = from_)) = true ↔
        Owns index from_ := by
      simp [Owns]
    split
    · rename_i howns
      rw [h hash, and_iff_left fun _ => hany.mp howns]
    · rename_i hgone
      rw [hany] at hgone
      rw [Finset.mem_erase, h hash, and_comm]
      simp [hgone]
  constructor
  · intro hafter hash hne howns
    have hmem := (hset hash).mpr ⟨howns, fun heq => absurd heq hne⟩
    exact (hindex hash).mp ((hafter hash).mp hmem)
  · intro hleaves hash
    rw [hset hash]
    by_cases hne : hash = from_
    · subst hne
      refine ⟨fun hboth => hboth.2 rfl, fun howns => ⟨?_, fun _ => howns⟩⟩
      obtain ⟨r, hr, hhash, -⟩ := (hindex hash).mp howns
      exact ⟨r, hr, hhash⟩
    · rw [and_iff_left fun heq => absurd heq hne, hindex hash]
      constructor
      · exact hleaves hash hne
      · rintro ⟨r, hr, hhash, -⟩
        exact ⟨r, hr, hhash⟩

theorem replicatorsAgree_removeReplicator (h : ReplicatorsAgree s) (keyHash : PeerHash)
    (timestamp : Int) : ReplicatorsAgree (removeReplicator s keyHash timestamp) := by
  intro hash
  simp only [removeReplicator, Finset.mem_erase, h hash, Owns, ReplicationRanges.mem_del,
    decide_eq_false_iff_not]
  constructor
  · rintro ⟨hne, r, hr, rfl⟩
    exact ⟨r, ⟨hr, hne⟩, rfl⟩
  · rintro ⟨r, ⟨hr, hne⟩, rfl⟩
    exact ⟨hne, r, hr, rfl⟩

/-- A step keeps the set right exactly under the condition. -/
theorem replicatorsAgree_step_iff {a : ReplicationAction} (h : ReplicatorsAgree s)
    (hstep : replicationStep isTrustedReplicator s a = some s') :
    ReplicatorsAgree s' ↔ KeepsReplicators isTrustedReplicator s a := by
  cases a with
  | addReplicationRange ranges from_ options =>
      rw [replicationStep, Option.ite_none_right_eq_some] at hstep
      obtain ⟨hfrom, hadded⟩ := hstep
      rw [← Option.some.inj hadded]
      exact replicatorsAgree_add_iff h hfrom
  | removeReplicationRanges ranges from_ => exact replicatorsAgree_remove_iff h hstep
  | removeReplicator keyHash timestamp =>
      rw [← Option.some.inj hstep]
      exact iff_of_true (replicatorsAgree_removeReplicator h keyHash timestamp) trivial
  | timer hash id =>
      obtain ⟨timer, -, rfl⟩ := Option.map_eq_some_iff.mp hstep
      exact iff_of_true h trivial

end Steps

/-- In a run whose steps meet the condition, the set always holds the owners of the
indexed ranges. -/
theorem replicatorsAgree_of_run (isTrustedReplicator : PeerHash → Bool)
    (s : ReplicationState)
    (hrun : (replicationMachine isTrustedReplicator).Run
      (KeepsReplicators isTrustedReplicator) s) :
    ReplicatorsAgree s := by
  refine hrun.invariant ?_ fun s a s' h hguard hstep =>
    (replicatorsAgree_step_iff h hstep).mpr hguard
  intro hash
  simp [replicationMachine, ReplicationState.init, Owns, ReplicationRanges.empty]

/-- A peer that resets its ranges to none stays in the set. -/
theorem not_replicatorsAgree_reset :
    ∃ s, (replicationMachine (fun _ => true)).Run Lib.Machine.Free s ∧
      ¬ ReplicatorsAgree s := by
  refine ⟨(addReplicationRange (fun _ => true) .init [] "a" { reset := true }).2,
    .of_exec .init [.addReplicationRange [] "a" { reset := true }] rfl, fun h => ?_⟩
  obtain ⟨r, hr, -⟩ := (h "a").mp (by decide)
  exact (nomatch hr)

/-- A peer adds a range, and then none. -/
theorem replicatorsAgree_again :
    ∃ s, (replicationMachine (fun _ => true)).Run (KeepsReplicators (fun _ => true)) s ∧
      ReplicatorsAgree s ∧ s.uniqueReplicators = {"a"} := by
  have hfirst : (replicationMachine (fun _ => true)).Run
      (KeepsReplicators (fun _ => true))
      (addReplicationRange (fun _ => true) .init [MovedRanges.tenFrom "1" 0] "a" {}).2 := by
    refine .step (a := .addReplicationRange [MovedRanges.tenFrom "1" 0] "a" {}) .init ?_ rfl
    refine fun _ => ⟨.inl (by simp), ?_⟩
    rintro hash - ⟨r, hr, -⟩
    exact (nomatch hr)
  generalize hs : (addReplicationRange (fun _ => true) .init
    [MovedRanges.tenFrom "1" 0] "a" {}).2 = s at hfirst
  have hsecond : (replicationMachine (fun _ => true)).Run
      (KeepsReplicators (fun _ => true))
      (addReplicationRange (fun _ => true) s [] "a" {}).2 := by
    refine .step (a := .addReplicationRange [] "a" {}) hfirst ?_ rfl
    refine fun _ => ⟨.inr ⟨rfl, MovedRanges.tenFrom "1" 0, ?_, rfl⟩, ?_⟩
    · rw [← hs]
      decide
    · rintro hash - ⟨r, hr, hhash⟩
      exact ⟨r, hr, hhash, by simp [deduplicated]⟩
  refine ⟨_, hsecond, replicatorsAgree_of_run _ _ hsecond, ?_⟩
  rw [← hs]
  decide

end SharedLog
end Peerbit
