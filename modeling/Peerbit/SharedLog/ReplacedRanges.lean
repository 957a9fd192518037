import Peerbit.SharedLog.ReplicationState

/-!
# The ranges that a batch replaces

A range that is added under the id of an indexed one is reported as two changes:
the old range is "replaced", and the new one "added".  If both are the same, there
is no change.

The indexed ranges are looked up a batch at a time, with one query for each id.
But the index finds only what matches all of the queries, so that a range is
found in a batch that holds no other id (`reportsReplaced_iff`).
-/

namespace Peerbit
namespace SharedLog

/-! ### What is reported -/

def SameBounds (r r' : ReplicationRangeIndexable) : Prop :=
  r.start1 = r'.start1 ∧ r.end1 = r'.end1 ∧ r.start2 = r'.start2 ∧ r.end2 = r'.end2

instance (r r' : ReplicationRangeIndexable) : Decidable (SameBounds r r') :=
  inferInstanceAs (Decidable (_ ∧ _))

def addedChange (x : ReplicationRangeIndexable) : ReplicationChange where
  type := .added false
  range := x
  timestamp := x.timestamp

def replacedChange (prev x : ReplicationRangeIndexable) : ReplicationChange where
  type := .replaced
  range := prev
  timestamp := x.timestamp - 1

/-- The changes for a range, given the range that is found under its id. -/
def changesFor (prev : Option ReplicationRangeIndexable) (x : ReplicationRangeIndexable) :
    List ReplicationChange :=
  match prev with
  | some prev =>
      if prev.equalRange x then [] else [replacedChange prev x, addedChange x]
  | none => [addedChange x]

theorem changesOfRanges_eq (map : String → Option ReplicationRangeIndexable)
    (ranges : List ReplicationRangeIndexable) :
    changesOfRanges map ranges = ranges.flatMap (fun x => changesFor (map x.id) x) :=
  rfl

/-- What a range should yield: both changes if its id is indexed with other bounds,
no change if it is indexed with the same ones. -/
def expectedChanges (index : ReplicationRanges) (x : ReplicationRangeIndexable) :
    List ReplicationChange :=
  match index.get x.id with
  | some prev =>
      if SameBounds prev x then [] else [replacedChange prev x, addedChange x]
  | none => [addedChange x]

/-- Every range of the batch yields what it should. -/
def ReportsReplaced (index : ReplicationRanges) (ranges : List ReplicationRangeIndexable)
    (diffs : List ReplicationChange) : Prop :=
  diffs = ranges.flatMap (expectedChanges index)

/-- An indexed range that is added again is looked up in some batch without another
id; and where its bounds stay the same, so does its owner. -/
def FindsReplaced (index : ReplicationRanges) (ranges : List ReplicationRangeIndexable) :
    Prop :=
  ∀ x ∈ ranges, ∀ prev ∈ index.ranges, prev.id = x.id →
    (∃ batch ∈ batches ranges, ∀ y ∈ batch, y.id = x.id) ∧
      (SameBounds prev x → prev.hash = x.hash)

/-! ### The lookup -/

section Lookup

variable {index : ReplicationRanges} {ranges : List ReplicationRangeIndexable}
variable {prev r x : ReplicationRangeIndexable} {id : String}

theorem mem_existingOf :
    r ∈ existingOf index ranges ↔
      r ∈ index.ranges ∧ ∃ batch ∈ batches ranges, ∀ y ∈ batch, y.id = r.id := by
  simp only [existingOf, existingOfBatch, List.mem_flatMap, List.mem_filter,
    List.all_eq_true, decide_eq_true_eq]
  constructor
  · rintro ⟨batch, hbatch, hr, hids⟩
    exact ⟨hr, batch, hbatch, fun y hy => (hids y hy).symm⟩
  · rintro ⟨hr, batch, hbatch, hids⟩
    exact ⟨batch, hbatch, hr, fun y hy => (hids y hy).symm⟩

/-- A map that is filled from a list holds elements of the list. -/
theorem existingMap_spec (existing : List ReplicationRangeIndexable) (id : String) :
    (∀ r, existingMap existing id = some r → r ∈ existing ∧ r.id = id) ∧
      (existingMap existing id = none → ∀ r ∈ existing, r.id ≠ id) := by
  induction existing using List.reverseRecOn with
  | nil => exact ⟨fun r h => (nomatch h), fun _ r hr => (nomatch hr)⟩
  | append_singleton existing last ih =>
      rw [existingMap, List.foldl_append, List.foldl_cons, List.foldl_nil, ← existingMap]
      by_cases hid : id = last.id
      · subst hid
        rw [Function.update_self]
        refine ⟨?_, fun h => (nomatch h)⟩
        rintro r h
        obtain rfl := Option.some.inj h
        exact ⟨by simp, rfl⟩
      · rw [Function.update_of_ne hid]
        refine ⟨fun r h => ⟨List.mem_append_left _ (ih.1 r h).1, (ih.1 r h).2⟩, ?_⟩
        intro h r hr
        rcases List.mem_append.mp hr with hr | hr
        · exact ih.2 h r hr
        · rw [List.mem_singleton.mp hr]
          exact fun heq => hid heq.symm

/-- A range is found under its id exactly when some batch holds no other id. -/
theorem existingMap_eq_some_iff :
    existingMap (existingOf index ranges) id = some r ↔
      r ∈ index.ranges ∧ r.id = id ∧ ∃ batch ∈ batches ranges, ∀ y ∈ batch, y.id = id := by
  have hspec := existingMap_spec (existingOf index ranges) id
  constructor
  · intro h
    obtain ⟨hmem, rfl⟩ := hspec.1 r h
    obtain ⟨hr, hbatch⟩ := mem_existingOf.mp hmem
    exact ⟨hr, rfl, hbatch⟩
  · rintro ⟨hr, rfl, hbatch⟩
    have hmem := mem_existingOf.mpr ⟨hr, hbatch⟩
    cases hfound : existingMap (existingOf index ranges) r.id with
    | none => exact absurd rfl (hspec.2 hfound r hmem)
    | some r' =>
        obtain ⟨hmem', hid⟩ := hspec.1 r' hfound
        rw [index.eq_of_id (mem_existingOf.mp hmem').1 hr hid]

end Lookup

/-! ### The changes -/

section Changes

variable {index : ReplicationRanges} {ranges : List ReplicationRangeIndexable}
variable {prev x y : ReplicationRangeIndexable} {found : Option ReplicationRangeIndexable}

theorem equalRange_iff : prev.equalRange x = true ↔ prev.hash = x.hash ∧ SameBounds prev x := by
  simp [ReplicationRangeIndexable.equalRange, SameBounds, and_assoc]

/-- A range yields what it should when it is found, and its owner stays the same. -/
theorem changesFor_eq_iff (hfound : ∀ r, found = some r → index.get x.id = some r) :
    changesFor found x = expectedChanges index x ↔
      ∀ prev, index.get x.id = some prev →
        found = some prev ∧ (SameBounds prev x → prev.hash = x.hash) := by
  rw [expectedChanges]
  cases hget : index.get x.id with
  | none =>
      have hnone : found = none := by
        cases hf : found with
        | none => rfl
        | some r => exact (nomatch hget.symm.trans (hfound r hf))
      simp [hnone, changesFor]
  | some prev =>
      cases hf : found with
      | none =>
          simp only [changesFor, Option.some.injEq, forall_eq', reduceCtorEq, false_and,
            iff_false]
          split
          · simp
          · simp
      | some r =>
          obtain rfl := Option.some.inj ((hfound r hf).symm.trans hget)
          simp only [changesFor, Option.some.injEq, forall_eq', true_and]
          by_cases hsame : SameBounds r x
          · by_cases hhash : r.hash = x.hash
            · simp [equalRange_iff, hsame, hhash]
            · simp [equalRange_iff, hsame, hhash]
          · simp [equalRange_iff, hsame]

theorem eq_of_addedChange_mem (h : addedChange x ∈ expectedChanges index y) : y = x := by
  have hadded : addedChange x = addedChange y → y = x := by
    intro heq
    exact (congrArg ReplicationChange.range heq).symm
  have hreplaced : ∀ prev, addedChange x ≠ replacedChange prev y := by
    intro prev heq
    exact (nomatch congrArg ReplicationChange.type heq)
  rw [expectedChanges] at h
  split at h
  · split at h
    · exact (nomatch h)
    · rcases List.mem_cons.mp h with heq | hmem
      · exact absurd heq (hreplaced _)
      · exact hadded (List.mem_singleton.mp hmem)
  · exact hadded (List.mem_singleton.mp h)

/-- Where a range does not yield what it should, it yields an addition instead of
nothing or of both changes. -/
theorem changesFor_ne_cases (hfound : ∀ r, found = some r → index.get x.id = some r)
    (hne : changesFor found x ≠ expectedChanges index x) :
    addedChange x ∈ changesFor found x ∧
      (expectedChanges index x = [] ∨
        changesFor found x = [addedChange x] ∧
          ∃ prev, expectedChanges index x = [replacedChange prev x, addedChange x]) := by
  rw [expectedChanges] at hne ⊢
  cases hget : index.get x.id with
  | none =>
      cases hf : found with
      | none => simp [hget, hf, changesFor] at hne
      | some r => exact (nomatch hget.symm.trans (hfound r hf))
  | some prev =>
      simp only [hget] at hne ⊢
      cases hf : found with
      | none =>
          refine ⟨List.mem_singleton.mpr rfl, ?_⟩
          split
          · exact .inl rfl
          · exact .inr ⟨rfl, prev, rfl⟩
      | some r =>
          obtain rfl := Option.some.inj ((hfound r hf).symm.trans hget)
          rw [hf] at hne
          simp only [changesFor] at hne ⊢
          by_cases hequal : r.equalRange x = true
          · rw [if_pos hequal, if_pos (equalRange_iff.mp hequal).2] at hne
            exact absurd rfl hne
          · rw [if_neg hequal] at hne ⊢
            by_cases hsame : SameBounds r x
            · exact ⟨by simp, .inl (if_pos hsame)⟩
            · rw [if_neg hsame] at hne
              exact absurd rfl hne

/-- The changes of a batch are what they should be exactly when those of each range
are. -/
theorem flatMap_changesFor_eq_iff {map : String → Option ReplicationRangeIndexable}
    (hmap : ∀ id r, map id = some r → index.get id = some r) :
    ranges.flatMap (fun x => changesFor (map x.id) x) =
        ranges.flatMap (expectedChanges index) ↔
      ∀ x ∈ ranges, changesFor (map x.id) x = expectedChanges index x := by
  induction ranges with
  | nil => simp
  | cons x ranges ih =>
      rw [List.flatMap_cons, List.flatMap_cons, List.forall_mem_cons, ← ih]
      constructor
      · intro h
        by_cases hx : changesFor (map x.id) x = expectedChanges index x
        · rw [hx] at h
          exact ⟨hx, List.append_cancel_left h⟩
        · obtain ⟨hadded, hnone | ⟨hone, prev, hboth⟩⟩ := changesFor_ne_cases (hmap x.id) hx
          · have hmem : addedChange x ∈ ranges.flatMap (expectedChanges index) := by
              rw [hnone, List.nil_append] at h
              rw [← h]
              exact List.mem_append_left _ hadded
            obtain ⟨y, -, hy⟩ := List.mem_flatMap.mp hmem
            obtain rfl := eq_of_addedChange_mem hy
            rw [hnone] at hy
            exact (nomatch hy)
          · rw [hone, hboth] at h
            exact (nomatch congrArg ReplicationChange.type (List.cons.inj h).1)
      · rintro ⟨hx, hrest⟩
        rw [hx, hrest]

end Changes

/-- Every range of a batch yields what it should exactly when each indexed one among
them is looked up without other ids, and stays with its owner if its bounds do not
change. -/
theorem reportsReplaced_iff (isTrustedReplicator : PeerHash → Bool)
    (s : ReplicationState) (ranges : List ReplicationRangeIndexable) (from_ : PeerHash)
    (options : AddOptions) (diffs : List ReplicationChange)
    (hreset : options.reset = false) (hduplicates : options.checkDuplicates = false)
    (hdiffs : (addReplicationRange isTrustedReplicator s ranges from_ options).1 =
      some diffs) :
    ReportsReplaced s.replicationIndex ranges diffs ↔
      FindsReplaced s.replicationIndex ranges := by
  have hmap : ∀ id r, existingMap (existingOf s.replicationIndex ranges) id = some r →
      s.replicationIndex.get id = some r := by
    intro id r h
    obtain ⟨hmem, hid, -⟩ := existingMap_eq_some_iff.mp h
    exact ReplicationRanges.get_eq_some_iff.mpr ⟨hmem, hid⟩
  have hchanges : diffs = ranges.flatMap (fun x =>
      changesFor (existingMap (existingOf s.replicationIndex ranges) x.id) x) := by
    rw [addReplicationRange] at hdiffs
    split at hdiffs
    · exact (nomatch hdiffs)
    · rw [← Option.some.inj hdiffs, diffsOf, if_neg (by simp [hreset]), deduplicated,
        if_neg (by simp [hduplicates]), changesOfRanges_eq]
  rw [ReportsReplaced, hchanges, flatMap_changesFor_eq_iff hmap, FindsReplaced]
  refine forall₂_congr fun x hx => ?_
  rw [changesFor_eq_iff (hmap x.id)]
  constructor
  · intro h prev hmem hid
    obtain ⟨hfound, howner⟩ :=
      h prev (ReplicationRanges.get_eq_some_iff.mpr ⟨hmem, hid⟩)
    exact ⟨(existingMap_eq_some_iff.mp hfound).2.2, howner⟩
  · intro h prev hget
    obtain ⟨hmem, hid⟩ := ReplicationRanges.get_eq_some_iff.mp hget
    obtain ⟨hbatch, howner⟩ := h prev hmem hid
    exact ⟨existingMap_eq_some_iff.mpr ⟨hmem, hid, hbatch⟩, howner⟩

/-! ### Two ranges at once -/

namespace MovedRanges

/-- Ten points from the start on. -/
def tenFrom (id : String) (start : Nat) : ReplicationRangeIndexable where
  id := id
  hash := "a"
  timestamp := 1
  start1 := start
  end1 := start + 10
  start2 := start
  end2 := start + 10
  width := 10
  mode := .NonStrict

/-- The peer has added two ranges. -/
def before : ReplicationState :=
  (addReplicationRange (fun _ => true) .init [tenFrom "1" 0, tenFrom "2" 100] "a" {}).2

/-- It moves both of them, and neither is reported as replaced. -/
theorem not_reportsReplaced_both :
    ∃ diffs,
      (addReplicationRange (fun _ => true) before [tenFrom "1" 500, tenFrom "2" 700] "a"
        {}).1 = some diffs ∧
      ¬ ReportsReplaced before.replicationIndex [tenFrom "1" 500, tenFrom "2" 700]
        diffs := by
  refine ⟨_, rfl, ?_⟩
  rw [ReportsReplaced]
  decide +kernel

/-- It moves one of them. -/
theorem reportsReplaced_one :
    ∃ diffs,
      (addReplicationRange (fun _ => true) before [tenFrom "1" 500] "a" {}).1 =
        some diffs ∧
      FindsReplaced before.replicationIndex [tenFrom "1" 500] ∧
      ReportsReplaced before.replicationIndex [tenFrom "1" 500] diffs := by
  have hfinds : FindsReplaced before.replicationIndex [tenFrom "1" 500] := by
    intro x hx prev hprev hid
    obtain rfl := List.mem_singleton.mp hx
    refine ⟨⟨[tenFrom "1" 500], by decide, by decide⟩, fun hsame => ?_⟩
    have hranges : before.replicationIndex.ranges = [tenFrom "1" 0, tenFrom "2" 100] := by
      decide
    rw [hranges] at hprev
    rcases List.mem_cons.mp hprev with rfl | hprev
    · rfl
    · rw [List.mem_singleton.mp hprev]
      rfl
  refine ⟨_, rfl, hfinds, ?_⟩
  exact (reportsReplaced_iff (fun _ => true) before [tenFrom "1" 500] "a" {} _ rfl rfl
    rfl).mpr hfinds

end MovedRanges

end SharedLog
end Peerbit
