import Peerbit.SharedLog.Rebalance
import Peerbit.SharedLog.SamplesAgree

/-!
# Which entries a rebalance finds

An entry that is not yielded has no coordinate in a merged change.  So the same peers own
ranges over its coordinates before and after the batch.  It has the same leaders when
these are all such owners, before and after; or when the batch changes strict ranges only,
which a search does not go through.
-/

namespace Peerbit
namespace SharedLog

open Lib

/-! ### Applying the changes -/

section Applying

variable {peers after : ReplicationIndex} {change : ReplicationChange}
variable {changes : List ReplicationChange} {hash : PeerHash} {point : Nat}

/-- The ranges of an index have different ids. -/
def UniqueIds (peers : ReplicationIndex) : Prop :=
  (peers.map ReplicationRangeIndexable.id).Nodup

theorem applyChange_cases (h : applyChange peers change = some after) :
    (change.isRemoval = true ∧ change.range ∈ peers ∧
        after = peers.filter (fun r => decide (r.id ≠ change.range.id))) ∨
      (change.isRemoval = false ∧ after = peers) ∨
      (change.isRemoval = false ∧ (∀ r ∈ peers, r.id ≠ change.range.id) ∧
        after = peers ++ [change.range]) := by
  rw [applyChange] at h
  split at h
  · rename_i hremoval
    split at h
    · rename_i hmem
      exact .inl ⟨hremoval, hmem, (Option.some.inj h).symm⟩
    · cases h
  · rename_i hremoval
    split at h
    · exact .inr (.inl ⟨by simpa using hremoval, (Option.some.inj h).symm⟩)
    · split at h
      · cases h
      · rename_i hids
        refine .inr (.inr ⟨by simpa using hremoval, fun r hr hid => hids ?_,
          (Option.some.inj h).symm⟩)
        exact List.any_eq_true.mpr ⟨r, hr, decide_eq_true hid⟩

theorem UniqueIds.applyChange (hunique : UniqueIds peers)
    (h : applyChange peers change = some after) : UniqueIds after := by
  rcases applyChange_cases h with ⟨-, -, rfl⟩ | ⟨-, rfl⟩ | ⟨-, hids, rfl⟩
  · exact hunique.sublist (List.filter_sublist.map _)
  · exact hunique
  · rw [UniqueIds, List.map_append, List.nodup_append]
    refine ⟨hunique, List.nodup_singleton _, ?_⟩
    rintro id hid id' hid' rfl
    obtain ⟨r, hr, hrid⟩ := List.mem_map.mp hid
    exact hids r hr (hrid.trans (by simpa using hid'))

/-- A removal takes the range of the change, and no other one. -/
theorem mem_filter_id (hunique : UniqueIds peers) (hmem : change.range ∈ peers)
    {r : ReplicationRangeIndexable} :
    r ∈ peers.filter (fun r => decide (r.id ≠ change.range.id)) ↔
      r ∈ peers ∧ r ≠ change.range := by
  rw [List.mem_filter, decide_eq_true_eq]
  refine and_congr_right fun hr => not_congr ⟨fun hid => ?_, fun heq => heq ▸ rfl⟩
  exact List.inj_on_of_nodup_map hunique hr hmem hid

/-- A change of another peer, or away from a point, leaves the owners at the point. -/
theorem mem_ownersAt_applyChange (hunique : UniqueIds peers)
    (h : applyChange peers change = some after)
    (hnot : ¬ (change.range.hash = hash ∧ change.range.contains point = true)) :
    hash ∈ ownersAt peers point ↔ hash ∈ ownersAt after point := by
  rw [mem_ownersAt, mem_ownersAt]
  have hne : ∀ {r : ReplicationRangeIndexable}, r.hash = hash ∧ r.contains point = true →
      r ≠ change.range := by
    rintro r hr rfl
    exact hnot hr
  rcases applyChange_cases h with ⟨-, hmem, rfl⟩ | ⟨-, rfl⟩ | ⟨-, -, rfl⟩
  · refine exists_congr fun r => ?_
    rw [mem_filter_id hunique hmem]
    exact ⟨fun ⟨hr, hrest⟩ => ⟨⟨hr, hne hrest⟩, hrest⟩, fun ⟨hr, hrest⟩ => ⟨hr.1, hrest⟩⟩
  · rfl
  · refine exists_congr fun r => ?_
    rw [List.mem_append, List.mem_singleton]
    exact ⟨fun ⟨hr, hrest⟩ => ⟨.inl hr, hrest⟩,
      fun ⟨hr, hrest⟩ => ⟨hr.resolve_right (hne hrest), hrest⟩⟩

theorem mem_ownersAt_applyChanges (hunique : UniqueIds peers)
    (h : applyChanges peers changes = some after)
    (hremoved : ¬ InRemoved changes hash point) (hadded : ¬ InAdded changes hash point) :
    hash ∈ ownersAt peers point ↔ hash ∈ ownersAt after point := by
  induction changes generalizing peers with
  | nil =>
      obtain rfl := Option.some.inj h
      rfl
  | cons change changes ih =>
      obtain ⟨peers', hchange, hrest⟩ := Option.bind_eq_some_iff.mp h
      have hnot : ¬ (change.range.hash = hash ∧ change.range.contains point = true) := by
        rintro ⟨hhash, hcontains⟩
        cases hremoval : change.isRemoval with
        | true => exact hremoved ⟨change, by simp, hhash, hremoval, hcontains⟩
        | false => exact hadded ⟨change, by simp, hhash, hremoval, hcontains⟩
      rw [mem_ownersAt_applyChange hunique hchange hnot]
      refine ih (hunique.applyChange hchange) hrest ?_ ?_
      · rintro ⟨c, hc, hin⟩
        exact hremoved ⟨c, List.mem_cons_of_mem _ hc, hin⟩
      · rintro ⟨c, hc, hin⟩
        exact hadded ⟨c, List.mem_cons_of_mem _ hc, hin⟩

theorem UniqueIds.applyChanges (hunique : UniqueIds peers)
    (h : applyChanges peers changes = some after) : UniqueIds after := by
  induction changes generalizing peers with
  | nil =>
      obtain rfl := Option.some.inj h
      exact hunique
  | cons change changes ih =>
      obtain ⟨peers', hchange, hrest⟩ := Option.bind_eq_some_iff.mp h
      exact ih (hunique.applyChange hchange) hrest

/-- Changes of strict ranges leave the other ones. -/
theorem nonStrict_applyChanges (hunique : UniqueIds peers)
    (h : applyChanges peers changes = some after)
    (hstrict : ∀ c ∈ changes, c.range.mode = .Strict) :
    nonStrict peers = nonStrict after := by
  induction changes generalizing peers with
  | nil =>
      obtain rfl := Option.some.inj h
      rfl
  | cons change changes ih =>
      obtain ⟨peers', hchange, hrest⟩ := Option.bind_eq_some_iff.mp h
      have hmode := hstrict change (by simp)
      rw [← ih (hunique.applyChange hchange) hrest fun c hc =>
        hstrict c (List.mem_cons_of_mem _ hc)]
      rcases applyChange_cases hchange with ⟨-, hmem, rfl⟩ | ⟨-, rfl⟩ | ⟨-, -, rfl⟩
      · rw [nonStrict, nonStrict, List.filter_filter]
        refine List.filter_congr fun r hr => ?_
        by_cases hid : r.id = change.range.id
        · obtain rfl := List.inj_on_of_nodup_map hunique hr hmem hid
          simp [hmode]
        · simp [hid]
      · rfl
      · simp [nonStrict, hmode]

end Applying

/-! ### When all affected entries are found -/

section Clean

variable (rangeHash : ReplicationRangeIndexable → String) (R : Resolution)
variable (engine : IndexEngine)

/-- An entry would not be assigned to a range boundary. -/
def WithinRanges (now : Nat) (peers : ReplicationIndex) (entry : EntryReplicated) : Prop :=
  shouldAssigneToRangeBoundary (some (getSamples 0 now R peers entry.points {} engine))
    entry.points.length = false

/-- A batch that takes the index of the state to `after`, and for which the shortcuts of
`toRebalance` are sound. -/
structure RebalanceSettled (s : RebalanceState) (changes : ChangesOrChangesArr)
    (after : ReplicationIndex) : Prop where
  /-- No removal is dropped that matters. -/
  dropsNothing : BatchDropsNothing rangeHash changes s.recentlyRebalanced
  /-- What a peer gives up and takes up in the batch cancels. -/
  cancels : ∀ hash point, InRemoved changes.flat hash point →
    InAdded changes.flat hash point →
      (hash ∈ ownersAt s.replicationIndex point ↔ hash ∈ ownersAt after point)
  /-- No entry is assigned wrongly. -/
  assigned : ∀ e ∈ s.entryCoordinatesIndex, e.assignedToRangeBoundary = false →
    WithinRanges R engine s.now s.replicationIndex e ∧ WithinRanges R engine s.now after e
  /-- When only strict ranges are left of the batch, it changes only these; and no range
  is dated ahead of the clock. -/
  strict :
    let merged := (mergeReplicationChanges rangeHash changes s.recentlyRebalanced).1
    merged ≠ [] → (∀ c ∈ merged, c.range.mode = .Strict) →
      (∀ c ∈ changes.flat, c.range.mode = .Strict) ∧
        ∀ r, r ∈ s.replicationIndex ∨ r ∈ after → isMatured r s.now 0 = true

/-- The steps of a clean run. -/
def RebalanceClean (s : RebalanceState) : RebalanceAction → Prop
  | .batch changes => ∀ after, applyChanges s.replicationIndex changes.flat = some after →
      RebalanceSettled rangeHash R engine s changes after
  | _ => True

variable {rangeHash R engine} {s : RebalanceState} {changes : ChangesOrChangesArr}
variable {peers after : ReplicationIndex} {e : EntryReplicated} {now : Nat}

/-- The leaders of an entry within ranges own ranges over its coordinates. -/
theorem mem_leadersOf_of_within (h : WithinRanges R engine now peers e) {hash : PeerHash} :
    hash ∈ leadersOf R engine now peers e ↔ ∃ point ∈ e.points, hash ∈ ownersAt peers point := by
  have hinv := samplesInv_samplesFrom 0 now R peers false e.points engine
  have hintersects : Intersects peers e.points hash ↔
      ∃ point ∈ e.points, hash ∈ ownersAt peers point := by
    simp only [Intersects, mem_ownersAt]
    constructor
    · rintro ⟨range, hmem, hhash, point, hpoint, hcontains⟩
      exact ⟨point, hpoint, range, hmem, hhash, hcontains⟩
    · rintro ⟨point, hpoint, range, hmem, hhash, hcontains⟩
      exact ⟨range, hmem, hhash, point, hpoint, hcontains⟩
  rw [leadersOf, List.mem_toFinset, ← hintersects]
  constructor
  · intro hhash
    exact (hinv.marks hash true (get_of_not_assigned h hhash)).mp rfl
  · exact hinv.found hash

variable (hunique : UniqueIds s.replicationIndex)
variable (happart : ∀ c ∈ changes.flat, c.range.SegmentsApart)
variable (happly : applyChanges s.replicationIndex changes.flat = some after)
variable (hsettled : RebalanceSettled rangeHash R engine s changes after)

include hunique happart happly hsettled

/-- Away from the merged changes the same peers own ranges before and after. -/
theorem ownersAt_eq_of_uncovered {point : Nat}
    (huncovered : ∀ c ∈ (mergeReplicationChanges rangeHash changes
      s.recentlyRebalanced).1, c.range.contains point = false) :
    ownersAt s.replicationIndex point = ownersAt after point := by
  have hkept := hsettled.dropsNothing.noLostRebalance happart
  ext hash
  have hnone : ¬ InSome (mergeReplicationChanges rangeHash changes
      s.recentlyRebalanced).1 hash point := by
    rintro ⟨c, hc, -, hcontains⟩
    rw [huncovered c hc] at hcontains
    cases hcontains
  obtain ⟨hremoved, hadded⟩ := hkept hash point
  by_cases hin : InRemoved changes.flat hash point
  · by_cases hin' : InAdded changes.flat hash point
    · exact hsettled.cancels hash point hin hin'
    · exact absurd (hremoved hin hin') hnone
  · by_cases hin' : InAdded changes.flat hash point
    · exact absurd (hadded hin' hin) hnone
    · exact mem_ownersAt_applyChanges hunique happly hin hin'

/-- An entry that is not yielded has the leaders that it had. -/
theorem leadersOf_eq_of_not_yielded (he : e ∈ s.entryCoordinatesIndex)
    (hnot : e ∉ (toRebalance rangeHash changes s.entryCoordinatesIndex
      s.recentlyRebalanced).1) :
    leadersOf R engine s.now s.replicationIndex e = leadersOf R engine s.now after e := by
  simp only [toRebalance, List.mem_filter, he, true_and, Bool.or_eq_true, not_or,
    Bool.not_eq_true] at hnot
  obtain ⟨huncovered, hboundary⟩ := hnot
  have howners : ∀ point ∈ e.points,
      ownersAt s.replicationIndex point = ownersAt after point := by
    intro point hpoint
    refine ownersAt_eq_of_uncovered hunique happart happly hsettled fun c hc => ?_
    rw [List.any_eq_false] at huncovered
    rw [← Bool.not_eq_true]
    exact fun hcontains => huncovered c hc
      (EntryReplicated.inRange_iff.mpr ⟨point, hpoint, hcontains⟩)
  cases hassigned : e.assignedToRangeBoundary with
  | false =>
      obtain ⟨hbefore, hafter⟩ := hsettled.assigned e he hassigned
      ext hash
      rw [mem_leadersOf_of_within hbefore, mem_leadersOf_of_within hafter]
      exact exists_congr fun point => and_congr_right fun hpoint => by
        rw [howners point hpoint]
  | true =>
      -- the batch was left to its strict ranges
      rw [hassigned, Bool.and_true, Bool.or_eq_false_iff, Bool.not_eq_false',
        decide_eq_false_iff_not, List.all_eq_true] at hboundary
      obtain ⟨hall, hsome⟩ := hboundary
      obtain ⟨hstrict, hmatured⟩ := hsettled.strict
        (fun hnil => hsome (by rw [hnil]; rfl)) fun c hc => of_decide_eq_true (hall c hc)
      have hempty : SamplesState.empty.Same .empty := ⟨rfl, rfl, rfl⟩
      have hsame := same_samplesFrom R engine (i := 0)
        (nonStrict_applyChanges hunique happly hstrict) howners
        (fun _ _ r hr _ => hmatured r (.inl hr)) (fun _ _ r hr _ => hmatured r (.inr hr))
        hempty
      exact hsame.known

end Clean

/-! ### Runs -/

section Runs

variable {rangeHash : ReplicationRangeIndexable → String} {R : Resolution}
variable {engine : IndexEngine} {clock : Nat → Int} {s s' : RebalanceState} {a : RebalanceAction}

/-- The ids in the replication index differ, and the last batch has found what it
affected. -/
structure RebalanceInv (R : Resolution) (engine : IndexEngine) (s : RebalanceState) : Prop where
  unique : UniqueIds s.replicationIndex
  finds : FindsAffected R engine s

theorem RebalanceInv.step (h : RebalanceInv R engine s)
    (hclean : RebalanceClean rangeHash R engine s a)
    (hstep : rebalanceStep rangeHash R engine s a = some s') : RebalanceInv R engine s' := by
  cases a with
  | tick now =>
      rw [rebalanceStep] at hstep
      split at hstep
      · obtain rfl := Option.some.inj hstep
        exact ⟨h.unique, h.finds⟩
      · cases hstep
  | append hash next coordinates roleAge uniqueReplicators =>
      obtain rfl := Option.some.inj hstep
      exact ⟨h.unique, h.finds⟩
  | batch changes =>
      rw [rebalanceStep] at hstep
      split at hstep
      · rename_i happart
        obtain ⟨after, happly, rfl⟩ := Option.map_eq_some_iff.mp hstep
        refine ⟨h.unique.applyChanges happly, ?_⟩
        rintro batch hbatch e he hdiffers
        obtain rfl := Option.some.inj hbatch
        by_contra hnot
        exact hdiffers (leadersOf_eq_of_not_yielded h.unique happart happly
          (hclean after happly) he hnot)
      · cases hstep

theorem rebalanceInv_init : RebalanceInv R engine (rebalancing rangeHash R engine clock).init :=
  ⟨List.nodup_nil, fun _ hbatch => (nomatch hbatch)⟩

/-- **A clean run always finds all affected entries.** -/
theorem findsAffected_of_cleanRun
    (hrun : (rebalancing rangeHash R engine clock).Run (RebalanceClean rangeHash R engine) s) :
    FindsAffected R engine s :=
  (hrun.invariant rebalanceInv_init fun _ _ _ h hclean hstep => h.step hclean hstep).finds

/-- A batch of one addition that is not strict is clean unless an entry is assigned
wrongly. -/
theorem rebalanceClean_single {change : ReplicationChange} (hadded : change.isRemoval = false)
    (hmode : change.range.mode = .NonStrict)
    (hassigned : ∀ after, applyChange s.replicationIndex change = some after →
      ∀ e ∈ s.entryCoordinatesIndex, e.assignedToRangeBoundary = false →
        WithinRanges R engine s.now s.replicationIndex e ∧ WithinRanges R engine s.now after e) :
    RebalanceClean rangeHash R engine s (.batch (.one [change])) := by
  intro after happly
  obtain ⟨peers, hchange, hrest⟩ := Option.bind_eq_some_iff.mp happly
  obtain rfl := Option.some.inj hrest
  have hmerged : (mergeReplicationChanges rangeHash (.one [change])
      s.recentlyRebalanced).1 = [change] := by
    simp [mergeReplicationChanges, ChangesOrChangesArr.flat, groupByHash, pushToGroup,
      mergeGroups, mergeGroup]
  constructor
  case dropsNothing =>
    intro before hash v rest hsplit c point hdropped _
    have hv : (hash, v) ∈ groupByHash [change] := by
      rw [show groupByHash [change] = _ from hsplit]
      simp
    obtain ⟨-, rfl⟩ := Prod.mk.inj (List.mem_singleton.mp hv)
    simp [groupFates, hadded] at hdropped
  case cancels =>
    rintro hash point ⟨c, hc, -, hremoval, -⟩
    rw [List.mem_singleton.mp hc, hadded] at hremoval
    cases hremoval
  case assigned => exact hassigned _ hchange
  case strict =>
    intro merged _ hstrict
    have hmem : change ∈ merged := by
      rw [show merged = [change] from hmerged]
      exact List.mem_singleton_self change
    rw [hstrict change hmem] at hmode
    cases hmode

end Runs

/-! ### A stale assignment -/

namespace StaleBoundary

/-- Ten points, owned by a peer. -/
def tenFrom (hash : PeerHash) (start : Nat) : ReplicationRangeIndexable where
  id := hash
  hash := hash
  timestamp := 0
  start1 := start
  end1 := start + 10
  start2 := start
  end2 := start + 10
  width := 10
  mode := .NonStrict

def added (hash : PeerHash) (start : Nat) : ReplicationChange :=
  { type := .added false, range := tenFrom hash start, timestamp := 0 }

def removed (hash : PeerHash) (start : Nat) : ReplicationChange :=
  { type := .removed, range := tenFrom hash start, timestamp := 0 }

/-- The entry is led by `a`, which owns a range over it, when it is appended. -/
def appended : List RebalanceAction :=
  [.batch (.one [added "a" 0, added "b" 100]), .append "e" [] [5] 0 []]

/-- When `a` has left, the entry is led by `b`, and then by `c`, which comes closer. -/
def comesCloser : List RebalanceAction :=
  [.batch (.one [removed "a" 0]), .batch (.one [added "c" 20])]

def machine (engine : IndexEngine) : Machine RebalanceState RebalanceAction :=
  rebalancing (fun r => r.id) .u32 engine (fun _ => 0)

def entry : EntryReplicated where
  hash := "e"
  coordinates := [5]
  assignedToRangeBoundary := false

theorem not_findsAffected :
    (¬ ∀ s, (machine .simple).Run Machine.Free s → FindsAffected .u32 .simple s) ∧
      ¬ ∀ s, (machine .sqlite3).Run Machine.Free s → FindsAffected .u32 .sqlite3 s := by
  have hmissed (engine : IndexEngine) :
      ¬ ∀ s, (machine engine).Run Machine.Free s → FindsAffected .u32 engine s := by
    intro h
    have hexec : ((machine engine).exec (machine engine).init
        (appended ++ comesCloser)).map (fun s =>
          s.last.map (fun batch => (batch.entries, batch.yielded,
            (getSamples 0 batch.now .u32 batch.before entry.points {} engine).keys,
            (getSamples 0 batch.now .u32 batch.after entry.points {} engine).keys))) =
        some (some ([entry], [], ["b"], ["c"])) := by
      cases engine <;> decide +kernel
    obtain ⟨s, hexec, hs⟩ := Option.map_eq_some_iff.mp hexec
    obtain ⟨batch, hlast, hbatch⟩ := Option.map_eq_some_iff.mp hs
    simp only [Prod.mk.injEq] at hbatch
    obtain ⟨hentries, hyielded, hbefore, hafter⟩ := hbatch
    have hfinds := h s (Machine.Run.of_exec .init _ hexec) batch hlast entry
      (by rw [hentries]; simp)
      (by rw [leadersOf, leadersOf, hbefore, hafter]; decide)
    rw [hyielded] at hfinds
    cases hfinds
  exact ⟨hmissed .simple, hmissed .sqlite3⟩

/-- While `a` stays, another peer may come close. -/
theorem findsAffected_covered :
    ∃ s, (machine .sqlite3).Run (RebalanceClean (fun r => r.id) .u32 .sqlite3) s ∧
      s.last.isSome = true ∧ FindsAffected .u32 .sqlite3 s := by
  let first : RebalanceAction := .batch (.one [added "a" 0])
  let second : RebalanceAction := .append "e" [] [5] 0 []
  let third : RebalanceAction := .batch (.one [added "c" 20])
  have hexec : (((machine .sqlite3).exec (machine .sqlite3).init [first, second, third]).map
      (fun s => s.last.isSome)) = some true := by
    decide +kernel
  have hstate : (((machine .sqlite3).exec (machine .sqlite3).init [first, second]).map
      (fun s => (s.now, s.replicationIndex, s.entryCoordinatesIndex))) =
        some (0, [tenFrom "a" 0], [entry]) := by
    decide +kernel
  obtain ⟨s, hexec, hlast⟩ := Option.map_eq_some_iff.mp hexec
  obtain ⟨s₁, hfirst, hexec⟩ := Option.bind_eq_some_iff.mp hexec
  obtain ⟨s₂, hsecond, hexec⟩ := Option.bind_eq_some_iff.mp hexec
  obtain ⟨s₃, hthird, hexec⟩ := Option.bind_eq_some_iff.mp hexec
  obtain rfl := Option.some.inj hexec
  simp only [Machine.exec, hfirst, hsecond, Option.bind_some, Option.map_some,
    Option.some.injEq, Prod.mk.injEq] at hstate
  obtain ⟨hnow, hindex, hentries⟩ := hstate
  have happend : RebalanceClean (fun r => r.id) .u32 .sqlite3 s₁ second := trivial
  have hrun : (machine .sqlite3).Run (RebalanceClean (fun r => r.id) .u32 .sqlite3) s₃ := by
    refine .step (.step (.step .init ?_ hfirst) happend hsecond) ?_ hthird
    · exact rebalanceClean_single rfl rfl fun after _ e he => (nomatch he)
    · refine rebalanceClean_single rfl rfl fun after hafter e he _ => ?_
      rw [hindex] at hafter
      obtain rfl : [tenFrom "a" 0, tenFrom "c" 20] = after :=
        Option.some.inj ((show some _ = _ by decide +kernel : some _ =
          applyChange [tenFrom "a" 0] (added "c" 20)).trans hafter)
      rw [hentries] at he
      rw [List.mem_singleton.mp he, hnow, hindex, WithinRanges, WithinRanges]
      decide +kernel
  exact ⟨s₃, hrun, hlast, findsAffected_of_cleanRun hrun⟩

end StaleBoundary

end SharedLog
end Peerbit
