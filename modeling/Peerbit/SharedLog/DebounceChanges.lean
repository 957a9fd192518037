import Peerbit.Lib.KeyedMaxima
import Peerbit.SharedLog.MergeChanges

/-!
# Debounced replication changes

The changes of the replication index are collected for a while before the
entries under them are looked at again.  `debounceAggregationChanges` keeps one
change for each range id: the first of those whose range has the greatest
timestamp.

An update of a range comes as two changes with one id, the old range as
"replaced" and the new one as "added".  The new range is the younger one, so
that the old one is not handed on (`replaced_not_prevails`).
-/

namespace Peerbit
namespace SharedLog

open Lib

namespace ReplicationChange

/-- `type === "added"`. -/
def isAdded (change : ReplicationChange) : Bool :=
  !change.isRemoval

end ReplicationChange

/-- The changes of `addReplicationRange` without `reset`: `existingMap` holds
the ranges of the index that have the id of one that is added. -/
def changesOfRanges (existingMap : String → Option ReplicationRangeIndexable)
    (ranges : List ReplicationRangeIndexable) : List ReplicationChange :=
  ranges.flatMap fun x =>
    match existingMap x.id with
    | some prev =>
        if prev.equalRange x then []
        else
          [{ type := .replaced, range := prev, timestamp := x.timestamp - 1 },
            { type := .added false, range := x, timestamp := x.timestamp }]
    | none => [{ type := .added false, range := x, timestamp := x.timestamp }]

/-- The accumulator between two calls of the callback. -/
structure DebouncedChanges where
  aggregated : InsertionMap String ReplicationChange

namespace DebouncedChanges

def create : DebouncedChanges where
  aggregated := .empty

def add (s : DebouncedChanges) (change : ReplicationChange) :
    DebouncedChanges where
  aggregated :=
    match s.aggregated.get change.range.id with
    | some prev =>
        if prev.range.timestamp < change.range.timestamp then
          s.aggregated.set change.range.id change
        else s.aggregated
    | none => s.aggregated.set change.range.id change

/-- `invoke`: what the callback is called with, if it is called, and the
accumulator from then on. -/
def invoke (s : DebouncedChanges) :
    Option (List ReplicationChange) × DebouncedChanges :=
  (if s.aggregated.keys.length = 0 then none
    else some (s.aggregated.entries.map (fun e => e.2)),
    create)

/-- A batch: the changes that come in between two flushes. -/
def feed (fed : List ReplicationChange) : DebouncedChanges :=
  fed.foldl add create

/-- The change is handed to the callback by the flush. -/
def Hands (s : DebouncedChanges) (change : ReplicationChange) : Prop :=
  ∃ changes, s.invoke.1 = some changes ∧ change ∈ changes

theorem hands_iff {s : DebouncedChanges} {change : ReplicationChange} :
    s.Hands change ↔ ∃ key, s.aggregated.get key = some change := by
  constructor
  · rintro ⟨changes, hcalled, hmem⟩
    rw [invoke] at hcalled
    split at hcalled
    · exact (nomatch hcalled)
    · obtain rfl := Option.some.inj hcalled
      obtain ⟨⟨key, value⟩, hentry, rfl⟩ := List.mem_map.mp hmem
      exact ⟨key, InsertionMap.mem_entries.mp hentry⟩
  · rintro ⟨key, hget⟩
    have hkey : key ∈ s.aggregated.keys := by
      rw [s.aggregated.mem_keys, hget]
      rfl
    refine ⟨s.aggregated.entries.map (fun e => e.2), ?_, List.mem_map.mpr
      ⟨(key, change), InsertionMap.mem_entries.mpr hget, rfl⟩⟩
    rw [invoke, if_neg (by simpa using List.ne_nil_of_mem hkey)]

end DebouncedChanges

/-- No change of the same range id has a younger range, and none that came
before has a range as young. -/
def Prevails : List ReplicationChange → ReplicationChange →
    List ReplicationChange → Prop :=
  FirstGreatest (fun c : ReplicationChange => c.range.id)
    (fun c => c.range.timestamp)

namespace DebouncedChanges

theorem aggregated_add (s : DebouncedChanges) (change : ReplicationChange) :
    (s.add change).aggregated =
      keepGreater (fun c : ReplicationChange => c.range.id)
        (fun c => c.range.timestamp) s.aggregated change := by
  cases hprev : s.aggregated.get change.range.id with
  | none => simp [add, keepGreater, hprev]
  | some prev => simp [add, keepGreater, hprev]

theorem aggregated_foldl (s : DebouncedChanges) (fed : List ReplicationChange) :
    (fed.foldl add s).aggregated =
      fed.foldl
        (keepGreater (fun c : ReplicationChange => c.range.id)
          (fun c => c.range.timestamp))
        s.aggregated := by
  induction fed generalizing s with
  | nil => rfl
  | cons change fed ih =>
      rw [List.foldl_cons, List.foldl_cons, ih, aggregated_add]

/-- **What a flush hands on**: the changes that prevail. -/
theorem hands_feed_iff {fed : List ReplicationChange} {c : ReplicationChange} :
    (feed fed).Hands c ↔
      ∃ before after, fed = before ++ c :: after ∧ Prevails before c after := by
  rw [hands_iff, feed, aggregated_foldl]
  constructor
  · rintro ⟨key, hget⟩
    exact (get_foldl_keepGreater.mp hget).2
  · intro h
    exact ⟨c.range.id, get_foldl_keepGreater.mpr ⟨rfl, h⟩⟩

end DebouncedChanges

/-- The points a change is about, given what is fed after it: those of a range
that goes, where its peer adds nothing later on, and those of a range that
comes, if it is the last one of its id and not removed. -/
def groundOf (change : ReplicationChange) (after : List ReplicationChange) :
    Set Nat :=
  {p | change.range.contains p = true ∧
    if change.isRemoval then
      ∀ later ∈ after, later.isAdded →
        later.range.hash = change.range.hash → ¬ later.range.contains p
    else
      ∀ later ∈ after, later.range.id = change.range.id →
        later.isAdded = false ∧ later.type ≠ .removed}

/-- Every point that a fed change is about lies in the range of a change that
is handed to the callback. -/
def KeepsGround (fed : List ReplicationChange) : Prop :=
  ∀ before change after, fed = before ++ change :: after →
    ∀ p ∈ groundOf change after,
      ∃ handed, (DebouncedChanges.feed fed).Hands handed ∧
        handed.range.contains p = true

/-- Every point that a change is about which does not prevail lies in the
range of one that does. -/
def GroundOfOthersHeld (fed : List ReplicationChange) : Prop :=
  ∀ before change after, fed = before ++ change :: after →
    ¬ Prevails before change after →
    ∀ p ∈ groundOf change after,
      ∃ before' other after', fed = before' ++ other :: after' ∧
        Prevails before' other after' ∧ other.range.contains p = true

/-- **When debounced changes keep every affected point**: exactly when the
changes that do not prevail are about points which changes that prevail have in
their ranges. -/
theorem keepsGround_iff (fed : List ReplicationChange) :
    KeepsGround fed ↔ GroundOfOthersHeld fed := by
  constructor
  · intro h before change after hfed _ p hp
    obtain ⟨handed, hhands, hcontains⟩ := h before change after hfed p hp
    obtain ⟨before', after', hfed', hprevails⟩ :=
      DebouncedChanges.hands_feed_iff.mp hhands
    exact ⟨before', handed, after', hfed', hprevails, hcontains⟩
  · intro h before change after hfed p hp
    by_cases hprevails : Prevails before change after
    · exact ⟨change,
        DebouncedChanges.hands_feed_iff.mpr ⟨before, after, hfed, hprevails⟩,
        hp.1⟩
    · obtain ⟨before', other, after', hfed', hother, hcontains⟩ :=
        h before change after hfed hprevails p hp
      exact ⟨other,
        DebouncedChanges.hands_feed_iff.mpr ⟨before', after', hfed', hother⟩,
        hcontains⟩

/-- The old range of an update never prevails over the younger new one. -/
theorem replaced_not_prevails
    {existingMap : String → Option ReplicationRangeIndexable}
    {x prev : ReplicationRangeIndexable}
    (hprev : existingMap x.id = some prev) (hid : prev.id = x.id)
    (hne : prev.equalRange x = false) (hnewer : prev.timestamp < x.timestamp) :
    ∃ replaced added,
      changesOfRanges existingMap [x] = [replaced, added] ∧
      replaced.range = prev ∧ replaced.isRemoval = true ∧
      ∀ before after, ¬ Prevails before replaced (added :: after) := by
  refine
    ⟨{ type := .replaced, range := prev, timestamp := x.timestamp - 1 },
      { type := .added false, range := x, timestamp := x.timestamp },
      by simp [changesOfRanges, hprev, hne], rfl, rfl, ?_⟩
  intro before after hprevails
  have hle := hprevails.2 _ List.mem_cons_self hid.symm
  simp only at hle
  omega

section Moved

/-- A range that an update moves from `[0, 10)` to `[100, 110)`. -/
def rangeAt (timestamp start : Nat) : ReplicationRangeIndexable where
  id := "r"
  hash := "peer"
  timestamp := timestamp
  start1 := start
  end1 := start + 10
  start2 := start
  end2 := start + 10
  width := 10
  mode := .NonStrict

/-- What the update of the range feeds. -/
def movedRange : List ReplicationChange :=
  changesOfRanges (fun _ => some (rangeAt 1 0)) [rangeAt 2 100]

theorem not_keepsGround_movedRange : ¬ KeepsGround movedRange := by
  intro h
  obtain ⟨handed, hhands, hcontains⟩ :=
    h [] { type := .replaced, range := rangeAt 1 0, timestamp := 1 }
      [{ type := .added false, range := rangeAt 2 100, timestamp := 2 }]
      rfl 5 ⟨by decide, by decide⟩
  obtain ⟨changes, hcalled, hmem⟩ := hhands
  have hchanges : changes =
      [{ type := .added false, range := rangeAt 2 100, timestamp := 2 }] :=
    (Option.some.inj hcalled).symm
  rw [hchanges, List.mem_singleton] at hmem
  subst hmem
  exact absurd hcontains (by decide)

end Moved

end SharedLog
end Peerbit
