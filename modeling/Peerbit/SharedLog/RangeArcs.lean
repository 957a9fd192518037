import Peerbit.Lib.RingArcs
import Peerbit.SharedLog.Ranges

/-!
# Ranges denote arcs of the ring

A range that is built from an offset and a width stands for the arc that starts
at the offset, with as many points as its width.  It is sent as its offset and
width again, and the receiver builds the range from these.

The offset may be the end of the ring, which is no point of it.  The arc starts
at zero then.  But the range of full width is empty there; and the test for an
overlap takes the last point of the ring for one of such a range.
-/

namespace Peerbit
namespace SharedLog

open Lib

/-- `ReplicationRangeMessageU32` and `...U64`. -/
structure ReplicationRangeMessage where
  id : String
  timestamp : Nat
  offset : Nat
  factor : Nat
  mode : ReplicationIntent
deriving Repr, DecidableEq

/-- `toReplicationRangeIndexable`. -/
def ReplicationRangeMessage.toReplicationRangeIndexable
    (R : Resolution) (message : ReplicationRangeMessage) (hashcode : PeerHash) :
    Option ReplicationRangeIndexable :=
  ReplicationRangeIndexable.construct R message.id hashcode message.timestamp
    message.mode message.offset message.factor

namespace ReplicationRangeIndexable

/-- `toReplicationRange`. -/
def toReplicationRange (range : ReplicationRangeIndexable) :
    ReplicationRangeMessage :=
  { id := range.id
    timestamp := range.timestamp
    offset := range.start1
    factor := range.width
    mode := range.mode }

/-- `contains(end - 1)`; nothing contains the point below zero. -/
def containsLast (range : ReplicationRangeIndexable) : Nat → Bool
  | 0 => false
  | point + 1 => range.contains point

/-- `overlaps` without `checkOther`. -/
def overlapsEnds (range other : ReplicationRangeIndexable) : Bool :=
  range.contains other.start1 || range.contains other.start2 ||
    range.containsLast other.end1 || range.containsLast other.end2

/-- `overlaps`. -/
def overlaps (range other : ReplicationRangeIndexable) : Bool :=
  range.overlapsEnds other || other.overlapsEnds range

/-- The points of the ring that a range contains. -/
def ringPoints (R : Resolution) (range : ReplicationRangeIndexable) : Finset Nat :=
  (Finset.range R.maxValue).filter (fun p => range.contains p = true)

end ReplicationRangeIndexable

/-! ### What a range is to denote -/

section Arcs

variable (R : Resolution)

/-- The range contains the points of the arc, it is as wide as these are many, and
it is the same for a receiver. -/
structure DenotesArc (offset width : Nat) (range : ReplicationRangeIndexable) :
    Prop where
  contains : ∀ p < R.maxValue, range.contains p = true ↔
    ((p : Int) - offset) % R.maxValue < width
  width : range.width = (range.ringPoints R).card
  roundTrip : ∀ hashcode, ∃ received,
    range.toReplicationRange.toReplicationRangeIndexable R hashcode = some received ∧
    ∀ p < R.maxValue, received.contains p = range.contains p

/-- Ranges of positive width overlap, in both orders, when they share a point. -/
def OverlapExact (range other : ReplicationRangeIndexable) : Prop :=
  0 < range.width → 0 < other.width →
    (range.overlaps other = true ↔
      ∃ p < R.maxValue, range.contains p = true ∧ other.contains p = true) ∧
    (other.overlaps range = true ↔
      ∃ p < R.maxValue, range.contains p = true ∧ other.contains p = true)

/-- An arc at the end of the ring, and one that ends there and does not reach back
to the points of the first. -/
def EndsBefore (offset width offset' width' : Nat) : Prop :=
  offset = R.maxValue ∧ 0 < width ∧ 0 < width' ∧ offset' + width' = R.maxValue ∧
    width ≤ offset'

end Arcs

/-! ### Points -/

section Points

variable {R : Resolution} {range other received : ReplicationRangeIndexable}
variable {id id' : String} {hash hash' : PeerHash} {timestamp timestamp' : Nat}
variable {mode mode' : ReplicationIntent} {offset width offset' width' p : Nat}

namespace ReplicationRangeIndexable

theorem mem_ringPoints :
    p ∈ range.ringPoints R ↔ p < R.maxValue ∧ range.contains p = true := by
  rw [ringPoints, Finset.mem_filter, Finset.mem_range]

/-- The range of full width at the end of the ring. -/
theorem construct_full (id : String) (hash : PeerHash) (timestamp : Nat)
    (mode : ReplicationIntent) :
    construct R id hash timestamp mode R.maxValue R.maxValue =
      some
        { id := id, hash := hash, timestamp := timestamp
          start1 := R.maxValue, end1 := R.maxValue
          start2 := 0, end2 := 0
          width := 0, mode := mode } := by
  cases R with
  | u32 => rfl
  | u64 => rfl

/-- What the constructor builds from an offset and a width of the ring. -/
theorem construct_cases (hoffset : offset ≤ R.maxValue) (hwidth : width ≤ R.maxValue)
    (h : construct R id hash timestamp mode offset width = some range) :
    (range.start1 = offset ∧ range.end1 = offset + width ∧ range.start2 = offset ∧
      range.end2 = offset + width ∧ range.width = width ∧
      offset + width ≤ R.maxValue) ∨
    (range.start1 = offset ∧ range.end1 = R.maxValue ∧ range.start2 = 0 ∧
      range.end2 = offset + width - R.maxValue ∧ range.width = width ∧
      R.maxValue < offset + width ∧ offset + width < 2 * R.maxValue) ∨
    (range.start1 = R.maxValue ∧ range.end1 = R.maxValue ∧ range.start2 = 0 ∧
      range.end2 = 0 ∧ range.width = 0 ∧ offset = R.maxValue ∧
      width = R.maxValue) := by
  rcases Nat.lt_or_ge R.maxValue (offset + width) with hover | hle
  · by_cases hboth : offset = R.maxValue ∧ width = R.maxValue
    · obtain ⟨rfl, rfl⟩ := hboth
      right
      right
      rw [construct_full] at h
      obtain rfl := Option.some.inj h
      exact ⟨rfl, rfl, rfl, rfl, rfl, rfl, rfl⟩
    · right
      left
      rw [construct_of_gt hoffset hwidth (by omega) hover] at h
      obtain rfl := Option.some.inj h
      exact ⟨rfl, rfl, rfl, rfl, rfl, hover, by omega⟩
  · left
    rw [construct_of_le hle] at h
    obtain rfl := Option.some.inj h
    exact ⟨rfl, rfl, rfl, rfl, rfl, hle⟩

theorem exists_construct (id : String) (hash : PeerHash) (timestamp : Nat)
    (mode : ReplicationIntent) (hoffset : offset ≤ R.maxValue)
    (hwidth : width ≤ R.maxValue)
    (hboth : ¬ (offset = R.maxValue ∧ width = R.maxValue)) :
    ∃ range, construct R id hash timestamp mode offset width = some range := by
  rcases Nat.lt_or_ge R.maxValue (offset + width) with hover | hle
  · exact ⟨_, construct_of_gt hoffset hwidth (by omega) hover⟩
  · exact ⟨_, construct_of_le hle⟩

/-- The points are those of the arc, unless the range has the width of the ring and
is at its end. -/
theorem ringPoints_eq_arc (hoffset : offset ≤ R.maxValue)
    (hwidth : width ≤ R.maxValue)
    (h : construct R id hash timestamp mode offset width = some range)
    (hboth : ¬ (offset = R.maxValue ∧ width = R.maxValue)) :
    range.ringPoints R = arc R.maxValue offset width ∧ range.width = width := by
  rcases construct_cases hoffset hwidth h with
    ⟨hs1, he1, hs2, he2, hw, hle⟩ | ⟨hs1, he1, hs2, he2, hw, hover, -⟩ |
      ⟨-, -, -, -, -, ho, hw⟩
  · refine ⟨?_, hw⟩
    ext p
    rw [mem_ringPoints, contains_iff, mem_arc_of_le hle, hs1, he1, hs2, he2]
    omega
  · refine ⟨?_, hw⟩
    ext p
    rw [mem_ringPoints, contains_iff, mem_arc_of_gt hoffset hover, hs1, he1, hs2, he2]
    omega
  · exact absurd ⟨ho, hw⟩ hboth

end ReplicationRangeIndexable

open ReplicationRangeIndexable

theorem denotesArc_of_construct (hoffset : offset ≤ R.maxValue)
    (hwidth : width ≤ R.maxValue)
    (h : construct R id hash timestamp mode offset width = some range)
    (hboth : ¬ (offset = R.maxValue ∧ width = R.maxValue)) :
    DenotesArc R offset width range := by
  obtain ⟨hpoints, hwidthEq⟩ := ringPoints_eq_arc hoffset hwidth h hboth
  have hmem : ∀ p, (p < R.maxValue ∧ range.contains p = true) ↔
      p ∈ arc R.maxValue offset width := fun p => by
    rw [← hpoints, mem_ringPoints]
  constructor
  case contains =>
    intro p hp
    have hiff := hmem p
    rw [mem_arc] at hiff
    tauto
  case width => rw [hpoints, hwidthEq, card_arc hoffset hwidth]
  case roundTrip =>
    intro hashcode
    obtain ⟨received, hreceived⟩ := exists_construct range.id hashcode range.timestamp
      range.mode hoffset hwidth hboth
    refine ⟨received, ?_, fun p hp => ?_⟩
    · rw [ReplicationRangeMessage.toReplicationRangeIndexable, toReplicationRange,
        (fields_of_construct h).2.2.2.2, hwidthEq]
      exact hreceived
    · have hsame : p ∈ received.ringPoints R ↔ p ∈ range.ringPoints R := by
        rw [(ringPoints_eq_arc hoffset hwidth hreceived hboth).1, hpoints]
      rw [mem_ringPoints, mem_ringPoints, and_iff_right hp, and_iff_right hp] at hsame
      exact Bool.eq_iff_iff.mpr hsame

/-- At the end of the ring the range of full width is empty. -/
theorem not_denotesArc_of_full
    (h : construct R id hash timestamp mode R.maxValue R.maxValue = some range) :
    ¬ DenotesArc R R.maxValue R.maxValue range := by
  have hpos := R.maxValue_pos
  intro hdenotes
  have hzero := (hdenotes.contains 0 hpos).mpr (Int.emod_lt_of_pos _ (by omega))
  rw [contains_iff] at hzero
  rcases construct_cases (Nat.le_refl _) (Nat.le_refl _) h with h | h | h
  · omega
  · omega
  · omega

/-! ### Overlaps -/

/-- Both segments have points. -/
def BothSegments (range : ReplicationRangeIndexable) : Prop :=
  range.start1 < range.end1 ∧ range.start2 < range.end2

theorem exists_last {end_ : Nat} (h : range.containsLast end_ = true) :
    ∃ p, end_ = p + 1 ∧ range.contains p = true := by
  cases end_ with
  | zero => cases h
  | succ p => exact ⟨p, rfl, h⟩

/-- The ends of a range are points of it. -/
theorem BothSegments.exists_shared (hother : BothSegments other)
    (h : range.overlapsEnds other = true) :
    ∃ p, range.contains p = true ∧ other.contains p = true := by
  obtain ⟨hfirst, hsecond⟩ := hother
  simp only [overlapsEnds, Bool.or_eq_true] at h
  rcases h with ((h | h) | h) | h
  · exact ⟨_, h, (contains_iff _ _).mpr (.inl ⟨Nat.le_refl _, hfirst⟩)⟩
  · exact ⟨_, h, (contains_iff _ _).mpr (.inr ⟨Nat.le_refl _, hsecond⟩)⟩
  · obtain ⟨p, hp, hcontains⟩ := exists_last h
    exact ⟨p, hcontains, (contains_iff _ _).mpr (.inl (by omega))⟩
  · obtain ⟨p, hp, hcontains⟩ := exists_last h
    exact ⟨p, hcontains, (contains_iff _ _).mpr (.inr (by omega))⟩

/-- Of two segments that share a point, one contains the start of the other. -/
theorem overlaps_of_shared (hrange : range.contains p = true)
    (hother : other.contains p = true) : range.overlaps other = true := by
  rw [contains_iff] at hrange hother
  simp only [overlaps, overlapsEnds, Bool.or_eq_true, contains_iff]
  omega

variable (range other) in
theorem overlaps_comm : range.overlaps other = other.overlaps range :=
  Bool.or_comm _ _

theorem lt_of_contains
    (h : construct R id hash timestamp mode offset width = some range)
    (hp : range.contains p = true) : p < R.maxValue := by
  rw [contains_iff] at hp
  cases shape_of_construct h with
  | single => omega
  | wrapping => omega

/-- A range of positive width at the end of the ring. -/
def AtEnd (R : Resolution) (range : ReplicationRangeIndexable) : Prop :=
  range.start1 = R.maxValue ∧ range.end1 = R.maxValue ∧ range.start2 = 0 ∧
    0 < range.end2

/-- A range of positive width has points in both segments, but at the end of the
ring. -/
theorem bothSegments_or_atEnd (hoffset : offset ≤ R.maxValue)
    (hwidth : width ≤ R.maxValue)
    (h : construct R id hash timestamp mode offset width = some range)
    (hpos : 0 < range.width) :
    offset < R.maxValue ∧ BothSegments range ∨
      offset = R.maxValue ∧ range.end2 = width ∧ AtEnd R range := by
  simp only [BothSegments, AtEnd]
  rcases construct_cases hoffset hwidth h with h | h | h
  · omega
  · omega
  · omega

/-- When both ranges have points in both segments, the test is exact. -/
theorem overlapExact_of_bothSegments
    (hin : ∀ p, range.contains p = true → p < R.maxValue)
    (hrange : BothSegments range) (hother : BothSegments other) :
    OverlapExact R range other := by
  intro _ _
  rw [overlaps_comm other, and_self]
  constructor
  · intro h
    rcases Bool.or_eq_true_iff.mp h with h | h
    · obtain ⟨p, hp, hp'⟩ := hother.exists_shared h
      exact ⟨p, hin p hp, hp, hp'⟩
    · obtain ⟨p, hp', hp⟩ := hrange.exists_shared h
      exact ⟨p, hin p hp, hp, hp'⟩
  · rintro ⟨p, -, hp, hp'⟩
    exact overlaps_of_shared hp hp'

/-- The last point of the ring passes for one of a range at its end. -/
theorem AtEnd.overlapsEnds_iff (h : AtEnd R range)
    (hin : ∀ p, other.contains p = true → p < R.maxValue) :
    other.overlapsEnds range = true ↔
      other.contains 0 = true ∨ other.contains (R.maxValue - 1) = true ∨
        other.contains (range.end2 - 1) = true := by
  obtain ⟨hstart1, hend1, hstart2, hend2⟩ := h
  have hpos := R.maxValue_pos
  have hmax : other.containsLast R.maxValue = other.contains (R.maxValue - 1) := by
    cases R <;> rfl
  have hlast : other.containsLast range.end2 = other.contains (range.end2 - 1) := by
    obtain ⟨n, hn⟩ := Nat.exists_eq_add_of_lt hend2
    rw [hn]
    rfl
  have hnot : other.contains R.maxValue ≠ true := fun hcontains =>
    absurd (hin _ hcontains) (Nat.lt_irrefl _)
  simp only [overlapsEnds, Bool.or_eq_true, hstart1, hend1, hstart2, hmax, hlast, hnot,
    Bool.false_eq_true, false_or, or_assoc]

/-- A range at the end of the ring, and one that is not there. -/
theorem AtEnd.overlapExact_iff (h : AtEnd R range) (hother : BothSegments other)
    (hin : ∀ p, other.contains p = true → p < R.maxValue)
    (hpos : 0 < range.width) (hpos' : 0 < other.width) :
    OverlapExact R range other ↔
      (other.contains (R.maxValue - 1) = true →
        ∃ p < R.maxValue, range.contains p = true ∧ other.contains p = true) := by
  have hends := h.overlapsEnds_iff hin
  obtain ⟨-, -, hstart2, hend2⟩ := h
  have hmem : ∀ p < range.end2, range.contains p = true := fun p hp =>
    (contains_iff _ _).mpr (.inr ⟨by omega, hp⟩)
  simp only [OverlapExact, hpos, hpos', true_imp_iff, overlaps_comm other,
    and_self]
  constructor
  · intro hexact hlast
    refine hexact.mp (Bool.or_eq_true_iff.mpr (.inr ?_))
    exact hends.mpr (.inr (.inl hlast))
  · intro hlast
    constructor
    · intro hoverlaps
      rcases Bool.or_eq_true_iff.mp hoverlaps with hoverlaps | hoverlaps
      · obtain ⟨p, hp, hp'⟩ := hother.exists_shared hoverlaps
        exact ⟨p, hin p hp', hp, hp'⟩
      · rcases hends.mp hoverlaps with hzero | hmax | hend
        · exact ⟨0, hin 0 hzero, hmem 0 hend2, hzero⟩
        · exact hlast hmax
        · exact ⟨_, hin _ hend, hmem _ (by omega), hend⟩
    · rintro ⟨p, -, hp, hp'⟩
      exact overlaps_of_shared hp hp'

/-- Where the test is wrong: the other range ends where this one is, and does not
reach back to its points. -/
theorem AtEnd.endsBefore_iff (h : AtEnd R range) (hend : range.end2 = width)
    (hoffset : offset = R.maxValue) (hother : BothSegments other)
    (hoffset' : offset' ≤ R.maxValue) (hwidth' : width' ≤ R.maxValue)
    (h' : construct R id' hash' timestamp' mode' offset' width' = some other) :
    EndsBefore R offset width offset' width' ↔
      other.contains (R.maxValue - 1) = true ∧
        ¬ ∃ p < R.maxValue, range.contains p = true ∧ other.contains p = true := by
  have hpos := R.maxValue_pos
  obtain ⟨hstart1, hend1, hstart2, hend2⟩ := h
  obtain ⟨hfirst, hsecond⟩ := hother
  simp only [EndsBefore, contains_iff]
  rcases construct_cases hoffset' hwidth' h' with
    ⟨hs1, he1, hs2, he2, -, hle⟩ | ⟨hs1, he1, hs2, he2, -, hover, -⟩ |
      ⟨hs1, he1, -, -, -, -, -⟩
  · constructor
    · rintro ⟨-, hpos, hpos', hsum, hbefore⟩
      refine ⟨by omega, ?_⟩
      rintro ⟨p, hp, hrange, hother⟩
      omega
    · rintro ⟨hlast, hnone⟩
      refine ⟨hoffset, by omega, by omega, by omega, ?_⟩
      by_contra hreach
      exact hnone ⟨offset', by omega, by omega, by omega⟩
  · constructor
    · rintro ⟨-, -, -, hsum, -⟩
      omega
    · rintro ⟨-, hnone⟩
      exact absurd ⟨0, hpos, by omega, by omega⟩ hnone
  · omega

end Points

/-! ### When ranges denote arcs -/

section Exact

variable {R : Resolution} {range other : ReplicationRangeIndexable}
variable {id id' : String} {hash hash' : PeerHash} {timestamp timestamp' : Nat}
variable {mode mode' : ReplicationIntent} {offset width offset' width' : Nat}

open ReplicationRangeIndexable

theorem OverlapExact.symm (h : OverlapExact R range other) :
    OverlapExact R other range := by
  intro hpos hpos'
  obtain ⟨hexact, hexact'⟩ := h hpos' hpos
  have hswap : (∃ p < R.maxValue, range.contains p = true ∧ other.contains p = true) ↔
      ∃ p < R.maxValue, other.contains p = true ∧ range.contains p = true := by
    simp only [and_comm]
  exact ⟨hexact'.trans hswap, hexact.trans hswap⟩

theorem overlapExact_comm : OverlapExact R range other ↔ OverlapExact R other range :=
  ⟨OverlapExact.symm, OverlapExact.symm⟩

theorem overlapExact_iff_of_atEnd (hoffset' : offset' ≤ R.maxValue)
    (hwidth' : width' ≤ R.maxValue)
    (h' : construct R id' hash' timestamp' mode' offset' width' = some other)
    (hatEnd : AtEnd R range) (hend : range.end2 = width) (hoffset : offset = R.maxValue)
    (hother : BothSegments other) (hpos : 0 < range.width) (hpos' : 0 < other.width) :
    OverlapExact R range other ↔ ¬ EndsBefore R offset width offset' width' := by
  rw [hatEnd.overlapExact_iff hother (fun _ hp => lt_of_contains h' hp) hpos hpos',
    hatEnd.endsBefore_iff hend hoffset hother hoffset' hwidth' h', not_and, not_not]

/-- When the test for an overlap is exact. -/
theorem overlapExact_iff (hoffset : offset ≤ R.maxValue) (hwidth : width ≤ R.maxValue)
    (h : construct R id hash timestamp mode offset width = some range)
    (hoffset' : offset' ≤ R.maxValue) (hwidth' : width' ≤ R.maxValue)
    (h' : construct R id' hash' timestamp' mode' offset' width' = some other)
    (hpos : 0 < range.width) (hpos' : 0 < other.width) :
    OverlapExact R range other ↔
      ¬ EndsBefore R offset width offset' width' ∧
        ¬ EndsBefore R offset' width' offset width := by
  have hnot : ∀ {o w o' w' : Nat}, o < R.maxValue → ¬ EndsBefore R o w o' w' :=
    fun hlt hends => absurd hends.1 (Nat.ne_of_lt hlt)
  rcases bothSegments_or_atEnd hoffset hwidth h hpos with
    ⟨hlt, hboth⟩ | ⟨hmax, hend, hatEnd⟩
  · rcases bothSegments_or_atEnd hoffset' hwidth' h' hpos' with
      ⟨hlt', hboth'⟩ | ⟨hmax', hend', hatEnd'⟩
    · exact iff_of_true
        (overlapExact_of_bothSegments (fun _ hp => lt_of_contains h hp) hboth hboth')
        ⟨hnot hlt, hnot hlt'⟩
    · rw [overlapExact_comm, overlapExact_iff_of_atEnd hoffset hwidth h hatEnd' hend' hmax'
        hboth hpos' hpos, and_iff_right (hnot hlt)]
  · rcases bothSegments_or_atEnd hoffset' hwidth' h' hpos' with
      ⟨hlt', hboth'⟩ | ⟨hmax', hend', hatEnd'⟩
    · rw [overlapExact_iff_of_atEnd hoffset' hwidth' h' hatEnd hend hmax hboth' hpos hpos',
        and_iff_left (hnot hlt')]
    · -- both start at zero
      have hzero : ∀ {r : ReplicationRangeIndexable}, AtEnd R r → r.contains 0 = true :=
        fun hr => (contains_iff _ _).mpr (.inr ⟨Nat.le_of_eq hr.2.2.1, hr.2.2.2⟩)
      have hshared := overlaps_of_shared (hzero hatEnd) (hzero hatEnd')
      have hpoint : ∃ p < R.maxValue, range.contains p = true ∧ other.contains p = true :=
        ⟨0, R.maxValue_pos, hzero hatEnd, hzero hatEnd'⟩
      refine iff_of_true (fun _ _ => ⟨iff_of_true hshared hpoint,
        iff_of_true ((overlaps_comm other range).trans hshared) hpoint⟩) ?_
      simp only [EndsBefore]
      omega

/-- **Ranges denote arcs**, but for the range of full width at the end of the ring;
and they overlap when they share a point, but for a range at the end of the ring and
one that ends there. -/
theorem denotesArc_iff (hoffset : offset ≤ R.maxValue) (hwidth : width ≤ R.maxValue)
    (h : construct R id hash timestamp mode offset width = some range)
    (hoffset' : offset' ≤ R.maxValue) (hwidth' : width' ≤ R.maxValue)
    (h' : construct R id' hash' timestamp' mode' offset' width' = some other) :
    DenotesArc R offset width range ∧ OverlapExact R range other ↔
      ¬ (offset = R.maxValue ∧ width = R.maxValue) ∧
        ¬ EndsBefore R offset width offset' width' ∧
        ¬ EndsBefore R offset' width' offset width := by
  by_cases hfull : offset = R.maxValue ∧ width = R.maxValue
  · obtain ⟨rfl, rfl⟩ := hfull
    exact iff_of_false (fun hdenotes => not_denotesArc_of_full h hdenotes.1)
      (fun hcond => hcond.1 ⟨rfl, rfl⟩)
  · rw [and_iff_right (denotesArc_of_construct hoffset hwidth h hfull),
      and_iff_right hfull]
    have hrange := (ringPoints_eq_arc hoffset hwidth h hfull).2
    by_cases hpos : 0 < range.width ∧ 0 < other.width
    · exact overlapExact_iff hoffset hwidth h hoffset' hwidth' h' hpos.1 hpos.2
    · -- there is nothing to say about ranges without points
      refine iff_of_true (fun hr ho => absurd ⟨hr, ho⟩ hpos) ?_
      simp only [EndsBefore]
      rcases construct_cases hoffset' hwidth' h' with h' | h' | h'
      · omega
      · omega
      · omega

/-- The range of full width at the end of the ring, and the one beside it. -/
theorem not_denotesArc_end :
    ∃ range other,
      construct .u32 "full" "owner" 1 .NonStrict MAX_U32 MAX_U32 = some range ∧
      construct .u32 "last" "owner" 1 .NonStrict (MAX_U32 - 1) 1 = some other ∧
      ¬ (DenotesArc .u32 MAX_U32 MAX_U32 range ∧ OverlapExact .u32 range other) :=
  ⟨_, _, rfl, rfl, fun h => not_denotesArc_of_full rfl h.1⟩

/-- A wrapped range, and one that starts where it ends. -/
theorem denotesArc_wrapped :
    ∃ range other,
      construct .u32 "wrapped" "owner" 1 .NonStrict (MAX_U32 - 5) 10 = some range ∧
      construct .u32 "plain" "owner" 1 .NonStrict 5 10 = some other ∧
      DenotesArc .u32 (MAX_U32 - 5) 10 range ∧ OverlapExact .u32 range other := by
  have hoffset : MAX_U32 - 5 ≤ Resolution.u32.maxValue := by decide
  have hwidth : 10 ≤ Resolution.u32.maxValue := by decide
  have hoffset' : 5 ≤ Resolution.u32.maxValue := by decide
  refine ⟨_, _, rfl, rfl, ?_⟩
  refine (denotesArc_iff hoffset hwidth rfl hoffset' hwidth rfl).mpr ?_
  simp [EndsBefore, Resolution.maxValue, MAX_U32]

end Exact

end SharedLog
end Peerbit
