import Peerbit.SharedLog.RangeArcs

/-!
# Ranges that cover another one

Before a peer's range is added, the index is asked for another range of the peer
that covers all of it; it is a duplicate then.  The query compares each segment of
the range with each segment of a stored one.

What the query finds covers the range.  It misses some that do: the whole ring,
when it starts inside a segment of the range; and, when a segment of the range is
empty, what does not reach the end of the ring where this segment lies.
-/

namespace Peerbit
namespace SharedLog

/-- The `Or` of a segment: the first or the second segment of a stored range
covers it. -/
def coveringSegmentQuery (start end_ : Nat) (stored : ReplicationRangeIndexable) : Bool :=
  (decide (stored.start1 ≤ start) && decide (end_ ≤ stored.end1)) ||
    (decide (stored.start2 ≤ start) && decide (end_ ≤ stored.end2))

/-- `getCoveringRangeQuery`. -/
def getCoveringRangeQuery (range : ReplicationRangeIndexable) :
    List (ReplicationRangeIndexable → Bool) :=
  [coveringSegmentQuery range.start1 range.end1,
    coveringSegmentQuery range.start2 range.end2]

/-- `countCoveringRangesSameOwner`. -/
def countCoveringRangesSameOwner (rects : List ReplicationRangeIndexable)
    (range : ReplicationRangeIndexable) : Bool :=
  decide (0 < rects.countP (fun stored =>
    (getCoveringRangeQuery range).all (fun query => query stored) &&
      decide (stored.hash = range.hash) && !decide (stored.id = range.id)))

/-! ### What the query is for -/

section Covering

variable (R : Resolution) (range stored : ReplicationRangeIndexable)

/-- The query list matches a stored range. -/
def Matches : Prop :=
  ∀ query ∈ getCoveringRangeQuery range, query stored = true

/-- A stored range contains every ring point of the range. -/
def Covers : Prop :=
  ∀ p < R.maxValue, range.contains p = true → stored.contains p = true

/-- Exactly the covering ranges match, and a range is a duplicate exactly when
another one of its owner covers it. -/
structure CoveringExact (rects : List ReplicationRangeIndexable) : Prop where
  query : ∀ stored ∈ rects, Matches range stored ↔ Covers R range stored
  duplicate : countCoveringRangesSameOwner rects range = true ↔
    ∃ stored ∈ rects, stored.hash = range.hash ∧ stored.id ≠ range.id ∧
      Covers R range stored

/-- The stored range is the whole ring, and starts inside a segment of the range. -/
def StartsInside : Prop :=
  (stored.start2 = 0 ∧ stored.end1 = R.maxValue ∧ stored.start1 = stored.end2) ∧
    (range.start1 < stored.start1 ∧ stored.start1 < range.end1 ∨
      range.start2 < stored.start1 ∧ stored.start1 < range.end2)

/-- The range is at the end of the ring, and the stored one reaches from zero over
its points, but not to the end. -/
def EndsShort : Prop :=
  range.start1 = R.maxValue ∧ stored.start1 = 0 ∧ range.end2 ≤ stored.end1 ∧
    stored.end1 < R.maxValue

/-- The range ends at the end of the ring with an empty second segment, and the
stored one reaches there from behind zero. -/
def StartsLate : Prop :=
  range.start2 = 0 ∧ range.end2 = 0 ∧ 0 < stored.start1 ∧ 0 < stored.start2 ∧
    stored.start1 ≤ range.start1 ∧ stored.end1 = R.maxValue

/-- A covering range that the query misses. -/
def Missed : Prop :=
  StartsInside R range stored ∨ EndsShort R range stored ∨ StartsLate R range stored

end Covering

/-! ### Segments -/

section Segments

variable {R : Resolution} {range stored : ReplicationRangeIndexable}
variable {start end_ : Nat}

open ReplicationRangeIndexable

theorem coveringSegmentQuery_iff :
    coveringSegmentQuery start end_ stored = true ↔
      stored.start1 ≤ start ∧ end_ ≤ stored.end1 ∨
        stored.start2 ≤ start ∧ end_ ≤ stored.end2 := by
  simp [coveringSegmentQuery]

/-- A segment is covered by one of the segments of a range, or by both of them when
they are the whole ring. -/
theorem contains_segment_iff (hstored : Shape R stored) (hlt : start < end_)
    (hmax : end_ ≤ R.maxValue) :
    (∀ p, start ≤ p → p < end_ → stored.contains p = true) ↔
      coveringSegmentQuery start end_ stored = true ∨
        ((stored.start2 = 0 ∧ stored.end1 = R.maxValue ∧
          stored.start1 = stored.end2) ∧
            start < stored.start1 ∧ stored.start1 < end_) := by
  simp only [coveringSegmentQuery_iff, contains_iff]
  constructor
  · intro h
    have hfirst := h start (Nat.le_refl _) hlt
    have hlast := h (end_ - 1) (by omega) (by omega)
    cases hstored with
    | single hstart hend hle hmax hwidth => omega
    | wrapping hstart hend1 hend hless hmax hwidth =>
        by_cases hinside : start < stored.end2 ∧ stored.end2 < end_
        · -- the first point after the second segment
          have hnext := h stored.end2 (by omega) hinside.2
          omega
        · omega
  · intro h p hp hp'
    omega

theorem covers_iff (hrange : Shape R range) :
    Covers R range stored ↔
      (∀ p, range.start1 ≤ p → p < range.end1 → stored.contains p = true) ∧
        ∀ p, range.start2 ≤ p → p < range.end2 → stored.contains p = true := by
  have hmax : range.end1 ≤ R.maxValue ∧ range.end2 ≤ R.maxValue := by
    cases hrange with
    | single => omega
    | wrapping => omega
  simp only [Covers, contains_iff range]
  constructor
  · exact fun h => ⟨fun p hp hp' => h p (by omega) (.inl ⟨hp, hp'⟩),
      fun p hp hp' => h p (by omega) (.inr ⟨hp, hp'⟩)⟩
  · rintro ⟨h1, h2⟩ p - (hp | hp)
    · exact h1 p hp.1 hp.2
    · exact h2 p hp.1 hp.2

theorem matches_iff :
    Matches range stored ↔
      coveringSegmentQuery range.start1 range.end1 stored = true ∧
        coveringSegmentQuery range.start2 range.end2 stored = true := by
  simp [Matches, getCoveringRangeQuery]

/-- What the query finds covers the range. -/
theorem Matches.covers (h : Matches range stored) : Covers R range stored := by
  intro p _ hp
  obtain ⟨h1, h2⟩ := matches_iff.mp h
  rw [coveringSegmentQuery_iff] at h1 h2
  rw [contains_iff] at hp ⊢
  omega

/-- A segment with points of a range that is covered matches, or the whole ring starts
inside. -/
theorem Covers.segments (hrange : Shape R range) (hstored : Shape R stored)
    (h : Covers R range stored) :
    (range.start1 < range.end1 → range.end1 ≤ R.maxValue →
      coveringSegmentQuery range.start1 range.end1 stored = true ∨
        StartsInside R range stored) ∧
      (range.start2 < range.end2 → range.end2 ≤ R.maxValue →
        coveringSegmentQuery range.start2 range.end2 stored = true ∨
          StartsInside R range stored) := by
  obtain ⟨h1, h2⟩ := (covers_iff hrange).mp h
  constructor
  · intro hlt hmax
    exact ((contains_segment_iff hstored hlt hmax).mp h1).imp_right
      fun ⟨hwhole, hinside⟩ => ⟨hwhole, .inl hinside⟩
  · intro hlt hmax
    exact ((contains_segment_iff hstored hlt hmax).mp h2).imp_right
      fun ⟨hwhole, hinside⟩ => ⟨hwhole, .inr hinside⟩

/-- What covers the second segment of a range at the end of the ring matches the first
one, which is empty, or it ends short of it. -/
theorem matches_end_or (hstored : Shape R stored) (hstart : range.start1 = R.maxValue)
    (hend : range.end1 = R.maxValue) (hzero : range.start2 = 0)
    (h : coveringSegmentQuery range.start2 range.end2 stored = true) :
    coveringSegmentQuery range.start1 range.end1 stored = true ∨
      EndsShort R range stored := by
  rw [coveringSegmentQuery_iff] at h ⊢
  rw [EndsShort, hstart, hend]
  cases hstored with
  | single => omega
  | wrapping => omega

/-- What covers the first segment matches the second one, which is empty, or it starts
late. -/
theorem matches_zero_or (hstored : Shape R stored) (hend : range.end1 = R.maxValue)
    (hzero : range.start2 = 0) (hzero' : range.end2 = 0)
    (h : coveringSegmentQuery range.start1 range.end1 stored = true) :
    coveringSegmentQuery range.start2 range.end2 stored = true ∨
      StartsLate R range stored := by
  rw [coveringSegmentQuery_iff] at h ⊢
  rw [StartsLate, hzero, hzero']
  cases hstored with
  | single => omega
  | wrapping => omega

/-- A range that covers another one matches, or it is missed. -/
theorem Covers.matches_or (hrange : Shape R range) (hpos : 0 < range.width)
    (hstored : Shape R stored) (h : Covers R range stored) :
    Matches range stored ∨ Missed R range stored := by
  obtain ⟨hfirst, hsecond⟩ := h.segments hrange hstored
  rw [matches_iff]
  cases hrange with
  | single hstart hend hle hmax hwidth =>
      rcases hfirst (by omega) hmax with hcovered | hinside
      · rw [hstart, hend]
        exact .inl ⟨hcovered, hcovered⟩
      · exact .inr (.inl hinside)
  | wrapping hstart hend1 hend hless hmax hwidth =>
      by_cases hempty1 : range.start1 < range.end1
      · rcases hfirst hempty1 (by omega) with hcovered1 | hinside
        · by_cases hempty2 : range.start2 < range.end2
          · exact (hsecond hempty2 (by omega)).imp (⟨hcovered1, ·⟩) .inl
          · exact (matches_zero_or hstored hend1 hstart (by omega)
              hcovered1).imp (⟨hcovered1, ·⟩) fun hlate => .inr (.inr hlate)
        · exact .inr (.inl hinside)
      · rcases hsecond (by omega) (by omega) with hcovered2 | hinside
        · exact (matches_end_or hstored (by omega) hend1 hstart
            hcovered2).imp (⟨·, hcovered2⟩) fun hshort => .inr (.inl hshort)
        · exact .inr (.inl hinside)

theorem StartsInside.covers_and_not (h : StartsInside R range stored) :
    Covers R range stored ∧ ¬ Matches range stored := by
  obtain ⟨⟨hzero, hend, hmeet⟩, hinside⟩ := h
  rw [matches_iff, coveringSegmentQuery_iff, coveringSegmentQuery_iff]
  constructor
  · intro p hp _
    rw [contains_iff]
    omega
  · omega

theorem EndsShort.covers_and_not (hrange : Shape R range) (hstored : Shape R stored)
    (h : EndsShort R range stored) :
    Covers R range stored ∧ ¬ Matches range stored := by
  obtain ⟨hstart, hzero, hle, hshort⟩ := h
  rw [matches_iff, coveringSegmentQuery_iff, coveringSegmentQuery_iff]
  constructor
  · intro p hp hcontains
    rw [contains_iff] at hcontains ⊢
    omega
  · cases hrange with
    | single => omega
    | wrapping =>
        cases hstored with
        | single => omega
        | wrapping => omega

theorem StartsLate.covers_and_not (h : StartsLate R range stored) :
    Covers R range stored ∧ ¬ Matches range stored := by
  obtain ⟨hzero, hzero', hpos, hpos', hle, hend⟩ := h
  rw [matches_iff, coveringSegmentQuery_iff, coveringSegmentQuery_iff]
  constructor
  · intro p hp hcontains
    rw [contains_iff] at hcontains ⊢
    omega
  · omega

/-- What is missed covers the range, and does not match. -/
theorem Missed.covers_and_not (hrange : Shape R range) (hstored : Shape R stored)
    (h : Missed R range stored) :
    Covers R range stored ∧ ¬ Matches range stored := by
  rcases h with hinside | hshort | hlate
  · exact hinside.covers_and_not
  · exact hshort.covers_and_not hrange hstored
  · exact hlate.covers_and_not

theorem matches_iff_covers (hrange : Shape R range) (hpos : 0 < range.width)
    (hstored : Shape R stored) :
    (Matches range stored ↔ Covers R range stored) ↔ ¬ Missed R range stored := by
  constructor
  · intro hiff hmissed
    obtain ⟨hcovers, hnot⟩ := hmissed.covers_and_not hrange hstored
    exact hnot (hiff.mpr hcovers)
  · intro hnot
    exact ⟨Matches.covers, fun h => (h.matches_or hrange hpos hstored).resolve_right hnot⟩

theorem countCovering_iff {rects : List ReplicationRangeIndexable} :
    countCoveringRangesSameOwner rects range = true ↔
      ∃ stored ∈ rects, stored.hash = range.hash ∧ stored.id ≠ range.id ∧
        Matches range stored := by
  simp only [countCoveringRangesSameOwner, decide_eq_true_eq, List.countP_pos_iff,
    Bool.and_eq_true, Bool.not_eq_true', decide_eq_false_iff_not, List.all_eq_true, Matches]
  exact exists_congr fun stored => and_congr_right fun _ => by tauto

end Segments

/-! ### When the query is exact -/

section Exact

open ReplicationRangeIndexable

/-- **The covering query is exact** on an index that holds no range that it misses. -/
theorem coveringExact_iff {R : Resolution} {id : String} {hash : PeerHash}
    {timestamp : Nat} {mode : ReplicationIntent} {offset width : Nat}
    {range : ReplicationRangeIndexable} {rects : List ReplicationRangeIndexable}
    (h : construct R id hash timestamp mode offset width = some range)
    (hpos : 0 < range.width) (hrects : ∀ stored ∈ rects, Shape R stored) :
    CoveringExact R range rects ↔ ∀ stored ∈ rects, ¬ Missed R range stored := by
  have hrange := shape_of_construct h
  constructor
  · intro hexact stored hstored
    exact (matches_iff_covers hrange hpos (hrects stored hstored)).mp
      (hexact.query stored hstored)
  · intro hnone
    have hquery : ∀ stored ∈ rects, (Matches range stored ↔ Covers R range stored) :=
      fun stored hstored =>
        (matches_iff_covers hrange hpos (hrects stored hstored)).mpr (hnone stored hstored)
    refine ⟨hquery, ?_⟩
    rw [countCovering_iff]
    refine exists_congr fun stored => and_congr_right fun hstored => ?_
    rw [hquery stored hstored]

/-- The whole ring from `10` on, and a range around its start. -/
theorem not_coveringExact_rotated :
    ∃ range whole,
      construct .u32 "range" "owner" 1 .NonStrict 5 10 = some range ∧
      construct .u32 "whole" "owner" 1 .NonStrict 10 MAX_U32 = some whole ∧
      ¬ CoveringExact .u32 range [whole] := by
  refine ⟨_, _, rfl, rfl, fun hexact => ?_⟩
  have hcovers : Covers .u32
      { id := "range", hash := "owner", timestamp := 1, start1 := 5, end1 := 15
        start2 := 5, end2 := 15, width := 10, mode := .NonStrict }
      { id := "whole", hash := "owner", timestamp := 1, start1 := 10
        end1 := MAX_U32, start2 := 0, end2 := 10, width := MAX_U32
        mode := .NonStrict } := by
    intro p hp _
    rw [contains_iff]
    simp only [Resolution.maxValue] at hp
    simp only
    omega
  have hmatches := (hexact.query _ List.mem_cons_self).mpr hcovers
  have hfirst := hmatches _ List.mem_cons_self
  revert hfirst
  decide

/-- A stored range that covers the new one. -/
theorem coveringExact_plain :
    ∃ range stored,
      construct .u32 "range" "owner" 1 .NonStrict 5 10 = some range ∧
      construct .u32 "stored" "owner" 1 .NonStrict 0 100 = some stored ∧
      CoveringExact .u32 range [stored] := by
  have hrange : construct .u32 "range" "owner" 1 .NonStrict 5 10 = some _ := rfl
  have hstored : construct .u32 "stored" "owner" 1 .NonStrict 0 100 = some _ := rfl
  refine ⟨_, _, hrange, hstored, (coveringExact_iff hrange (by decide) ?_).mpr ?_⟩
  · intro stored hmem
    obtain rfl := List.mem_singleton.mp hmem
    exact shape_of_construct hstored
  · simp [Missed, StartsInside, EndsShort, StartsLate, Resolution.maxValue, MAX_U32,
      getSegmentsFromOffsetAndRange]

end Exact

end SharedLog
end Peerbit
