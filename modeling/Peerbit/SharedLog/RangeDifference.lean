import Peerbit.Lib.Segments
import Peerbit.SharedLog.Ranges

/-!
# What one range has and another has not

`symmetricDifferenceRanges` turns two ranges into segments, subtracts every
segment of the one from every segment of the other, and builds ranges, of up to
two segments each, from what is left.

The result is exact: for ranges whose two segments are apart, a point lies in a
range returned for `A` exactly when it lies in `A` and not in `B`.
-/

namespace Peerbit
namespace SharedLog

open Lib

/-- `toSegmentsBigInt`. -/
def toSegmentsBigInt (range : ReplicationRangeIndexable) : List (Nat × Nat) :=
  (range.start1, range.end1) ::
    (if range.start2 ≠ range.start1 ∧ range.start2 ≠ range.end2 then
      [(range.start2, range.end2)]
    else [])

/-- `subtractBigIntSegment`: what `[aStart, aEnd)` has outside
`[bStart, bEnd)`. -/
def subtractBigIntSegment (aStart aEnd bStart bEnd : Nat) :
    List (Nat × Nat) :=
  if bEnd ≤ aStart ∨ aEnd ≤ bStart then [(aStart, aEnd)]
  else if bStart ≤ aStart ∧ aEnd ≤ bEnd then []
  else
    (if aStart < bStart then [(aStart, bStart)] else []) ++
      (if bEnd < aEnd then [(bEnd, aEnd)] else [])

/-- The inner two loops of `symmetricDifferenceRanges`, for one segment. -/
def leftoverOfSegment (segment : Nat × Nat) (others : List (Nat × Nat)) :
    List (Nat × Nat) :=
  others.foldl
    (fun leftover other =>
      leftover.flatMap
        (fun s => subtractBigIntSegment s.1 s.2 other.1 other.2))
    [segment]

/-- The comparison both sorts use; the sort is stable. -/
def sortSegments (segments : List (Nat × Nat)) : List (Nat × Nat) :=
  segments.insertionSort (fun a b => a.1 ≤ b.1)

/-- The sweep of `mergeBigIntSegments`. -/
def mergeSweep (current : Nat × Nat) : List (Nat × Nat) → List (Nat × Nat)
  | [] => [current]
  | next :: rest =>
      if next.1 ≤ current.2 then
        mergeSweep (current.1, if next.2 < current.2 then current.2 else next.2) rest
      else
        current :: mergeSweep next rest

def mergeBigIntSegments (segments : List (Nat × Nat)) : List (Nat × Nat) :=
  if segments.length < 2 then segments
  else
    match sortSegments segments with
    | [] => []
    | current :: rest => mergeSweep current rest

/-- The loop of `buildRangesFromBigIntSegments`: two segments to a range. -/
def pairSegments (template : ReplicationRangeIndexable) :
    List (Nat × Nat) → List ReplicationRangeIndexable
  | [] => []
  | [seg1] =>
      [{ template with
          start1 := seg1.1, end1 := seg1.2, start2 := seg1.1, end2 := seg1.2 }]
  | seg1 :: seg2 :: rest =>
      { template with
          start1 := seg1.1, end1 := seg1.2, start2 := seg2.1, end2 := seg2.2 } ::
        pairSegments template rest

def buildRangesFromBigIntSegments (segments : List (Nat × Nat))
    (templateRange : ReplicationRangeIndexable) :
    List ReplicationRangeIndexable :=
  pairSegments templateRange (sortSegments segments)

/-- One side of `symmetricDifferenceRanges`: the ranges `rangesFromA`. -/
def differenceRanges (rangeA rangeB : ReplicationRangeIndexable) :
    List ReplicationRangeIndexable :=
  let segmentsA := toSegmentsBigInt rangeA
  let segmentsB := toSegmentsBigInt rangeB
  let resultSegmentsA :=
    segmentsA.flatMap (fun s => leftoverOfSegment s segmentsB)
  let validSegmentsA :=
    resultSegmentsA.filter (fun s => decide (s.1 < s.2))
  let mergedSegmentsA := mergeBigIntSegments validSegmentsA
  buildRangesFromBigIntSegments mergedSegmentsA rangeA

/-- `rangesFromA` and `rangesFromB`. -/
structure SymmetricDifference where
  rangesFromA : List ReplicationRangeIndexable
  rangesFromB : List ReplicationRangeIndexable
deriving Repr, DecidableEq

def symmetricDifferenceRanges (rangeA rangeB : ReplicationRangeIndexable) :
    SymmetricDifference where
  rangesFromA := differenceRanges rangeA rangeB
  rangesFromB := differenceRanges rangeB rangeA

/-- The ring points of a range. -/
def ReplicationRangeIndexable.points (range : ReplicationRangeIndexable) :
    Set Nat :=
  {p | range.contains p = true}

theorem ReplicationRangeIndexable.mem_points
    {range : ReplicationRangeIndexable} {p : Nat} :
    p ∈ range.points ↔ range.contains p = true :=
  Iff.rfl

/-- The segments of a range cover its points. -/
theorem coverage_toSegmentsBigInt
    {range : ReplicationRangeIndexable}
    (h : range.SegmentsApart) :
    coverage (toSegmentsBigInt range) = range.points := by
  ext p
  rw [ReplicationRangeIndexable.mem_points,
    ReplicationRangeIndexable.contains_iff, toSegmentsBigInt]
  unfold ReplicationRangeIndexable.SegmentsApart at h
  split
  · simp
  · simp
    omega

theorem subtracts_subtractBigIntSegment :
    Subtracts
      (fun a b : Nat × Nat => subtractBigIntSegment a.1 a.2 b.1 b.2) := by
  rintro ⟨a, b⟩ ⟨c, d⟩
  ext p
  simp only [subtractBigIntSegment, Set.mem_sdiff, Set.mem_Ico]
  split_ifs <;> simp <;> omega

theorem coverage_leftover
    (segments others : List (Nat × Nat)) :
    coverage (segments.flatMap (fun s => leftoverOfSegment s others)) =
      coverage segments \ coverage others := by
  induction segments with
  | nil => simp
  | cons s segments ih =>
      have hs : coverage (leftoverOfSegment s others) =
          coverage [s] \ coverage others :=
        coverage_foldl_sub subtracts_subtractBigIntSegment others [s]
      rw [List.flatMap_cons, coverage_append, ih, hs]
      simp [Set.union_sdiff_distrib]

theorem sortSegments_perm (segments : List (Nat × Nat)) :
    (sortSegments segments).Perm segments :=
  List.perm_insertionSort _ _

theorem sortSegments_sorted (segments : List (Nat × Nat)) :
    (sortSegments segments).Pairwise (fun a b => a.1 ≤ b.1) := by
  have : Std.Total (fun a b : Nat × Nat => a.1 ≤ b.1) :=
    ⟨fun a b => Nat.le_total a.1 b.1⟩
  have : IsTrans (Nat × Nat) (fun a b => a.1 ≤ b.1) :=
    ⟨fun _ _ _ h1 h2 => Nat.le_trans h1 h2⟩
  exact List.pairwise_insertionSort _ _

/-- The sweep covers what the segments it has seen and still sees cover. -/
theorem coverage_mergeSweep
    (current : Nat × Nat) (rest : List (Nat × Nat))
    (hsorted : (current :: rest).Pairwise (fun a b => a.1 ≤ b.1)) :
    coverage (mergeSweep current rest) = coverage (current :: rest) := by
  induction rest generalizing current with
  | nil => simp [mergeSweep]
  | cons next rest ih =>
      obtain ⟨hhead, htail⟩ := List.pairwise_cons.mp hsorted
      have hnext : current.1 ≤ next.1 := hhead next (by simp)
      rw [mergeSweep]
      split
      · rename_i htouch
        have hmax :
            (if next.2 < current.2 then current.2 else next.2) =
              max current.2 next.2 := by
          split <;> omega
        have hsorted' :
            ((current.1, max current.2 next.2) :: rest).Pairwise
              (fun a b => a.1 ≤ b.1) :=
          List.pairwise_cons.mpr
            ⟨fun s hs => hhead s (List.mem_cons_of_mem _ hs),
              (List.pairwise_cons.mp htail).2⟩
        rw [hmax, ih _ hsorted']
        simp only [coverage_cons]
        rw [← Set.union_assoc, Ico_union_of_touching hnext htouch]
      · rw [coverage_cons, ih _ htail, ← coverage_cons]

/-- What the sweep emits starts no earlier than the current segment. -/
theorem le_start_of_mem_mergeSweep
    {current : Nat × Nat} {rest : List (Nat × Nat)}
    (hsorted : (current :: rest).Pairwise (fun a b => a.1 ≤ b.1))
    {s : Nat × Nat} (hs : s ∈ mergeSweep current rest) :
    current.1 ≤ s.1 := by
  induction rest generalizing current with
  | nil =>
      simp only [mergeSweep, List.mem_singleton] at hs
      exact hs ▸ Nat.le_refl _
  | cons next rest ih =>
      obtain ⟨hhead, htail⟩ := List.pairwise_cons.mp hsorted
      have hnext : current.1 ≤ next.1 := hhead next (by simp)
      rw [mergeSweep] at hs
      split at hs
      · have hsorted' :
            ((current.1, if next.2 < current.2 then current.2 else next.2) ::
              rest).Pairwise (fun a b => a.1 ≤ b.1) :=
          List.pairwise_cons.mpr
            ⟨fun s hs => hhead s (List.mem_cons_of_mem _ hs),
              (List.pairwise_cons.mp htail).2⟩
        have hle := ih hsorted' hs
        exact hle
      · rcases List.mem_cons.mp hs with rfl | hs
        · exact Nat.le_refl _
        · exact hnext.trans (ih htail hs)

/-- The sweep leaves a gap between any two segments it emits. -/
theorem mergeSweep_separated
    (current : Nat × Nat) (rest : List (Nat × Nat))
    (hsorted : (current :: rest).Pairwise (fun a b => a.1 ≤ b.1)) :
    Separated (mergeSweep current rest) := by
  induction rest generalizing current with
  | nil => simp [mergeSweep, Separated]
  | cons next rest ih =>
      obtain ⟨hhead, htail⟩ := List.pairwise_cons.mp hsorted
      rw [mergeSweep]
      split
      · refine ih _ (List.pairwise_cons.mpr ⟨?_, (List.pairwise_cons.mp htail).2⟩)
        exact fun s hs => hhead s (List.mem_cons_of_mem _ hs)
      · rename_i hgap
        refine List.pairwise_cons.mpr ⟨fun s hs => ?_, ih next htail⟩
        have := le_start_of_mem_mergeSweep htail hs
        omega

theorem coverage_mergeBigIntSegments (segments : List (Nat × Nat)) :
    coverage (mergeBigIntSegments segments) = coverage segments := by
  unfold mergeBigIntSegments
  split
  · rfl
  · have hperm := sortSegments_perm segments
    have hsorted := sortSegments_sorted segments
    split
    · rename_i hnil
      rw [← coverage_perm hperm, hnil]
    · rename_i current rest hcons
      rw [hcons] at hsorted
      rw [coverage_mergeSweep _ _ hsorted, ← hcons, coverage_perm hperm]

theorem mergeBigIntSegments_separated (segments : List (Nat × Nat)) :
    Separated (mergeBigIntSegments segments) := by
  unfold mergeBigIntSegments
  split
  · rename_i hlen
    match segments, hlen with
    | [], _ => exact List.Pairwise.nil
    | [s], _ => exact List.pairwise_singleton _ _
  · have hsorted := sortSegments_sorted segments
    split
    · exact List.Pairwise.nil
    · rename_i current rest hcons
      rw [hcons] at hsorted
      exact mergeSweep_separated _ _ hsorted

theorem valid_mergeSweep
    {current : Nat × Nat} {rest : List (Nat × Nat)}
    (hvalid : ∀ s ∈ current :: rest, s.1 ≤ s.2) :
    ∀ s ∈ mergeSweep current rest, s.1 ≤ s.2 := by
  induction rest generalizing current with
  | nil => simpa [mergeSweep] using hvalid
  | cons next rest ih =>
      have hcur := hvalid current (by simp)
      have hnext := hvalid next (by simp)
      have hrest : ∀ s ∈ rest, s.1 ≤ s.2 := fun s hs =>
        hvalid s (List.mem_cons_of_mem _ (List.mem_cons_of_mem _ hs))
      rw [mergeSweep]
      split
      · refine ih fun s hs => ?_
        rcases List.mem_cons.mp hs with rfl | hs
        · simp only
          split <;> omega
        · exact hrest s hs
      · intro s hs
        rcases List.mem_cons.mp hs with rfl | hs
        · exact hcur
        · exact ih (fun s hs => hvalid s (List.mem_cons_of_mem _ hs)) s hs

theorem valid_mergeBigIntSegments
    {segments : List (Nat × Nat)}
    (hvalid : ∀ s ∈ segments, s.1 ≤ s.2) :
    ∀ s ∈ mergeBigIntSegments segments, s.1 ≤ s.2 := by
  unfold mergeBigIntSegments
  split
  · exact hvalid
  · split
    · simp
    · rename_i current rest hcons
      refine valid_mergeSweep fun s hs => ?_
      rw [← hcons] at hs
      exact hvalid s ((sortSegments_perm segments).mem_iff.mp hs)

section Build

variable (template : ReplicationRangeIndexable)

/-- The ranges built from segments contain what the segments cover. -/
theorem exists_contains_pairSegments
    (segments : List (Nat × Nat)) (p : Nat) :
    (∃ r ∈ pairSegments template segments, r.contains p = true) ↔
      p ∈ coverage segments := by
  induction segments using pairSegments.induct with
  | case1 => simp [pairSegments]
  | case2 seg1 =>
      simp [pairSegments, ReplicationRangeIndexable.contains_iff]
  | case3 seg1 seg2 rest ih =>
      rw [coverage_cons, coverage_cons, Set.mem_union, Set.mem_union, ← ih]
      simp [pairSegments, ReplicationRangeIndexable.contains_iff, or_assoc]

/-- Ranges built from separated segments have no point in common: each holds
the next one or two of them. -/
theorem pairSegments_disjoint
    {segments : List (Nat × Nat)}
    (hsep : Separated segments) :
    (pairSegments template segments).Pairwise
      (fun r s => Disjoint r.points s.points) := by
  induction segments using pairSegments.induct with
  | case1 => exact List.Pairwise.nil
  | case2 seg1 => exact List.pairwise_singleton _ _
  | case3 seg1 seg2 rest ih =>
      have hrest : Separated rest :=
        (List.pairwise_cons.mp (List.pairwise_cons.mp hsep).2).2
      refine List.pairwise_cons.mpr ⟨fun s hs => ?_, ih hrest⟩
      have hcut : Disjoint (coverage [seg1, seg2]) (coverage rest) :=
        Separated.disjoint_coverage hsep
      refine hcut.mono (fun p hp => ?_) (fun p hp => ?_)
      · rw [ReplicationRangeIndexable.mem_points,
          ReplicationRangeIndexable.contains_iff] at hp
        simpa [mem_coverage] using hp
      · exact (exists_contains_pairSegments template rest p).mp ⟨s, hs, hp⟩

/-- A range built from segments with increasing starts keeps the owner, id,
timestamp and mode of its template, and its two segments are apart. -/
theorem of_mem_pairSegments
    {segments : List (Nat × Nat)}
    (hsorted : segments.Pairwise (fun a b => a.1 < b.1))
    {r : ReplicationRangeIndexable}
    (hr : r ∈ pairSegments template segments) :
    r.SegmentsApart ∧ r.hash = template.hash ∧ r.mode = template.mode ∧
      r.timestamp = template.timestamp ∧ r.id = template.id := by
  induction segments using pairSegments.induct with
  | case1 => simp [pairSegments] at hr
  | case2 seg1 =>
      simp only [pairSegments, List.mem_singleton] at hr
      subst hr
      exact ⟨fun _ => Nat.le_refl _, rfl, rfl, rfl, rfl⟩
  | case3 seg1 seg2 rest ih =>
      obtain ⟨hhead, htail⟩ := List.pairwise_cons.mp hsorted
      rw [pairSegments, List.mem_cons] at hr
      rcases hr with rfl | hr
      · refine ⟨fun heq => ?_, rfl, rfl, rfl, rfl⟩
        have hlt : seg1.1 < seg2.1 := hhead seg2 (by simp)
        simp only at heq
        omega
      · exact ih (List.pairwise_cons.mp htail).2 hr

end Build

/-- Separated segments, none of them reversed, start later and later. -/
theorem starts_increase_of_separated
    {segments : List (Nat × Nat)}
    (hsep : Separated segments)
    (hvalid : ∀ s ∈ segments, s.1 ≤ s.2) :
    segments.Pairwise (fun a b => a.1 < b.1) :=
  List.Pairwise.imp_of_mem
    (fun ha _ hab => Nat.lt_of_le_of_lt (hvalid _ ha) hab) hsep

theorem sortSegments_eq_self
    {segments : List (Nat × Nat)}
    (h : segments.Pairwise (fun a b => a.1 < b.1)) :
    sortSegments segments = segments :=
  (h.imp (fun hab => Nat.le_of_lt hab)).insertionSort_eq

/-- The segments left of one range by another, merged: no two of them touch,
none of them is reversed, and they cover the difference. -/
theorem merged_leftover_spec
    {rangeA rangeB : ReplicationRangeIndexable}
    (hA : rangeA.SegmentsApart) (hB : rangeB.SegmentsApart) :
    let merged :=
      mergeBigIntSegments
        (((toSegmentsBigInt rangeA).flatMap
          (fun s => leftoverOfSegment s (toSegmentsBigInt rangeB))).filter
            (fun s => decide (s.1 < s.2)))
    Separated merged ∧ merged.Pairwise (fun a b => a.1 < b.1) ∧
      coverage merged = rangeA.points \ rangeB.points := by
  intro merged
  have hsep : Separated merged := mergeBigIntSegments_separated _
  refine ⟨hsep, ?_, ?_⟩
  · refine starts_increase_of_separated hsep ?_
    refine valid_mergeBigIntSegments fun s hs => ?_
    have := (List.mem_filter.mp hs).2
    exact Nat.le_of_lt (of_decide_eq_true this)
  · rw [coverage_mergeBigIntSegments, coverage_filter_nonempty,
      coverage_leftover, coverage_toSegmentsBigInt hA,
      coverage_toSegmentsBigInt hB]

/-- **Range difference is set difference**: a point lies in a range returned
for `A` exactly when it lies in `A` and not in `B`. -/
theorem exists_contains_differenceRanges
    {rangeA rangeB : ReplicationRangeIndexable}
    (hA : rangeA.SegmentsApart) (hB : rangeB.SegmentsApart) (p : Nat) :
    (∃ r ∈ differenceRanges rangeA rangeB, r.contains p = true) ↔
      rangeA.contains p = true ∧ ¬ rangeB.contains p = true := by
  obtain ⟨_, hsorted, hcoverage⟩ := merged_leftover_spec hA hB
  rw [differenceRanges, buildRangesFromBigIntSegments,
    exists_contains_pairSegments, sortSegments_eq_self hsorted, hcoverage]
  rfl

/-- A range returned for `A` is owned by the owner of `A`, and can be split
again. -/
theorem of_mem_differenceRanges
    {rangeA rangeB r : ReplicationRangeIndexable}
    (hA : rangeA.SegmentsApart) (hB : rangeB.SegmentsApart)
    (hr : r ∈ differenceRanges rangeA rangeB) :
    r.SegmentsApart ∧ r.hash = rangeA.hash ∧ r.mode = rangeA.mode ∧
      r.timestamp = rangeA.timestamp ∧ r.id = rangeA.id := by
  obtain ⟨_, hsorted, _⟩ := merged_leftover_spec hA hB
  rw [differenceRanges, buildRangesFromBigIntSegments,
    sortSegments_eq_self hsorted] at hr
  exact of_mem_pairSegments rangeA hsorted hr

/-- The ranges returned for `A` have no point in common. -/
theorem differenceRanges_disjoint
    {rangeA rangeB : ReplicationRangeIndexable}
    (hA : rangeA.SegmentsApart) (hB : rangeB.SegmentsApart) :
    (differenceRanges rangeA rangeB).Pairwise
      (fun r s => Disjoint r.points s.points) := by
  obtain ⟨hsep, hsorted, _⟩ := merged_leftover_spec hA hB
  rw [differenceRanges, buildRangesFromBigIntSegments,
    sortSegments_eq_self hsorted]
  exact pairSegments_disjoint rangeA hsep

section Constructed

variable (R : Resolution)

/-- **The symmetric difference of two constructed ranges is exact**: the ranges
of either side hold the points which that range has and the other has not, and
hold none of them twice. -/
theorem symmetricDifferenceRanges_exact
    {idA idB : String} {hashA hashB : PeerHash} {timestampA timestampB : Nat}
    {modeA modeB : ReplicationIntent} {offsetA offsetB widthA widthB : Nat}
    {A B : ReplicationRangeIndexable}
    (hA : ReplicationRangeIndexable.construct R idA hashA timestampA modeA
      offsetA widthA = some A)
    (hB : ReplicationRangeIndexable.construct R idB hashB timestampB modeB
      offsetB widthB = some B) :
    {p | ∃ r ∈ (symmetricDifferenceRanges A B).rangesFromA, p ∈ r.points} =
        A.points \ B.points ∧
      {p | ∃ r ∈ (symmetricDifferenceRanges A B).rangesFromB, p ∈ r.points} =
        B.points \ A.points ∧
      (symmetricDifferenceRanges A B).rangesFromA.Pairwise
        (fun r s => Disjoint r.points s.points) ∧
      (symmetricDifferenceRanges A B).rangesFromB.Pairwise
        (fun r s => Disjoint r.points s.points) := by
  have hapartA :=
    (ReplicationRangeIndexable.shape_of_construct hA).segmentsApart
  have hapartB :=
    (ReplicationRangeIndexable.shape_of_construct hB).segmentsApart
  refine ⟨?_, ?_, differenceRanges_disjoint hapartA hapartB,
    differenceRanges_disjoint hapartB hapartA⟩
  · ext p
    exact exists_contains_differenceRanges hapartA hapartB p
  · ext p
    exact exists_contains_differenceRanges hapartB hapartA p

end Constructed

/-- A wrapped arc, and a plain one inside its first segment. -/
theorem symmetricDifferenceRanges_exact_wrapped :
    ∃ a b,
      ReplicationRangeIndexable.construct .u32 "A" "a" 1 .NonStrict
        4294967000 1000 = some a ∧
      ReplicationRangeIndexable.construct .u32 "B" "b" 1 .NonStrict
        4294967100 100 = some b ∧
      {p | ∃ r ∈ (symmetricDifferenceRanges a b).rangesFromA, p ∈ r.points} =
        a.points \ b.points := by
  obtain ⟨a, ha⟩ : ∃ a, ReplicationRangeIndexable.construct .u32 "A" "a" 1
      .NonStrict 4294967000 1000 = some a := ⟨_, rfl⟩
  obtain ⟨b, hb⟩ : ∃ b, ReplicationRangeIndexable.construct .u32 "B" "b" 1
      .NonStrict 4294967100 100 = some b := ⟨_, rfl⟩
  exact ⟨a, b, ha, hb,
    (symmetricDifferenceRanges_exact .u32 ha hb).1⟩

end SharedLog
end Peerbit
