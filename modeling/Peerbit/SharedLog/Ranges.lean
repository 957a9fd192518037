import Mathlib.Data.List.Basic
import Mathlib.Tactic.Common

/-!
# Replication ranges

The range class of the shared log, in both resolutions.  A range is an arc of
the ring `0, …, MAX - 1`; the class stores it as one or two half-open segments.
An arc that runs over the end of the ring is stored as `[start1, MAX)` and
`[0, end2)`; any other arc repeats its only segment.

The classes for `u32` and `u64` differ in the number type of their fields and
in `MAX`, so that there is one class here, and `Resolution` gives the `MAX`.
The fields hold whole numbers in both of them.
-/

namespace Peerbit
namespace SharedLog

/-- A public key hash, as a string. -/
abbrev PeerHash := String

def MAX_U32 : Nat := 4294967295

def MAX_U64 : Nat := 18446744073709551615

/-- `"u32" | "u64"`. -/
inductive Resolution where
  | u32
  | u64
deriving Repr, DecidableEq

/-- `numbers.maxValue`. -/
def Resolution.maxValue : Resolution → Nat
  | .u32 => MAX_U32
  | .u64 => MAX_U64

theorem Resolution.maxValue_pos (R : Resolution) : 0 < R.maxValue := by
  cases R <;> decide

inductive ReplicationIntent where
  | NonStrict
  | Strict
deriving Repr, DecidableEq

/-- The fields of `ReplicationRangeIndexableU32` and `...U64`. -/
structure ReplicationRangeIndexable where
  id : String
  hash : PeerHash
  timestamp : Nat
  start1 : Nat
  end1 : Nat
  start2 : Nat
  end2 : Nat
  width : Nat
  mode : ReplicationIntent
deriving Repr, DecidableEq

/-- `getSegmentsFromOffsetAndRange`, with `zero` as `0`. -/
def getSegmentsFromOffsetAndRange (offset factor max : Nat) :
    (Nat × Nat) × (Nat × Nat) :=
  let start1 := offset
  let end1Unscaled := offset + factor
  let end1 := min end1Unscaled max
  ((start1, end1),
    if max < end1Unscaled then
      (0, (if factor ≠ max then offset + factor else offset) % max)
    else
      (start1, end1))

namespace ReplicationRangeIndexable

/-- The constructor with its `transform`; `none` is the thrown
"Segment coordinate out of bounds". -/
def construct (R : Resolution) (id : String) (hash : PeerHash)
    (timestamp : Nat) (mode : ReplicationIntent) (offset width : Nat) :
    Option ReplicationRangeIndexable :=
  let max := R.maxValue
  let ranges := getSegmentsFromOffsetAndRange offset width max
  let start1 := ranges.1.1
  let end1 := ranges.1.2
  let start2 := ranges.2.1
  let end2 := ranges.2.2
  let width : Int :=
    (end1 : Int) - start1 + (if end2 < end1 then (end2 : Int) - start2 else 0)
  if max < start1 ∨ max < end1 ∨ max < start2 ∨ max < end2 ∨
      (max : Int) < width ∨ width < 0 then
    none
  else
    some
      { id := id, hash := hash, timestamp := timestamp
        start1 := start1, end1 := end1, start2 := start2, end2 := end2
        width := width.toNat, mode := mode }

/-- `contains`. -/
def contains (range : ReplicationRangeIndexable) (point : Nat) : Bool :=
  (decide (range.start1 ≤ point) && decide (point < range.end1)) ||
    (decide (range.start2 ≤ point) && decide (point < range.end2))

/-- `wrapped`. -/
def wrapped (range : ReplicationRangeIndexable) : Bool :=
  decide (range.end2 < range.end1)

/-- `equalRange`: same owner and same segments. -/
def equalRange (range other : ReplicationRangeIndexable) : Bool :=
  decide (range.hash = other.hash) && decide (range.start1 = other.start1) &&
    decide (range.end1 = other.end1) && decide (range.start2 = other.start2) &&
    decide (range.end2 = other.end2)

/-- A second segment that starts where the first one does adds nothing to it.
The constructor builds only such ranges, and so does the splitting of a range
into what another one leaves of it. -/
def SegmentsApart (range : ReplicationRangeIndexable) : Prop :=
  range.start2 = range.start1 → range.end2 ≤ range.end1

/-- The two shapes the constructor gives a range: one segment, repeated, or
the two ends of the ring. -/
inductive Shape (R : Resolution) (range : ReplicationRangeIndexable) : Prop
  | single
      (hstart : range.start2 = range.start1)
      (hend : range.end2 = range.end1)
      (hle : range.start1 ≤ range.end1)
      (hmax : range.end1 ≤ R.maxValue)
      (hwidth : range.width = range.end1 - range.start1)
  | wrapping
      (hstart : range.start2 = 0)
      (hend1 : range.end1 = R.maxValue)
      (hend : range.end2 ≤ range.start1)
      (hlt : range.end2 < range.end1)
      (hmax : range.start1 ≤ R.maxValue)
      (hwidth : range.width = range.end1 - range.start1 + range.end2)

theorem contains_iff
    (range : ReplicationRangeIndexable) (point : Nat) :
    range.contains point = true ↔
      (range.start1 ≤ point ∧ point < range.end1) ∨
        (range.start2 ≤ point ∧ point < range.end2) := by
  simp [contains]

/-- Every range the constructor accepts has one of the two shapes. -/
theorem shape_of_construct
    {R : Resolution} {id : String} {hash : PeerHash} {timestamp : Nat}
    {mode : ReplicationIntent} {offset width : Nat}
    {range : ReplicationRangeIndexable}
    (h : construct R id hash timestamp mode offset width = some range) :
    Shape R range := by
  have hpos := R.maxValue_pos
  by_cases hover : R.maxValue < offset + width
  · -- the arc runs over the end of the ring
    have hlt :
        (if width ≠ R.maxValue then offset + width else offset) % R.maxValue <
          R.maxValue :=
      Nat.mod_lt _ hpos
    have hmin : min (offset + width) R.maxValue = R.maxValue := by omega
    simp only [construct, getSegmentsFromOffsetAndRange, hover, if_true, hmin,
      hlt] at h
    generalize (if width ≠ R.maxValue then offset + width else offset) %
      R.maxValue = tail at h hlt
    split at h
    · cases h
    · obtain rfl := Option.some.inj h
      refine .wrapping rfl rfl ?_ hlt ?_ ?_ <;> simp only <;> omega
  · have hmin : min (offset + width) R.maxValue = offset + width := by omega
    simp only [construct, getSegmentsFromOffsetAndRange, hover, if_false,
      hmin, Nat.lt_irrefl] at h
    split at h
    · cases h
    · obtain rfl := Option.some.inj h
      refine .single rfl rfl ?_ ?_ ?_ <;> simp only <;> omega

/-- What the constructor takes over as it is. -/
theorem fields_of_construct
    {R : Resolution} {id : String} {hash : PeerHash} {timestamp : Nat}
    {mode : ReplicationIntent} {offset width : Nat}
    {range : ReplicationRangeIndexable}
    (h : construct R id hash timestamp mode offset width = some range) :
    range.id = id ∧ range.hash = hash ∧ range.timestamp = timestamp ∧
      range.mode = mode ∧ range.start1 = offset := by
  rw [construct] at h
  obtain ⟨-, h⟩ := Option.ite_none_left_eq_some.mp h
  obtain rfl := Option.some.inj h
  exact ⟨rfl, rfl, rfl, rfl, rfl⟩

theorem Shape.segmentsApart
    {R : Resolution} {range : ReplicationRangeIndexable}
    (h : Shape R range) :
    range.SegmentsApart := by
  intro heq
  cases h with
  | single hstart hend hle hmax => omega
  | wrapping hstart hend1 hend hlt hmax => omega

variable {R : Resolution} {range : ReplicationRangeIndexable}

/-- What a range is that does not wrap. -/
theorem Shape.plain (h : Shape R range) (hplain : range.wrapped = false) :
    range.start2 = range.start1 ∧ range.end2 = range.end1 ∧
      range.start1 ≤ range.end1 ∧ range.end1 ≤ R.maxValue := by
  cases h with
  | single hstart hend hle hmax => exact ⟨hstart, hend, hle, hmax⟩
  | wrapping hstart hend1 hend hlt hmax => simp [wrapped] at hplain; omega

theorem Shape.wraps (h : Shape R range) (hwrapped : range.wrapped = true) :
    range.start2 = 0 ∧ range.end1 = R.maxValue ∧ range.end2 ≤ range.start1 ∧
      range.start1 ≤ R.maxValue := by
  cases h with
  | single hstart hend hle hmax => simp [wrapped] at hwrapped; omega
  | wrapping hstart hend1 hend hlt hmax => exact ⟨hstart, hend1, hend, hmax⟩

/-- The start of a range is on the ring or at its end. -/
theorem Shape.start_le (h : Shape R range) : range.start1 ≤ R.maxValue := by
  cases h with
  | single _ _ hle hmax => omega
  | wrapping _ _ _ _ hmax => exact hmax

/-- A range that does not reach over the end of the ring. -/
theorem construct_of_le {id : String} {hash : PeerHash} {timestamp : Nat}
    {mode : ReplicationIntent} {offset width : Nat}
    (h : offset + width ≤ R.maxValue) :
    construct R id hash timestamp mode offset width =
      some
        { id := id, hash := hash, timestamp := timestamp
          start1 := offset, end1 := offset + width
          start2 := offset, end2 := offset + width
          width := width, mode := mode } := by
  have hmin : min (offset + width) R.maxValue = offset + width := by omega
  have hover : ¬ R.maxValue < offset + width := by omega
  simp only [construct, getSegmentsFromOffsetAndRange, hover, if_false, hmin,
    Nat.lt_irrefl]
  split
  · rename_i hbounds
    simp only [false_or] at hbounds
    omega
  · have hkept : (((offset + width : Nat) : Int) - offset + 0).toNat = width := by
      omega
    rw [hkept]

/-- A range that does. -/
theorem construct_of_gt {id : String} {hash : PeerHash} {timestamp : Nat}
    {mode : ReplicationIntent} {offset width : Nat}
    (hoffset : offset ≤ R.maxValue) (hwidth : width ≤ R.maxValue)
    (hlt : offset + width < 2 * R.maxValue) (h : R.maxValue < offset + width) :
    construct R id hash timestamp mode offset width =
      some
        { id := id, hash := hash, timestamp := timestamp
          start1 := offset, end1 := R.maxValue
          start2 := 0, end2 := offset + width - R.maxValue
          width := width, mode := mode } := by
  have hmin : min (offset + width) R.maxValue = R.maxValue := by omega
  have htail : (if width ≠ R.maxValue then offset + width else offset) % R.maxValue =
      offset + width - R.maxValue := by
    split
    · rw [Nat.mod_eq_sub_mod (by omega), Nat.mod_eq_of_lt (by omega)]
    · rw [Nat.mod_eq_of_lt (by omega)]
      omega
  have hless : offset + width - R.maxValue < R.maxValue := by omega
  simp only [construct, getSegmentsFromOffsetAndRange, h, if_true, hmin, htail, hless]
  split
  · rename_i hbounds
    omega
  · have hkept : ((R.maxValue : Int) - offset +
        (((offset + width - R.maxValue : Nat) : Int) - (0 : Nat))).toNat =
          width := by
      omega
    rw [hkept]

end ReplicationRangeIndexable

end SharedLog
end Peerbit
