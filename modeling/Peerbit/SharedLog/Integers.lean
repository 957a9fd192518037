import Peerbit.Lib.EvenSpacing
import Peerbit.SharedLog.RangeIndex

/-!
# Evenly spaced coordinates

The coordinates of an entry are as many points of the ring as it has replicas.
`getEvenlySpacedU64` puts them at equal distances, starting from the cursor of the entry.

The coordinates are written into an array that is created with its length, and arrays
have at most `2^32 - 1` elements: for greater counts `new Array(count)` throws.  For all
others the coordinates are evenly spread (`spreadsEvenly_iff`).
-/

namespace Peerbit
namespace SharedLog

open Lib

/-- The `RangeError` of `new Array(count)`. -/
inductive RangeError where
  | invalidArrayLength
deriving Repr, DecidableEq

/-- Arrays are shorter than this. -/
def arrayLengthLimit : Nat := 2 ^ 32

/-- What the loop fills the array with. -/
def evenlySpaced (start count : Nat) : List Nat :=
  (List.range count).map fun i => (start + i * MAX_U64 / count) % MAX_U64

example : evenlySpaced MAX_U64 3 = [0, 6148914691236517205, 12297829382473034410] := by
  decide

/-- `getEvenlySpacedU64`, for a count that is a whole number. -/
def getEvenlySpacedU64 (start count : Nat) : Except RangeError (List Nat) :=
  if count < arrayLengthLimit then .ok (evenlySpaced start count)
  else .error .invalidArrayLength

/-- A range with the width of the whole ring. -/
structure FullWidth (range : ReplicationRangeIndexable) : Prop where
  constructed : ∃ id hash timestamp mode offset width,
    ReplicationRangeIndexable.construct .u64 id hash timestamp mode offset width =
      some range
  width : range.width = MAX_U64

/-- The distance of two neighbours is the floor or the ceiling of `MAX_U64 / count`. -/
def EvenGap (count distance : Nat) : Prop :=
  distance = MAX_U64 / count ∨ distance = MAX_U64 ⌈/⌉ count

/-- The coordinates are spread evenly over the ring.  The distance of a coordinate to the
next one is the number of steps up to it, a whole turn if there is no other; where there
are others, it makes no difference to measure it the shorter way round. -/
structure EvenlySpread (count : Nat) (coordinates : List Nat) : Prop where
  length : coordinates.length = count
  distinct : coordinates.Nodup
  lt_max : ∀ c ∈ coordinates, c < MAX_U64
  contained : ∀ range, FullWidth range → ∀ c ∈ coordinates, range.contains c = true
  gap : ∀ i a b, coordinates[i]? = some a → coordinates[(i + 1) % count]? = some b →
    EvenGap count (getDistance a b .below MAX_U64)
  closest : 2 ≤ count → ∀ i a b, coordinates[i]? = some a →
    coordinates[(i + 1) % count]? = some b →
    EvenGap count (getDistance a b .closest MAX_U64)

/-- The function returns `count` coordinates that are evenly spread. -/
def SpreadsEvenly (start count : Nat) : Prop :=
  ∃ coordinates, getEvenlySpacedU64 start count = .ok coordinates ∧
    EvenlySpread count coordinates

/-! ### Full ranges -/

/-- A full range has all points of the ring. -/
theorem FullWidth.contains {range : ReplicationRangeIndexable} (h : FullWidth range)
    {point : Nat} (hpoint : point < MAX_U64) : range.contains point = true := by
  obtain ⟨⟨id, hash, timestamp, mode, offset, width, hconstruct⟩, hwidth⟩ := h
  have hmax : Resolution.u64.maxValue = MAX_U64 := rfl
  rw [range.contains_iff]
  cases ReplicationRangeIndexable.shape_of_construct hconstruct with
  | single hstart hend hle hend1 hwidth1 => omega
  | wrapping hstart hend1 hend hlt hstart1 hwidth1 => omega

/-- A range that is created over the whole ring is full, unless it starts at its end. -/
theorem fullWidth_of_construct {id : String} {hash : PeerHash} {timestamp : Nat}
    {mode : ReplicationIntent} {offset : Nat} {range : ReplicationRangeIndexable}
    (hoffset : offset < MAX_U64)
    (h : ReplicationRangeIndexable.construct .u64 id hash timestamp mode offset MAX_U64 =
      some range) : FullWidth range := by
  refine ⟨⟨id, hash, timestamp, mode, offset, MAX_U64, h⟩, ?_⟩
  have hmax : Resolution.u64.maxValue = MAX_U64 := rfl
  have hmod : offset % MAX_U64 = offset := Nat.mod_eq_of_lt hoffset
  rw [ReplicationRangeIndexable.construct, getSegmentsFromOffsetAndRange, hmax] at h
  obtain ⟨-, h⟩ := Option.ite_none_left_eq_some.mp h
  obtain rfl := Option.some.inj h
  by_cases hzero : offset = 0
  · simp [hzero]
  · have hover : MAX_U64 < offset + MAX_U64 := by omega
    have hmin : min (offset + MAX_U64) MAX_U64 = MAX_U64 := by omega
    simp only [hover, if_true, hmin, ne_eq, not_true_eq_false, if_false, hmod, hoffset]
    omega

/-! ### Gaps -/

theorem getDistance_below (a b max : Nat) : getDistance a b .below max = stepsUp max a b :=
  rfl

/-- The shorter way round. -/
theorem getDistance_closest {a b max : Nat} (ha : a < max) (hb : b < max) (hne : a ≠ b) :
    getDistance a b .closest max = min (stepsUp max a b) (max - stepsUp max a b) := by
  unfold getDistance diff stepsUp
  rw [if_neg hne]
  by_cases hle : b ≤ a
  · simp only [hle, if_true]
    split <;> omega
  · simp only [hle, if_false]
    split <;> omega

theorem evenGap_closest {count d : Nat} (hcount : 2 ≤ count) (h : EvenGap count d) :
    EvenGap count (min d (MAX_U64 - d)) := by
  have hfloor : MAX_U64 / count ≤ MAX_U64 / 2 := Nat.div_le_div_left hcount (by decide)
  have hceil := ceilDiv_le_succ MAX_U64 (by omega : 0 < count)
  have hodd : MAX_U64 = 2 * (MAX_U64 / 2) + 1 := by decide
  unfold EvenGap at h ⊢
  generalize MAX_U64 / count = floor at *
  generalize MAX_U64 ⌈/⌉ count = ceil at *
  generalize MAX_U64 / 2 = half at *
  rcases h with rfl | rfl
  · exact .inl (by omega)
  · omega

variable {start count : Nat}

theorem getElem?_evenlySpaced {i a : Nat} (h : (evenlySpaced start count)[i]? = some a) :
    i < count ∧ a = (start + spacing MAX_U64 count i) % MAX_U64 := by
  rw [evenlySpaced, List.getElem?_map, Option.map_eq_some_iff] at h
  obtain ⟨j, hj, rfl⟩ := h
  obtain ⟨hi, hget⟩ := List.getElem?_eq_some_iff.mp hj
  rw [List.getElem_range] at hget
  subst hget
  exact ⟨by simpa using hi, rfl⟩

/-- After the last coordinate comes the first one, a whole turn later. -/
theorem next_evenlySpaced {i b : Nat} (hi : i < count)
    (h : (evenlySpaced start count)[(i + 1) % count]? = some b) :
    b = (start + spacing MAX_U64 count (i + 1)) % MAX_U64 := by
  obtain ⟨-, rfl⟩ := getElem?_evenlySpaced h
  by_cases hlast : i + 1 = count
  · rw [hlast, Nat.mod_self, spacing_zero, spacing_count _ (by omega), Nat.add_zero,
      Nat.add_mod_right]
  · rw [Nat.mod_eq_of_lt (by omega : i + 1 < count)]

/-- The steps from a coordinate up to the next one. -/
theorem evenGap_stepsUp (hle : count ≤ MAX_U64) {i a b : Nat}
    (ha : (evenlySpaced start count)[i]? = some a)
    (hb : (evenlySpaced start count)[(i + 1) % count]? = some b) :
    EvenGap count (stepsUp MAX_U64 a b) := by
  obtain ⟨hi, rfl⟩ := getElem?_evenlySpaced ha
  rw [next_evenlySpaced hi hb]
  have hcount : 0 < count := by omega
  obtain ⟨d, hnext, hd⟩ := exists_gap MAX_U64 hcount i
  have hmono := spacing_strictMono hcount hle
  have hless : spacing MAX_U64 count i < spacing MAX_U64 count (i + 1) :=
    hmono (Nat.lt_succ_self i)
  have hturn : spacing MAX_U64 count (i + 1) ≤ spacing MAX_U64 count count :=
    hmono.monotone hi
  rw [spacing_count _ hcount] at hturn
  rw [hnext, ← Nat.add_assoc, stepsUp_mod (by omega) (by omega)]
  exact hd

/-! ### The spread -/

@[simp] theorem length_evenlySpaced : (evenlySpaced start count).length = count := by
  rw [evenlySpaced, List.length_map, List.length_range]

theorem lt_of_mem_evenlySpaced {c : Nat} (hc : c ∈ evenlySpaced start count) :
    c < MAX_U64 := by
  obtain ⟨i, -, rfl⟩ := List.mem_map.mp hc
  exact Nat.mod_lt _ (by decide)

theorem nodup_evenlySpaced (start : Nat) (hle : count ≤ MAX_U64) :
    (evenlySpaced start count).Nodup := by
  refine List.Nodup.map_on ?_ List.nodup_range
  intro i hi j hj heq
  rw [List.mem_range] at hi hj
  exact spacing_mod_injOn (by omega) hle start hi hj heq

/-- All coordinates of a count that the ring has points for are evenly spread. -/
theorem evenlySpread_evenlySpaced (hle : count ≤ MAX_U64) :
    EvenlySpread count (evenlySpaced start count) := by
  have hnodup := nodup_evenlySpaced start hle
  constructor
  case length => exact length_evenlySpaced
  case distinct => exact hnodup
  case lt_max => exact fun c hc => lt_of_mem_evenlySpaced hc
  case contained =>
    intro range hfull c hc
    exact hfull.contains (lt_of_mem_evenlySpaced hc)
  case gap =>
    intro i a b ha hb
    rw [getDistance_below]
    exact evenGap_stepsUp hle ha hb
  case closest =>
    intro htwo i a b ha hb
    have hi := (getElem?_evenlySpaced ha).1
    have hne : a ≠ b := by
      rintro rfl
      have hnext := (List.getElem?_inj (by simpa using hi) hnodup).mp (ha.trans hb.symm)
      by_cases hlast : i + 1 = count
      · rw [hlast, Nat.mod_self] at hnext
        omega
      · rw [Nat.mod_eq_of_lt (by omega : i + 1 < count)] at hnext
        omega
    rw [getDistance_closest (lt_of_mem_evenlySpaced (List.mem_of_getElem? ha))
      (lt_of_mem_evenlySpaced (List.mem_of_getElem? hb)) hne]
    exact evenGap_closest htwo (evenGap_stepsUp hle ha hb)

/-- **When coordinates are evenly spread**: for every start and every count that an array
can have as its length.  Greater counts throw. -/
theorem spreadsEvenly_iff (start count : Nat) :
    SpreadsEvenly start count ↔ count < arrayLengthLimit := by
  constructor
  · rintro ⟨coordinates, hok, -⟩
    by_contra hnot
    rw [getEvenlySpacedU64, if_neg hnot] at hok
    cases hok
  · intro hlt
    have hle : count ≤ MAX_U64 := Nat.le_trans (Nat.le_of_lt hlt) (by decide)
    exact ⟨_, if_pos hlt, evenlySpread_evenlySpaced hle⟩

/-- A count for which the ring has points enough, and an array has no room. -/
theorem not_spreadsEvenly :
    1 ≤ arrayLengthLimit ∧ arrayLengthLimit ≤ MAX_U64 ∧
      getEvenlySpacedU64 0 arrayLengthLimit = .error .invalidArrayLength ∧
      ¬ SpreadsEvenly 0 arrayLengthLimit := by
  refine ⟨by decide, by decide, rfl, ?_⟩
  rintro ⟨coordinates, hok, -⟩
  exact nomatch hok

end SharedLog
end Peerbit
