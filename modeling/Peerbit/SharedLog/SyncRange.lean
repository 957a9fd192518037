import Mathlib.Data.List.Sort
import Peerbit.SharedLog.Ranges

/-!
# The range of a rateless sync

A sender that starts a rateless sync names the range of the ring that its
coordinates lie in.  It looks for the largest gap between two of them that follow
each other; the range starts behind this gap, and ends before it.  The receiver
decodes with its own entries of this range.

The receiver takes the end of the range as excluded.  But the sender's end is its
last coordinate before the gap, which is then left out; only the range of a single
coordinate is made one longer (`matchesAll_iff`).
-/

namespace Peerbit
namespace SharedLog

/-! ### The sender -/

/-- The loop over the gaps of the sorted coordinates, from the index `i` on; `gap`
is the largest one so far, with its index. -/
def largestGapFrom (max : Nat) : Nat → Nat × Nat → List Nat → Nat × Nat
  | i, largest, current :: next :: rest =>
      let gap := if current ≤ next then next - current else max - current + next
      largestGapFrom max (i + 1) (if largest.1 < gap then (gap, i) else largest)
        (next :: rest)
  | _, largest, _ => largest

/-- `allCoordinatesToSyncWithIblt.sort(...)`. -/
def sortedEntries (coordinates : List Nat) : List Nat :=
  coordinates.insertionSort (· ≤ ·)

/-- `start` and `end` of `StartSync`; `none` when there are no coordinates. -/
def syncRange (R : Resolution) (coordinates : List Nat) : Option (Nat × Nat) :=
  let sorted := sortedEntries coordinates
  let largestGapIndex := (largestGapFrom R.maxValue 0 (0, 0) sorted).2
  match sorted[(largestGapIndex + 1) % sorted.length]?, sorted[largestGapIndex]? with
  | some smallestRangeStart, some smallestRangeEnd =>
      if smallestRangeEnd = smallestRangeStart then
        some (smallestRangeEnd,
          if R.maxValue < smallestRangeEnd + 1 then 0 else smallestRangeEnd + 1)
      else
        some (smallestRangeStart, smallestRangeEnd)
  | _, _ => none

/-! ### The receiver -/

/-- `matchEntriesInRangeQuery`, for a coordinate. -/
def matchEntriesInRangeQuery (start1 end1 start2 end2 coordinate : Nat) : Bool :=
  let c1 := decide (start1 ≤ coordinate) && decide (coordinate < end1)
  if start2 = end2 then c1
  else c1 || (decide (start2 ≤ coordinate) && decide (coordinate < end2))

/-- The query that the receiver of `StartSync` makes. -/
def startSyncQuery (R : Resolution) (range : Nat × Nat) (coordinate : Nat) : Bool :=
  let wrapped := decide (range.2 < range.1)
  matchEntriesInRangeQuery range.1 (if wrapped then R.maxValue else range.2) 0
    (if wrapped then range.2 else 0) coordinate

/-- The range that is sent makes the receiver match all coordinates. -/
def MatchesAll (R : Resolution) (coordinates : List Nat) : Prop :=
  ∃ range, syncRange R coordinates = some range ∧
    ∀ coordinate ∈ coordinates, startSyncQuery R range coordinate = true

/-! ### Gaps -/

section Gaps

variable {max : Nat}

/-- A largest gap that was found lies between two coordinates of the list. -/
def GapFound (full : List Nat) (largest : Nat × Nat) : Prop :=
  largest.1 = 0 ∧ largest.2 = 0 ∨
    ∃ current next, full[largest.2]? = some current ∧
      full[largest.2 + 1]? = some next ∧ current < next

theorem gapFound_largestGapFrom {full rest : List Nat} {i : Nat} {largest : Nat × Nat}
    (hsorted : rest.Pairwise (· ≤ ·)) (hrest : ∀ k, full[i + k]? = rest[k]?)
    (hfound : GapFound full largest) :
    GapFound full (largestGapFrom max i largest rest) := by
  induction rest generalizing i largest with
  | nil => exact hfound
  | cons current rest ih =>
      cases rest with
      | nil => exact hfound
      | cons next rest =>
          have hle : current ≤ next := (List.pairwise_cons.mp hsorted).1 next (by simp)
          have htail : ∀ k, full[i + 1 + k]? = (next :: rest)[k]? := fun k => by
            have hk := hrest (k + 1)
            rwa [List.getElem?_cons_succ, Nat.add_comm k, ← Nat.add_assoc] at hk
          rw [largestGapFrom]
          refine ih (List.pairwise_cons.mp hsorted).2 htail ?_
          simp only [hle, if_true]
          split
          · exact .inr ⟨current, next, hrest 0, hrest 1, by omega⟩
          · exact hfound

/-- Where no gap is found, all coordinates are equal. -/
theorem eq_of_largestGapFrom_eq_zero {rest : List Nat} {i head : Nat}
    {largest : Nat × Nat} (hsorted : (head :: rest).Pairwise (· ≤ ·))
    (h : (largestGapFrom max i largest (head :: rest)).1 = 0) :
    largest.1 = 0 ∧ ∀ c ∈ rest, c = head := by
  induction rest generalizing i head largest with
  | nil => exact ⟨h, by simp⟩
  | cons next rest ih =>
      have hle : head ≤ next := (List.pairwise_cons.mp hsorted).1 next (by simp)
      rw [largestGapFrom] at h
      simp only [hle, if_true] at h
      obtain ⟨hlargest, heq⟩ := ih (List.pairwise_cons.mp hsorted).2 h
      split at hlargest
      · simp only at hlargest
        omega
      · obtain rfl : next = head := by omega
        refine ⟨hlargest, fun c hc => ?_⟩
        rcases List.mem_cons.mp hc with rfl | hc
        · rfl
        · exact heq c hc

end Gaps

/-! ### When all coordinates match -/

section Matching

variable {R : Resolution} {coordinates : List Nat}

theorem mem_sortedEntries {c : Nat} : c ∈ sortedEntries coordinates ↔ c ∈ coordinates :=
  (List.perm_insertionSort _ _).mem_iff

variable (coordinates) in
theorem sorted_sortedEntries : (sortedEntries coordinates).Pairwise (· ≤ ·) :=
  List.pairwise_insertionSort _ _

theorem gapFound_sortedEntries (R : Resolution) (coordinates : List Nat) :
    GapFound (sortedEntries coordinates)
      (largestGapFrom R.maxValue 0 (0, 0) (sortedEntries coordinates)) :=
  gapFound_largestGapFrom (sorted_sortedEntries coordinates) (fun k => by rw [Nat.zero_add])
    (.inl ⟨rfl, rfl⟩)

/-- The end of the range is not in it, unless the coordinates are all equal. -/
theorem eq_of_matchesAll (h : MatchesAll R coordinates) :
    ∀ a ∈ coordinates, ∀ b ∈ coordinates, a = b := by
  obtain ⟨range, hrange, hall⟩ := h
  rcases gapFound_sortedEntries R coordinates with
    ⟨hzero, -⟩ | ⟨current, next, hcurrent, hnext, hlt⟩
  · -- there is no gap
    intro a ha b hb
    rw [← mem_sortedEntries] at ha hb
    have hsorted := sorted_sortedEntries coordinates
    cases hentries : sortedEntries coordinates with
    | nil =>
        rw [hentries] at ha
        cases ha
    | cons head rest =>
        rw [hentries] at ha hb hzero hsorted
        obtain ⟨-, heq⟩ := eq_of_largestGapFrom_eq_zero hsorted hzero
        have hhead : ∀ c ∈ head :: rest, c = head := by
          intro c hc
          rcases List.mem_cons.mp hc with rfl | hc
          · rfl
          · exact heq c hc
        rw [hhead a ha, hhead b hb]
  · -- the last coordinate before the gap is left out
    exfalso
    have hindex := (List.getElem?_eq_some_iff.mp hnext).1
    rw [syncRange] at hrange
    simp only [Nat.mod_eq_of_lt hindex, hcurrent, hnext, Nat.ne_of_lt hlt, if_false] at hrange
    obtain rfl := Option.some.inj hrange
    have hmem : current ∈ coordinates :=
      mem_sortedEntries.mp (List.mem_of_getElem? hcurrent)
    have hquery := hall current hmem
    have hnot : ¬ next ≤ current := by omega
    simp [startSyncQuery, matchEntriesInRangeQuery, hlt, hnot] at hquery

/-- The range of equal coordinates is one coordinate long. -/
theorem matchesAll_of_eq (hne : coordinates ≠ [])
    (hmax : ∀ c ∈ coordinates, c < R.maxValue)
    (heq : ∀ a ∈ coordinates, ∀ b ∈ coordinates, a = b) : MatchesAll R coordinates := by
  have hlength : (sortedEntries coordinates).length = coordinates.length :=
    List.length_insertionSort _ _
  have hpos : 0 < coordinates.length := List.length_pos_iff.mpr hne
  have hindex : (largestGapFrom R.maxValue 0 (0, 0) (sortedEntries coordinates)).2 <
      (sortedEntries coordinates).length := by
    rcases gapFound_sortedEntries R coordinates with ⟨-, hzero⟩ | ⟨_, _, hcurrent, -, -⟩
    · omega
    · exact (List.getElem?_eq_some_iff.mp hcurrent).1
  obtain ⟨last, hlast⟩ : ∃ c, (sortedEntries coordinates)[
      (largestGapFrom R.maxValue 0 (0, 0) (sortedEntries coordinates)).2]? = some c :=
    ⟨_, List.getElem?_eq_getElem hindex⟩
  obtain ⟨first, hfirst⟩ : ∃ c, (sortedEntries coordinates)[
      ((largestGapFrom R.maxValue 0 (0, 0) (sortedEntries coordinates)).2 + 1) %
        (sortedEntries coordinates).length]? = some c :=
    ⟨_, List.getElem?_eq_getElem (Nat.mod_lt _ (by omega))⟩
  have hmem := mem_sortedEntries.mp (List.mem_of_getElem? hlast)
  have hsame : last = first :=
    heq last hmem first (mem_sortedEntries.mp (List.mem_of_getElem? hfirst))
  have hlt := hmax last hmem
  refine ⟨(last, last + 1), ?_, fun c hc => ?_⟩
  · rw [syncRange]
    simp only [hlast, hfirst, hsame, if_true]
    rw [if_neg (by omega)]
  · have hplain : ¬ last + 1 < last := by omega
    rw [heq c hc last hmem]
    simp [startSyncQuery, matchEntriesInRangeQuery, hplain]

/-- **The receiver matches all coordinates** of the sender when these are equal, and
only then. -/
theorem matchesAll_iff (hne : coordinates ≠ [])
    (hmax : ∀ c ∈ coordinates, c < R.maxValue) :
    MatchesAll R coordinates ↔ ∀ a ∈ coordinates, ∀ b ∈ coordinates, a = b :=
  ⟨eq_of_matchesAll, matchesAll_of_eq hne hmax⟩

/-- The coordinate `5` is the last one before the largest gap. -/
theorem not_matchesAll_gap : ¬ MatchesAll .u32 [1, 100, 5] := by
  rintro ⟨range, hrange, hall⟩
  obtain rfl := Option.some.inj (hrange.symm.trans (show _ = some (100, 5) from rfl))
  exact absurd (hall 5 (by decide)) (by decide)

/-- An entry with a coordinate that is repeated. -/
theorem matchesAll_repeated : MatchesAll .u32 [7, 7] :=
  (matchesAll_iff (by decide) (by decide)).mpr (by decide)

end Matching

end SharedLog
end Peerbit
