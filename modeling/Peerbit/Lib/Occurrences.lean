import Mathlib.Data.List.Sort

/-!
# Occurrences of a list in a list

Where one list occurs in another, overlapping occurrences included, and the first
occurrence from a position on.
-/

namespace Peerbit
namespace Lib

variable {α : Type} [DecidableEq α]

/-- The list has the value at this offset. -/
def occursAt (s value : List α) (offset : Nat) : Bool :=
  value.isPrefixOf (s.drop offset)

/-- All offsets of the value, in increasing order. -/
def offsets (s value : List α) : List Nat :=
  (List.range (s.length + 1)).filter (occursAt s value)

/-- The offsets from a position on. -/
def offsetsFrom (s value : List α) (position : Nat) : List Nat :=
  (offsets s value).filter (position ≤ ·)

/-- The first offset from a position on; a position after the end is the end. -/
def indexOf (s value : List α) (position : Nat) : Option Nat :=
  (List.range (s.length + 1)).find?
    (fun i => occursAt s value i && decide (min position s.length ≤ i))

/-! ### Offsets -/

theorem offset_lt_of_occursAt {s value : List α} {offset : Nat}
    (hvalue : value ≠ []) (h : occursAt s value offset = true) :
    offset < s.length := by
  by_contra hlt
  unfold occursAt at h
  rw [List.drop_eq_nil_of_le (by omega), List.isPrefixOf_iff_prefix,
    List.prefix_nil] at h
  exact hvalue h

theorem mem_offsets {s value : List α} {offset : Nat} (hvalue : value ≠ []) :
    offset ∈ offsets s value ↔ occursAt s value offset = true := by
  unfold offsets
  rw [List.mem_filter, List.mem_range]
  constructor
  · exact fun h => h.2
  · intro h
    have := offset_lt_of_occursAt hvalue h
    exact ⟨by omega, h⟩

theorem sortedLT_offsets (s value : List α) : (offsets s value).SortedLT :=
  List.sortedLT_iff_pairwise.mpr (List.pairwise_lt_range.filter _)

/-- Two lists have a value at the same offsets. -/
theorem offsets_eq_iff {s t value : List α} (hvalue : value ≠ []) :
    offsets s value = offsets t value ↔
      ∀ i, occursAt s value i = occursAt t value i := by
  constructor
  · intro h i
    rw [Bool.eq_iff_iff, ← mem_offsets hvalue, ← mem_offsets hvalue, h]
  · intro h
    refine (sortedLT_offsets s value).eq_of_mem_iff (sortedLT_offsets t value) ?_
    intro i
    rw [mem_offsets hvalue, mem_offsets hvalue, h i]

@[simp] theorem offsetsFrom_zero (s value : List α) :
    offsetsFrom s value 0 = offsets s value := by
  simp [offsetsFrom]

/-! ### The first offset -/

theorem indexOf_eq_head? (s value : List α) (position : Nat) :
    indexOf s value position =
      (offsetsFrom s value (min position s.length)).head? := by
  unfold indexOf offsetsFrom offsets
  rw [List.filter_filter, List.head?_filter]
  congr 1
  funext i
  exact Bool.and_comm _ _

/-- The empty list is found everywhere. -/
theorem indexOf_nil (s : List α) (position : Nat) :
    ∃ i, indexOf s [] position = some i := by
  rw [← Option.isSome_iff_exists]
  unfold indexOf
  rw [List.find?_isSome]
  refine ⟨min position s.length, List.mem_range.mpr (by omega), ?_⟩
  simp [occursAt]

/-- After the first offset come those from the next position on. -/
theorem offsetsFrom_eq_cons {s value : List α} {position i : Nat}
    (h : (offsetsFrom s value position).head? = some i) :
    offsetsFrom s value position = i :: offsetsFrom s value (i + 1) := by
  obtain ⟨rest, hrest⟩ := List.head?_eq_some_iff.mp h
  have hsorted : (i :: rest).Pairwise (· < ·) := by
    rw [← hrest]
    exact (sortedLT_offsets s value).pairwise.filter _
  have hposition : position ≤ i := by
    have hmem : i ∈ offsetsFrom s value position := by simp [hrest]
    simpa using (List.mem_filter.mp hmem).2
  have hnext : offsetsFrom s value (i + 1) =
      (offsetsFrom s value position).filter (i + 1 ≤ ·) := by
    unfold offsetsFrom
    rw [List.filter_filter]
    refine List.filter_congr (fun j _ => ?_)
    rw [Bool.eq_iff_iff]
    simp only [decide_eq_true_eq, Bool.and_eq_true]
    omega
  rw [hnext, hrest, List.filter_cons_of_neg (by simp)]
  congr 1
  symm
  rw [List.filter_eq_self]
  intro j hj
  exact decide_eq_true (List.rel_of_pairwise_cons hsorted hj)

theorem indexOf_of_le {s value : List α} {position : Nat} (h : position ≤ s.length) :
    indexOf s value position = (offsetsFrom s value position).head? := by
  rw [indexOf_eq_head?, Nat.min_eq_left h]

/-- An offset of a value that is not empty is not the end. -/
theorem lt_of_head?_offsetsFrom {s value : List α} {position i : Nat}
    (hvalue : value ≠ []) (h : (offsetsFrom s value position).head? = some i) :
    i < s.length := by
  have hmem : i ∈ offsets s value :=
    List.mem_of_mem_filter (List.mem_of_mem_head? h)
  exact offset_lt_of_occursAt hvalue ((mem_offsets hvalue).mp hmem)

end Lib
end Peerbit
