import Mathlib

/-!
# Half-open segments and what a list of them covers

A segment is a pair of end points of a linear order; it stands for the points
from the first one on, up to and without the second one.  This module is about
lists of segments and the set of points they cover: how coverage behaves under
the list operations, how a subtraction of one segment extends to a list of
subtrahends, and what a left-to-right sweep over sorted segments keeps.

Nothing here assumes that segments are non-empty, sorted or disjoint unless a
lemma says so.
-/

namespace Peerbit
namespace Lib

universe u

variable {α : Type u} [LinearOrder α]

/-- The points covered by a list of half-open segments. -/
def coverage (segments : List (α × α)) : Set α :=
  {p | ∃ s ∈ segments, s.1 ≤ p ∧ p < s.2}

theorem mem_coverage {p : α} {segments : List (α × α)} :
    p ∈ coverage segments ↔ ∃ s ∈ segments, s.1 ≤ p ∧ p < s.2 :=
  Iff.rfl

@[simp] theorem coverage_nil : coverage ([] : List (α × α)) = ∅ := by
  ext p
  simp [mem_coverage]

@[simp] theorem coverage_cons
    (s : α × α) (segments : List (α × α)) :
    coverage (s :: segments) = Set.Ico s.1 s.2 ∪ coverage segments := by
  ext p
  simp [mem_coverage]

@[simp] theorem coverage_append
    (xs ys : List (α × α)) :
    coverage (xs ++ ys) = coverage xs ∪ coverage ys := by
  induction xs with
  | nil => simp
  | cons s xs ih => simp [ih, Set.union_assoc]

theorem coverage_perm
    {xs ys : List (α × α)}
    (h : xs.Perm ys) :
    coverage xs = coverage ys := by
  ext p
  simp only [mem_coverage, h.mem_iff]

/-- Dropping the empty segments does not change what is covered. -/
theorem coverage_filter_nonempty
    (xs : List (α × α)) :
    coverage (xs.filter (fun s => decide (s.1 < s.2))) = coverage xs := by
  ext p
  simp only [mem_coverage, List.mem_filter, decide_eq_true_eq]
  constructor
  · rintro ⟨s, ⟨hs, _⟩, hp⟩
    exact ⟨s, hs, hp⟩
  · rintro ⟨s, hs, hp⟩
    exact ⟨s, ⟨hs, hp.1.trans_lt hp.2⟩, hp⟩

section Subtraction

variable (sub : α × α → α × α → List (α × α))

/-- `sub a b` is a decomposition of what `a` has and `b` has not. -/
def Subtracts : Prop :=
  ∀ a b, coverage (sub a b) = Set.Ico a.1 a.2 \ Set.Ico b.1 b.2

variable {sub}

theorem coverage_flatMap_sub
    (hsub : Subtracts sub)
    (b : α × α) (leftover : List (α × α)) :
    coverage (leftover.flatMap (fun s => sub s b)) =
      coverage leftover \ Set.Ico b.1 b.2 := by
  induction leftover with
  | nil => simp
  | cons s leftover ih =>
      rw [List.flatMap_cons, coverage_append, hsub, ih, coverage_cons,
        Set.union_sdiff_distrib]

/-- Subtracting the segments of a list one after the other subtracts what the
list covers. -/
theorem coverage_foldl_sub
    (hsub : Subtracts sub)
    (bs leftover : List (α × α)) :
    coverage
        (bs.foldl (fun acc b => acc.flatMap (fun s => sub s b)) leftover) =
      coverage leftover \ coverage bs := by
  induction bs generalizing leftover with
  | nil => simp
  | cons b bs ih =>
      rw [List.foldl_cons, ih, coverage_flatMap_sub hsub, coverage_cons,
        Set.sdiff_sdiff]

end Subtraction

/-- Two segments of which the second starts inside, or right after, the first
cover together one segment. -/
theorem Ico_union_of_touching
    {a b c d : α}
    (hac : a ≤ c) (hcb : c ≤ b) :
    Set.Ico a b ∪ Set.Ico c d = Set.Ico a (max b d) := by
  ext p
  simp only [Set.mem_union, Set.mem_Ico, lt_max_iff]
  constructor
  · rintro (⟨h1, h2⟩ | ⟨h1, h2⟩)
    · exact ⟨h1, Or.inl h2⟩
    · exact ⟨hac.trans h1, Or.inr h2⟩
  · rintro ⟨h1, h2 | h2⟩
    · exact Or.inl ⟨h1, h2⟩
    · by_cases hp : p < b
      · exact Or.inl ⟨h1, hp⟩
      · exact Or.inr ⟨hcb.trans (not_lt.mp hp), h2⟩

/-- Segments listed in order with a gap between any two of them. -/
def Separated (segments : List (α × α)) : Prop :=
  segments.Pairwise (fun s t => s.2 < t.1)

/-- Of separated segments, the first ones and the remaining ones have no point
in common. -/
theorem Separated.disjoint_coverage
    {xs ys : List (α × α)}
    (h : Separated (xs ++ ys)) :
    Disjoint (coverage xs) (coverage ys) := by
  rw [Set.disjoint_left]
  rintro p ⟨s, hs, _, hend⟩ ⟨t, ht, hstart, _⟩
  have hgap : s.2 < t.1 := (List.pairwise_append.mp h).2.2 s hs t ht
  exact absurd (hend.trans hgap) (not_lt.mpr hstart)

end Lib
end Peerbit
