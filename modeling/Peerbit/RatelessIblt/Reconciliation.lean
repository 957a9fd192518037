import Mathlib.Algebra.BigOperators.Group.Finset.Basic
import Mathlib.Data.List.Perm.Subperm
import Peerbit.Lib.Machines
import Peerbit.RatelessIblt.Decoder

/-!
# Set reconciliation

A decoder that holds a set `B` and receives the coded symbols of a set `A` finds
out what is in one of them only.  A coded symbol of the decoder is at all times
the sum of what is still unknown of the difference, at its index: the unknown
symbols of `A` less those of `B`.

Coded symbols come into `decodable` when one unknown symbol is left in them or
none, and each comes in once.  All symbols go to the index zero, so that nothing
is unknown any more when all coded symbols are counted.
-/

namespace Peerbit
namespace RatelessIblt

universe u

section Sums

variable {T : Type u} [Symbol T] [LawfulSymbol T]

/-- The exclusive or of a set and of its hashes, and its size. -/
def total (S : Finset T) : CodedSymbol T :=
  ∑ s ∈ S, (hashed s).coded

/-- The hash is injective on a set, and the exclusive or of the hashes of three or
more of its symbols is neither zero nor the hash of the exclusive or of these. -/
structure CollisionFree (U : Finset T) : Prop where
  injective : Set.InjOn (Symbol.hash : T → UInt64) U
  xor : ∀ S ⊆ U, 3 ≤ S.card →
    (total S).hash ≠ 0 ∧ (total S).hash ≠ Symbol.hash (total S).symbol

theorem count_total (S : Finset T) : (total S).count = S.card := by
  classical
  induction S using Finset.induction_on with
  | empty => rfl
  | insert s S hs ih =>
      rw [total, Finset.sum_insert hs, count_add, Finset.card_insert_of_notMem hs]
      rw [total] at ih
      rw [ih]
      simp only [HashedSymbol.coded]
      omega

theorem total_empty : total (∅ : Finset T) = 0 :=
  Finset.sum_empty

theorem total_singleton (s : T) : total {s} = (hashed s).coded :=
  Finset.sum_singleton _ _

section Cells

variable [DecidableEq T] {U P N : Finset T}

theorem total_union (hdisjoint : Disjoint P N) : total (P ∪ N) = total P + total N :=
  Finset.sum_union hdisjoint

omit [DecidableEq T] in
theorem count_sub (P N : Finset T) :
    (total P - total N).count = (P.card : Int) - N.card := by
  rw [sub_eq_add_neg, count_add, count_total]
  change (P.card : Int) + -(total N).count = _
  rw [count_total]
  omega

/-- A coded symbol that looks like one symbol is one symbol. -/
theorem card_of_isSingle (hfree : CollisionFree U) (hsub : P ∪ N ⊆ U)
    (hdisjoint : Disjoint P N) (h : (total P - total N).isSingle = true) :
    (P ∪ N).card = 1 := by
  rw [CodedSymbol.isSingle, Bool.and_eq_true, Bool.or_eq_true, decide_eq_true_eq,
    decide_eq_true_eq, decide_eq_true_eq, count_sub] at h
  obtain ⟨hcount, hhash⟩ := h
  have hcard := Finset.card_union_of_disjoint hdisjoint
  by_contra hne
  refine (hfree.xor (P ∪ N) hsub (by omega)).2 ?_
  rw [total_union hdisjoint]
  exact hhash

/-- A coded symbol that looks empty is empty. -/
theorem card_of_zero (hfree : CollisionFree U) (hsub : P ∪ N ⊆ U)
    (hdisjoint : Disjoint P N) (hcount : (total P - total N).count = 0)
    (hhash : (total P - total N).hash = 0) : (P ∪ N).card = 0 := by
  rw [count_sub] at hcount
  have hcard := Finset.card_union_of_disjoint hdisjoint
  have hxor : (total (P ∪ N)).hash = 0 := by
    rw [total_union hdisjoint]
    exact hhash
  by_contra hne
  by_cases hthree : 3 ≤ (P ∪ N).card
  · exact (hfree.xor (P ∪ N) hsub hthree).1 hxor
  · -- one symbol on each side, with the same hash
    obtain ⟨p, rfl⟩ := Finset.card_eq_one.mp (show P.card = 1 by omega)
    obtain ⟨n, rfl⟩ := Finset.card_eq_one.mp (show N.card = 1 by omega)
    rw [total_singleton, total_singleton] at hhash
    have heq : Symbol.hash p = Symbol.hash n := UInt64.xor_eq_zero_iff.mp hhash
    have hpn := hfree.injective (hsub (by simp)) (hsub (by simp)) heq
    rw [hpn] at hdisjoint
    simp at hdisjoint

end Cells

end Sums

/-! ### What is unknown at an index -/

section Unknown

variable {T : Type u} [Symbol T] (nextIndex : RandomMapping → RandomMapping)

open Classical in
/-- The symbols of a set that are part of the coded symbol at an index. -/
noncomputable def goesTo (S : Finset T) (i : Nat) : Finset T :=
  S.filter (fun s => Maps nextIndex (Symbol.hash s) i)

variable {nextIndex} {S : Finset T} {s : T} {i : Nat}

theorem mem_goesTo :
    s ∈ goesTo nextIndex S i ↔ s ∈ S ∧ Maps nextIndex (Symbol.hash s) i := by
  classical
  simp [goesTo]

theorem goesTo_subset (S : Finset T) (i : Nat) : goesTo nextIndex S i ⊆ S :=
  fun _ hs => (mem_goesTo.mp hs).1

theorem goesTo_zero (S : Finset T) : goesTo nextIndex S 0 = S := by
  ext s
  rw [mem_goesTo]
  exact and_iff_left (maps_zero nextIndex _)

variable [DecidableEq T]

theorem goesTo_union (S S' : Finset T) (i : Nat) :
    goesTo nextIndex (S ∪ S') i = goesTo nextIndex S i ∪ goesTo nextIndex S' i := by
  ext s
  simp only [mem_goesTo, Finset.mem_union]
  tauto

theorem goesTo_erase (S : Finset T) (s : T) (i : Nat) :
    goesTo nextIndex (S.erase s) i = (goesTo nextIndex S i).erase s := by
  ext s'
  simp only [mem_goesTo, Finset.mem_erase]
  tauto

/-- A list of symbols at an index, as a set. -/
theorem mapped_eq_total [LawfulSymbol T] {l : List T} (hl : l.Nodup) (i : Nat) :
    Encoder.mapped nextIndex (l.map hashed) i = total (goesTo nextIndex l.toFinset i) := by
  classical
  rw [Encoder.mapped, List.map_map, total, goesTo, Finset.sum_filter,
    List.sum_toFinset _ hl]
  rfl

/-- The indices that are handled and those that wait to be, while `U` is unknown. -/
structure Counting (nextIndex : RandomMapping → RandomMapping) (U : Finset T) (n : Nat)
    (handled pending : List Nat) : Prop where
  nodup : (handled ++ pending).Nodup
  light : ∀ i ∈ handled ++ pending, i < n ∧ (goesTo nextIndex U i).card ≤ 1
  empty : ∀ i ∈ handled, goesTo nextIndex U i = ∅

namespace Counting

variable {U : Finset T} {n cidx : Nat} {handled pending rest : List Nat}

omit [DecidableEq T] in
/-- All indices are handled once at most. -/
theorem length_le (h : Counting nextIndex U n handled pending) : handled.length ≤ n := by
  have hnodup := (List.nodup_append.mp h.nodup).1
  have hsub : handled ⊆ List.range n := fun i hi =>
    List.mem_range.mpr (h.light i (List.mem_append_left _ hi)).1
  have hle := (hnodup.subperm hsub).length_le
  rwa [List.length_range] at hle

omit [DecidableEq T] in
/-- When all are handled, nothing is unknown. -/
theorem eq_empty (h : Counting nextIndex U n handled pending) (hn : 0 < n)
    (hall : handled.length = n) : U = ∅ := by
  have hnodup := (List.nodup_append.mp h.nodup).1
  have hsub : handled ⊆ List.range n := fun i hi =>
    List.mem_range.mpr (h.light i (List.mem_append_left _ hi)).1
  have hperm := (hnodup.subperm hsub).perm_of_length_le
    (by rw [List.length_range]; exact Nat.le_of_eq hall.symm)
  have hzero := h.empty 0 (hperm.mem_iff.mpr (List.mem_range.mpr hn))
  rwa [goesTo_zero] at hzero

omit [DecidableEq T] in
/-- An empty coded symbol is handled. -/
theorem skip (h : Counting nextIndex U n handled (cidx :: rest))
    (hempty : goesTo nextIndex U cidx = ∅) :
    Counting nextIndex U n (handled ++ [cidx]) rest where
  nodup := by simpa using h.nodup
  light i hi := h.light i (by simpa using hi)
  empty i hi := by
    rcases List.mem_append.mp hi with hi | hi
    · exact h.empty i hi
    · rw [List.mem_singleton.mp hi]
      exact hempty

/-- A coded symbol is handled that gives away `s`; others are then left with one
symbol. -/
theorem recover (h : Counting nextIndex U n handled (cidx :: rest))
    (hs : s ∈ goesTo nextIndex U cidx) {singles : List Nat}
    (hsorted : singles.Pairwise (· < ·))
    (hsingles : ∀ i ∈ singles, i < n ∧ Maps nextIndex (Symbol.hash s) i ∧
      (goesTo nextIndex (U.erase s) i).card = 1) :
    Counting nextIndex (U.erase s) n (handled ++ [cidx]) (rest ++ singles) := by
  have hlist : handled ++ [cidx] ++ (rest ++ singles) =
      (handled ++ cidx :: rest) ++ singles := by simp
  have hle : ∀ i, (goesTo nextIndex (U.erase s) i).card ≤
      (goesTo nextIndex U i).card := by
    intro i
    rw [goesTo_erase]
    exact Finset.card_erase_le
  constructor
  case nodup =>
    rw [hlist, List.nodup_append]
    refine ⟨h.nodup, hsorted.imp Nat.ne_of_lt, fun i hi j hj hij => ?_⟩
    subst hij
    -- two symbols were there, so that the index did not wait yet
    obtain ⟨-, hmaps, hone⟩ := hsingles i hj
    have hmem : s ∈ goesTo nextIndex U i :=
      mem_goesTo.mpr ⟨(mem_goesTo.mp hs).1, hmaps⟩
    rw [goesTo_erase, Finset.card_erase_of_mem hmem] at hone
    have hlight := (h.light i hi).2
    omega
  case light =>
    intro i hi
    rw [hlist] at hi
    rcases List.mem_append.mp hi with hi | hi
    · obtain ⟨hlt, hlight⟩ := h.light i hi
      exact ⟨hlt, Nat.le_trans (hle i) hlight⟩
    · obtain ⟨hlt, -, hone⟩ := hsingles i hi
      exact ⟨hlt, Nat.le_of_eq hone⟩
  case empty =>
    intro i hi
    rw [goesTo_erase]
    rcases List.mem_append.mp hi with hi | hi
    · rw [h.empty i hi]
      rfl
    · obtain rfl := List.mem_singleton.mp hi
      have hlight := (h.light i (by simp)).2
      rw [← Finset.card_eq_zero, Finset.card_erase_of_mem hs]
      omega

omit [DecidableEq T] in
/-- A coded symbol is received. -/
theorem receive (h : Counting nextIndex U n handled pending) {singles : List Nat}
    (hsingles : singles = [] ∨
      singles = [n] ∧ (goesTo nextIndex U n).card ≤ 1) :
    Counting nextIndex U (n + 1) handled (pending ++ singles) := by
  have hold : ∀ i ∈ handled ++ pending,
      i < n + 1 ∧ (goesTo nextIndex U i).card ≤ 1 := by
    intro i hi
    obtain ⟨hlt, hlight⟩ := h.light i hi
    exact ⟨by omega, hlight⟩
  rcases hsingles with rfl | ⟨rfl, hlight⟩
  · rw [List.append_nil]
    exact ⟨h.nodup, hold, h.empty⟩
  · refine ⟨?_, ?_, h.empty⟩
    · rw [← List.append_assoc, List.nodup_append]
      refine ⟨h.nodup, List.nodup_singleton n, fun i hi j hj hij => ?_⟩
      have hlt := (h.light i hi).1
      rw [hij, List.mem_singleton.mp hj] at hlt
      omega
    · intro i hi
      rw [← List.append_assoc] at hi
      rcases List.mem_append.mp hi with hi | hi
      · exact hold i hi
      · rw [List.mem_singleton.mp hi]
        exact ⟨Nat.lt_succ_self n, hlight⟩

end Counting

/-- No index with one symbol or none is missed: it is handled, or it waits. -/
def NoneMissed (nextIndex : RandomMapping → RandomMapping) (U : Finset T) (n : Nat)
    (handled pending : List Nat) : Prop :=
  ∀ i < n, (goesTo nextIndex U i).card ≤ 1 → i ∈ handled ++ pending

namespace NoneMissed

variable {U : Finset T} {n cidx : Nat} {handled pending rest singles : List Nat}

omit [DecidableEq T] in
theorem skip (h : NoneMissed nextIndex U n handled (cidx :: rest)) :
    NoneMissed nextIndex U n (handled ++ [cidx]) rest := by
  intro i hi hlight
  simpa using h i hi hlight

omit [DecidableEq T] in
theorem receive (h : NoneMissed nextIndex U n handled pending)
    (hsingles : (goesTo nextIndex U n).card ≤ 1 → n ∈ singles) :
    NoneMissed nextIndex U (n + 1) handled (pending ++ singles) := by
  intro i hi hlight
  rw [← List.append_assoc]
  rcases Nat.lt_succ_iff_lt_or_eq.mp hi with hi | rfl
  · exact List.mem_append_left _ (h i hi hlight)
  · exact List.mem_append_right _ (hsingles hlight)

/-- An index is left with one symbol or none after `s`: it was so before, or it had
two symbols and is left with one. -/
theorem recover (h : NoneMissed nextIndex U n handled (cidx :: rest))
    (hsingles : ∀ i < n, Maps nextIndex (Symbol.hash s) i →
      (goesTo nextIndex (U.erase s) i).card = 1 → i ∈ singles) :
    NoneMissed nextIndex (U.erase s) n (handled ++ [cidx]) (rest ++ singles) := by
  have hbefore : ∀ i < n, (goesTo nextIndex U i).card ≤ 1 →
      i ∈ handled ++ [cidx] ++ (rest ++ singles) := by
    intro i hi hlight
    rw [← List.append_assoc]
    exact List.mem_append_left _ (h.skip i hi hlight)
  intro i hi hlight
  by_cases hmem : s ∈ goesTo nextIndex U i
  · have hcard := Finset.card_erase_add_one hmem
    rw [← goesTo_erase] at hcard
    rcases Nat.le_one_iff_eq_zero_or_eq_one.mp hlight with hzero | hone
    · exact hbefore i hi (by omega)
    · have hsingle := hsingles i hi (mem_goesTo.mp hmem).2 hone
      simp [hsingle]
  · rw [goesTo_erase, Finset.erase_eq_of_notMem hmem] at hlight
    exact hbefore i hi hlight

omit [DecidableEq T] in
/-- When nothing waits and nothing is unknown, all are handled. -/
theorem range_subset (h : NoneMissed nextIndex U n handled []) (hU : U = ∅) :
    List.range n ⊆ handled := by
  intro i hi
  have hempty : (goesTo nextIndex U i).card = 0 := by
    rw [Finset.card_eq_zero, ← Finset.subset_empty, ← hU]
    exact goesTo_subset U i
  simpa using h i (List.mem_range.mp hi) (by omega)

end NoneMissed

end Unknown

end RatelessIblt
end Peerbit
