import Mathlib.Algebra.BigOperators.Group.List.Basic
import Mathlib.Algebra.Order.BigOperators.Group.List
import Mathlib.Algebra.Order.Ring.Nat
import Mathlib.Data.List.Count
import Mathlib.Data.List.Perm.Basic

/-!
# Walks with a stack

A walk takes an element off its stack, and puts the successors of the element on it.
It keeps no note of what was visited, so that an element is visited once for each way
that leads to it.  Such a walk ends when the successors have smaller ranks.

How often an element is visited is how often it is in the stack at first and among
the successors of the visited elements (`Walked.count`).  In a ranked graph this
determines the visits (`perm_of_count`).
-/

namespace Peerbit
namespace Lib

universe u

section Walked

variable {α : Type u} (succ : α → List α)

/-- From the stack, a walk visits the elements in this order. -/
inductive Walked : List α → List α → Prop
  | nil : Walked [] []
  | cons {a : α} {stack visited : List α} (h : Walked (succ a ++ stack) visited) :
      Walked (a :: stack) (a :: visited)

variable {succ}

/-- Walks end where successors have smaller ranks. -/
theorem exists_walked {P : α → Prop} (rank : α → Nat)
    (hsucc : ∀ a, P a → ∀ b ∈ succ a, P b ∧ rank b < rank a) {stack : List α}
    (hstack : ∀ a ∈ stack, P a) : ∃ visited, Walked succ stack visited := by
  have hone : ∀ n a, P a → rank a ≤ n → ∀ stack,
      (∃ visited, Walked succ stack visited) →
        ∃ visited, Walked succ (a :: stack) visited := by
    intro n
    induction n with
    | zero =>
        intro a ha hrank stack ⟨visited, hvisited⟩
        have hnone : succ a = [] := by
          rw [List.eq_nil_iff_forall_not_mem]
          intro b hb
          have hlt := (hsucc a ha b hb).2
          omega
        exact ⟨a :: visited, .cons (by rw [hnone]; exact hvisited)⟩
    | succ n ih =>
        intro a ha hrank stack hstack
        have hpushed : ∀ l : List α, (∀ b ∈ l, P b ∧ rank b ≤ n) →
            ∃ visited, Walked succ (l ++ stack) visited := by
          intro l hl
          induction l with
          | nil => exact hstack
          | cons b l ihl =>
              obtain ⟨hb, hrest⟩ := List.forall_mem_cons.mp hl
              exact ih b hb.1 hb.2 (l ++ stack) (ihl hrest)
        obtain ⟨visited, hvisited⟩ := hpushed (succ a) (by
          intro b hb
          obtain ⟨hPb, hlt⟩ := hsucc a ha b hb
          exact ⟨hPb, by omega⟩)
        exact ⟨a :: visited, .cons hvisited⟩
  induction stack with
  | nil => exact ⟨[], .nil⟩
  | cons a stack ih =>
      obtain ⟨ha, hrest⟩ := List.forall_mem_cons.mp hstack
      exact hone (rank a) a ha (Nat.le_refl _) stack (ih hrest)

/-- What holds of the stack and is kept by successors holds of the visited. -/
theorem Walked.forall {P : α → Prop} {stack visited : List α}
    (h : Walked succ stack visited) (hstack : ∀ a ∈ stack, P a)
    (hsucc : ∀ a, P a → ∀ b ∈ succ a, P b) : ∀ a ∈ visited, P a := by
  induction h with
  | nil => exact fun _ ha => nomatch ha
  | cons h ih =>
      obtain ⟨ha, hrest⟩ := List.forall_mem_cons.mp hstack
      refine List.forall_mem_cons.mpr ⟨ha, ih ?_⟩
      intro b hb
      rcases List.mem_append.mp hb with hb | hb
      · exact hsucc _ ha b hb
      · exact hrest b hb

variable [DecidableEq α]

/-- Each visit comes from the stack at first, or from a visited element. -/
theorem Walked.count {stack visited : List α} (h : Walked succ stack visited) (x : α) :
    visited.count x =
      stack.count x + (visited.map (fun a => (succ a).count x)).sum := by
  induction h with
  | nil => rfl
  | cons h ih =>
      rw [List.count_cons, ih, List.count_append, List.map_cons, List.sum_cons,
        List.count_cons]
      omega

omit [DecidableEq α] in
theorem sum_map_filter {l : List α} (f : α → Nat) {p : α → Bool}
    (h : ∀ a ∈ l, p a = false → f a = 0) :
    ((l.filter p).map f).sum = (l.map f).sum := by
  induction l with
  | nil => rfl
  | cons a l ih =>
      obtain ⟨ha, hrest⟩ := List.forall_mem_cons.mp h
      cases hp : p a with
      | true => rw [List.filter_cons_of_pos hp, List.map_cons, List.map_cons,
          List.sum_cons, List.sum_cons, ih hrest]
      | false =>
          rw [List.filter_cons_of_neg (by simp [hp]), List.map_cons, List.sum_cons,
            ha hp, Nat.zero_add, ih hrest]

variable (succ) in
/-- Two lists that are counted alike, each from a stack and from its own successors, are
the same up to the order.  `counted` says of which elements this is known. -/
theorem perm_of_count (rank : α → Nat) {l l' : List α}
    (hrank : ∀ a ∈ l ++ l', ∀ b ∈ succ a, rank b < rank a)
    (hcount : ∀ x, (l.map (fun a => (succ a).count x)).sum =
        (l'.map (fun a => (succ a).count x)).sum → l.count x = l'.count x) :
    l.Perm l' := by
  obtain ⟨M, hM⟩ : ∃ M, ∀ a ∈ l ++ l', rank a < M := by
    refine ⟨((l ++ l').map rank).sum + 1, ?_⟩
    intro a ha
    exact Nat.lt_succ_of_le (List.single_le_sum (fun _ _ => Nat.zero_le _) _
      (List.mem_map_of_mem ha))
  have hsame : ∀ n x, M - rank x ≤ n → l.count x = l'.count x := by
    intro n
    induction n with
    | zero =>
        intro x hx
        have hnot : x ∉ l ++ l' := by
          intro hmem
          have hlt := hM x hmem
          omega
        rw [List.mem_append, not_or] at hnot
        rw [List.count_eq_zero_of_not_mem hnot.1, List.count_eq_zero_of_not_mem hnot.2]
    | succ n ih =>
        intro x hx
        refine hcount x ?_
        -- Only elements of greater rank have `x` as a successor.
        have habove : ∀ k : List α, (∀ a ∈ k, a ∈ l ++ l') →
            ((k.filter (fun a => decide (rank x < rank a))).map
              (fun a => (succ a).count x)).sum =
              (k.map (fun a => (succ a).count x)).sum := by
          intro k hk
          refine sum_map_filter _ ?_
          intro a ha hp
          refine List.count_eq_zero_of_not_mem ?_
          intro hmem
          exact of_decide_eq_false hp (hrank a (hk a ha) x hmem)
        have hperm : (l.filter (fun a => decide (rank x < rank a))).Perm
            (l'.filter (fun a => decide (rank x < rank a))) := by
          rw [List.perm_iff_count]
          intro a
          by_cases ha : rank x < rank a
          · have hkept : ∀ k : List α,
                (k.filter (fun a => decide (rank x < rank a))).count a = k.count a :=
              fun k => List.count_filter (by simpa using ha)
            rw [hkept, hkept]
            exact ih a (by omega)
          · have hnot : ∀ k : List α,
                (k.filter (fun a => decide (rank x < rank a))).count a = 0 := by
              intro k
              refine List.count_eq_zero_of_not_mem ?_
              intro hmem
              exact ha (by simpa using (List.mem_filter.mp hmem).2)
            rw [hnot, hnot]
        rw [← habove l (fun _ h => List.mem_append_left _ h),
          ← habove l' (fun _ h => List.mem_append_right _ h)]
        exact (hperm.map _).sum_eq
  rw [List.perm_iff_count]
  intro x
  exact hsame (M - rank x) x (Nat.le_refl _)

end Walked

end Lib
end Peerbit
