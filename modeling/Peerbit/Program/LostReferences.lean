import Peerbit.Program.LifecycleRuns

/-!
# A reference that only one side gives up

A store of programs drops the program of a document that is removed, as its parent.  The
program forgets the store, but stays a child of it.  If someone else still holds the
program, the end of the store asks it for a reference that it does not have: the call
throws when the other children have been ended already, and the store stays open without
them (`end_fails_of_run`).
-/

namespace Peerbit
namespace Program

open Lib

section LostReferences

variable {P : Type} [DecidableEq P] {I : Instances P} {s t u : Programs P} {p q : P} {n : Nat}
  {type : EndType} {rank : P → Nat}

/-- The program that has been dropped by a parent that still has it among its children. -/
structure Lost (I : Instances P) (s : Programs P) (q p : P) : Prop where
  consistent : Consistent I (fun c => c = q) s
  is_open : s.closed q = false
  user : s.parents q = [none]
  child : (s.children q).count p = 1
  others : ∀ c, c ≠ p → (s.parents c).count (some q) = (s.children q).count c
  lost : some q ∉ s.parents p
  held : none ∈ s.parents p
  not_above : ∀ c ∈ s.children q, ¬ Above s.parents q c

namespace Lost

theorem split (h : Lost I s q p) : ∃ before after,
    ownRefs s q = before ++ (some q, p) :: after ∧
      ∀ r, (before ++ after).count r =
        if r = (some q, p) then 0 else (ownRefs s q).count r := by
  have hcount : (ownRefs s q).count (some q, p) = 1 := (count_ownRefs s q p).trans h.child
  obtain ⟨before, after, hsplit⟩ := List.append_of_mem
    (List.count_pos_iff.mp (by omega : 0 < (ownRefs s q).count (some q, p)))
  refine ⟨before, after, hsplit, fun r => ?_⟩
  have hsum : (before ++ after).count r + (if (some q, p) = r then 1 else 0) =
      (ownRefs s q).count r := by
    rw [hsplit, List.count_append, List.count_append, List.count_cons]
    simp only [beq_iff_eq]
    omega
  by_cases hr : r = (some q, p)
  · subst hr
    rw [if_pos rfl, hcount] at hsum
    rw [if_pos rfl]
    omega
  · rw [if_neg (Ne.symm hr)] at hsum
    rw [if_neg hr]
    exact hsum

/-- The other references can be given up. -/
theorem endable {refs : List (Option P × P)} (h : Lost I s q p)
    (hrefs : ∀ r, refs.count r = if r = (some q, p) then 0 else (ownRefs s q).count r) :
    Endable (fun c => c = q) (s.deleteItem I q) refs := by
  have hmem : ∀ r ∈ refs, r ≠ (some q, p) ∧ r.1 = some q ∧ r.2 ∈ s.children q := by
    intro r hr
    have hpos := List.count_pos_iff.mpr hr
    rw [hrefs] at hpos
    split at hpos
    · cases hpos
    · rename_i hne
      exact ⟨hne, mem_ownRefs.mp (List.count_pos_iff.mp hpos)⟩
  refine ⟨?_, ?_, ?_⟩
  · rintro ⟨holder, c⟩
    by_cases hin : (holder, c) ∈ refs
    · obtain ⟨hne, rfl, _⟩ := hmem _ hin
      have hcp : c ≠ p := by
        rintro rfl
        exact hne rfl
      rw [hrefs, if_neg hne, count_ownRefs, ← h.others c hcp]
      exact Nat.le_refl _
    · rw [List.count_eq_zero.mpr hin]
      exact Nat.zero_le _
  · intro x c hin
    obtain rfl := Option.some.inj (hmem _ hin).2.1
    exact ⟨rfl, h.is_open⟩
  · rintro b rfl r hr
    exact h.not_above r.2 (hmem r hr).2.2

end Lost

end LostReferences

end Program
end Peerbit
