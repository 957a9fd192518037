import Mathlib.Data.List.Perm.Basic
import Mathlib.Data.List.TakeWhile

/-!
# Merges that draw the nearer head

A merge of two lists draws from their heads, always one that is not further away than the
other.  The lists need not be sorted.  Before it draws an element, it draws nothing that
is further away than what stands up to that element in its list (`Drawn.reach`).
-/

namespace Peerbit
namespace Lib

universe u

/-- Of two lists a list is drawn from the heads, and two lists are left. -/
inductive Drawn {α : Type u} (distance : α → Nat) :
    List α → List α → List α → List α → List α → Prop
  | nil {xs ys : List α} : Drawn distance xs ys [] xs ys
  | left {x : α} {xs ys l xs' ys' : List α}
      (hle : ∀ y ∈ ys.head?, distance x ≤ distance y)
      (h : Drawn distance xs ys l xs' ys') : Drawn distance (x :: xs) ys (x :: l) xs' ys'
  | right {y : α} {xs ys l xs' ys' : List α}
      (hle : ∀ x ∈ xs.head?, distance y ≤ distance x)
      (h : Drawn distance xs ys l xs' ys') : Drawn distance xs (y :: ys) (y :: l) xs' ys'

namespace Drawn

variable {α : Type u} {distance : α → Nat} {xs ys xs' ys' xs'' ys'' l l' : List α}

theorem symm (h : Drawn distance xs ys l xs' ys') : Drawn distance ys xs l ys' xs' := by
  induction h with
  | nil => exact .nil
  | left hle _ ih => exact .right hle ih
  | right hle _ ih => exact .left hle ih

theorem append (h : Drawn distance xs ys l xs' ys') (h' : Drawn distance xs' ys' l' xs'' ys'') :
    Drawn distance xs ys (l ++ l') xs'' ys'' := by
  induction h with
  | nil => exact h'
  | left hle _ ih => exact .left hle (ih h')
  | right hle _ ih => exact .right hle (ih h')

theorem of_append (h : Drawn distance xs ys (l ++ l') xs'' ys'') :
    ∃ xs' ys', Drawn distance xs ys l xs' ys' := by
  generalize hall : l ++ l' = all at h
  induction h generalizing l with
  | @nil xs ys =>
      obtain ⟨rfl, -⟩ := List.append_eq_nil_iff.mp hall
      exact ⟨xs, ys, .nil⟩
  | @left x xs ys _ _ _ hle _ ih =>
      cases l with
      | nil => exact ⟨x :: xs, ys, .nil⟩
      | cons x' l =>
          obtain ⟨rfl, hrest⟩ := List.cons.inj hall
          obtain ⟨xs', ys', h⟩ := ih hrest
          exact ⟨xs', ys', .left hle h⟩
  | @right y xs ys _ _ _ hle _ ih =>
      cases l with
      | nil => exact ⟨xs, y :: ys, .nil⟩
      | cons y' l =>
          obtain ⟨rfl, hrest⟩ := List.cons.inj hall
          obtain ⟨xs', ys', h⟩ := ih hrest
          exact ⟨xs', ys', .right hle h⟩

/-- What is drawn is a part from the front of each list. -/
theorem exists_append (h : Drawn distance xs ys l xs' ys') :
    ∃ l₁ l₂, xs = l₁ ++ xs' ∧ ys = l₂ ++ ys' ∧ l.Perm (l₁ ++ l₂) := by
  induction h with
  | nil => exact ⟨[], [], rfl, rfl, .nil⟩
  | @left x _ _ _ _ _ _ _ ih =>
      obtain ⟨l₁, l₂, rfl, rfl, hperm⟩ := ih
      exact ⟨x :: l₁, l₂, rfl, rfl, hperm.cons x⟩
  | @right y _ _ _ _ _ _ _ ih =>
      obtain ⟨l₁, l₂, rfl, rfl, hperm⟩ := ih
      exact ⟨l₁, y :: l₂, rfl, rfl, (hperm.cons y).trans List.perm_middle.symm⟩

/-- The elements of a list before the first one that is further away. -/
def upTo (distance : α → Nat) (d : Nat) (l : List α) : List α :=
  l.takeWhile (fun a => decide (distance a ≤ d))

theorem prefix_upTo {d : Nat} (h : ∀ a ∈ l, distance a ≤ d) (rest : List α) :
    l <+: upTo distance d (l ++ rest) := by
  rw [upTo, List.takeWhile_append_of_pos (fun a ha => decide_eq_true (h a ha))]
  exact List.prefix_append _ _

/-- When nothing that is drawn is further away than `d`, by any distance, it is within
what the lists have up to `d`. -/
theorem within {near : α → Nat} {d : Nat} (h : Drawn distance xs ys l xs' ys')
    (hnear : ∀ a ∈ l, near a ≤ d) :
    l.length ≤ (upTo near d xs).length + (upTo near d ys).length ∧
      ∀ a ∈ l, a ∈ upTo near d xs ++ upTo near d ys := by
  obtain ⟨l₁, l₂, rfl, rfl, hperm⟩ := h.exists_append
  have hleft : l₁ <+: upTo near d (l₁ ++ xs') :=
    prefix_upTo (fun a ha => hnear a (hperm.mem_iff.mpr (List.mem_append_left _ ha))) xs'
  have hright : l₂ <+: upTo near d (l₂ ++ ys') :=
    prefix_upTo (fun a ha => hnear a (hperm.mem_iff.mpr (List.mem_append_right _ ha))) ys'
  constructor
  · rw [hperm.length_eq, List.length_append]
    exact Nat.add_le_add hleft.length_le hright.length_le
  · intro a ha
    rcases List.mem_append.mp (hperm.mem_iff.mp ha) with ha | ha
    · exact List.mem_append_left _ (hleft.subset ha)
    · exact List.mem_append_right _ (hright.subset ha)

/-- An element that stands in the first list, after nothing that is further away than
`d`: it is drawn after nothing that is, or all that is drawn is as near. -/
theorem reach {d : Nat} {before after : List α} {r : α}
    (h : Drawn distance (before ++ r :: after) ys l xs' ys')
    (hbefore : ∀ a ∈ before, distance a ≤ d) (hr : distance r ≤ d) :
    (∃ l₁ l₂ ys'', l = l₁ ++ r :: l₂ ∧
        Drawn distance (before ++ r :: after) ys l₁ (r :: after) ys'' ∧
        ∀ a ∈ l₁, distance a ≤ d) ∨
      (∃ passed, xs' = passed ++ r :: after) ∧ ∀ a ∈ l, distance a ≤ d := by
  generalize hxs : before ++ r :: after = xs at h
  induction h generalizing before with
  | nil => exact .inr ⟨⟨before, hxs.symm⟩, fun a ha => absurd ha List.not_mem_nil⟩
  | @left x xs ys l _ _ hle _ ih =>
      cases before with
      | nil =>
          obtain ⟨rfl, rfl⟩ := List.cons.inj hxs
          exact .inl ⟨[], l, ys, rfl, .nil, fun a ha => absurd ha List.not_mem_nil⟩
      | cons b before =>
          obtain ⟨rfl, hrest⟩ := List.cons.inj hxs
          rw [List.forall_mem_cons] at hbefore
          rcases ih hbefore.2 hrest with ⟨l₁, l₂, ys'', rfl, hdrawn, hnear⟩ | ⟨hleft, hnear⟩
          · refine .inl ⟨b :: l₁, l₂, ys'', rfl, .left hle hdrawn, ?_⟩
            exact List.forall_mem_cons.mpr ⟨hbefore.1, hnear⟩
          · exact .inr ⟨hleft, List.forall_mem_cons.mpr ⟨hbefore.1, hnear⟩⟩
  | @right y xs ys l _ _ hle _ ih =>
      have hy : distance y ≤ d := by
        cases before with
        | nil => exact (hle r (by rw [← hxs]; rfl)).trans hr
        | cons b before =>
            exact (hle b (by rw [← hxs]; rfl)).trans (hbefore b List.mem_cons_self)
      rcases ih hbefore hxs with ⟨l₁, l₂, ys'', rfl, hdrawn, hnear⟩ | ⟨hleft, hnear⟩
      · refine .inl ⟨y :: l₁, l₂, ys'', rfl, .right hle hdrawn, ?_⟩
        exact List.forall_mem_cons.mpr ⟨hy, hnear⟩
      · exact .inr ⟨hleft, List.forall_mem_cons.mpr ⟨hy, hnear⟩⟩

end Drawn

end Lib
end Peerbit
