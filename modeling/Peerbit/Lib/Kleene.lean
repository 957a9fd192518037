import Mathlib.Data.List.Basic

/-!
# Three-valued logic

The strong connectives of Kleene: a result is known as soon as the operands that
are known decide it.  The third value is `none`.
-/

namespace Peerbit
namespace Lib
namespace Kleene

def and3 : Option Bool → Option Bool → Option Bool
  | some false, _ => some false
  | some true, y => y
  | none, some false => some false
  | none, _ => none

def or3 : Option Bool → Option Bool → Option Bool
  | some true, _ => some true
  | some false, y => y
  | none, some true => some true
  | none, _ => none

def not3 (x : Option Bool) : Option Bool := x.map Bool.not

@[simp] theorem and3_eq_true {x y : Option Bool} :
    and3 x y = some true ↔ x = some true ∧ y = some true := by
  rcases x with _ | (_ | _) <;> rcases y with _ | (_ | _) <;> simp [and3]

@[simp] theorem and3_eq_false {x y : Option Bool} :
    and3 x y = some false ↔ x = some false ∨ y = some false := by
  rcases x with _ | (_ | _) <;> rcases y with _ | (_ | _) <;> simp [and3]

@[simp] theorem or3_eq_true {x y : Option Bool} :
    or3 x y = some true ↔ x = some true ∨ y = some true := by
  rcases x with _ | (_ | _) <;> rcases y with _ | (_ | _) <;> simp [or3]

@[simp] theorem or3_eq_false {x y : Option Bool} :
    or3 x y = some false ↔ x = some false ∧ y = some false := by
  rcases x with _ | (_ | _) <;> rcases y with _ | (_ | _) <;> simp [or3]

@[simp] theorem not3_eq_some {x : Option Bool} {b : Bool} :
    not3 x = some b ↔ x = some (!b) := by
  rcases x with _ | (_ | _) <;> cases b <;> simp [not3]

/-- A connective applied to operands one after the other. -/
def fold (op : Option Bool → Option Bool → Option Bool) (x : Option Bool)
    (xs : List (Option Bool)) : Option Bool :=
  xs.foldl op x

theorem fold_and3_eq_true (x : Option Bool) (xs : List (Option Bool)) :
    fold and3 x xs = some true ↔
      x = some true ∧ ∀ y ∈ xs, y = some true := by
  induction xs generalizing x with
  | nil => simp [fold]
  | cons y ys ih =>
      show fold and3 (and3 x y) ys = some true ↔ _
      rw [ih, and3_eq_true, List.forall_mem_cons, and_assoc]

theorem fold_and3_eq_false (x : Option Bool) (xs : List (Option Bool)) :
    fold and3 x xs = some false ↔
      x = some false ∨ ∃ y ∈ xs, y = some false := by
  induction xs generalizing x with
  | nil => simp [fold]
  | cons y ys ih =>
      show fold and3 (and3 x y) ys = some false ↔ _
      rw [ih, and3_eq_false, List.exists_mem_cons_iff, or_assoc]

theorem fold_or3_eq_true (x : Option Bool) (xs : List (Option Bool)) :
    fold or3 x xs = some true ↔
      x = some true ∨ ∃ y ∈ xs, y = some true := by
  induction xs generalizing x with
  | nil => simp [fold]
  | cons y ys ih =>
      show fold or3 (or3 x y) ys = some true ↔ _
      rw [ih, or3_eq_true, List.exists_mem_cons_iff, or_assoc]

theorem fold_or3_eq_false (x : Option Bool) (xs : List (Option Bool)) :
    fold or3 x xs = some false ↔
      x = some false ∧ ∀ y ∈ xs, y = some false := by
  induction xs generalizing x with
  | nil => simp [fold]
  | cons y ys ih =>
      show fold or3 (or3 x y) ys = some false ↔ _
      rw [ih, or3_eq_false, List.forall_mem_cons, and_assoc]

end Kleene
end Lib
end Peerbit
