import Mathlib.Data.List.Basic

/-!
# Maps that are changed while they are walked

The entries of the map have places, in the order in which they came in.  A
deleted entry leaves its place empty, so that a walk goes on where it was: it
meets the entries that are added behind it, and none that is deleted before it
gets there.
-/

namespace Peerbit
namespace Lib

universe u v

structure LiveMap (κ : Type u) (ν : Type v) where
  get : κ → Option ν
  places : List (Option κ)

namespace LiveMap

variable {κ : Type u} {ν : Type v} [DecidableEq κ]

def empty : LiveMap κ ν where
  get := fun _ => none
  places := []

def set (m : LiveMap κ ν) (k : κ) (v : ν) : LiveMap κ ν where
  get := Function.update m.get k (some v)
  places := if (m.get k).isSome then m.places else m.places ++ [some k]

def delete (m : LiveMap κ ν) (k : κ) : LiveMap κ ν where
  get := Function.update m.get k none
  places := m.places.map (fun place => if place = some k then none else place)

/-- The first place of a list that is not empty, and the place behind it. -/
def firstOf : List (Option κ) → Nat → Option (Nat × κ)
  | [], _ => none
  | some k :: _, i => some (i + 1, k)
  | none :: places, i => firstOf places (i + 1)

/-- The entry that a walk meets next, and the place from which it goes on. -/
def next (m : LiveMap κ ν) (i : Nat) : Option (Nat × κ × ν) :=
  (firstOf (m.places.drop i) i).bind
    (fun (j, k) => (m.get k).map (fun v => (j, k, v)))

variable {m : LiveMap κ ν} {j k : κ}

omit [DecidableEq κ] in
@[simp] theorem get_empty (k : κ) : (empty : LiveMap κ ν).get k = none := rfl

@[simp] theorem get_set_self (m : LiveMap κ ν) (k : κ) (v : ν) :
    (m.set k v).get k = some v :=
  Function.update_self ..

theorem get_set_of_ne (v : ν) (h : j ≠ k) : (m.set k v).get j = m.get j :=
  Function.update_of_ne h ..

@[simp] theorem get_delete_self (m : LiveMap κ ν) (k : κ) :
    (m.delete k).get k = none :=
  Function.update_self ..

theorem get_delete_of_ne (h : j ≠ k) : (m.delete k).get j = m.get j :=
  Function.update_of_ne h ..

omit [DecidableEq κ] in
/-- A walk meets entries of the map. -/
theorem get_of_next {i i' : Nat} {v : ν} (h : m.next i = some (i', k, v)) :
    m.get k = some v := by
  obtain ⟨⟨j, k'⟩, _, hget⟩ := Option.bind_eq_some_iff.mp h
  obtain ⟨w, hw, heq⟩ := Option.map_eq_some_iff.mp hget
  simp only [Prod.mk.injEq] at heq
  obtain ⟨-, rfl, rfl⟩ := heq
  exact hw

end LiveMap

end Lib
end Peerbit
