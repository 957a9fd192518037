import Mathlib

/-!
# Queues in lanes

A queue is given by what its operations do to the list of its contents.  Several
queues in a row are lanes: what is shifted is the first element of the first
lane that has one.
-/

namespace Peerbit
namespace Lib

universe u v

/-- A first-in first-out queue. -/
structure Fifo (α : Type u) where
  Queue : Type v
  new : Queue
  push : Queue → α → Queue
  shift : Queue → Option α × Queue
  isEmpty : Queue → Bool
  contents : Queue → List α
  contents_new : contents new = []
  contents_push : ∀ q a, contents (push q a) = contents q ++ [a]
  shift_nil : ∀ q, contents q = [] →
    (shift q).1 = none ∧ contents (shift q).2 = []
  shift_cons : ∀ q a l, contents q = a :: l →
    (shift q).1 = some a ∧ contents (shift q).2 = l
  isEmpty_iff : ∀ q, isEmpty q = true ↔ contents q = []

/-- The queue that is the list of its contents. -/
def Fifo.ofList (α : Type u) : Fifo α where
  Queue := List α
  new := []
  push q a := q ++ [a]
  shift q := (q.head?, q.tail)
  isEmpty q := q.isEmpty
  contents q := q
  contents_new := rfl
  contents_push _ _ := rfl
  shift_nil q h := by
    subst h
    exact ⟨rfl, rfl⟩
  shift_cons q a l h := by
    subst h
    exact ⟨rfl, rfl⟩
  isEmpty_iff _ := List.isEmpty_iff

namespace Fifo

variable {α : Type u} (F : Fifo.{u, v} α)

/-- The first element of the first lane that has one. -/
def shiftLanes : List F.Queue → Option α × List F.Queue
  | [] => (none, [])
  | lane :: lanes =>
      match F.shift lane with
      | (some element, lane) => (some element, lane :: lanes)
      | (none, lane) =>
          let rest := shiftLanes lanes
          (rest.1, lane :: rest.2)

def pushLane (lanes : List F.Queue) (i : Nat) (a : α) : List F.Queue :=
  lanes.modify i (fun lane => F.push lane a)

def lanesEmpty (lanes : List F.Queue) : Bool :=
  lanes.all F.isEmpty

/-- What a lane holds; a lane that is not there holds nothing. -/
def laneContents (lanes : List F.Queue) (i : Nat) : List α :=
  (lanes[i]?).elim [] F.contents

@[simp] theorem laneContents_nil (i : Nat) : F.laneContents [] i = [] := rfl

@[simp] theorem laneContents_cons_zero (lane : F.Queue) (lanes : List F.Queue) :
    F.laneContents (lane :: lanes) 0 = F.contents lane := rfl

@[simp] theorem laneContents_cons_succ (lane : F.Queue) (lanes : List F.Queue)
    (i : Nat) :
    F.laneContents (lane :: lanes) (i + 1) = F.laneContents lanes i := rfl

theorem laneContents_replicate (n : Nat) (i : Nat) :
    F.laneContents (List.replicate n F.new) i = [] := by
  unfold laneContents
  rw [List.getElem?_replicate]
  split
  · exact F.contents_new
  · rfl

theorem laneContents_pushLane (lanes : List F.Queue) (i j : Nat) (a : α)
    (hi : i < lanes.length) :
    F.laneContents (F.pushLane lanes i a) j =
      if j = i then F.laneContents lanes j ++ [a]
      else F.laneContents lanes j := by
  unfold laneContents pushLane
  rw [List.getElem?_modify]
  by_cases hj : i = j
  · subst hj
    rw [if_pos rfl, List.getElem?_eq_getElem hi]
    simpa using F.contents_push _ _
  · rw [if_neg (Ne.symm hj)]
    simp [hj]

@[simp] theorem length_pushLane (lanes : List F.Queue) (i : Nat) (a : α) :
    (F.pushLane lanes i a).length = lanes.length :=
  List.length_modify ..

theorem lanesEmpty_iff (lanes : List F.Queue) :
    F.lanesEmpty lanes = true ↔ ∀ i, F.laneContents lanes i = [] := by
  induction lanes with
  | nil => simp [lanesEmpty]
  | cons lane lanes ih =>
      unfold lanesEmpty at ih ⊢
      rw [List.all_cons, Bool.and_eq_true, F.isEmpty_iff, ih]
      constructor
      · rintro ⟨hlane, hlanes⟩ i
        cases i with
        | zero => exact hlane
        | succ i => exact hlanes i
      · intro h
        exact ⟨h 0, fun i => h (i + 1)⟩

/-- The number of elements in all lanes. -/
def lanesSize (lanes : List F.Queue) : Nat :=
  (lanes.map (fun lane => (F.contents lane).length)).sum

theorem lanesSize_eq_zero {lanes : List F.Queue} :
    F.lanesSize lanes = 0 ↔ ∀ i, F.laneContents lanes i = [] := by
  rw [← F.lanesEmpty_iff, lanesSize, List.sum_eq_zero_iff_forall_eq_nat]
  simp [lanesEmpty, F.isEmpty_iff]

@[simp] theorem length_shiftLanes (lanes : List F.Queue) :
    (F.shiftLanes lanes).2.length = lanes.length := by
  induction lanes with
  | nil => rfl
  | cons lane lanes ih =>
      rw [shiftLanes]
      split
      · rfl
      · simp [ih]

theorem shiftLanes_cons_of_nil {lane : F.Queue} (lanes : List F.Queue)
    (h : F.contents lane = []) :
    F.shiftLanes (lane :: lanes) =
      ((F.shiftLanes lanes).1, (F.shift lane).2 :: (F.shiftLanes lanes).2) := by
  obtain ⟨hnone, -⟩ := F.shift_nil lane h
  have hshift : F.shift lane = (none, (F.shift lane).2) := Prod.ext hnone rfl
  rw [shiftLanes, hshift]

theorem shiftLanes_cons_of_cons {lane : F.Queue} (lanes : List F.Queue) {a : α}
    {l : List α} (h : F.contents lane = a :: l) :
    F.shiftLanes (lane :: lanes) = (some a, (F.shift lane).2 :: lanes) := by
  obtain ⟨hsome, -⟩ := F.shift_cons lane a l h
  have hshift : F.shift lane = (some a, (F.shift lane).2) := Prod.ext hsome rfl
  rw [shiftLanes, hshift]

/-- When the first lane is empty, what there is lies in the others. -/
theorem not_all_empty_of_cons {lane : F.Queue} {lanes : List F.Queue}
    (hlane : F.contents lane = [])
    (h : ¬ ∀ i, F.laneContents (lane :: lanes) i = []) :
    ¬ ∀ i, F.laneContents lanes i = [] := by
  intro hall
  refine h (fun i => ?_)
  cases i with
  | zero => exact hlane
  | succ i => exact hall i

/-- What is shifted comes from one lane, and those before it are empty. -/
theorem shiftLanes_some {lanes : List F.Queue}
    (h : ¬ ∀ i, F.laneContents lanes i = []) :
    ∃ i a, (F.shiftLanes lanes).1 = some a ∧
      F.laneContents lanes i =
        a :: F.laneContents (F.shiftLanes lanes).2 i ∧
      (∀ j, j < i → F.laneContents lanes j = []) ∧
      ∀ j, j ≠ i → F.laneContents (F.shiftLanes lanes).2 j =
        F.laneContents lanes j := by
  induction lanes with
  | nil => exact absurd (fun _ => rfl) h
  | cons lane lanes ih =>
      cases hlane : F.contents lane with
      | nil =>
          obtain ⟨-, hnil⟩ := F.shift_nil lane hlane
          obtain ⟨i, a, hsome, hcons, hbefore, hothers⟩ :=
            ih (F.not_all_empty_of_cons hlane h)
          rw [F.shiftLanes_cons_of_nil lanes hlane]
          refine ⟨i + 1, a, hsome, hcons, fun j hj => ?_, fun j hj => ?_⟩
          · cases j with
            | zero => exact hlane
            | succ j => exact hbefore j (by omega)
          · cases j with
            | zero => exact hnil.trans hlane.symm
            | succ j => exact hothers j (by omega)
      | cons a l =>
          obtain ⟨-, hl⟩ := F.shift_cons lane a l hlane
          rw [F.shiftLanes_cons_of_cons lanes hlane]
          refine ⟨0, a, rfl, ?_, fun j hj => absurd hj (Nat.not_lt_zero j),
            fun j hj => ?_⟩
          · rw [laneContents_cons_zero, laneContents_cons_zero, hlane, hl]
          · cases j with
            | zero => exact absurd rfl hj
            | succ j => rfl

theorem lanesSize_shiftLanes {lanes : List F.Queue}
    (h : ¬ ∀ i, F.laneContents lanes i = []) :
    F.lanesSize lanes = F.lanesSize (F.shiftLanes lanes).2 + 1 := by
  induction lanes with
  | nil => exact absurd (fun _ => rfl) h
  | cons lane lanes ih =>
      cases hlane : F.contents lane with
      | nil =>
          obtain ⟨-, hnil⟩ := F.shift_nil lane hlane
          rw [F.shiftLanes_cons_of_nil lanes hlane]
          simpa [lanesSize, hlane, hnil] using ih (F.not_all_empty_of_cons hlane h)
      | cons a l =>
          obtain ⟨-, hl⟩ := F.shift_cons lane a l hlane
          rw [F.shiftLanes_cons_of_cons lanes hlane]
          simp only [lanesSize, List.map_cons, List.sum_cons, hlane, hl,
            List.length_cons]
          omega

end Fifo

end Lib
end Peerbit
