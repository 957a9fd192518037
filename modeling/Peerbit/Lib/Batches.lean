import Mathlib.Data.List.Basic

/-!
# Batches

What comes in is collected, and now and then what has been collected is handed on as one
batch.  The batches that were handed on and the one that waits are, one after the other,
what came in: everything is in one of them, and in no other.

An accumulator keeps the waiting batch as the result of folding it.
-/

namespace Peerbit
namespace Lib

universe u v w

structure Batches (τ : Type u) where
  handed : List (List τ)
  waiting : List τ

namespace Batches

variable {τ : Type u}

def empty : Batches τ where
  handed := []
  waiting := []

def add (b : Batches τ) (x : τ) : Batches τ :=
  { b with waiting := b.waiting ++ [x] }

/-- The waiting batch is handed on. -/
def flush (b : Batches τ) : Batches τ where
  handed := b.handed ++ [b.waiting]
  waiting := []

/-- All that came in. -/
def all (b : Batches τ) : List τ :=
  b.handed.flatten ++ b.waiting

@[simp] theorem all_empty : (empty : Batches τ).all = [] :=
  rfl

@[simp] theorem all_add (b : Batches τ) (x : τ) : (b.add x).all = b.all ++ [x] :=
  (List.append_assoc _ _ _).symm

@[simp] theorem all_flush (b : Batches τ) : b.flush.all = b.all := by
  simp [all, flush]

/-! ### Accumulated batches -/

section Accumulated

variable {α : Type v} {β : Type w} (step : α → τ → α) (create : α) (value : α → β)

/-- The accumulator holds the waiting batch, and what was handed on are the values of the
batches before it. -/
structure Holds (b : Batches τ) (accumulator : α) (handed : List β) : Prop where
  waiting : accumulator = b.waiting.foldl step create
  handed : handed = b.handed.map fun batch => value (batch.foldl step create)

variable {step create value} {b : Batches τ} {accumulator : α} {handed : List β}

theorem holds_empty : Holds step create value empty create [] :=
  ⟨rfl, rfl⟩

theorem Holds.add (h : Holds step create value b accumulator handed) (x : τ) :
    Holds step create value (b.add x) (step accumulator x) handed := by
  refine ⟨?_, h.handed⟩
  rw [h.waiting, Batches.add, List.foldl_concat]

theorem Holds.flush (h : Holds step create value b accumulator handed) :
    Holds step create value b.flush create (handed ++ [value accumulator]) := by
  refine ⟨rfl, ?_⟩
  rw [h.handed, h.waiting, Batches.flush, List.map_append, List.map_singleton]

end Accumulated

end Batches

end Lib
end Peerbit
