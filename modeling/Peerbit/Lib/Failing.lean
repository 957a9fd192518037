import Mathlib.Logic.Basic

/-!
# Computations that fail part way

Such a computation changes a state and may end with an error.  What it has done to
the state before the error stays done.
-/

namespace Peerbit
namespace Lib

universe u

abbrev Failing (σ ε α : Type u) : Type u :=
  ExceptT ε (StateM σ) α

namespace Failing

variable {σ ε α β : Type u}

/-- The result, and the state that is left. -/
def after (x : Failing σ ε α) (s : σ) : Except ε α × σ :=
  (ExceptT.run x).run s

@[simp] theorem after_pure (a : α) (s : σ) :
    (pure a : Failing σ ε α).after s = (.ok a, s) := rfl

@[simp] theorem after_throw (e : ε) (s : σ) :
    (throw e : Failing σ ε α).after s = (.error e, s) := rfl

@[simp] theorem after_get (s : σ) :
    (get : Failing σ ε σ).after s = (.ok s, s) := rfl

@[simp] theorem after_modify (f : σ → σ) (s : σ) :
    (modify f : Failing σ ε PUnit).after s = (.ok ⟨⟩, f s) := rfl

theorem after_bind (x : Failing σ ε α) (f : α → Failing σ ε β) (s : σ) :
    (x >>= f).after s =
      match x.after s with
      | (.ok a, t) => (f a).after t
      | (.error e, t) => (.error e, t) := by
  unfold after
  rw [ExceptT.run_bind, StateT.run_bind]
  rcases (ExceptT.run x).run s with ⟨r, t⟩
  cases r with
  | ok a => rfl
  | error e => rfl

theorem after_bind_ok {x : Failing σ ε α} {f : α → Failing σ ε β} {s t : σ} {a : α}
    (h : x.after s = (.ok a, t)) : (x >>= f).after s = (f a).after t := by
  rw [after_bind, h]

/-- The result of the computation, error or not. -/
def attempt (x : Failing σ ε α) : Failing σ ε (Except ε α) :=
  ExceptT.mk (do
    let r ← ExceptT.run x
    pure (.ok r))

/-- All computations are carried out, and then the first error is thrown. -/
def all : List (Failing σ ε α) → Failing σ ε PUnit
  | [] => pure ⟨⟩
  | x :: xs => do
      match ← attempt x with
      | .ok _ => all xs
      | .error e => do
          let _ ← attempt (all xs)
          throw e

/-- Whether it fails or not, it leaves the state with the property. -/
def Keeps (P : σ → Prop) (x : Failing σ ε α) : Prop :=
  ∀ s, P s → P (x.after s).2

variable {P : σ → Prop}

theorem Keeps.pure (a : α) : Keeps P (pure a : Failing σ ε α) :=
  fun _ hs => hs

theorem Keeps.throw (e : ε) : Keeps P (throw e : Failing σ ε α) :=
  fun _ hs => hs

theorem Keeps.modify {f : σ → σ} (hf : ∀ s, P s → P (f s)) :
    Keeps P (modify f : Failing σ ε PUnit) :=
  hf

theorem Keeps.bind {x : Failing σ ε α} {f : α → Failing σ ε β} (hx : Keeps P x)
    (hf : ∀ a, Keeps P (f a)) : Keeps P (x >>= f) := by
  intro s hs
  have ht := hx s hs
  rw [after_bind]
  revert ht
  rcases x.after s with ⟨r, t⟩
  intro ht
  cases r with
  | ok a => exact hf a t ht
  | error e => exact ht

/-- What reads the state only has to keep the property for the state it reads. -/
theorem Keeps.get_bind {f : σ → Failing σ ε β} (hf : ∀ s, P s → P ((f s).after s).2) :
    Keeps P (get >>= f) := by
  intro s hs
  rw [after_bind, after_get]
  exact hf s hs

theorem Keeps.forM {γ : Type u} {f : γ → Failing σ ε PUnit} {l : List γ}
    (hf : ∀ a, Keeps P (f a)) : Keeps P (l.forM f) := by
  induction l with
  | nil => exact .pure _
  | cons a l ih => exact .bind (hf a) (fun _ => ih)

end Failing

end Lib
end Peerbit
