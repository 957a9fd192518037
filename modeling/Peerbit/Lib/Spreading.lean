import Mathlib.Logic.Relation

/-!
# Spreading

Something goes on from every element that it reaches to the next ones.  While it is on
its way to some of these, it need not have reached them; when nothing is on its way any
more, it has reached all that there is a path to.
-/

namespace Peerbit
namespace Lib

universe u

variable {α : Type u} {Next : α → α → Prop} {Reached Coming Reached' Coming' : α → Prop}

/-- The next ones of all that is reached are reached, or it is coming to them. -/
def Spreads (Next : α → α → Prop) (Reached Coming : α → Prop) : Prop :=
  ∀ a, Reached a → ∀ b, Next a b → Reached b ∨ Coming b

namespace Spreads

/-- It arrives at one element, from where it goes on. -/
theorem arrive (h : Spreads Next Reached Coming) {a₀ : α}
    (hreached : ∀ a, Reached' a ↔ Reached a ∨ a = a₀)
    (hcoming : ∀ b, Coming b → Reached' b ∨ Coming' b)
    (hnext : ¬ Reached a₀ → ∀ b, Next a₀ b → Reached' b ∨ Coming' b) :
    Spreads Next Reached' Coming' := by
  intro a ha b hab
  have hold : Reached a → Reached' b ∨ Coming' b := fun ha =>
    (h a ha b hab).elim (fun hb => Or.inl ((hreached b).mpr (Or.inl hb))) (hcoming b)
  rcases (hreached a).mp ha with ha | rfl
  · exact hold ha
  · by_cases hfirst : Reached a
    · exact hold hfirst
    · exact hnext hfirst b hab

theorem reached (h : Spreads Next Reached Coming) (hstill : ∀ b, ¬ Coming b) {a b : α}
    (ha : Reached a) (hpath : Relation.ReflTransGen Next a b) : Reached b := by
  induction hpath with
  | refl => exact ha
  | tail _ hnext ih => exact (h _ ih _ hnext).resolve_right (hstill _)

end Spreads

end Lib
end Peerbit
