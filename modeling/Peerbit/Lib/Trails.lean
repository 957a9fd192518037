import Mathlib.Data.List.Chain
import Mathlib.Data.List.Nodup

/-!
# Trails

A trail goes from element to element along a relation and comes to none of them twice.
What is handed on along a relation, by those only who have not had it yet, leaves one.
-/

namespace Peerbit
namespace Lib

universe u

variable {α : Type u} {R S : α → α → Prop}

structure Trail (R : α → α → Prop) (l : List α) : Prop where
  chain : l.IsChain R
  nodup : l.Nodup

namespace Trail

variable {l l₁ l₂ : List α} {a : α}

theorem singleton (a : α) : Trail R [a] := ⟨.singleton a, List.nodup_singleton a⟩

theorem imp (himp : ∀ x y, R x y → S x y) (h : Trail R l) : Trail S l :=
  ⟨h.chain.imp fun _ _ hxy => himp _ _ hxy, h.nodup⟩

/-- One step further. -/
theorem concat (h : Trail R l) (hlast : ∀ x ∈ l.getLast?, R x a) (hnew : a ∉ l) :
    Trail R (l ++ [a]) where
  chain := h.chain.append (.singleton a) fun x hx y hy => by
    obtain rfl : a = y := by simpa using hy
    exact hlast x hx
  nodup := List.nodup_append.mpr ⟨h.nodup, List.nodup_singleton a, fun x hx y hy hxy => by
    rw [List.mem_singleton.mp hy] at hxy
    exact hnew (hxy ▸ hx)⟩

theorem right_of_append (h : Trail R (l₁ ++ l₂)) : Trail R l₂ :=
  ⟨h.chain.right_of_append, (List.nodup_append.mp h.nodup).2.1⟩

theorem left_of_append (h : Trail R (l₁ ++ l₂)) : Trail R l₁ :=
  ⟨h.chain.left_of_append, (List.nodup_append.mp h.nodup).1⟩

/-- An element comes where it comes first. -/
theorem findIdx?_eq [DecidableEq α] (h : Trail R (l₁ ++ a :: l₂)) :
    (l₁ ++ a :: l₂).findIdx? (fun x => x == a) = some l₁.length := by
  rw [List.findIdx?_eq_some_iff_getElem]
  refine ⟨by simp, by simp, fun j hj heq => ?_⟩
  rw [List.getElem_append_left hj, beq_iff_eq] at heq
  have hdisjoint := (List.nodup_append.mp h.nodup).2.2
  exact hdisjoint _ (List.getElem_mem hj) a List.mem_cons_self heq

end Trail

end Lib
end Peerbit
