import Peerbit.Lib.Holders
import Peerbit.Program.Lifecycle
import Mathlib.Data.List.Count

/-!
# What the end of a program takes away

Ending a program takes one parent away.  What is then open has lost no other parent, and
what has lost its last one is closed, all the way down (`Released`).  While a program ends
its children it is busy, and its own count is not right; it is not below any of them, so
that they leave it alone.
-/

namespace Peerbit
namespace Program

open Lib

section Releases

variable {P : Type} [DecidableEq P] (I : Instances P)

/-- What holds of the programs while some of them are being opened or ended. -/
structure Consistent (busy : P → Prop) (s : Programs P) : Prop where
  closed_iff : ∀ c, ¬ busy c → (s.closed c = true ↔ s.parents c = [])
  parent_open : ∀ q c, some q ∈ s.parents c → s.closed q = false ∨ busy q
  user_once : ∀ c, (s.parents c).count none ≤ 1
  agree : ∀ q, ¬ busy q → ∀ c, (s.parents c).count (some q) = (s.children q).count c
  fields_held : ∀ c, ¬ busy c → s.closed c = false →
    ∀ x ∈ I.programs c, some c ∈ s.parents x
  item_open : ∀ a p, s.items.get a = some p →
    I.address p = a ∧ (s.closed p = false ∨ busy p)

/-- What ending programs has done, for the parents from which they were ended. -/
structure Released (refs : List (Option P × P)) (s t : Programs P) : Prop where
  parents_sub : ∀ c, ∀ h ∈ t.parents c, h ∈ s.parents c
  closed_mono : ∀ c, s.closed c = true → t.closed c = true
  count_eq : ∀ q c, t.closed q = false →
    (t.parents c).count (some q) + refs.count (some q, c) = (s.parents c).count (some q)
  user_iff : ∀ c, none ∈ t.parents c ↔ none ∈ s.parents c ∧ (none, c) ∉ refs
  children_eq : ∀ q, t.children q = if t.closed q = s.closed q then s.children q else []
  items_sub : ∀ a p, t.items.get a = some p → s.items.get a = some p
  frame : ∀ c, (∀ r ∈ refs, ¬ Above s.parents c r.2) →
    t.parents c = s.parents c ∧ t.closed c = s.closed c

variable {I} {busy : P → Prop} {s t u : Programs P} {rank : P → Nat}
  {refs refs' : List (Option P × P)}

theorem Consistent.deleteItem (hs : Consistent I busy s) (p : P) :
    Consistent I busy (s.deleteItem I p) where
  closed_iff := hs.closed_iff
  parent_open := hs.parent_open
  user_once := hs.user_once
  agree := hs.agree
  fields_held := hs.fields_held
  item_open := by
    intro a x hx
    exact hs.item_open a x ((Lib.InsertionMap.get_delete_eq_some _).mp hx).2

namespace Released

theorem refl (s : Programs P) : Released [] s s where
  parents_sub := fun _ _ h => h
  closed_mono := fun _ h => h
  count_eq := fun _ _ _ => by simp
  user_iff := fun _ => by simp
  children_eq := fun _ => by simp
  items_sub := fun _ _ h => h
  frame := fun _ _ => ⟨rfl, rfl⟩

/-- What is open after it was open before. -/
theorem open_before (h : Released refs s t) {q : P} (hq : t.closed q = false) :
    s.closed q = false := by
  cases hs : s.closed q with
  | false => rfl
  | true => exact absurd (h.closed_mono q hs) (by rw [hq]; exact Bool.false_ne_true)

theorem trans (h : Released refs s t) (h' : Released refs' t u) :
    Released (refs ++ refs') s u where
  parents_sub := fun c p hp => h.parents_sub c p (h'.parents_sub c p hp)
  closed_mono := fun c hc => h'.closed_mono c (h.closed_mono c hc)
  count_eq := by
    intro q c hq
    have hfirst := h.count_eq q c (h'.open_before hq)
    have hsecond := h'.count_eq q c hq
    rw [List.count_append]
    omega
  user_iff := by
    intro c
    rw [h'.user_iff, h.user_iff, List.mem_append]
    tauto
  children_eq := by
    intro q
    have hclosed := h.closed_mono q
    have hclosed' := h'.closed_mono q
    rw [h'.children_eq, h.children_eq]
    revert hclosed hclosed'
    cases s.closed q <;> cases t.closed q <;> cases u.closed q <;> simp
  items_sub := fun a p hp => h.items_sub a p (h'.items_sub a p hp)
  frame := by
    intro c hc
    have hfirst := h.frame c (fun r hr => hc r (List.mem_append_left _ hr))
    have hsecond := h'.frame c (fun r hr habove =>
      hc r (List.mem_append_right _ hr) (habove.mono (fun c q => h.parents_sub c (some q))))
    exact ⟨hsecond.1.trans hfirst.1, hsecond.2.trans hfirst.2⟩

/-- Both sides of the references that are left agree. -/
theorem agree (h : Released refs s t) (hs : Consistent I busy s)
    (hbusy : ∀ q c, (some q, c) ∈ refs → busy q)
    (hopen : ∀ q c, some q ∈ t.parents c → t.closed q = false ∨ busy q) :
    ∀ q, ¬ busy q → ∀ c, (t.parents c).count (some q) = (t.children q).count c := by
  intro q hq c
  have hagree := hs.agree q hq
  cases ht : t.closed q with
  | false =>
      have hcount := h.count_eq q c ht
      rw [List.count_eq_zero.mpr (fun hmem => hq (hbusy q c hmem))] at hcount
      rw [h.children_eq, if_pos (ht.trans (h.open_before ht).symm), ← hagree c]
      exact hcount
  | true =>
      have hnone : some q ∉ t.parents c := by
        intro hmem
        rcases hopen q c hmem with hfalse | hb
        · rw [ht] at hfalse
          cases hfalse
        · exact hq hb
      have hchildren : t.children q = [] := by
        rw [h.children_eq]
        split
        · rename_i heq
          refine List.eq_nil_iff_forall_not_mem.mpr fun x hx => ?_
          have hpos : 0 < (s.children q).count x := List.count_pos_iff.mpr hx
          rw [← hagree x] at hpos
          rcases hs.parent_open q x (List.count_pos_iff.mp hpos) with hfalse | hb
          · rw [← heq, ht] at hfalse
            cases hfalse
          · exact hq hb
        · rfl
      rw [List.count_eq_zero.mpr hnone, hchildren, List.count_nil]

end Released

/-! ### What the code does, case by case -/

variable {type : EndType} {n : Nat} {p : P} {from_ : Option P}

/-- The references can be given up: each is there as often as it is given up, and what
holds them is busy, and not below. -/
structure Endable (busy : P → Prop) (s : Programs P) (refs : List (Option P × P)) : Prop where
  count_le : ∀ r, refs.count r ≤ (s.parents r.2).count r.1
  holder_busy : ∀ q c, (some q, c) ∈ refs → busy q ∧ s.closed q = false
  not_above : ∀ b, busy b → ∀ r ∈ refs, ¬ Above s.parents b r.2

theorem Endable.left (h : Endable busy s (refs ++ refs')) : Endable busy s refs where
  count_le := fun r =>
    Nat.le_trans ((List.sublist_append_left _ _).count_le r) (h.count_le r)
  holder_busy := fun q c hmem => h.holder_busy q c (List.mem_append_left _ hmem)
  not_above := fun b hb r hr => h.not_above b hb r (List.mem_append_left _ hr)

theorem Endable.right (h : Endable busy s (refs ++ refs')) (hs : Consistent I busy s)
    (hrel : Released refs s t) : Endable busy t refs' where
  count_le := by
    rintro ⟨holder, c⟩
    have hle := h.count_le (holder, c)
    rw [List.count_append] at hle
    by_cases hmem : (holder, c) ∈ refs'
    · cases holder with
      | some q =>
          obtain ⟨hb, hopen⟩ := h.holder_busy q c (List.mem_append_right _ hmem)
          have hkept := hrel.frame q
            (fun r hr => h.not_above q hb r (List.mem_append_left _ hr))
          have hcount := hrel.count_eq q c (hkept.2.trans hopen)
          change refs'.count (some q, c) ≤ (t.parents c).count (some q)
          change _ + refs'.count (some q, c) ≤ (s.parents c).count (some q) at hle
          omega
      | none =>
          -- the user is a parent once, and has not been given up
          have hpos : 0 < refs'.count (none, c) := List.count_pos_iff.mpr hmem
          have honce := hs.user_once c
          change _ + refs'.count (none, c) ≤ (s.parents c).count none at hle
          have hthere : none ∈ t.parents c := by
            rw [hrel.user_iff]
            exact ⟨List.count_pos_iff.mp (by omega), List.count_eq_zero.mp (by omega)⟩
          have hkept : 0 < (t.parents c).count none := List.count_pos_iff.mpr hthere
          change refs'.count (none, c) ≤ (t.parents c).count none
          omega
    · rw [List.count_eq_zero.mpr hmem]
      exact Nat.zero_le _
  holder_busy := by
    intro q c hmem
    obtain ⟨hb, hopen⟩ := h.holder_busy q c (List.mem_append_right _ hmem)
    have hkept := hrel.frame q (fun r hr => h.not_above q hb r (List.mem_append_left _ hr))
    exact ⟨hb, hkept.2.trans hopen⟩
  not_above := fun b hb r hr habove =>
    h.not_above b hb r (List.mem_append_right _ hr)
      (habove.mono (fun c q => hrel.parents_sub c (some q)))

/-- The references of a program to its children. -/
def ownRefs (s : Programs P) (p : P) : List (Option P × P) :=
  (s.children p).map (fun child => (some p, child))

theorem count_ownRefs (s : Programs P) (p c : P) :
    (ownRefs s p).count (some p, c) = (s.children p).count c :=
  List.count_map_of_injective _ _ (fun _ _ hab => (Prod.mk.inj hab).2) c

omit [DecidableEq P] in
theorem mem_ownRefs {r : Option P × P} :
    r ∈ ownRefs s p ↔ r.1 = some p ∧ r.2 ∈ s.children p := by
  obtain ⟨holder, c⟩ := r
  simp only [ownRefs, List.mem_map, Prod.mk.injEq]
  constructor
  · rintro ⟨child, hchild, rfl, rfl⟩
    exact ⟨rfl, hchild⟩
  · rintro ⟨rfl, hchild⟩
    exact ⟨c, hchild, rfl, rfl⟩

/-- What closes, with one parent left. -/
structure Closing (I : Instances P) (busy : P → Prop) (s : Programs P) (p : P)
    (from_ : Option P) : Prop where
  consistent : Consistent I busy s
  endable : Endable busy s [(from_, p)]
  not_busy : ¬ busy p
  one : s.parents p = [from_]
  is_open : s.closed p = false

namespace Closing

theorem child_held (h : Closing I busy s p from_) {c : P} :
    c ∈ s.children p ↔ some p ∈ s.parents c := by
  rw [← List.count_pos_iff, ← h.consistent.agree p h.not_busy c, List.count_pos_iff]

/-- The children can be ended. -/
theorem endable_children (h : Closing I busy s p from_) (hrank : RankedBy s.parents rank) :
    Endable (fun c => busy c ∨ c = p) (s.deleteItem I p) (ownRefs s p) where
  count_le := by
    rintro ⟨holder, c⟩
    by_cases hmem : (holder, c) ∈ ownRefs s p
    · obtain ⟨rfl, _⟩ := mem_ownRefs.mp hmem
      rw [count_ownRefs, ← h.consistent.agree p h.not_busy c]
      exact Nat.le_refl _
    · rw [List.count_eq_zero.mpr hmem]
      exact Nat.zero_le _
  holder_busy := by
    intro q c hmem
    obtain ⟨heq, _⟩ := mem_ownRefs.mp hmem
    obtain rfl := Option.some.inj heq
    exact ⟨Or.inr rfl, h.is_open⟩
  not_above := by
    intro b hb r hr habove
    have hheld := h.child_held.mp (mem_ownRefs.mp hr).2
    rcases hb with hb | rfl
    · exact h.endable.not_above b hb _ (List.mem_singleton.mpr rfl) (habove.tail hheld)
    · exact hrank.not_above hheld habove

/-- Ending the children leaves the program itself alone. -/
theorem kept (h : Closing I busy s p from_) (hrank : RankedBy s.parents rank)
    (hrel : Released (ownRefs s p) (s.deleteItem I p) t) :
    t.parents p = [from_] ∧ t.closed p = false := by
  obtain ⟨hparents, hclosed⟩ := hrel.frame p
    (fun r hr => (h.endable_children hrank).not_above p (Or.inr rfl) r hr)
  exact ⟨hparents.trans h.one, hclosed.trans h.is_open⟩

/-- The state after a program is closed, when its children have been ended. -/
def last (t : Programs P) (p : P) : Programs P :=
  ((t.clearChildren p).setClosed p true).spliceParent p 0

end Closing

end Releases

end Program
end Peerbit
