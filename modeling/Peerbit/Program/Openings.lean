import Peerbit.Program.Releases

/-!
# What opening a program adds

Opening a program makes its parent a parent of it, and makes it a parent of the programs
among its fields, which are opened with it if they are closed.  While this goes on it is
busy.  Nothing but the program and what is in it is touched (`Opened`).
-/

namespace Peerbit
namespace Program

open Lib

section Openings

variable {P : Type} [DecidableEq P] (I : Instances P)

/-- The first is the second, or is among its fields, or theirs. -/
def Within (x p : P) : Prop :=
  Relation.ReflTransGen (fun a b => b ∈ I.programs a) p x

/-- The programs are consistent, and all references are counted on both sides, without
circles. -/
structure Counted (busy : P → Prop) (s : Programs P) : Prop where
  consistent : Consistent I busy s
  agree : ∀ q c, (s.parents c).count (some q) = (s.children q).count c
  ranked : Ranked s.parents

structure Opened (p : P) (parent : Option P) (s t : Programs P) : Prop where
  parents_sup : ∀ c, ∀ h ∈ s.parents c, h ∈ t.parents c
  open_mono : ∀ c, s.closed c = false → t.closed c = false
  held : parent ∈ t.parents p
  is_open : t.closed p = false
  frame : ∀ c, ¬ Within I c p → t.parents c = s.parents c ∧ t.closed c = s.closed c

variable {I} {busy : P → Prop} {s t u : Programs P} {p q x y : P} {parent : Option P}

omit [DecidableEq P] in
theorem Within.refl (p : P) : Within I p p :=
  Relation.ReflTransGen.refl

omit [DecidableEq P] in
theorem Within.head (h : q ∈ I.programs p) (hx : Within I x q) : Within I x p :=
  Relation.ReflTransGen.head h hx

omit [DecidableEq P] in
theorem Within.depth_le (h : Within I x p) : I.depth x ≤ I.depth p := by
  unfold Within at h
  induction h with
  | refl => exact Nat.le_refl _
  | tail _ h ih => exact Nat.le_trans (Nat.le_of_lt (I.depth_lt h)) ih

omit [DecidableEq P] in
/-- A program is not in one of its fields. -/
theorem not_within (h : q ∈ I.programs p) : ¬ Within I p q :=
  fun hp => absurd (I.depth_lt h) (Nat.not_lt.mpr hp.depth_le)

/-! ### A new parent -/

@[simp] theorem addParent_closed : (s.addParent p parent).closed = s.closed := by
  unfold Programs.addParent
  split
  · rfl
  · rfl

@[simp] theorem addParent_items : (s.addParent p parent).items = s.items := by
  unfold Programs.addParent
  split
  · rfl
  · rfl

theorem addParent_parents_of_ne (h : x ≠ p) :
    (s.addParent p parent).parents x = s.parents x := by
  unfold Programs.addParent
  split
  · rfl
  · exact Function.update_of_ne h ..

theorem addParent_parents_self (h : ¬ (parent ∈ s.parents p ∧ parent = none)) :
    (s.addParent p parent).parents p = s.parents p ++ [parent] := by
  unfold Programs.addParent
  rw [if_neg h]
  exact Function.update_self ..

theorem mem_addParent {h : Option P} :
    h ∈ (s.addParent p parent).parents x ↔ h ∈ s.parents x ∨ x = p ∧ h = parent := by
  by_cases hx : x = p
  · subst hx
    by_cases hskip : parent ∈ s.parents x ∧ parent = none
    · unfold Programs.addParent
      rw [if_pos hskip]
      constructor
      · exact Or.inl
      · rintro (hmem | ⟨_, rfl⟩)
        · exact hmem
        · exact hskip.1
    · rw [addParent_parents_self hskip, List.mem_append, List.mem_singleton]
      simp
  · rw [addParent_parents_of_ne hx]
    simp [hx]

/-- The reference is counted once more on both sides. -/
theorem addParent_agree (h : ∀ q c, (s.parents c).count (some q) = (s.children q).count c)
    (q c : P) : ((s.addParent p parent).parents c).count (some q) =
      ((s.addParent p parent).children q).count c := by
  unfold Programs.addParent
  split
  · exact h q c
  · cases parent with
    | none =>
        change ((Function.update s.parents p (s.parents p ++ [none])) c).count (some q) = _
        by_cases hc : c = p
        · subst hc
          rw [Function.update_self, List.count_append, h q c]
          rfl
        · rw [Function.update_of_ne hc]
          exact h q c
    | some r =>
        change ((Function.update s.parents p (s.parents p ++ [some r])) c).count (some q) =
          ((Function.update s.children r (s.children r ++ [p])) q).count c
        by_cases hc : c = p
        · subst hc
          rw [Function.update_self, List.count_append, h q c]
          by_cases hq : q = r
          · subst hq
            rw [Function.update_self, List.count_append, List.count_singleton_self,
              List.count_singleton_self]
          · rw [Function.update_of_ne hq, List.count_singleton, if_neg (by simp [Ne.symm hq])]
            rfl
        · rw [Function.update_of_ne hc, h q c]
          by_cases hq : q = r
          · subst hq
            rw [Function.update_self, List.count_append, List.count_singleton,
              if_neg (by simp [Ne.symm hc])]
            rfl
          · rw [Function.update_of_ne hq]

theorem addParent_user_once (h : ∀ c, (s.parents c).count none ≤ 1) (c : P) :
    ((s.addParent p parent).parents c).count none ≤ 1 := by
  by_cases hc : c = p
  · subst hc
    by_cases hskip : parent ∈ s.parents c ∧ parent = none
    · unfold Programs.addParent
      rw [if_pos hskip]
      exact h c
    · rw [addParent_parents_self hskip, List.count_append]
      cases parent with
      | none =>
          have hzero : (s.parents c).count none = 0 :=
            List.count_eq_zero.mpr (fun hmem => hskip ⟨hmem, rfl⟩)
          rw [hzero]
          exact Nat.le_refl _
      | some r => exact h c
  · rw [addParent_parents_of_ne hc]
    exact h c

theorem Counted.addParent (hs : Counted I busy s) (hopen : s.closed p = false ∨ busy p)
    (hparent : ∀ q, parent = some q →
      (s.closed q = false ∨ busy q) ∧ ¬ Above s.parents q p) :
    Counted I busy (s.addParent p parent) where
  consistent :=
    { closed_iff := by
        intro c hc
        rw [addParent_closed, hs.consistent.closed_iff c hc]
        by_cases hcp : c = p
        · subst hcp
          have hne : s.parents c ≠ [] := fun hnil =>
            absurd ((hs.consistent.closed_iff c hc).mpr hnil)
              (by rw [hopen.resolve_right hc]; exact Bool.false_ne_true)
          obtain ⟨h, hmem⟩ := List.exists_mem_of_ne_nil _ hne
          exact iff_of_false hne (List.ne_nil_of_mem (mem_addParent.mpr (Or.inl hmem)))
        · rw [addParent_parents_of_ne hcp]
      parent_open := by
        intro q c hq
        rw [addParent_closed]
        rcases mem_addParent.mp hq with hold | ⟨_, hnew⟩
        · exact hs.consistent.parent_open q c hold
        · exact (hparent q hnew.symm).1
      user_once := addParent_user_once hs.consistent.user_once
      agree := fun q _ c => addParent_agree hs.agree q c
      fields_held := by
        intro c hc hcopen x hx
        rw [addParent_closed] at hcopen
        exact mem_addParent.mpr (Or.inl (hs.consistent.fields_held c hc hcopen x hx))
      item_open := by
        intro a x hx
        rw [addParent_items] at hx
        rw [addParent_closed]
        exact hs.consistent.item_open a x hx }
  agree := addParent_agree hs.agree
  ranked := by
    cases parent with
    | none =>
        refine hs.ranked.mono (fun c q hmem => ?_)
        rcases mem_addParent.mp hmem with hold | ⟨_, hnew⟩
        · exact hold
        · cases hnew
    | some q =>
        refine hs.ranked.hold (hparent q rfl).2 (fun a b hab => ?_)
        rcases mem_addParent.mp hab with hold | ⟨ha, hb⟩
        · exact Or.inl hold
        · exact Or.inr ⟨ha, Option.some.inj hb⟩

/-! ### Opening a program with what is in it -/

variable {root : P} {rootParent : Option P} {n : Nat}

/-- The parent is open or busy, and nothing that is in the program is above it. -/
def Fits (I : Instances P) (busy : P → Prop) (s : Programs P) (p : P) (parent : Option P) :
    Prop :=
  ∀ q, parent = some q →
    (s.closed q = false ∨ busy q) ∧ ∀ x, Within I x p → ¬ Above s.parents q x

/-- Nothing that is in the program is above it, but itself. -/
def Clear (I : Instances P) (s : Programs P) (p : P) : Prop :=
  ∀ y, Within I y p → y ≠ p → ¬ Above s.parents p y

omit [DecidableEq P] in
theorem Clear.fits (h : Clear I s p) (hx : x ∈ I.programs p) (hbusy : busy p) :
    Fits I busy s x (some p) := by
  intro q hq
  obtain rfl := Option.some.inj hq
  refine ⟨Or.inr hbusy, fun y hy => h y (Within.head hx hy) ?_⟩
  rintro rfl
  exact not_within hx hy

/-- A program that fits, and has no parent yet, is clear with it. -/
theorem Fits.clear (h : Fits I busy s p parent) (hnil : s.parents p = []) :
    Clear I (s.addParent p parent) p := by
  intro y hy hne habove
  rcases Relation.ReflTransGen.cases_head habove with heq | ⟨q, hq, hrest⟩
  · exact hne heq.symm
  · rcases mem_addParent.mp hq with hold | ⟨_, hnew⟩
    · rw [hnil] at hold
      cases hold
    · obtain ⟨_, hnot⟩ := h q hnew.symm
      refine hnot y hy ((Above.congr (fun b hb => addParent_parents_of_ne ?_)).mp hrest)
      rintro rfl
      exact hnot b (.refl b) hb

/-- Opening a field changes nothing above the program. -/
theorem Clear.opened (h : Clear I s p) (hx : x ∈ I.programs p)
    (hopened : Opened I x (some p) s t) : Clear I t p := by
  intro y hy hne habove
  refine h y hy hne ((Above.congr (fun b hb => ?_)).mp habove)
  refine (hopened.frame b (fun hbx => ?_)).1
  by_cases hbp : b = p
  · subst hbp
    exact not_within hx hbx
  · exact h b (Within.head hx hbx) hbp hb

/-- A program is open once its fields are, and the handler may have put it among its
items. -/
theorem Counted.opened (hs : Counted I (fun c => busy c ∨ c = p) s)
    (hparents : s.parents p ≠ []) (hfields : ∀ x ∈ I.programs p, some p ∈ s.parents x) :
    Counted I busy (s.setClosed p false) where
  consistent :=
    { closed_iff := by
        intro c hc
        by_cases hcp : c = p
        · subst hcp
          rw [Programs.setClosed_closed_self, Programs.setClosed_parents]
          exact iff_of_false Bool.false_ne_true hparents
        · rw [Programs.setClosed_closed_of_ne _ _ _ hcp]
          exact hs.consistent.closed_iff c (by simp [hc, hcp])
      parent_open := by
        intro q c hq
        by_cases hqp : q = p
        · subst hqp
          exact Or.inl (Programs.setClosed_closed_self ..)
        · rw [Programs.setClosed_closed_of_ne _ _ _ hqp]
          exact (hs.consistent.parent_open q c hq).imp_right (fun hb => hb.resolve_right hqp)
      user_once := hs.consistent.user_once
      agree := fun q _ c => hs.agree q c
      fields_held := by
        intro c hc hcopen x hx
        by_cases hcp : c = p
        · subst hcp
          exact hfields x hx
        · rw [Programs.setClosed_closed_of_ne _ _ _ hcp] at hcopen
          exact hs.consistent.fields_held c (by simp [hc, hcp]) hcopen x hx
      item_open := by
        intro a x hx
        obtain ⟨haddress, hopen⟩ := hs.consistent.item_open a x hx
        by_cases hxp : x = p
        · subst hxp
          exact ⟨haddress, Or.inl (Programs.setClosed_closed_self ..)⟩
        · rw [Programs.setClosed_closed_of_ne _ _ _ hxp]
          exact ⟨haddress, hopen.imp_right (fun hb => hb.resolve_right hxp)⟩ }
  agree := hs.agree
  ranked := hs.ranked

theorem Counted.setItem (hs : Counted I busy s) (hopen : s.closed p = false ∨ busy p) :
    Counted I busy (s.setItem I p) where
  consistent :=
    { closed_iff := hs.consistent.closed_iff
      parent_open := hs.consistent.parent_open
      user_once := hs.consistent.user_once
      agree := hs.consistent.agree
      fields_held := hs.consistent.fields_held
      item_open := by
        intro a x hx
        by_cases ha : a = I.address p
        · subst ha
          obtain rfl := Option.some.inj ((Lib.InsertionMap.get_set_self _ _ _).symm.trans hx)
          exact ⟨rfl, hopen⟩
        · exact hs.consistent.item_open a x
            ((Lib.InsertionMap.get_set_of_ne _ _ ha).symm.trans hx) }
  agree := hs.agree
  ranked := hs.ranked

end Openings

end Program
end Peerbit
