import Mathlib.Data.Finset.Max
import Mathlib.Data.Finset.Card
import Mathlib.Logic.Relation
import Mathlib.Data.List.Perm.Basic

/-!
# Orders in which a tree can be visited

A tree is a finite set with pointers from its elements to their parents.  A
visit keeps a current element, and can go on to a new one whose parent is the
current element or lies above it.  The orders of such a visit are the depth
first ones: any leaf can be the last element, and the order is unique only when
the tree is a chain.
-/

namespace Peerbit
namespace Lib

open Relation

section TreeOrders

variable {β : Type} {r : β → β → Prop}

/-- A finite set in which all elements but the root point to one other. -/
structure Tree (r : β → β → Prop) (S : Finset β) (root : β) : Prop where
  root_mem : root ∈ S
  orphan : ∀ a, ¬ r root a
  parent : ∀ b ∈ S, b ≠ root → ∃ a ∈ S, r b a
  unique : Relator.RightUnique r
  rank : ∃ rank : β → Nat, ∀ b a, r b a → rank a < rank b

/-- Nothing in the set points to the element. -/
def Leaf (r : β → β → Prop) (S : Finset β) (b : β) : Prop :=
  ∀ c ∈ S, ¬ r c b

/-- The elements of a visit, the latest first. -/
inductive Visit (r : β → β → Prop) (root : β) : List β → Prop
  | root : Visit r root [root]
  | next {b a x : β} {l : List β} (hvisit : Visit r root (x :: l))
      (hparent : r b a) (habove : ReflTransGen r x a) (hnew : b ∉ x :: l) :
      Visit r root (b :: x :: l)

theorem rank_le_of_above
    {rank : β → Nat} (hrank : ∀ b a, r b a → rank a < rank b) {b a : β}
    (h : ReflTransGen r b a) :
    rank a ≤ rank b := by
  induction h with
  | refl => exact Nat.le_refl _
  | tail _ hstep ih => exact (Nat.le_of_lt (hrank _ _ hstep)).trans ih

theorem Visit.nodup {root : β} {l : List β} (h : Visit r root l) : l.Nodup := by
  induction h with
  | root => exact List.nodup_singleton _
  | next _ _ _ hnew ih => exact List.nodup_cons.mpr ⟨hnew, ih⟩

namespace Tree

variable {S : Finset β} {root : β}

theorem above_root (h : Tree r S root) {b : β} (hb : b ∈ S) :
    ReflTransGen r b root := by
  obtain ⟨rank, hrank⟩ := h.rank
  induction hn : rank b using Nat.strong_induction_on generalizing b with
  | _ n ih =>
      by_cases hroot : b = root
      · subst hroot
        exact .refl
      · obtain ⟨a, ha, hba⟩ := h.parent b hb hroot
        exact .head hba (ih (rank a) (hn ▸ hrank b a hba) ha rfl)

/-- Without a leaf other than the root the set is a tree again. -/
theorem erase
    [DecidableEq β] (h : Tree r S root) {m : β} (hleaf : Leaf r S m)
    (hne : m ≠ root) :
    Tree r (S.erase m) root where
  root_mem := Finset.mem_erase.mpr ⟨hne.symm, h.root_mem⟩
  orphan := h.orphan
  parent := by
    intro b hb hroot
    have hbS : b ∈ S := Finset.mem_of_mem_erase hb
    obtain ⟨a, ha, hba⟩ := h.parent b hbS hroot
    refine ⟨a, Finset.mem_erase.mpr ⟨?_, ha⟩, hba⟩
    rintro rfl
    exact hleaf b hbS hba
  unique := h.unique
  rank := h.rank

/-- Below every element there is a leaf. -/
theorem exists_leaf (h : Tree r S root) {a : β} (ha : a ∈ S) :
    ∃ l ∈ S, Leaf r S l ∧ ReflTransGen r l a := by
  classical
  obtain ⟨rank, hrank⟩ := h.rank
  obtain ⟨l, hl, hmax⟩ :=
    (S.filter (fun b => ReflTransGen r b a)).exists_max_image rank
      ⟨a, Finset.mem_filter.mpr ⟨ha, .refl⟩⟩
  obtain ⟨hlS, hla⟩ := Finset.mem_filter.mp hl
  refine ⟨l, hlS, ?_, hla⟩
  intro c hc hcl
  have hle := hmax c (Finset.mem_filter.mpr ⟨hc, .head hcl hla⟩)
  exact absurd (hrank c l hcl) (Nat.not_lt.mpr hle)

/-- Two elements of which none lies above the other have different leaves below
them. -/
theorem exists_two_leaves
    (h : Tree r S root) {a b : β} (ha : a ∈ S) (hb : b ∈ S)
    (hab : ¬ ReflTransGen r a b) (hba : ¬ ReflTransGen r b a) :
    ∃ l ∈ S, ∃ l' ∈ S, Leaf r S l ∧ Leaf r S l' ∧ l ≠ l' := by
  obtain ⟨l, hl, hleaf, hla⟩ := h.exists_leaf ha
  obtain ⟨l', hl', hleaf', hlb⟩ := h.exists_leaf hb
  refine ⟨l, hl, l', hl', hleaf, hleaf', ?_⟩
  rintro rfl
  exact (ReflTransGen.total_of_right_unique h.unique hla hlb).elim hab hba

end Tree

/-- A new leaf can be visited right after its parent. -/
theorem Visit.insert
    {root m p x : β} {l : List β} (h : Visit r root (x :: l)) (hp : p ∈ l)
    (hparent : r m p) (hnew : m ∉ x :: l) :
    ∃ l', Visit r root (x :: l') ∧ ∀ b, b ∈ x :: l' ↔ b = m ∨ b ∈ x :: l := by
  generalize hlist : x :: l = list at h
  induction h generalizing x l with
  | root =>
      obtain ⟨rfl, rfl⟩ := List.cons.inj hlist
      cases hp
  | @next b a y rest hvisit hba habove hb ih =>
      obtain ⟨rfl, rfl⟩ := List.cons.inj hlist
      have hnew' : m ∉ y :: rest := fun hm => hnew (List.mem_cons_of_mem _ hm)
      rcases List.mem_cons.mp hp with rfl | hp
      · -- the parent is the element visited before
        refine ⟨m :: p :: rest, ?_, ?_⟩
        · refine .next (.next hvisit hparent .refl hnew') hba
            (.head hparent habove) ?_
          intro hmem
          rcases List.mem_cons.mp hmem with rfl | hmem
          · exact hnew List.mem_cons_self
          · exact hb hmem
        · intro c
          simp only [List.mem_cons]
          tauto
      · obtain ⟨l', hvisit', hmem'⟩ := ih hp hnew' rfl
        refine ⟨y :: l', .next hvisit' hba habove ?_, ?_⟩
        · intro hmem
          rcases (hmem' x).mp hmem with rfl | hmem
          · exact hnew List.mem_cons_self
          · exact hb hmem
        · intro c
          rw [List.mem_cons, hmem' c, List.mem_cons (a := c) (b := x)]
          tauto

/-- Every leaf can be visited last. -/
theorem Tree.exists_visit
    {S : Finset β} {root l : β} (h : Tree r S root) (hl : l ∈ S)
    (hleaf : Leaf r S l) :
    ∃ rest, Visit r root (l :: rest) ∧ ∀ b, b ∈ l :: rest ↔ b ∈ S := by
  classical
  induction hn : S.card using Nat.strong_induction_on generalizing S l with
  | _ n ih =>
      by_cases hsingle : S.erase l = ∅
      · -- the leaf is the root, and alone
        have hall : ∀ b, b ∈ S ↔ b = l := by
          intro b
          constructor
          · intro hb
            by_contra hne
            have hmem : b ∈ S.erase l := Finset.mem_erase.mpr ⟨hne, hb⟩
            rw [hsingle] at hmem
            exact absurd hmem (Finset.notMem_empty b)
          · rintro rfl
            exact hl
        obtain rfl := (hall root).mp h.root_mem
        exact ⟨[], .root, fun b => by simp [hall]⟩
      · obtain ⟨rank, hrank⟩ := h.rank
        obtain ⟨m, hm, hmax⟩ := (S.erase l).exists_max_image rank
          (Finset.nonempty_iff_ne_empty.mpr hsingle)
        obtain ⟨hml, hmS⟩ := Finset.mem_erase.mp hm
        by_cases hparent : r l m
        · -- go to the parent first, and to the leaf last
          have hroot : l ≠ root := by
            rintro rfl
            exact h.orphan m hparent
          have hleaf' : Leaf r (S.erase l) m := by
            intro c hc hcm
            exact absurd (hrank c m hcm) (Nat.not_lt.mpr (hmax c hc))
          obtain ⟨rest, hvisit, hmem⟩ :=
            ih (S.erase l).card (hn ▸ Finset.card_erase_lt_of_mem hl)
              (h.erase hleaf hroot) hm hleaf' rfl
          refine ⟨m :: rest, .next hvisit hparent .refl ?_, ?_⟩
          · intro hcontra
            exact absurd ((hmem l).mp hcontra) (Finset.notMem_erase l S)
          · intro b
            rw [List.mem_cons, hmem b, Finset.mem_erase]
            constructor
            · rintro (rfl | ⟨_, hb⟩)
              · exact hl
              · exact hb
            · intro hb
              by_cases hbl : b = l
              · exact Or.inl hbl
              · exact Or.inr ⟨hbl, hb⟩
        · -- take another leaf away, and visit it right after its parent
          have hleaf' : Leaf r S m := by
            intro c hc hcm
            by_cases hcl : c = l
            · exact hparent (hcl ▸ hcm)
            · exact absurd (hrank c m hcm)
                (Nat.not_lt.mpr (hmax c (Finset.mem_erase.mpr ⟨hcl, hc⟩)))
          have hroot : m ≠ root := by
            rintro rfl
            obtain hself | ⟨a, hla, ham⟩ :=
              (h.above_root hl).cases_head
            · exact hml hself.symm
            · have haS : a ∈ S := by
                obtain ⟨a', ha', hla'⟩ := h.parent l hl (Ne.symm hml)
                rwa [h.unique hla hla']
              have hal : a ≠ l := by
                rintro rfl
                exact absurd (hrank a a hla) (Nat.lt_irrefl _)
              obtain hself | ⟨c, hac, hcm⟩ := ham.cases_head
              · exact hparent (hself ▸ hla)
              · have hle := hmax a (Finset.mem_erase.mpr ⟨hal, haS⟩)
                have hlt := hrank a c hac
                have hcle := rank_le_of_above hrank hcm
                omega
          obtain ⟨p, hp, hmp⟩ := h.parent m hmS hroot
          have hpl : p ≠ l := by
            rintro rfl
            exact hleaf m hmS hmp
          have hpm : p ≠ m := by
            rintro rfl
            exact absurd (hrank p p hmp) (Nat.lt_irrefl _)
          obtain ⟨rest, hvisit, hmem⟩ :=
            ih (S.erase m).card (hn ▸ Finset.card_erase_lt_of_mem hmS)
              (h.erase hleaf' hroot)
              (Finset.mem_erase.mpr ⟨hml.symm, hl⟩)
              (fun c hc => hleaf c (Finset.mem_of_mem_erase hc)) rfl
          have hprest : p ∈ rest := by
            have hpmem := (hmem p).mpr (Finset.mem_erase.mpr ⟨hpm, hp⟩)
            exact (List.mem_cons.mp hpmem).resolve_left hpl
          have hfresh : m ∉ l :: rest := by
            intro hcontra
            exact absurd ((hmem m).mp hcontra) (Finset.notMem_erase m S)
          obtain ⟨rest', hvisit', hmem'⟩ := hvisit.insert hprest hmp hfresh
          refine ⟨rest', hvisit', ?_⟩
          intro b
          rw [hmem' b, hmem b, Finset.mem_erase]
          constructor
          · rintro (rfl | ⟨_, hb⟩)
            · exact hmS
            · exact hb
          · intro hb
            by_cases hbm : b = m
            · exact Or.inl hbm
            · exact Or.inr ⟨hbm, hb⟩

/-! ### Chains -/

/-- In the list every element comes after its parent. -/
def ParentsFirst (r : β → β → Prop) (order : List β) : Prop :=
  ∀ before b after, order = before ++ b :: after → ∀ a, r b a → a ∈ before

theorem ParentsFirst.above
    {order before after : List β} {b a : β} (h : ParentsFirst r order)
    (horder : order = before ++ b :: after) (habove : ReflTransGen r b a) :
    a = b ∨ a ∈ before := by
  induction habove with
  | refl => exact Or.inl rfl
  | @tail c a _ hca ih =>
      rcases ih with rfl | hc
      · exact Or.inr (h before c after horder a hca)
      · obtain ⟨before₁, before₂, rfl⟩ := List.append_of_mem hc
        refine Or.inr (List.mem_append_left _ ?_)
        exact h before₁ c (before₂ ++ b :: after) (by simp [horder]) a hca

/-- In a chain whose parents come first, all elements before one lie above
it. -/
theorem ParentsFirst.pairwise
    {order : List β} (h : ParentsFirst r order) (hnodup : order.Nodup)
    (hchain : ∀ a ∈ order, ∀ b ∈ order,
      ReflTransGen r a b ∨ ReflTransGen r b a) :
    order.Pairwise (fun a b => ReflTransGen r b a) := by
  suffices hsuffix : ∀ before after, order = before ++ after →
      after.Pairwise (fun a b => ReflTransGen r b a) from
    hsuffix [] order rfl
  intro before after horder
  induction after generalizing before with
  | nil => exact .nil
  | cons a after ih =>
      refine List.pairwise_cons.mpr ⟨?_, ih (before ++ [a]) (by simp [horder])⟩
      intro b hb
      have hbefore : b ∉ before ∧ b ≠ a := by
        rw [horder] at hnodup
        have hdisjoint := (List.nodup_append.mp hnodup).2.2
        refine ⟨fun hmem =>
          hdisjoint b hmem b (List.mem_cons_of_mem _ hb) rfl, ?_⟩
        rintro rfl
        exact (List.nodup_cons.mp (List.nodup_append.mp hnodup).2.1).1 hb
      rcases hchain a (by simp [horder]) b (by simp [horder, hb]) with hab | hba
      · rcases h.above horder hab with heq | hmem
        · exact absurd heq hbefore.2
        · exact absurd hmem hbefore.1
      · exact hba

theorem eq_of_above_of_above
    {rank : β → Nat} (hrank : ∀ b a, r b a → rank a < rank b) {a b : β}
    (hab : ReflTransGen r a b) (hba : ReflTransGen r b a) :
    a = b := by
  obtain heq | ⟨c, hac, hcb⟩ := hab.cases_head
  · exact heq
  · have hlt := hrank a c hac
    have hle := rank_le_of_above hrank hcb
    have hle' := rank_le_of_above hrank hba
    omega

/-- The elements of a chain come in one order only, if parents come first. -/
theorem eq_of_chain
    {order order' : List β}
    (hrank : ∃ rank : β → Nat, ∀ b a, r b a → rank a < rank b)
    (hnodup : order.Nodup) (hnodup' : order'.Nodup)
    (hmem : ∀ b, b ∈ order ↔ b ∈ order')
    (hparents : ParentsFirst r order) (hparents' : ParentsFirst r order')
    (hchain : ∀ a ∈ order, ∀ b ∈ order,
      ReflTransGen r a b ∨ ReflTransGen r b a) :
    order = order' := by
  obtain ⟨rank, hrank⟩ := hrank
  refine List.Perm.eq_of_pairwise
    (fun a b _ _ hba hab => eq_of_above_of_above hrank hab hba)
    (hparents.pairwise hnodup hchain) (hparents'.pairwise hnodup' ?_)
    ((List.perm_ext_iff_of_nodup hnodup hnodup').mpr hmem)
  intro a ha b hb
  exact hchain a ((hmem a).mpr ha) b ((hmem b).mpr hb)

/-- What lies above the current element was visited. -/
theorem Visit.above_mem
    {root x a : β} {l : List β} (h : Visit r root (x :: l))
    (horphan : ∀ a, ¬ r root a) (hunique : Relator.RightUnique r)
    (habove : ReflTransGen r x a) :
    a ∈ x :: l := by
  generalize hlist : x :: l = list at h
  induction h generalizing x l with
  | root =>
      obtain ⟨rfl, rfl⟩ := List.cons.inj hlist
      obtain heq | ⟨c, hxc, _⟩ := habove.cases_head
      · simp [heq]
      · exact absurd hxc (horphan c)
  | @next b p y rest hvisit hbp hyp hnew ih =>
      obtain ⟨rfl, rfl⟩ := List.cons.inj hlist
      obtain heq | ⟨c, hbc, hca⟩ := habove.cases_head
      · simp [heq]
      · rw [hunique hbc hbp] at hca
        exact List.mem_cons_of_mem _ (ih (hyp.trans hca) rfl)

/-- A visit comes to parents first. -/
theorem Visit.parentsFirst
    {root : β} {l : List β} (h : Visit r root l) (horphan : ∀ a, ¬ r root a)
    (hunique : Relator.RightUnique r) :
    ParentsFirst r l.reverse := by
  induction h with
  | root =>
      intro before b after horder a hba
      rw [List.reverse_singleton] at horder
      cases before with
      | nil =>
          obtain ⟨rfl, _⟩ := List.cons.inj horder
          exact absurd hba (horphan a)
      | cons c before => simp at horder
  | @next b a x l hvisit hba habove hnew ih =>
      intro before c after horder d hcd
      rw [List.reverse_cons] at horder
      rcases List.eq_nil_or_concat after with rfl | ⟨after', z, rfl⟩
      · -- the element visited last
        obtain ⟨hbefore, hlast⟩ := List.append_inj' horder rfl
        obtain ⟨rfl, _⟩ := List.cons.inj hlast
        rw [← hbefore, List.mem_reverse, hunique hcd hba]
        exact hvisit.above_mem horphan hunique habove
      · rw [List.concat_eq_append, ← List.cons_append, ← List.append_assoc]
          at horder
        obtain ⟨hinit, _⟩ := List.append_inj' horder rfl
        exact ih before c after' hinit d hcd

end TreeOrders

end Lib
end Peerbit
