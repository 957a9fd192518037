import Mathlib.Data.List.Nodup
import Mathlib.Data.List.Perm.Subperm
import Peerbit.Lib.LevelOrder

/-!
# Walks that go on from the first element with each key

A search visits its elements level by level and goes on from an element only when
no element with its key was visited before.  It ends where there are finitely many
keys, and it meets elements that are reached; but it does not meet all of them,
nor all their keys: an element that is passed over may be the only way to a key.

What it meets for certain can be read off the levels as they are listed with nothing
passed over: the elements to which a walk leads that goes on only from elements that
are the first ones listed with their keys (`Led.met`).
-/

namespace Peerbit
namespace Lib

universe u v

section Firsts

variable {α : Type u} {κ : Type v} [DecidableEq κ] (key : α → κ)

/-- The elements of a list whose keys were not seen before them. -/
def firsts : List κ → List α → List α
  | _, [] => []
  | seen, a :: rest =>
      if key a ∈ seen then firsts seen rest else a :: firsts (seen ++ [key a]) rest

variable {key}

theorem firsts_sublist (seen : List κ) (l : List α) : (firsts key seen l).Sublist l := by
  induction l generalizing seen with
  | nil => exact .slnil
  | cons a rest ih =>
      unfold firsts
      split
      · exact (ih seen).cons a
      · exact (ih _).cons_cons a

theorem mem_append_firsts {seen : List κ} {l : List α} {k : κ} :
    k ∈ seen ++ (firsts key seen l).map key ↔ k ∈ seen ∨ ∃ a ∈ l, key a = k := by
  induction l generalizing seen with
  | nil => simp [firsts]
  | cons a rest ih =>
      unfold firsts
      split
      · rename_i hseen
        rw [ih, List.exists_mem_cons_iff]
        constructor
        · exact Or.imp_right .inr
        · rintro (hk | rfl | hk)
          · exact .inl hk
          · exact .inl hseen
          · exact .inr hk
      · have happend : seen ++ (a :: firsts key (seen ++ [key a]) rest).map key =
            (seen ++ [key a]) ++ (firsts key (seen ++ [key a]) rest).map key := by
          simp
        rw [happend, ih, List.exists_mem_cons_iff, List.mem_append, List.mem_singleton,
          or_assoc, eq_comm (a := k)]

theorem firsts_append (seen : List κ) (l l' : List α) :
    firsts key seen (l ++ l') =
      firsts key seen l ++ firsts key (seen ++ (firsts key seen l).map key) l' := by
  induction l generalizing seen with
  | nil => simp [firsts]
  | cons a l ih =>
      by_cases hseen : key a ∈ seen
      · rw [List.cons_append, firsts, if_pos hseen, ih, firsts, if_pos hseen]
      · rw [List.cons_append, firsts, if_neg hseen, ih, firsts, if_neg hseen, List.map_cons,
          List.cons_append, List.append_assoc, List.singleton_append]

theorem nodup_append_firsts {seen : List κ} (hseen : seen.Nodup) (l : List α) :
    (seen ++ (firsts key seen l).map key).Nodup := by
  induction l generalizing seen with
  | nil => simpa [firsts] using hseen
  | cons a rest ih =>
      unfold firsts
      split
      · exact ih hseen
      · rename_i hnew
        have happend : seen ++ (a :: firsts key (seen ++ [key a]) rest).map key =
            (seen ++ [key a]) ++ (firsts key (seen ++ [key a]) rest).map key := by
          simp
        rw [happend]
        exact ih ((List.perm_append_singleton _ _).nodup_iff.mpr
          (List.nodup_cons.mpr ⟨hnew, hseen⟩))

end Firsts

section OpenLevels

variable {α : Type u} {κ : Type v} [DecidableEq κ] (key : α → κ) (succ : α → List α)

/-- The keys that are seen before a level of the search, and the level. -/
def openLevel (roots : List α) : Nat → List κ × List α
  | 0 => ([], roots)
  | n + 1 =>
      let last := openLevel roots n
      let met := firsts key last.1 last.2
      (last.1 ++ met.map key, met.flatMap succ)

/-- The search visits the element. -/
def Met (roots : List α) (a : α) : Prop :=
  ∃ n, a ∈ (openLevel key succ roots n).2

variable {key succ} {roots : List α}

theorem nodup_openLevel (n : Nat) : (openLevel key succ roots n).1.Nodup := by
  induction n with
  | zero => exact List.nodup_nil
  | succ n ih => exact nodup_append_firsts ih _

theorem mem_openLevel_succ {n : Nat} {k : κ} :
    k ∈ (openLevel key succ roots (n + 1)).1 ↔
      k ∈ (openLevel key succ roots n).1 ∨
        ∃ a ∈ (openLevel key succ roots n).2, key a = k :=
  mem_append_firsts

/-- The keys that are seen are those of the elements visited before. -/
theorem mem_openLevel {n : Nat} {k : κ} :
    k ∈ (openLevel key succ roots n).1 ↔
      ∃ m < n, ∃ a ∈ (openLevel key succ roots m).2, key a = k := by
  induction n with
  | zero => simp [openLevel]
  | succ n ih =>
      rw [mem_openLevel_succ, ih]
      constructor
      · rintro (⟨m, hm, ha⟩ | ha)
        · exact ⟨m, Nat.lt_succ_of_lt hm, ha⟩
        · exact ⟨n, Nat.lt_succ_self n, ha⟩
      · rintro ⟨m, hm, ha⟩
        rcases Nat.lt_succ_iff_lt_or_eq.mp hm with hm | rfl
        · exact .inl ⟨m, hm, ha⟩
        · exact .inr ha

/-- What is visited is reached. -/
theorem Met.reached {a : α} (h : Met key succ roots a) : Reached succ roots a := by
  obtain ⟨n, hn⟩ := h
  induction n generalizing a with
  | zero => exact .root hn
  | succ n ih =>
      obtain ⟨b, hb, ha⟩ := List.mem_flatMap.mp hn
      exact .step (ih ((firsts_sublist _ _).mem hb)) ha

/-- Each level before the last one brings a new key. -/
theorem le_length_openLevel {n : Nat} (h : (openLevel key succ roots n).2 ≠ []) :
    n ≤ (openLevel key succ roots n).1.length := by
  induction n with
  | zero => exact Nat.zero_le _
  | succ n ih =>
      have hmet : firsts key (openLevel key succ roots n).1
          (openLevel key succ roots n).2 ≠ [] := by
        intro hnil
        exact h (by simp only [openLevel, hnil, List.flatMap_nil])
      have hlevel : (openLevel key succ roots n).2 ≠ [] := by
        intro hnil
        exact hmet (by rw [hnil]; rfl)
      have hpos := List.length_pos_iff.mpr hmet
      have hle := ih hlevel
      simp only [openLevel, List.length_append, List.length_map]
      omega

/-- The search ends when all keys are among finitely many. -/
theorem openLevel_eq_nil {keys : List κ}
    (hkeys : ∀ a, Reached succ roots a → key a ∈ keys) {n : Nat}
    (hn : keys.length < n) : (openLevel key succ roots n).2 = [] := by
  by_contra h
  have hsub : (openLevel key succ roots n).1 ⊆ keys := by
    intro k hk
    obtain ⟨m, _, a, ha, rfl⟩ := mem_openLevel.mp hk
    exact hkeys a (Met.reached ⟨m, ha⟩)
  have hlength := ((nodup_openLevel n).subperm hsub).length_le
  have hle := le_length_openLevel h
  omega

/-- A search that has ended has seen the keys of all elements that it visits. -/
theorem mem_openLevel_of_ended {n : Nat} (hend : (openLevel key succ roots n).2 = [])
    {k : κ} :
    k ∈ (openLevel key succ roots n).1 ↔ ∃ a, Met key succ roots a ∧ key a = k := by
  have hafter : ∀ m, n ≤ m → (openLevel key succ roots m).2 = [] := by
    intro m hm
    induction hm with
    | refl => exact hend
    | step _ ih =>
        simp only [openLevel, ih]
        rfl
  rw [mem_openLevel]
  constructor
  · rintro ⟨m, _, a, ha, hk⟩
    exact ⟨a, ⟨m, ha⟩, hk⟩
  · rintro ⟨a, ⟨m, ha⟩, hk⟩
    refine ⟨m, ?_, a, ha, hk⟩
    by_contra hnot
    rw [hafter m (Nat.not_lt.mp hnot)] at ha
    cases ha

/-- What is visited is listed, at the same level. -/
theorem mem_level_of_mem_openLevel {n : Nat} {a : α}
    (h : a ∈ (openLevel key succ roots n).2) : a ∈ level succ roots n := by
  induction n generalizing a with
  | zero => exact h
  | succ n ih =>
      obtain ⟨b, hb, ha⟩ := List.mem_flatMap.mp h
      rw [level_succ]
      exact List.mem_flatMap.mpr ⟨b, ih ((firsts_sublist _ _).mem hb), ha⟩

end OpenLevels

/-! ### What the listing tells of the search -/

section Led

variable {α : Type u} {κ : Type v} [DecidableEq κ] (key : α → κ) (succ : α → List α)

/-- Where it is listed, in a level after a part of it, the element is the first one with
its key. -/
def FirstListed (roots : List α) (n : Nat) (before : List α) (a : α) : Prop :=
  ∀ b ∈ levelsUpTo succ roots n ++ before, key b ≠ key a

/-- A walk leads to the element where it is listed, in a level after a part of it, and
goes on only from elements that are the first ones listed with their keys. -/
inductive Led (roots : List α) : Nat → List α → α → Prop
  | root {before after : List α} {a : α} (h : roots = before ++ a :: after) :
      Led roots 0 before a
  | step {n : Nat} {before left right : List α} {a b : α} (h : Led roots n before a)
      (hfirst : FirstListed key succ roots n before a)
      (hb : succ a = left ++ b :: right) :
      Led roots (n + 1) (before.flatMap succ ++ left) b

variable {key succ} {roots : List α}

/-- The search passes over no element that is the first one listed with its key. -/
theorem FirstListed.firsts {n : Nat} {before : List α} {a : α}
    (h : FirstListed key succ roots n before a) {visited : List α}
    (hvisited : visited ⊆ before) (after : List α) :
    ∃ rest, Lib.firsts key (openLevel key succ roots n).1 (visited ++ a :: after) =
      Lib.firsts key (openLevel key succ roots n).1 visited ++ a :: rest := by
  have hnew : key a ∉ (openLevel key succ roots n).1 ++
      (Lib.firsts key (openLevel key succ roots n).1 visited).map key := by
    rw [mem_append_firsts, mem_openLevel]
    rintro (⟨m, hm, b, hb, hkey⟩ | ⟨b, hb, hkey⟩)
    · refine h b (List.mem_append_left _ ?_) hkey
      exact mem_levelsUpTo.mpr ⟨m, hm, mem_level_of_mem_openLevel hb⟩
    · exact h b (List.mem_append_right _ (hvisited hb)) hkey
  rw [firsts_append, Lib.firsts, if_neg hnew]
  exact ⟨_, rfl⟩

/-- The search visits the element at its level, after none but elements that are listed
before it. -/
theorem Led.visited {n : Nat} {before : List α} {a : α}
    (h : Led key succ roots n before a) :
    ∃ visited after, (openLevel key succ roots n).2 = visited ++ a :: after ∧
      visited ⊆ before := by
  induction h with
  | @root before after a h => exact ⟨before, after, h, List.Subset.refl _⟩
  | @step n before left right a b _ hfirst hb ih =>
      obtain ⟨visited, after, hlevel, hvisited⟩ := ih
      obtain ⟨rest, hfirsts⟩ := hfirst.firsts hvisited after
      let expanded := (firsts key (openLevel key succ roots n).1 visited).flatMap succ
      refine ⟨expanded ++ left, right ++ rest.flatMap succ, ?_, ?_⟩
      · simp only [openLevel, hlevel, hfirsts, List.flatMap_append, List.flatMap_cons, hb,
          expanded, List.append_assoc, List.cons_append]
      · intro c hc
        rcases List.mem_append.mp hc with hexpanded | hleft
        · obtain ⟨d, hd, hcd⟩ := List.mem_flatMap.mp hexpanded
          refine List.mem_append_left _ (List.mem_flatMap.mpr ⟨d, ?_, hcd⟩)
          exact hvisited ((firsts_sublist _ _).mem hd)
        · exact List.mem_append_right _ hleft

theorem Led.met {n : Nat} {before : List α} {a : α}
    (h : Led key succ roots n before a) : Met key succ roots a := by
  obtain ⟨visited, after, hlevel, _⟩ := h.visited
  refine ⟨n, ?_⟩
  rw [hlevel]
  exact List.mem_append_right _ List.mem_cons_self

end Led

end Lib
end Peerbit
