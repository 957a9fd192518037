import Mathlib.Data.List.Nodup

/-!
# Walks in level order

From some roots and a successor function, the walks are listed level by level;
an element comes once for each walk that ends in it, so the list may go on for
ever.  A search that reads the list may stop at the first element of some kind
that comes again.
-/

namespace Peerbit
namespace Lib

universe u

section LevelOrder

variable {α : Type u} (succ : α → List α)

/-- The ends of the walks of one length. -/
def level : List α → Nat → List α
  | roots, 0 => roots
  | roots, n + 1 => level (roots.flatMap succ) n

/-- The ends of all shorter walks, in level order. -/
def levelsUpTo : List α → Nat → List α
  | _, 0 => []
  | roots, n + 1 => roots ++ levelsUpTo (roots.flatMap succ) n

/-- Some walk ends in the element. -/
inductive Reached (roots : List α) : α → Prop
  | root {a : α} (h : a ∈ roots) : Reached roots a
  | step {a b : α} (h : Reached roots a) (hb : b ∈ succ a) : Reached roots b

variable {succ}

theorem level_succ (roots : List α) (n : Nat) :
    level succ roots (n + 1) = (level succ roots n).flatMap succ := by
  induction n generalizing roots with
  | zero => rfl
  | succ n ih => exact ih (roots.flatMap succ)

theorem level_eq_nil_of_le
    {roots : List α} {m n : Nat} (hmn : m ≤ n) (h : level succ roots m = []) :
    level succ roots n = [] := by
  induction hmn with
  | refl => exact h
  | step _ ih =>
      rw [level_succ, ih]
      rfl

theorem levelsUpTo_succ (roots : List α) (n : Nat) :
    levelsUpTo succ roots (n + 1) =
      levelsUpTo succ roots n ++ level succ roots n := by
  induction n generalizing roots with
  | zero => simp [levelsUpTo, level]
  | succ n ih =>
      have hrest := ih (roots.flatMap succ)
      rw [levelsUpTo, hrest, ← List.append_assoc]
      rfl

/-- When a level is empty nothing comes after it. -/
theorem levelsUpTo_eq_of_level_eq_nil
    {roots : List α} {m n : Nat} (hmn : m ≤ n) (h : level succ roots m = []) :
    levelsUpTo succ roots n = levelsUpTo succ roots m := by
  induction hmn with
  | refl => rfl
  | @step n hmn ih =>
      rw [levelsUpTo_succ, ih, level_eq_nil_of_le hmn h, List.append_nil]

theorem mem_levelsUpTo {roots : List α} {n : Nat} {a : α} :
    a ∈ levelsUpTo succ roots n ↔ ∃ m < n, a ∈ level succ roots m := by
  induction n with
  | zero => simp [levelsUpTo]
  | succ n ih =>
      rw [levelsUpTo_succ, List.mem_append, ih]
      constructor
      · rintro (⟨m, hm, ha⟩ | ha)
        · exact ⟨m, by omega, ha⟩
        · exact ⟨n, by omega, ha⟩
      · rintro ⟨m, hm, ha⟩
        rcases Nat.lt_succ_iff_lt_or_eq.mp hm with hm | rfl
        · exact Or.inl ⟨m, hm, ha⟩
        · exact Or.inr ha

theorem reached_iff {roots : List α} {a : α} :
    Reached succ roots a ↔ ∃ n, a ∈ level succ roots n := by
  constructor
  · intro h
    induction h with
    | root h => exact ⟨0, h⟩
    | step _ hb ih =>
        obtain ⟨n, hn⟩ := ih
        refine ⟨n + 1, ?_⟩
        rw [level_succ]
        exact List.mem_flatMap.mpr ⟨_, hn, hb⟩
  · rintro ⟨n, hn⟩
    induction n generalizing a with
    | zero => exact .root hn
    | succ n ih =>
        rw [level_succ] at hn
        obtain ⟨b, hb, ha⟩ := List.mem_flatMap.mp hn
        exact .step (ih hb) ha

theorem reached_of_mem_levelsUpTo {roots : List α} {n : Nat} {a : α}
    (h : a ∈ levelsUpTo succ roots n) : Reached succ roots a := by
  obtain ⟨m, _, ha⟩ := mem_levelsUpTo.mp h
  exact reached_iff.mpr ⟨m, ha⟩

end LevelOrder

/-! ### Stopping at what comes again -/

section UntilAgain

variable {α : Type u} [DecidableEq α] (stops : α → Bool)

/-- Reads a list, after what was read before, up to the first element that stops
and was read already.  The flag says whether there was one. -/
def untilAgain : List α → List α → List α × Bool
  | seen, [] => (seen, false)
  | seen, a :: rest =>
      if stops a = true ∧ a ∈ seen then (seen, true)
      else untilAgain (seen ++ [a]) rest

variable {stops}

theorem untilAgain_append (seen l l' : List α) :
    untilAgain stops seen (l ++ l') =
      if (untilAgain stops seen l).2 = true then untilAgain stops seen l
      else untilAgain stops (untilAgain stops seen l).1 l' := by
  induction l generalizing seen with
  | nil => rfl
  | cons a l ih =>
      simp only [List.cons_append, untilAgain]
      split
      · rfl
      · exact ih (seen ++ [a])

/-- What stops comes at most once. -/
def OnceEach (stops : α → Bool) (l : List α) : Prop :=
  (l.filter stops).Nodup

omit [DecidableEq α] in
theorem OnceEach.of_prefix {l l' : List α} (h : OnceEach stops l')
    (hl : l <+: l') : OnceEach stops l :=
  h.sublist (hl.sublist.filter stops)

omit [DecidableEq α] in
theorem onceEach_concat {l : List α} {a : α} :
    OnceEach stops (l ++ [a]) ↔
      OnceEach stops l ∧ ¬ (stops a = true ∧ a ∈ l) := by
  unfold OnceEach
  rw [List.filter_append]
  cases hstops : stops a with
  | false => simp [hstops]
  | true =>
      simp [hstops, List.nodup_append]
      intro _
      constructor
      · exact fun h ha => h a ha hstops rfl
      · rintro h b hb _ rfl
        exact h hb

/-- Either all is read, or it stops at what is in the way. -/
theorem untilAgain_spec (seen l : List α) (hseen : OnceEach stops seen) :
    (untilAgain stops seen l = (seen ++ l, false) ∧
        OnceEach stops (seen ++ l)) ∨
      ∃ pre a rest, l = pre ++ a :: rest ∧
        untilAgain stops seen l = (seen ++ pre, true) ∧ stops a = true ∧
        a ∈ seen ++ pre ∧ OnceEach stops (seen ++ pre) := by
  induction l generalizing seen with
  | nil => exact Or.inl ⟨by simp [untilAgain], by simpa using hseen⟩
  | cons a l ih =>
      unfold untilAgain
      by_cases hagain : stops a = true ∧ a ∈ seen
      · rw [if_pos hagain]
        exact Or.inr ⟨[], a, l, rfl, by simp, hagain.1, by simpa using hagain.2,
          by simpa using hseen⟩
      · rw [if_neg hagain]
        rcases ih (seen ++ [a]) (onceEach_concat.mpr ⟨hseen, hagain⟩) with
          ⟨hread, honce⟩ | ⟨pre, b, rest, rfl, hread, hstops, hmem, honce⟩
        · refine Or.inl ⟨?_, ?_⟩
          · rw [hread, List.append_assoc, List.singleton_append]
          · rwa [List.append_assoc, List.singleton_append] at honce
        · refine Or.inr ⟨a :: pre, b, rest, rfl, ?_, hstops, ?_, ?_⟩
          · rw [hread, List.append_assoc, List.singleton_append]
          · rwa [List.append_assoc, List.singleton_append] at hmem
          · rwa [List.append_assoc, List.singleton_append] at honce

/-- What is read is a prefix without such an element; when it does not go to the
end, one comes next. -/
theorem untilAgain_nil (l : List α) :
    (untilAgain stops [] l).1 <+: l ∧
      OnceEach stops (untilAgain stops [] l).1 ∧
      ((untilAgain stops [] l).2 = false → (untilAgain stops [] l).1 = l) ∧
      ((untilAgain stops [] l).2 = true →
        ∃ a, (untilAgain stops [] l).1 ++ [a] <+: l ∧ stops a = true ∧
          a ∈ (untilAgain stops [] l).1) := by
  rcases untilAgain_spec [] l (by simp [OnceEach]) with
    ⟨hread, honce⟩ | ⟨pre, a, rest, rfl, hread, hstops, hmem, honce⟩
  · rw [hread]
    exact ⟨List.prefix_rfl, honce, fun _ => rfl, fun h => nomatch h⟩
  · rw [hread]
    refine ⟨List.prefix_append _ _, honce, (fun h => nomatch h), fun _ => ?_⟩
    refine ⟨a, ⟨rest, ?_⟩, hstops, hmem⟩
    simp

theorem untilAgain_nil_snd (l : List α) :
    (untilAgain stops [] l).2 = true ↔ ¬ OnceEach stops l := by
  obtain ⟨_, honce, hall, hnext⟩ := untilAgain_nil l
  constructor
  · intro hstop hl
    obtain ⟨a, hprefix, hstops, hmem⟩ := hnext hstop
    exact (onceEach_concat.mp (hl.of_prefix hprefix)).2 ⟨hstops, hmem⟩
  · intro hl
    by_contra hstop
    rw [Bool.not_eq_true] at hstop
    exact hl (hall hstop ▸ honce)

/-- A prefix without such an element is read. -/
theorem prefix_untilAgain {p l : List α} (hp : p <+: l)
    (honce : OnceEach stops p) : p <+: (untilAgain stops [] l).1 := by
  obtain ⟨hread, _, hall, hnext⟩ := untilAgain_nil l
  cases hstop : (untilAgain stops [] l).2 with
  | false =>
      rw [hall hstop]
      exact hp
  | true =>
      obtain ⟨a, hprefix, hstops, hmem⟩ := hnext hstop
      rcases List.prefix_or_prefix_of_prefix hp hprefix with hle | hge
      · rcases List.prefix_concat_iff.mp hle with rfl | hle
        · exact absurd ⟨hstops, hmem⟩ (onceEach_concat.mp honce).2
        · exact hle
      · exact absurd ⟨hstops, hmem⟩
          (onceEach_concat.mp (honce.of_prefix hge)).2

end UntilAgain

end Lib
end Peerbit
