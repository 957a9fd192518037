import Mathlib
import Peerbit.Lib.InsertionMap

/-!
# The first greatest element of each key

A map that takes elements one after the other and keeps, for each key, an
element until one of a strictly greater rank comes.  What it holds in the end
is, for each key, the first of the elements of the greatest rank.
-/

namespace Peerbit
namespace Lib

universe u v w

section KeyedMaxima

variable {α : Type u} {κ : Type v} {ρ : Type w}

/-- `c` has its place in the list before every other element of its key of the
same rank, and none of its key has a greater one. -/
def FirstGreatest [LT ρ] [LE ρ] (key : α → κ) (rank : α → ρ)
    (before : List α) (c : α) (after : List α) : Prop :=
  (∀ d ∈ before, key d = key c → rank d < rank c) ∧
    ∀ d ∈ after, key d = key c → rank d ≤ rank c

variable [DecidableEq κ] [LinearOrder ρ] (key : α → κ) (rank : α → ρ)

def keepGreater (m : InsertionMap κ α) (x : α) : InsertionMap κ α :=
  match m.get (key x) with
  | some prev => if rank prev < rank x then m.set (key x) x else m
  | none => m.set (key x) x

/-- What a map with the elements `xs` behind it holds under a key. -/
def HoldsGreatest (xs : List α) (m : InsertionMap κ α) : Prop :=
  ∀ k,
    (m.get k = none → ∀ d ∈ xs, key d ≠ k) ∧
    ∀ c, m.get k = some c →
      key c = k ∧ (∀ d ∈ xs, key d = k → rank d ≤ rank c) ∧
        ∃ before after, xs = before ++ c :: after ∧
          FirstGreatest key rank before c after

variable {key rank}

theorem get_keepGreater_of_ne
    {m : InsertionMap κ α} {x : α} {k : κ} (h : k ≠ key x) :
    (keepGreater key rank m x).get k = m.get k := by
  rw [keepGreater]
  split
  · split
    · exact m.get_set_of_ne x h
    · rfl
  · exact m.get_set_of_ne x h

omit [DecidableEq κ] in
/-- The one element that a further element of another key, or of no greater
rank, leaves in its place. -/
theorem FirstGreatest.concat
    {before : List α} {c : α} {after : List α} {x : α}
    (h : FirstGreatest key rank before c after)
    (hx : key x = key c → rank x ≤ rank c) :
    FirstGreatest key rank before c (after ++ [x]) := by
  refine ⟨h.1, fun d hd hkey => ?_⟩
  rcases List.mem_append.mp hd with hd | hd
  · exact h.2 d hd hkey
  · obtain rfl := List.mem_singleton.mp hd
    exact hx hkey

omit [DecidableEq κ] in
theorem FirstGreatest.at_end
    {xs : List α} {x : α} (h : ∀ d ∈ xs, key d = key x → rank d < rank x) :
    FirstGreatest key rank xs x [] :=
  ⟨h, fun _ hd => absurd hd List.not_mem_nil⟩

theorem HoldsGreatest.keepGreater
    {xs : List α} {m : InsertionMap κ α}
    (h : HoldsGreatest key rank xs m) (x : α) :
    HoldsGreatest key rank (xs ++ [x]) (keepGreater key rank m x) := by
  have hnew : (∀ d ∈ xs, key d = key x → rank d < rank x) →
      key x = key x ∧ (∀ d ∈ xs ++ [x], key d = key x → rank d ≤ rank x) ∧
        ∃ before after, xs ++ [x] = before ++ x :: after ∧
          FirstGreatest key rank before x after := by
    intro hless
    refine ⟨rfl, fun d hd hkey => ?_, xs, [], rfl, .at_end hless⟩
    rcases List.mem_append.mp hd with hd | hd
    · exact le_of_lt (hless d hd hkey)
    · obtain rfl := List.mem_singleton.mp hd
      exact le_refl _
  have hold : ∀ c, m.get (key c) = some c →
      (key x = key c → rank x ≤ rank c) →
      key c = key c ∧ (∀ d ∈ xs ++ [x], key d = key c → rank d ≤ rank c) ∧
        ∃ before after, xs ++ [x] = before ++ c :: after ∧
          FirstGreatest key rank before c after := by
    intro c hc hx
    obtain ⟨_, hmax, before, after, rfl, hfirst⟩ := (h _).2 c hc
    refine ⟨rfl, fun d hd hkey => ?_, before, after ++ [x], by simp,
      hfirst.concat hx⟩
    rcases List.mem_append.mp hd with hd | hd
    · exact hmax d hd hkey
    · obtain rfl := List.mem_singleton.mp hd
      exact hx hkey
  intro k
  by_cases hk : k = key x
  · subst hk
    cases hprev : m.get (key x) with
    | none =>
        have hless : ∀ d ∈ xs, key d = key x → rank d < rank x :=
          fun d hd hkey => absurd hkey ((h _).1 hprev d hd)
        rw [Lib.keepGreater, hprev]
        simp only [InsertionMap.get_set_self]
        exact ⟨fun hnone => (nomatch hnone), fun c hc => Option.some.inj hc ▸ hnew hless⟩
    | some prev =>
        obtain ⟨hkey, hmax, _⟩ := (h _).2 prev hprev
        rw [Lib.keepGreater, hprev]
        simp only
        split
        · rename_i hgt
          have hless : ∀ d ∈ xs, key d = key x → rank d < rank x :=
            fun d hd hkey => lt_of_le_of_lt (hmax d hd hkey) hgt
          rw [InsertionMap.get_set_self]
          exact ⟨fun hnone => (nomatch hnone),
            fun c hc => Option.some.inj hc ▸ hnew hless⟩
        · rename_i hle
          rw [hprev]
          refine ⟨fun hnone => (nomatch hnone), fun c hc => ?_⟩
          obtain rfl := Option.some.inj hc
          rw [← hkey] at hprev ⊢
          exact hold prev hprev fun _ => not_lt.mp hle
  · rw [get_keepGreater_of_ne hk]
    refine ⟨fun hnone d hd => ?_, fun c hc => ?_⟩
    · rcases List.mem_append.mp hd with hd | hd
      · exact (h k).1 hnone d hd
      · obtain rfl := List.mem_singleton.mp hd
        exact Ne.symm hk
    · obtain rfl : key c = k := ((h k).2 c hc).1
      exact hold c hc fun heq => absurd heq.symm hk

variable (key rank) in
/-- The fold over all elements. -/
theorem holdsGreatest_foldl (xs : List α) :
    HoldsGreatest key rank xs
      (xs.foldl (keepGreater key rank) InsertionMap.empty) := by
  induction xs using List.reverseRecOn with
  | nil => exact fun k => ⟨fun _ _ hd => absurd hd List.not_mem_nil,
      fun _ hc => (nomatch hc)⟩
  | append_singleton xs x ih =>
      rw [List.foldl_concat]
      exact ih.keepGreater x

omit [DecidableEq κ] in
/-- Two elements of one key that are both the first greatest of it are one. -/
theorem FirstGreatest.unique
    {xs before before' after after' : List α} {c c' : α}
    (h : xs = before ++ c :: after) (hc : FirstGreatest key rank before c after)
    (h' : xs = before' ++ c' :: after')
    (hc' : FirstGreatest key rank before' c' after')
    (hkey : key c = key c') :
    c = c' := by
  rw [h] at h'
  rcases List.append_eq_append_iff.mp h' with ⟨gap, hgap, hrest⟩ | ⟨gap, hgap, hrest⟩
  · cases gap with
    | nil => exact (List.cons.inj hrest).1
    | cons y gap =>
        obtain ⟨rfl, hafter⟩ := List.cons.inj hrest
        have hafter : after = gap ++ c' :: after' := hafter
        have hlt := hc'.1 c (by simp [hgap]) hkey
        have hle := hc.2 c' (by simp [hafter]) hkey.symm
        exact absurd hlt (not_lt.mpr hle)
  · cases gap with
    | nil => exact (List.cons.inj hrest).1.symm
    | cons y gap =>
        obtain ⟨rfl, hafter⟩ := List.cons.inj hrest
        have hafter : after' = gap ++ c :: after := hafter
        have hlt := hc.1 c' (by simp [hgap]) hkey.symm
        have hle := hc'.2 c (by simp [hafter]) hkey
        exact absurd hlt (not_lt.mpr hle)

/-- **What the map holds in the end**: under each key the first greatest
element of that key. -/
theorem get_foldl_keepGreater {xs : List α} {k : κ} {c : α} :
    (xs.foldl (keepGreater key rank) InsertionMap.empty).get k = some c ↔
      key c = k ∧ ∃ before after, xs = before ++ c :: after ∧
        FirstGreatest key rank before c after := by
  have hfold := holdsGreatest_foldl key rank xs k
  constructor
  · intro hc
    obtain ⟨hkey, _, hfirst⟩ := hfold.2 c hc
    exact ⟨hkey, hfirst⟩
  · rintro ⟨rfl, before, after, hxs, hfirst⟩
    cases hget : (xs.foldl (keepGreater key rank) InsertionMap.empty).get
        (key c) with
    | none => exact absurd rfl (hfold.1 hget c (by simp [hxs]))
    | some c' =>
        obtain ⟨hkey, _, before', after', hxs', hfirst'⟩ := hfold.2 c' hget
        rw [FirstGreatest.unique hxs' hfirst' hxs hfirst hkey]

end KeyedMaxima

end Lib
end Peerbit
