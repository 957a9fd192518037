import Mathlib.Data.List.Basic

/-!
# Words joined with a separator

Words that contain the separator can be joined to the same text in several ways.
Cutting the text at the separators gives the pieces of the words, one after the
other; so two lists of words are joined to the same text exactly when they have the
same pieces.  A separator that is doubled gives an empty piece.
-/

namespace Peerbit
namespace Lib
namespace Separators

universe u

variable {α : Type u} [DecidableEq α] {x : α}

theorem splitOn_inj {s t : List α} : s.splitOn x = t.splitOn x ↔ s = t := by
  constructor
  · intro h
    have hs : [x].intercalate (s.splitOn x) = s := List.intercalate_splitOn x
    rw [← hs, h, List.intercalate_splitOn]
  · rintro rfl
    rfl

/-- The pieces of words that are joined with one separator. -/
theorem splitOn_intercalate_single {words : List (List α)} (hne : words ≠ []) :
    ([x].intercalate words).splitOn x = words.flatMap (List.splitOn x) := by
  induction words with
  | nil => exact absurd rfl hne
  | cons word words ih =>
      by_cases hnil : words = []
      · subst hnil
        simp
      · rw [List.intercalate_cons_of_ne_nil hnil, List.flatMap_cons, ← ih hnil,
          List.append_assoc, List.singleton_append, List.splitOn_append_cons_self]

/-- The pieces of words that are joined with two separators. -/
def doubled (x : α) : List (List α) → List (List α)
  | [] => [[]]
  | word :: words =>
      if words = [] then word.splitOn x else word.splitOn x ++ [] :: doubled x words

theorem splitOn_append_double (s t : List α) :
    (s ++ [x, x] ++ t).splitOn x = s.splitOn x ++ [] :: t.splitOn x := by
  rw [List.append_assoc, List.cons_append, List.splitOn_append_cons_self,
    List.singleton_append, List.splitOn_cons_eq_if_modifyHead, if_pos (beq_self_eq_true x)]

theorem splitOn_intercalate_double (words : List (List α)) :
    ([x, x].intercalate words).splitOn x = doubled x words := by
  induction words with
  | nil => simp [doubled]
  | cons word words ih =>
      rw [doubled]
      by_cases hnil : words = []
      · subst hnil
        simp
      · rw [List.intercalate_cons_of_ne_nil hnil, if_neg hnil, splitOn_append_double, ih]

end Separators
end Lib
end Peerbit
