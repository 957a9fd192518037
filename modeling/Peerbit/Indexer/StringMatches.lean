import Mathlib
import Peerbit.Lib.LikePatterns

/-!
# Matches of strings

The hashmap index compares strings with `===`, `startsWith` and `includes`, and both
sides in lower case when the case does not matter.  The sqlite index compares with `=`
for exact matches, and otherwise with `LIKE`, whose pattern is the searched text itself.
`LIKE` always ignores the case of letters of ASCII, and never that of other letters;
`COLLATE NOCASE` changes `=` only, for the letters of ASCII.

Strings are lists of characters here.  `toLowerCase` maps a character to one or more,
which may depend on the characters around it.  Of the characters outside ASCII, only the
Kelvin sign and the dotted capital I have lower cases with characters of ASCII.
-/

namespace Peerbit
namespace Indexer

open Lib.LikePatterns

inductive StringMatchMethod where
  | exact_
  | prefix_
  | contains
deriving Repr, DecidableEq

structure StringMatch where
  value : List Char
  method : StringMatchMethod
  caseInsensitive : Bool
deriving Repr, DecidableEq

/-! ### The sqlite index -/

/-- The value that is bound to the predicate. -/
def StringMatch.bindable (f : StringMatch) : List Char :=
  match f.method with
  | .contains => '%' :: (f.value ++ ['%'])
  | .prefix_ => f.value ++ ['%']
  | .exact_ => f.value

/-- `=` with the collation `NOCASE`. -/
def equalNoCase (s t : List Char) : Bool :=
  s.map Char.toLower == t.map Char.toLower

/-- `convertStateFieldQuery`, for a column with a string. -/
def StringMatch.sqlHolds (f : StringMatch) (column : List Char) : Bool :=
  match f.method with
  | .contains => like f.bindable column
  | .prefix_ => like f.bindable column
  | .exact_ =>
      if f.caseInsensitive then equalNoCase column f.bindable
      else column == f.bindable

/-! ### The hashmap index -/

def Ascii (c : Char) : Prop := c.toNat < 128

instance : DecidablePred Ascii :=
  fun c => inferInstanceAs (Decidable (c.toNat < 128))

def dottedI : Char := '\u0130'

def kelvinSign : Char := '\u212A'

def combiningDot : Char := '\u0307'

/-- The lower case of a character between others, as `toLowerCase` maps it. -/
structure CaseMapping where
  lowercase : (before : List Char) → Char → (after : List Char) → List Char
  ascii (before : List Char) (c : Char) (after : List Char) (hc : Ascii c) :
    lowercase before c after = [c.toLower]
  dottedI (before after : List Char) :
    lowercase before dottedI after = ['i', combiningDot]
  kelvin (before after : List Char) : lowercase before kelvinSign after = ['k']
  other_ne_nil (before : List Char) (c : Char) (after : List Char) (hc : ¬ Ascii c) :
    lowercase before c after ≠ []
  other (before : List Char) (c : Char) (after : List Char) (hc : ¬ Ascii c)
    (hi : c ≠ Indexer.dottedI) (hk : c ≠ kelvinSign) :
    ∀ d ∈ lowercase before c after, ¬ Ascii d

namespace CaseMapping

variable (m : CaseMapping)

/-- The lower case of a string after others. -/
def lowerFrom (before : List Char) : List Char → List Char
  | [] => []
  | c :: after => m.lowercase before c after ++ lowerFrom (before ++ [c]) after

def toLowerCase (s : List Char) : List Char := m.lowerFrom [] s

end CaseMapping

section Hashmap

variable (m : CaseMapping) (f : StringMatch)

def StringMatch.handleStringMatch (compare fv : List Char) : Bool :=
  let fv := if f.caseInsensitive then m.toLowerCase fv else fv
  match f.method with
  | .exact_ => fv == compare
  | .prefix_ => compare.isPrefixOf fv
  | .contains => decide (compare <:+: fv)

/-- The part of `handleFieldQuery` for a string. -/
def StringMatch.handleFieldQuery (fv : List Char) : Bool :=
  let compare := if f.caseInsensitive then m.toLowerCase f.value else f.value
  f.handleStringMatch m compare fv

/-- Both indices say the same of a value. -/
def StringMatch.AgreesOn (value : List Char) : Prop :=
  f.sqlHolds value = f.handleFieldQuery m value

end Hashmap

/-! ### What is found -/

/-- What is searched is the string, or its beginning, or a part of it. -/
def StringMatchMethod.Finds (method : StringMatchMethod) (searched s : List Char) : Prop :=
  match method with
  | .exact_ => s = searched
  | .prefix_ => searched <+: s
  | .contains => searched <:+: s

section Finds

variable {method : StringMatchMethod} {f : StringMatch} {m : CaseMapping}
variable {s t value : List Char}

/-- In a string that is not longer, only itself is found. -/
theorem StringMatchMethod.Finds.eq_of_length_le (h : method.Finds t s)
    (hlength : s.length ≤ t.length) : s = t := by
  cases method with
  | exact_ => exact h
  | prefix_ => exact (List.IsPrefix.eq_of_length_le h hlength).symm
  | contains => exact (List.IsInfix.eq_of_length_le h hlength).symm

/-- Without wildcards, SQL finds what is equal but for the case. -/
theorem sqlHolds_iff (hmethod : f.method = .exact_ → f.caseInsensitive = true)
    (hplain : f.method ≠ .exact_ → Plain f.value) :
    f.sqlHolds value = true ↔
      f.method.Finds (f.value.map Char.toLower) (value.map Char.toLower) := by
  obtain ⟨text, method, caseInsensitive⟩ := f
  cases method with
  | exact_ =>
      obtain rfl : caseInsensitive = true := hmethod rfl
      exact beq_iff_eq
  | prefix_ => exact like_append_any (hplain (by simp))
  | contains => exact like_any_append_any (hplain (by simp))

end Finds

/-! ### Lower cases -/

theorem ascii_of_isUpper {c : Char} (h : c.isUpper = true) : c.toNat ≤ 90 := by
  rw [Char.isUpper, decide_eq_true_iff] at h
  exact UInt32.le_iff_toNat_le.mp h.2

theorem toLower_of_not_ascii {c : Char} (h : ¬ Ascii c) : c.toLower = c := by
  refine Char.toLower_eq_of_not_isUpper (fun hupper => h ?_)
  exact Nat.lt_of_le_of_lt (ascii_of_isUpper hupper) (by omega)

theorem ascii_toLower {c : Char} : Ascii c.toLower ↔ Ascii c := by
  by_cases hupper : c.isUpper = true
  · have hle := ascii_of_isUpper hupper
    have hnat : (Char.ofNat (c.toNat + 32)).toNat = c.toNat + 32 := by
      rw [Char.toNat_ofNat, if_pos (Or.inl (by omega))]
    rw [Char.toLower_eq_of_isUpper hupper, Ascii, Ascii, hnat]
    omega
  · rw [Char.toLower_eq_of_not_isUpper hupper]

namespace CaseMapping

variable {m : CaseMapping} {u s t : List Char}

/-- A character without other cases: it is no letter of ASCII, and it is only in its own
lower case. -/
structure Steady (m : CaseMapping) (c : Char) : Prop where
  not_ascii : ¬ Ascii c
  lowercase : ∀ before after, m.lowercase before c after = [c]
  only : ∀ before d after, c ∈ m.lowercase before d after → d = c

end CaseMapping

/-! ### Where the indices agree -/

/-- Characters of ASCII, and others without other cases. -/
def CaseMapping.Covers (m : CaseMapping) (s : List Char) : Prop :=
  ∀ c ∈ s, Ascii c ∨ m.Steady c

section Agreement

variable {f : StringMatch} {m : CaseMapping} {s t value : List Char}

theorem CaseMapping.Covers.of_map (ht : m.Covers t)
    (h : s.map Char.toLower = t.map Char.toLower) : m.Covers s := by
  intro c hc
  have hmem : c.toLower ∈ t.map Char.toLower := h ▸ List.mem_map_of_mem hc
  obtain ⟨d, hd, hcase⟩ := List.mem_map.mp hmem
  by_cases hascii : Ascii c
  · exact .inl hascii
  · rw [toLower_of_not_ascii hascii] at hcase
    rcases ht d hd with hd' | hd'
    · exact absurd (hcase ▸ ascii_toLower.mpr hd') hascii
    · rw [toLower_of_not_ascii hd'.not_ascii] at hcase
      exact .inr (hcase ▸ hd')

end Agreement

section Capitals

end Capitals

end Indexer
end Peerbit
