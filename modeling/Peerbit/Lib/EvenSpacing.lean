import Mathlib.Algebra.Order.Floor.Div
import Mathlib.Data.Nat.ModEq

/-!
# Evenly spaced points of a ring

The ring has the points `0, …, max - 1`.  Of `count` evenly spaced points the one with
the number `i` comes `i * max / count` steps after the start, rounded down.  The point
with the number `count` is the first one again, a whole turn later.

Rounding every multiple by itself keeps all gaps between the floor and the ceiling of
`max / count`.
-/

namespace Peerbit
namespace Lib

/-- The steps that lead upwards from `a` to `b`; to `a` itself it is a whole turn. -/
def stepsUp (max a b : Nat) : Nat :=
  if b ≤ a then max - a + b else b - a

/-- How far the point with the number `i` comes after the start. -/
def spacing (max count i : Nat) : Nat :=
  i * max / count

section Spacing

variable {max count : Nat}

theorem stepsUp_mod {x d : Nat} (hpos : 0 < d) (hle : d ≤ max) :
    stepsUp max (x % max) ((x + d) % max) = d := by
  have hlt : x % max < max := Nat.mod_lt x (by omega)
  rw [← Nat.mod_add_mod]
  generalize x % max = r at hlt
  rw [stepsUp]
  by_cases hturn : r + d < max
  · rw [Nat.mod_eq_of_lt hturn, if_neg (by omega)]
    omega
  · rw [Nat.mod_eq_sub_mod (by omega), Nat.mod_eq_of_lt (by omega), if_pos (by omega)]
    omega

@[simp] theorem spacing_zero : spacing max count 0 = 0 := by
  simp [spacing]

/-- A whole turn. -/
theorem spacing_count (max : Nat) (hcount : 0 < count) : spacing max count count = max :=
  Nat.mul_div_cancel_left max hcount

theorem ceilDiv_le_succ (max : Nat) (hcount : 0 < count) : max ⌈/⌉ count ≤ max / count + 1 := by
  rw [ceilDiv_le_iff_le_mul hcount, Nat.mul_succ]
  have hmod := Nat.mod_lt max hcount
  have hdiv := Nat.div_add_mod max count
  omega

theorem le_spacing_succ (max count i : Nat) :
    spacing max count i + max / count ≤ spacing max count (i + 1) := by
  rw [spacing, spacing, Nat.succ_mul]
  exact Nat.div_add_div_le_add_div

theorem spacing_succ_le (max : Nat) (hcount : 0 < count) (i : Nat) :
    spacing max count (i + 1) ≤ spacing max count i + max ⌈/⌉ count := by
  have hceil : max ≤ count * (max ⌈/⌉ count) := le_smul_ceilDiv hcount
  rw [spacing, spacing, Nat.succ_mul, ← Nat.add_mul_div_left _ _ hcount]
  exact Nat.div_le_div_right (Nat.add_le_add_left hceil _)

/-- Two points that follow each other are as far apart as the floor or the ceiling. -/
theorem exists_gap (max : Nat) (hcount : 0 < count) (i : Nat) :
    ∃ d, spacing max count (i + 1) = spacing max count i + d ∧
      (d = max / count ∨ d = max ⌈/⌉ count) := by
  have hge := le_spacing_succ max count i
  have hle := spacing_succ_le max hcount i
  have hceil := ceilDiv_le_succ max hcount
  have hmono := Nat.le_trans (Nat.le_add_right _ _) hge
  refine ⟨spacing max count (i + 1) - spacing max count i, by omega, ?_⟩
  omega

theorem spacing_strictMono (hcount : 0 < count) (hle : count ≤ max) :
    StrictMono (spacing max count) := by
  refine strictMono_nat_of_lt_succ fun i => ?_
  have hge := le_spacing_succ max count i
  have hpos := Nat.div_pos hle hcount
  omega

/-- The points before the end of the turn are different points of the ring. -/
theorem spacing_mod_injOn (hcount : 0 < count) (hle : count ≤ max) (start : Nat) {i j : Nat}
    (hi : i < count) (hj : j < count)
    (heq : (start + spacing max count i) % max = (start + spacing max count j) % max) :
    i = j := by
  have hmono := spacing_strictMono hcount hle
  have hlt : ∀ k < count, spacing max count k < max := by
    intro k hk
    have hturn := hmono hk
    rwa [spacing_count max hcount] at hturn
  have hmod : spacing max count i ≡ spacing max count j [MOD max] :=
    Nat.ModEq.add_left_cancel' start heq
  exact hmono.injective (hmod.eq_of_lt_of_lt (hlt i hi) (hlt j hj))

end Spacing

end Lib
end Peerbit
