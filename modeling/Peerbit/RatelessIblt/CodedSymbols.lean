import Mathlib.Algebra.BigOperators.Group.List.Basic
import Mathlib.Algebra.Group.Int.Defs
import Mathlib.Data.Nat.Sqrt
import Mathlib.Logic.Function.Iterate
import Mathlib.Order.Monotone.Basic

/-!
# Coded symbols

A coded symbol is a sum of symbols: their exclusive or, the exclusive or of their
hashes, and how many they are.  A symbol is added with the count one and removed
with the count minus one, and so the coded symbols are a commutative group.

A symbol is part of the coded symbols at the indices that its mapping goes
through.  The step of the mapping computes with floating point numbers; it is a
parameter here.  All that is used of it is that the index grows.
-/

namespace Peerbit
namespace RatelessIblt

universe u

class Symbol (T : Type u) where
  zero : T
  xor : T → T → T
  hash : T → UInt64

/-- `xor` is the exclusive or of bits. -/
class LawfulSymbol (T : Type u) [Symbol T] : Prop where
  xor_assoc (a b c : T) : Symbol.xor (Symbol.xor a b) c = Symbol.xor a (Symbol.xor b c)
  xor_comm (a b : T) : Symbol.xor a b = Symbol.xor b a
  zero_xor (a : T) : Symbol.xor Symbol.zero a = a
  xor_self (a : T) : Symbol.xor a a = Symbol.zero

inductive Direction where
  | ADD
  | REMOVE
deriving Repr, DecidableEq

inductive DecodeError where
  | InvalidDegree
  | InvalidSize
  | DecodeFailed
deriving Repr, DecidableEq

structure HashedSymbol (T : Type u) where
  symbol : T
  hash : UInt64
deriving Repr, DecidableEq

@[ext] structure CodedSymbol (T : Type u) where
  symbol : T
  hash : UInt64
  count : Int
deriving Repr, DecidableEq

section Sums

variable {T : Type u} [Symbol T]

/-- `HashedSymbol { symbol, hash: symbol.hash() }`. -/
def hashed (symbol : T) : HashedSymbol T :=
  { symbol := symbol, hash := Symbol.hash symbol }

def Direction.count : Direction → Int
  | .ADD => 1
  | .REMOVE => -1

def CodedSymbol.apply (c : CodedSymbol T) (sym : HashedSymbol T) (direction : Direction) :
    CodedSymbol T :=
  { symbol := Symbol.xor c.symbol sym.symbol
    hash := c.hash ^^^ sym.hash
    count := c.count + direction.count }

def CodedSymbol.empty : CodedSymbol T :=
  { symbol := Symbol.zero, hash := 0, count := 0 }

/-- One symbol alone. -/
def HashedSymbol.coded (sym : HashedSymbol T) : CodedSymbol T :=
  { symbol := sym.symbol, hash := sym.hash, count := 1 }

instance : Add (CodedSymbol T) where
  add a b :=
    { symbol := Symbol.xor a.symbol b.symbol
      hash := a.hash ^^^ b.hash
      count := a.count + b.count }

instance : Zero (CodedSymbol T) where
  zero := .empty

instance : Neg (CodedSymbol T) where
  neg a := { a with count := -a.count }

theorem symbol_add (a b : CodedSymbol T) :
    (a + b).symbol = Symbol.xor a.symbol b.symbol :=
  rfl

theorem hash_add (a b : CodedSymbol T) : (a + b).hash = a.hash ^^^ b.hash :=
  rfl

theorem count_add (a b : CodedSymbol T) : (a + b).count = a.count + b.count :=
  rfl

/-- A symbol, or its opposite. -/
def Direction.signed (direction : Direction) (c : CodedSymbol T) : CodedSymbol T :=
  match direction with
  | .ADD => c
  | .REMOVE => -c

theorem apply_eq (c : CodedSymbol T) (sym : HashedSymbol T) (direction : Direction) :
    c.apply sym direction = c + direction.signed sym.coded := by
  cases direction <;> rfl

variable [LawfulSymbol T]

instance : AddCommGroup (CodedSymbol T) where
  nsmul := nsmulRec
  zsmul := zsmulRec
  add_assoc a b c :=
    CodedSymbol.ext (LawfulSymbol.xor_assoc _ _ _) (UInt64.xor_assoc _ _ _)
      (Int.add_assoc _ _ _)
  add_comm a b :=
    CodedSymbol.ext (LawfulSymbol.xor_comm _ _) (UInt64.xor_comm _ _) (Int.add_comm _ _)
  zero_add a :=
    CodedSymbol.ext (LawfulSymbol.zero_xor _) UInt64.zero_xor (Int.zero_add _)
  add_zero a :=
    CodedSymbol.ext ((LawfulSymbol.xor_comm _ _).trans (LawfulSymbol.zero_xor _))
      UInt64.xor_zero (Int.add_zero _)
  neg_add_cancel a :=
    CodedSymbol.ext (LawfulSymbol.xor_self _) UInt64.xor_self (Int.add_left_neg _)

theorem Direction.signed_zero (direction : Direction) :
    direction.signed (0 : CodedSymbol T) = 0 := by
  cases direction with
  | ADD => rfl
  | REMOVE => exact neg_zero

theorem Direction.signed_add (direction : Direction) (a b : CodedSymbol T) :
    direction.signed (a + b) = direction.signed a + direction.signed b := by
  cases direction with
  | ADD => rfl
  | REMOVE => exact neg_add a b

end Sums

/-! ### Mappings -/

structure RandomMapping where
  prng : UInt64
  lastIdx : Nat
deriving Repr, DecidableEq

/-- The mapping that a symbol with this hash starts with. -/
def RandomMapping.start (hash : UInt64) : RandomMapping :=
  { prng := hash, lastIdx := 0 }

section Mappings

variable (nextIndex : RandomMapping → RandomMapping)

/-- The mapping of a hash goes through this index. -/
def Maps (hash : UInt64) (i : Nat) : Prop :=
  ∃ k, (nextIndex^[k] (.start hash)).lastIdx = i

/-- The mapping of a hash, at its first index that is not less than `t`. -/
def Ahead (hash : UInt64) (t : Nat) (m : RandomMapping) : Prop :=
  t ≤ m.lastIdx ∧ ∃ k, m = nextIndex^[k] (.start hash) ∧
    ∀ l < k, (nextIndex^[l] (.start hash)).lastIdx < t

theorem maps_zero (hash : UInt64) : Maps nextIndex hash 0 :=
  ⟨0, rfl⟩

theorem ahead_start (hash : UInt64) : Ahead nextIndex hash 0 (.start hash) :=
  ⟨Nat.le_refl 0, 0, rfl, fun _ hl => absurd hl (Nat.not_lt_zero _)⟩

variable {nextIndex} {hash : UInt64} {t : Nat} {m : RandomMapping}

/-- `next_index` always goes on.  The one of the source does so for all but the greatest
words of the generator. -/
def Increasing (nextIndex : RandomMapping → RandomMapping) : Prop :=
  ∀ m, m.lastIdx < (nextIndex m).lastIdx

theorem Increasing.strictMono (hnext : Increasing nextIndex) (hash : UInt64) :
    StrictMono (fun k => (nextIndex^[k] (.start hash)).lastIdx) := by
  refine strictMono_nat_of_lt_succ fun k => ?_
  rw [Function.iterate_succ_apply']
  exact hnext _

/-- The index of the mapping is `t` when the mapping goes through `t`. -/
theorem Ahead.lastIdx_eq_iff (hnext : Increasing nextIndex)
    (h : Ahead nextIndex hash t m) : m.lastIdx = t ↔ Maps nextIndex hash t := by
  obtain ⟨hle, k, rfl, hbefore⟩ := h
  constructor
  · exact fun heq => ⟨k, heq⟩
  · rintro ⟨l, hl⟩
    have hkl : k ≤ l := by
      by_contra hlt
      have hless := hbefore l (Nat.lt_of_not_le hlt)
      omega
    have hmono := (hnext.strictMono hash).monotone hkl
    simp only [hl] at hmono
    exact Nat.le_antisymm hmono hle

theorem Ahead.next (hnext : Increasing nextIndex) (h : Ahead nextIndex hash t m)
    (heq : m.lastIdx = t) : Ahead nextIndex hash (t + 1) (nextIndex m) := by
  obtain ⟨-, k, rfl, hbefore⟩ := h
  have hlt := hnext (nextIndex^[k] (.start hash))
  refine ⟨by omega, k + 1, (Function.iterate_succ_apply' _ _ _).symm, fun l hl => ?_⟩
  rcases Nat.lt_succ_iff_lt_or_eq.mp hl with hl | rfl
  · have hless := hbefore l hl
    omega
  · omega

theorem Ahead.succ (h : Ahead nextIndex hash t m) (hne : m.lastIdx ≠ t) :
    Ahead nextIndex hash (t + 1) m := by
  obtain ⟨hle, k, hk, hbefore⟩ := h
  refine ⟨by omega, k, hk, fun l hl => ?_⟩
  have hless := hbefore l hl
  omega

end Mappings

/-! ### Words as symbols -/

/-- The step of the mapping, in exact arithmetic: the index grows by `(lastIdx + 1.5)
* (2^32 / sqrt (r + 1) - 1)`, rounded up.  This is zero for the greatest word `r`, and in
floating point for all words from `2^64 - 1024` on; there one is taken here. -/
def RandomMapping.nextIndex (m : RandomMapping) : RandomMapping :=
  let r := m.prng * 0xda942042e4dd58b5
  let t := 2 * m.lastIdx + 3
  let square := (t * t * 2 ^ 64 + r.toNat) / (r.toNat + 1)
  let root := Nat.sqrt square
  let root := if root * root < square then root + 1 else root
  { prng := r, lastIdx := m.lastIdx + max 1 ((root - t + 1) / 2) }

theorem increasing_nextIndex : Increasing RandomMapping.nextIndex := by
  intro m
  simp only [RandomMapping.nextIndex]
  omega

/-- A round of the hash function of the tests. -/
def sipRound : UInt64 × UInt64 × UInt64 × UInt64 → UInt64 × UInt64 × UInt64 × UInt64
  | (v0, v1, v2, v3) =>
      let rotate (v n : UInt64) : UInt64 := (v <<< n) ||| (v >>> (64 - n))
      let v0 := v0 + v1
      let v2 := v2 + v3
      let v1 := rotate v1 13 ^^^ v0
      let v3 := rotate v3 16 ^^^ v2
      let v0 := rotate v0 32
      let v2 := v2 + v1
      let v0 := v0 + v3
      let v1 := rotate v1 17 ^^^ v2
      let v3 := rotate v3 21 ^^^ v0
      (v0, v1, rotate v2 32, v3)

/-- `SipHasher::new_with_keys(123, 456)` on one word. -/
def sipHash (word : UInt64) : UInt64 :=
  let absorb (v : UInt64 × UInt64 × UInt64 × UInt64) (w : UInt64) :=
    let v := sipRound (sipRound (v.1, v.2.1, v.2.2.1, v.2.2.2 ^^^ w))
    (v.1 ^^^ w, v.2)
  let v := absorb (123 ^^^ 0x736f6d6570736575, 456 ^^^ 0x646f72616e646f6d,
    123 ^^^ 0x6c7967656e657261, 456 ^^^ 0x7465646279746573) word
  let v := absorb v ((8 : UInt64) <<< 56)
  let v := sipRound (sipRound (sipRound (sipRound
    (v.1, v.2.1, v.2.2.1 ^^^ 0xff, v.2.2.2))))
  v.1 ^^^ v.2.1 ^^^ v.2.2.1 ^^^ v.2.2.2

/-- `TestU64`, the words of the tests. -/
instance : Symbol UInt64 where
  zero := 0
  xor a b := a ^^^ b
  hash := sipHash

instance : LawfulSymbol UInt64 where
  xor_assoc := UInt64.xor_assoc
  xor_comm := UInt64.xor_comm
  zero_xor _ := UInt64.zero_xor
  xor_self _ := UInt64.xor_self

end RatelessIblt
end Peerbit
