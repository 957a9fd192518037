import Mathlib
import Peerbit.Lib.LikePatterns
import Peerbit.SharedLog.MergeRanges

/-!
# Comparisons of byte fields

The hashmap index compares an integer with every byte of a field.  The sqlite index
searches the hexadecimal digits of a blob for those of the integer, as a byte, whatever
the comparison is.  The digits may be the last one of a byte and the first one of the
next.

So the sqlite index holds of the blobs in which the byte occurs or is straddled by two
neighbours (`sqlHolds_iff`).  There is no comparison on which the indices agree for all
fields.
-/

namespace Peerbit
namespace Indexer

open Lib.LikePatterns SharedLog

inductive Compare where
  | equal
  | greater
  | greaterOrEqual
  | less
  | lessOrEqual
deriving Repr, DecidableEq

/-- A `UnsignedIntegerValue` or, if `big`, a `BigUnsignedIntegerValue`. -/
structure IntegerValue where
  big : Bool
  value : Nat
  bounded : value < if big then 2 ^ 64 else 2 ^ 32

structure IntegerCompare where
  compare : Compare
  value : IntegerValue

def compare (test : Nat) (compare : Compare) (value : Nat) : Bool :=
  match compare with
  | .equal => test == value
  | .greater => decide (value < test)
  | .greaterOrEqual => decide (value ≤ test)
  | .less => decide (test < value)
  | .lessOrEqual => decide (test ≤ value)

/-! ### The hashmap index -/

/-- `handleArrayResults` for the bytes of a field, without inner hits of other queries. -/
def IntegerCompare.handleArrayResults (f : IntegerCompare) (obj : List UInt8) : Bool :=
  let newInnerHits :=
    obj.filter (fun element => Indexer.compare element.toNat f.compare f.value.value)
  !newInnerHits.isEmpty

/-! ### The sqlite index -/

/-- The two digits of a byte. -/
def high (b : UInt8) : Fin 16 := ⟨b.toNat / 16, by have := b.toNat_lt; omega⟩

def low (b : UInt8) : Fin 16 := ⟨b.toNat % 16, by omega⟩

def nibbles (bytes : List UInt8) : List (Fin 16) :=
  bytes.flatMap (fun b => [high b, low b])

def lowerDigit (n : Fin 16) : Char :=
  if n.val < 10 then Char.ofNat (48 + n.val) else Char.ofNat (87 + n.val)

def upperDigit (n : Fin 16) : Char :=
  if n.val < 10 then Char.ofNat (48 + n.val) else Char.ofNat (55 + n.val)

def toHexString (bytes : List UInt8) : List Char := (nibbles bytes).map lowerDigit

/-- `hex` of SQL. -/
def hex (blob : List UInt8) : List Char := (nibbles blob).map upperDigit

/-- `Number(value)` -/
def IntegerValue.toNumber (v : IntegerValue) : Nat :=
  if v.big then numberOfBigInt v.value else v.value

/-- The element of `new Uint8Array([Number(value)])`. -/
def IntegerCompare.byte (f : IntegerCompare) : UInt8 := UInt8.ofNat f.value.toNumber

/-- `convertStateFieldQuery`, for a column with a blob. -/
def IntegerCompare.sqlHolds (f : IntegerCompare) (column : List UInt8) : Bool :=
  like ('%' :: (toHexString [f.byte] ++ ['%'])) (hex column)

def IntegerCompare.AgreesOn (f : IntegerCompare) (bytes : List UInt8) : Prop :=
  f.sqlHolds bytes = f.handleArrayResults bytes

/-! ### Digits -/

theorem toLower_lowerDigit (n : Fin 16) : (lowerDigit n).toLower = lowerDigit n := by
  revert n
  decide

theorem toLower_upperDigit (n : Fin 16) : (upperDigit n).toLower = lowerDigit n := by
  revert n
  decide

theorem lowerDigit_injective : Function.Injective lowerDigit := by
  intro n m
  revert n m
  decide

theorem wildcard_lowerDigit (n : Fin 16) : wildcard (lowerDigit n) = false := by
  revert n
  decide

theorem eq_of_digits {b c : UInt8} (hhigh : high b = high c) (hlow : low b = low c) :
    b = c := by
  have hdiv : b.toNat / 16 = c.toNat / 16 := congrArg Fin.val hhigh
  have hmod : b.toNat % 16 = c.toNat % 16 := congrArg Fin.val hlow
  refine UInt8.toNat_inj.mp ?_
  omega

theorem infix_map_iff {α β : Type} {f : α → β} (hf : Function.Injective f) {l s : List α} :
    l.map f <:+: s.map f ↔ l <:+: s := by
  constructor
  · rintro ⟨x, y, h⟩
    obtain ⟨a, b, rfl, ha, -⟩ := List.map_eq_append_iff.mp h.symm
    obtain ⟨a, c, rfl, -, hc⟩ := List.map_eq_append_iff.mp ha
    exact ⟨a, b, by rw [List.map_injective_iff.mpr hf hc]⟩
  · exact fun h => h.map f

/-- The byte is made of the last digit of a byte and the first one of the next. -/
def Straddled (byte : UInt8) (bytes : List UInt8) : Prop :=
  ∃ b c, [b, c] <:+: bytes ∧ low b = high byte ∧ high c = low byte

/-- Two digits that follow one another are those of a byte, or of two neighbours. -/
theorem pair_infix_nibbles {h l : Fin 16} {bytes : List UInt8} :
    [h, l] <:+: nibbles bytes ↔
      (∃ b ∈ bytes, high b = h ∧ low b = l) ∨
        ∃ b c, [b, c] <:+: bytes ∧ low b = h ∧ high c = l := by
  induction bytes with
  | nil => simp [nibbles]
  | cons b bytes ih =>
      have hcons : nibbles (b :: bytes) = high b :: low b :: nibbles bytes := rfl
      have hnext : [l] <+: nibbles bytes ↔ ∃ c rest, bytes = c :: rest ∧ high c = l := by
        cases bytes with
        | nil => simp [nibbles]
        | cons c rest =>
            have hrest : nibbles (c :: rest) = high c :: low c :: nibbles rest := rfl
            rw [hrest, List.cons_prefix_cons]
            simp [eq_comm]
      rw [hcons, List.infix_cons_iff, List.infix_cons_iff, List.cons_prefix_cons,
        List.cons_prefix_cons, List.cons_prefix_cons, ih, hnext]
      constructor
      · rintro (⟨rfl, rfl, -⟩ | ⟨rfl, c, rest, rfl, rfl⟩ | ⟨c, hc, hdigits⟩ | ⟨c, d, hcd, hdigits⟩)
        · exact .inl ⟨b, List.mem_cons_self, rfl, rfl⟩
        · exact .inr ⟨b, c, (List.prefix_append [b, c] rest).isInfix, rfl, rfl⟩
        · exact .inl ⟨c, List.mem_cons_of_mem _ hc, hdigits⟩
        · exact .inr ⟨c, d, List.infix_cons hcd, hdigits⟩
      · rintro (⟨c, hc, rfl, rfl⟩ | ⟨c, d, hcd, rfl, rfl⟩)
        · rcases List.mem_cons.mp hc with rfl | hc
          · exact .inl ⟨rfl, rfl, List.nil_prefix⟩
          · exact .inr (.inr (.inl ⟨c, hc, rfl, rfl⟩))
        · rcases List.infix_cons_iff.mp hcd with hcd | hcd
          · obtain ⟨rest, hrest⟩ := hcd
            obtain ⟨rfl, rfl⟩ := List.cons.inj hrest
            exact .inr (.inl ⟨rfl, d, rest, rfl, rfl⟩)
          · exact .inr (.inr (.inr ⟨c, d, hcd, rfl, rfl⟩))

/-! ### Where the indices agree -/

section Agreement

variable {f : IntegerCompare} {bytes : List UInt8}

theorem map_toLower_hex (bytes : List UInt8) :
    (hex bytes).map Char.toLower = (nibbles bytes).map lowerDigit := by
  rw [hex, List.map_map]
  exact List.map_congr_left (fun n _ => toLower_upperDigit n)

theorem map_toLower_toHexString (bytes : List UInt8) :
    (toHexString bytes).map Char.toLower = (nibbles bytes).map lowerDigit := by
  rw [toHexString, List.map_map]
  exact List.map_congr_left (fun n _ => toLower_lowerDigit n)

/-- The pattern of a byte finds it among the bytes, and between two of them. -/
theorem IntegerCompare.sqlHolds_iff :
    f.sqlHolds bytes = true ↔ f.byte ∈ bytes ∨ Straddled f.byte bytes := by
  have hplain : Lib.LikePatterns.Plain (toHexString [f.byte]) := by
    intro c hc
    obtain ⟨n, -, rfl⟩ := List.mem_map.mp hc
    exact wildcard_lowerDigit n
  have hpair : nibbles [f.byte] = [high f.byte, low f.byte] := rfl
  rw [IntegerCompare.sqlHolds, like_any_append_any hplain, map_toLower_hex,
    map_toLower_toHexString, infix_map_iff lowerDigit_injective, hpair, pair_infix_nibbles]
  refine or_congr_left ⟨?_, fun h => ⟨f.byte, h, rfl, rfl⟩⟩
  rintro ⟨b, hb, hhigh, hlow⟩
  rwa [← eq_of_digits hhigh hlow]

theorem IntegerCompare.handleArrayResults_iff :
    f.handleArrayResults bytes = true ↔
      ∃ b ∈ bytes, Indexer.compare b.toNat f.compare f.value.value = true := by
  rw [IntegerCompare.handleArrayResults, Bool.not_eq_true', List.isEmpty_eq_false_iff]
  simp [List.filter_eq_nil_iff]

/-- An equality is found where it holds, if it is not straddled elsewhere, and for
values that are no bytes if their last byte is not found.  Other comparisons must hold of
a byte where the byte of the value is found, and of none elsewhere. -/
def IntegerCompare.Reliable (f : IntegerCompare) (bytes : List UInt8) : Prop :=
  match f.compare with
  | .equal =>
      if f.value.value < 256 then f.byte ∈ bytes ∨ ¬ Straddled f.byte bytes
      else f.byte ∉ bytes ∧ ¬ Straddled f.byte bytes
  | comparison =>
      (∃ b ∈ bytes, Indexer.compare b.toNat comparison f.value.value = true) ↔
        f.byte ∈ bytes ∨ Straddled f.byte bytes

theorem numberOfBigInt_of_lt {n : Nat} (h : n < 2 ^ 53) : numberOfBigInt n = n := by
  have hlog : n.log2 - 52 = 0 := by
    by_cases hzero : n = 0
    · rw [hzero]
      rfl
    · have hlt := (Nat.log2_lt hzero).mpr h
      omega
  simp [numberOfBigInt, hlog, Nat.mod_one]

theorem IntegerCompare.toNat_byte (h : f.value.value < 256) :
    f.byte.toNat = f.value.value := by
  have hnumber : f.value.toNumber = f.value.value := by
    rw [IntegerValue.toNumber]
    split
    · exact numberOfBigInt_of_lt (by omega)
    · rfl
  rw [IntegerCompare.byte, hnumber, UInt8.toNat_ofNat']
  exact Nat.mod_eq_of_lt h

theorem compare_equal_iff {f : IntegerCompare} (hbyte : f.value.value < 256) (b : UInt8) :
    Indexer.compare b.toNat .equal f.value.value = true ↔ b = f.byte := by
  rw [Indexer.compare, beq_iff_eq, ← IntegerCompare.toNat_byte hbyte, UInt8.toNat_inj]

theorem IntegerCompare.agreesOn_iff_reliable : f.AgreesOn bytes ↔ f.Reliable bytes := by
  rw [IntegerCompare.AgreesOn, Bool.eq_iff_iff, sqlHolds_iff, handleArrayResults_iff,
    IntegerCompare.Reliable]
  cases hcompare : f.compare with
  | equal =>
      dsimp only
      split
      case isTrue hbyte =>
        have hmem : (∃ b ∈ bytes, Indexer.compare b.toNat .equal f.value.value = true) ↔
            f.byte ∈ bytes := by
          simp only [compare_equal_iff hbyte, exists_eq_right]
        rw [hmem]
        tauto
      case isFalse hlarge =>
        have hnone : ¬ ∃ b ∈ bytes, Indexer.compare b.toNat .equal f.value.value = true := by
          rintro ⟨b, -, heq⟩
          have hlt := b.toNat_lt
          rw [Indexer.compare, beq_iff_eq] at heq
          omega
        rw [iff_false_right hnone, not_or]
  | greater => exact iff_comm
  | greaterOrEqual => exact iff_comm
  | less => exact iff_comm
  | lessOrEqual => exact iff_comm

/-! ### Every comparison fails on some bytes -/

/-- Any two digits make a byte. -/
theorem exists_digits (h l : Fin 16) : ∃ b : UInt8, high b = h ∧ low b = l := by
  have hlt : 16 * h.val + l.val < 256 := by omega
  have hnat : (UInt8.ofNat (16 * h.val + l.val)).toNat = 16 * h.val + l.val := by
    rw [UInt8.toNat_ofNat']
    exact Nat.mod_eq_of_lt hlt
  refine ⟨UInt8.ofNat (16 * h.val + l.val), Fin.ext ?_, Fin.ext ?_⟩
  · show (UInt8.ofNat _).toNat / 16 = h.val
    rw [hnat]
    omega
  · show (UInt8.ofNat _).toNat % 16 = l.val
    rw [hnat]
    omega

theorem exists_byte_ne (byte : UInt8) : ∃ b, byte ≠ b := by
  by_cases h : byte = 0
  · exact ⟨1, by rw [h]; decide⟩
  · exact ⟨0, h⟩

theorem exists_straddled (byte : UInt8) :
    ∃ bytes : List UInt8, byte ∉ bytes ∧ Straddled byte bytes := by
  obtain ⟨b, hb, hlow⟩ := exists_digits (high byte + 1) (high byte)
  obtain ⟨c, hhigh, hc⟩ := exists_digits (low byte) (low byte + 1)
  have hnext : ∀ n : Fin 16, n + 1 ≠ n := by decide
  refine ⟨[b, c], fun hmem => ?_, b, c, List.infix_refl _, hlow, hhigh⟩
  rcases List.mem_cons.mp hmem with rfl | hmem
  · exact hnext _ hb.symm
  · rw [List.mem_singleton] at hmem
    subst hmem
    exact hnext _ hc.symm

theorem not_straddled_single (byte b : UInt8) : ¬ Straddled byte [b] := by
  rintro ⟨c, d, hcd, -⟩
  exact absurd hcd.length_le (by simp)

/-- A byte that is found and that the comparison does not hold of. -/
theorem not_agreesOn_found (hfound : f.byte ∈ bytes ∨ Straddled f.byte bytes)
    (hnone : ∀ b ∈ bytes, Indexer.compare b.toNat f.compare f.value.value = false) :
    ¬ f.AgreesOn bytes := by
  intro h
  have hsql := IntegerCompare.sqlHolds_iff.mpr hfound
  rw [h, IntegerCompare.handleArrayResults_iff] at hsql
  obtain ⟨b, hb, hcompare⟩ := hsql
  rw [hnone b hb] at hcompare
  cases hcompare

/-- A byte that the comparison holds of and that is not found. -/
theorem not_agreesOn_missed {b : UInt8} (hne : f.byte ≠ b)
    (hcompare : Indexer.compare b.toNat f.compare f.value.value = true) :
    ¬ f.AgreesOn [b] := by
  intro h
  have hhandle := IntegerCompare.handleArrayResults_iff.mpr
    ⟨b, List.mem_singleton_self b, hcompare⟩
  rw [← h, IntegerCompare.sqlHolds_iff] at hhandle
  rcases hhandle with hmem | hstraddled
  · exact hne (List.mem_singleton.mp hmem)
  · exact not_straddled_single _ _ hstraddled

/-- For an equality with a byte, or with the first or the last byte, the digits of two
neighbours are found. -/
theorem exists_not_agreesOn_equal
    (honly : ∀ b : UInt8, Indexer.compare b.toNat f.compare f.value.value = true →
      b = f.byte) :
    ∃ bytes, ¬ f.AgreesOn bytes := by
  obtain ⟨bytes, hnot, hstraddled⟩ := exists_straddled f.byte
  refine ⟨bytes, not_agreesOn_found (.inr hstraddled) (fun b hb => ?_)⟩
  rw [Bool.eq_false_iff]
  exact fun hcompare => hnot (honly b hcompare ▸ hb)

/-- A comparison that does not hold of the byte that is searched. -/
theorem exists_not_agreesOn_byte
    (hbyte : Indexer.compare f.byte.toNat f.compare f.value.value = false) :
    ∃ bytes, ¬ f.AgreesOn bytes := by
  refine ⟨[f.byte], not_agreesOn_found (.inl List.mem_cons_self) (fun b hb => ?_)⟩
  rw [List.mem_singleton.mp hb]
  exact hbyte

theorem IntegerCompare.exists_not_agreesOn (f : IntegerCompare) :
    ∃ bytes, ¬ f.AgreesOn bytes := by
  have hlt := f.byte.toNat_lt
  have hbyte := f.toNat_byte
  have heq : ∀ b : UInt8, b.toNat = f.byte.toNat → b = f.byte := fun b => UInt8.toNat_inj.mp
  have hne : ∀ b : UInt8, f.byte.toNat ≠ b.toNat → f.byte ≠ b :=
    fun b h hb => h (congrArg _ hb)
  have hlast : (255 : UInt8).toNat = 255 := rfl
  have hfirst : (0 : UInt8).toNat = 0 := rfl
  cases hcompare : f.compare with
  | equal =>
      by_cases hvalue : f.value.value < 256
      · refine exists_not_agreesOn_equal (fun b hb => ?_)
        rw [hcompare] at hb
        exact (compare_equal_iff hvalue b).mp hb
      · refine exists_not_agreesOn_byte ?_
        rw [hcompare, Indexer.compare, beq_eq_false_iff_ne]
        omega
  | greater =>
      by_cases hvalue : f.value.value < 255
      · refine ⟨[255], not_agreesOn_missed (hne 255 (by omega)) ?_⟩
        rw [hcompare, Indexer.compare, decide_eq_true_iff]
        omega
      · refine exists_not_agreesOn_byte ?_
        rw [hcompare, Indexer.compare, decide_eq_false_iff_not]
        omega
  | greaterOrEqual =>
      rcases Nat.lt_trichotomy f.value.value 255 with hvalue | hvalue | hvalue
      · refine ⟨[255], not_agreesOn_missed (hne 255 (by omega)) ?_⟩
        rw [hcompare, Indexer.compare, decide_eq_true_iff]
        omega
      · refine exists_not_agreesOn_equal (fun b hb => heq b ?_)
        have hb' := b.toNat_lt
        rw [hcompare, Indexer.compare, decide_eq_true_iff] at hb
        omega
      · refine exists_not_agreesOn_byte ?_
        rw [hcompare, Indexer.compare, decide_eq_false_iff_not]
        omega
  | less =>
      by_cases hvalue : f.value.value < 256
      · refine exists_not_agreesOn_byte ?_
        rw [hcompare, Indexer.compare, decide_eq_false_iff_not]
        omega
      · obtain ⟨b, hb⟩ := exists_byte_ne f.byte
        have hb' := b.toNat_lt
        refine ⟨[b], not_agreesOn_missed hb ?_⟩
        rw [hcompare, Indexer.compare, decide_eq_true_iff]
        omega
  | lessOrEqual =>
      by_cases hzero : f.value.value = 0
      · refine exists_not_agreesOn_equal (fun b hb => heq b ?_)
        rw [hcompare, Indexer.compare, decide_eq_true_iff] at hb
        omega
      · by_cases hvalue : f.value.value < 256
        · refine ⟨[0], not_agreesOn_missed (hne 0 (by omega)) ?_⟩
          rw [hcompare, Indexer.compare, decide_eq_true_iff]
          omega
        · obtain ⟨b, hb⟩ := exists_byte_ne f.byte
          have hb' := b.toNat_lt
          refine ⟨[b], not_agreesOn_missed hb ?_⟩
          rw [hcompare, Indexer.compare, decide_eq_true_iff]
          omega

/-- The indices agree on the bytes for which the comparison is reliable, and no
comparison is reliable for all bytes. -/
theorem IntegerCompare.agreesOn_iff (f : IntegerCompare) :
    (∀ bytes, f.AgreesOn bytes ↔ f.Reliable bytes) ∧ ∃ bytes, ¬ f.AgreesOn bytes :=
  ⟨fun _ => agreesOn_iff_reliable, f.exists_not_agreesOn⟩

end Agreement

section Neighbours

/-- The bytes `0x01` and `0x23` contain no `0x12`. -/
theorem not_agreesOn_neighbours :
    ¬ ∀ (f : IntegerCompare) (bytes : List UInt8), f.AgreesOn bytes := by
  intro h
  let f : IntegerCompare := ⟨.equal, ⟨false, 0x12, by decide⟩⟩
  have hagrees : f.sqlHolds [0x01, 0x23] = f.handleArrayResults [0x01, 0x23] := h f _
  exact absurd hagrees (by decide)

end Neighbours

end Indexer
end Peerbit
