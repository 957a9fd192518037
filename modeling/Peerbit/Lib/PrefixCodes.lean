import Mathlib

/-!
# Encodings that end by themselves

An encoding into bytes of which one can see where it ends, whatever follows.
Such encodings are injective, and they are closed under what a binary format
does with the encodings of its fields: one after the other, a flag before an
optional value, a number of elements before the elements.
-/

namespace Peerbit
namespace Lib

universe u v

structure PrefixCode (α : Type u) where
  encode : α → List UInt8
  splits : ∀ a b s t, encode a ++ s = encode b ++ t → a = b ∧ s = t

/-- A number in a given number of bytes, the least one first. -/
def littleEndian : Nat → Nat → List UInt8
  | 0, _ => []
  | width + 1, n => UInt8.ofNat n :: littleEndian width (n / 256)

theorem length_littleEndian (width n : Nat) :
    (littleEndian width n).length = width := by
  induction width generalizing n with
  | zero => rfl
  | succ width ih => simp [littleEndian, ih]

theorem littleEndian_injective {width n m : Nat} (hn : n < 256 ^ width)
    (hm : m < 256 ^ width) (h : littleEndian width n = littleEndian width m) :
    n = m := by
  induction width generalizing n m with
  | zero => omega
  | succ width ih =>
      obtain ⟨hbyte, hrest⟩ := List.cons.inj h
      have hmod : n % 256 = m % 256 := by
        simpa using congrArg UInt8.toNat hbyte
      rw [Nat.pow_succ] at hn hm
      have hdiv : n / 256 = m / 256 :=
        ih (Nat.div_lt_of_lt_mul (by omega)) (Nat.div_lt_of_lt_mul (by omega))
          hrest
      omega

namespace PrefixCode

variable {α : Type u} {β : Type v}

theorem injective (c : PrefixCode α) : Function.Injective c.encode := by
  intro a b h
  exact (c.splits a b [] [] (by rw [h])).1

/-- All values have encodings of one length. -/
def fixed (encode : α → List UInt8) (width : Nat)
    (hwidth : ∀ a, (encode a).length = width)
    (hinj : Function.Injective encode) : PrefixCode α where
  encode := encode
  splits := by
    intro a b s t h
    obtain ⟨hab, hst⟩ := List.append_inj h ((hwidth a).trans (hwidth b).symm)
    exact ⟨hinj hab, hst⟩

/-- The encoding of what a value is made of. -/
def comap (c : PrefixCode β) (f : α → β) (hf : Function.Injective f) :
    PrefixCode α where
  encode := fun a => c.encode (f a)
  splits := by
    intro a b s t h
    obtain ⟨hab, hst⟩ := c.splits _ _ s t h
    exact ⟨hf hab, hst⟩

def unit : PrefixCode Unit where
  encode := fun _ => []
  splits := fun _ _ _ _ h => ⟨rfl, h⟩

def byte : PrefixCode UInt8 where
  encode := fun b => [b]
  splits := fun _ _ _ _ h => List.cons.inj h

/-- A number of that many bytes. -/
def nat (width : Nat) : PrefixCode {n : Nat // n < 256 ^ width} :=
  fixed (fun n => littleEndian width n.1) width
    (fun n => length_littleEndian width n.1)
    (fun n m h => Subtype.ext (littleEndian_injective n.2 m.2 h))

def u32 : PrefixCode UInt32 :=
  (nat 4).comap (fun x => ⟨x.toNat, x.toNat_lt⟩) fun _ _ h =>
    UInt32.toNat_inj.mp (Subtype.mk.inj h)

def u64 : PrefixCode UInt64 :=
  (nat 8).comap (fun x => ⟨x.toNat, x.toNat_lt⟩) fun _ _ h =>
    UInt64.toNat_inj.mp (Subtype.mk.inj h)

def pair (c : PrefixCode α) (d : PrefixCode β) : PrefixCode (α × β) where
  encode := fun a => c.encode a.1 ++ d.encode a.2
  splits := by
    intro a b s t h
    rw [List.append_assoc, List.append_assoc] at h
    obtain ⟨hfst, h⟩ := c.splits _ _ _ _ h
    obtain ⟨hsnd, hst⟩ := d.splits _ _ _ _ h
    exact ⟨Prod.ext hfst hsnd, hst⟩

/-- A flag, and the value if it is there. -/
def option (c : PrefixCode α) : PrefixCode (Option α) where
  encode
    | none => [0]
    | some a => 1 :: c.encode a
  splits := by
    intro a b s t h
    cases a with
    | none =>
        cases b with
        | none => exact ⟨rfl, (List.cons.inj h).2⟩
        | some b => exact absurd (List.cons.inj h).1 (by decide)
    | some a =>
        cases b with
        | none => exact absurd (List.cons.inj h).1 (by decide)
        | some b =>
            obtain ⟨hab, hst⟩ := c.splits _ _ _ _ (List.cons.inj h).2
            exact ⟨congrArg some hab, hst⟩

/-- Elements one after the other, if their number is known. -/
theorem splits_flatMap (c : PrefixCode α) {as bs : List α} {s t : List UInt8}
    (hlength : as.length = bs.length)
    (h : as.flatMap c.encode ++ s = bs.flatMap c.encode ++ t) :
    as = bs ∧ s = t := by
  induction as generalizing bs with
  | nil =>
      obtain rfl := List.length_eq_zero_iff.mp hlength.symm
      exact ⟨rfl, h⟩
  | cons a as ih =>
      cases bs with
      | nil => simp at hlength
      | cons b bs =>
          rw [List.flatMap_cons, List.flatMap_cons, List.append_assoc,
            List.append_assoc] at h
          obtain ⟨hab, h⟩ := c.splits _ _ _ _ h
          obtain ⟨hrest, hst⟩ := ih (Nat.succ.inj hlength) h
          exact ⟨by rw [hab, hrest], hst⟩

/-- The number of elements in that many bytes, and the elements. -/
def list (width : Nat) (c : PrefixCode α) :
    PrefixCode {as : List α // as.length < 256 ^ width} where
  encode := fun as => littleEndian width as.1.length ++ as.1.flatMap c.encode
  splits := by
    intro as bs s t h
    rw [List.append_assoc, List.append_assoc] at h
    obtain ⟨hlength, h⟩ :=
      (nat width).splits ⟨_, as.2⟩ ⟨_, bs.2⟩ _ _ h
    obtain ⟨hab, hst⟩ := c.splits_flatMap (Subtype.mk.inj hlength) h
    exact ⟨Subtype.ext hab, hst⟩

end PrefixCode

end Lib
end Peerbit
