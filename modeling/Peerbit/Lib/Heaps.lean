import Mathlib

/-!
# Binary heaps in an array

The element at `i` has the children `2 * i + 1` and `2 * i + 2`, and its key is
not greater than theirs.  An element that has become too small for its place is
moved up, one that has become too large is moved down.

Both loops take a bound on the number of their steps.
-/

namespace Peerbit
namespace Lib
namespace Heaps

universe u v

variable {α : Type u} {κ : Type v} [Inhabited α] [LinearOrder κ] (key : α → κ)

def parent (i : Nat) : Nat := (i - 1) / 2

def siftUp : Nat → Array α → Nat → Array α
  | 0, a, _ => a
  | fuel + 1, a, cur =>
      if cur = 0 then a
      else if key a[parent cur]! ≤ key a[cur]! then a
      else siftUp fuel (a.swapIfInBounds (parent cur) cur) (parent cur)

/-- The child with the smaller key, the left one of equals. -/
def smallerChild (a : Array α) (cur : Nat) : Nat :=
  if 2 * cur + 2 < a.size ∧ key a[2 * cur + 2]! < key a[2 * cur + 1]! then 2 * cur + 2
  else 2 * cur + 1

def siftDown : Nat → Array α → Nat → Array α
  | 0, a, _ => a
  | fuel + 1, a, cur =>
      if a.size ≤ 2 * cur + 1 then a
      else if key a[cur]! ≤ key a[smallerChild key a cur]! then a
      else
        siftDown fuel (a.swapIfInBounds cur (smallerChild key a cur))
          (smallerChild key a cur)

/-- The elements before `k` are moved down, the last one first. -/
def siftBefore : Nat → Array α → Array α
  | 0, a => a
  | k + 1, a => siftBefore k (siftDown key a.size a k)

/-- A heap is built of any array: the elements that have children are moved down. -/
def buildHeap (a : Array α) : Array α :=
  siftBefore key (a.size / 2) a

/-! ### Permutations -/

omit [Inhabited α] in
theorem swapIfInBounds_perm (a : Array α) (i j : Nat) :
    (a.swapIfInBounds i j).toList.Perm a.toList := by
  rw [Array.swapIfInBounds_def]
  split
  · split
    · exact Array.perm_iff_toList_perm.mp (Array.swap_perm _ _)
    · exact List.Perm.refl _
  · exact List.Perm.refl _

theorem siftUp_perm (fuel : Nat) (a : Array α) (cur : Nat) :
    (siftUp key fuel a cur).toList.Perm a.toList := by
  induction fuel generalizing a cur with
  | zero => exact List.Perm.refl _
  | succ fuel ih =>
      rw [siftUp]
      split
      · exact List.Perm.refl _
      · split
        · exact List.Perm.refl _
        · exact (ih _ _).trans (swapIfInBounds_perm _ _ _)

theorem siftDown_perm (fuel : Nat) (a : Array α) (cur : Nat) :
    (siftDown key fuel a cur).toList.Perm a.toList := by
  induction fuel generalizing a cur with
  | zero => exact List.Perm.refl _
  | succ fuel ih =>
      rw [siftDown]
      split
      · exact List.Perm.refl _
      · split
        · exact List.Perm.refl _
        · exact (ih _ _).trans (swapIfInBounds_perm _ _ _)

theorem siftBefore_perm (k : Nat) (a : Array α) :
    (siftBefore key k a).toList.Perm a.toList := by
  induction k generalizing a with
  | zero => exact List.Perm.refl _
  | succ k ih => exact (ih _).trans (siftDown_perm key _ _ _)

theorem buildHeap_perm (a : Array α) : (buildHeap key a).toList.Perm a.toList :=
  siftBefore_perm key _ a

/-! ### Order -/

/-- The elements from `k` on are not greater than their children. -/
def HeapFrom (a : Array α) (k : Nat) : Prop :=
  ∀ i, 0 < i → i < a.size → k ≤ parent i → key a[parent i]! ≤ key a[i]!

def IsHeap (a : Array α) : Prop := HeapFrom key a 0

variable {key} {a : Array α} {i j k cur fuel : Nat}

theorem getElem!_swapIfInBounds (hi : i < a.size) (hj : j < a.size) (l : Nat) :
    (a.swapIfInBounds i j)[l]! =
      if l = i then a[j]! else if l = j then a[i]! else a[l]! := by
  by_cases hl : l < a.size
  · have hl' : l < (a.swapIfInBounds i j).size := by simpa using hl
    rw [getElem!_pos _ l hl', Array.getElem_swapIfInBounds]
    simp only [hi, hj, and_true, getElem!_pos, hl]
    split
    · rfl
    · split <;> rfl
  · have hl' : ¬ l < (a.swapIfInBounds i j).size := by simpa using hl
    rw [getElem!_neg _ l hl', if_neg (by omega), if_neg (by omega), getElem!_neg _ l hl]

theorem parent_lt (h : 0 < i) : parent i < i := by
  rw [parent]
  omega

/-- The root of a heap has the smallest key. -/
theorem root_le (h : IsHeap key a) (hi : i < a.size) : key a[0]! ≤ key a[i]! := by
  induction i using Nat.strongRecOn with
  | ind i ih =>
      rcases Nat.eq_zero_or_pos i with rfl | hpos
      · exact le_refl _
      · have hlt := parent_lt hpos
        exact le_trans (ih (parent i) hlt (by omega)) (h i hpos hi (Nat.zero_le _))

/-- All is in order but that the element at `cur` may be too small. -/
structure UpReady (key : α → κ) (a : Array α) (cur : Nat) : Prop where
  others : ∀ i, 0 < i → i < a.size → i ≠ cur → key a[parent i]! ≤ key a[i]!
  children : 0 < cur → ∀ i, 0 < i → i < a.size → parent i = cur →
    key a[parent cur]! ≤ key a[i]!

theorem UpReady.swap (h : UpReady key a cur) (hcur : 0 < cur) (hsize : cur < a.size)
    (hlt : key a[cur]! < key a[parent cur]!) :
    UpReady key (a.swapIfInBounds (parent cur) cur) (parent cur) := by
  have hp := parent_lt hcur
  have hget := getElem!_swapIfInBounds (a := a) (Nat.lt_trans hp hsize) hsize
  constructor
  case others =>
    intro i hi hisize hne
    rw [Array.size_swapIfInBounds] at hisize
    have hpi := parent_lt hi
    rw [hget i, if_neg hne, hget (parent i)]
    by_cases hicur : i = cur
    · subst hicur
      rw [if_pos rfl, if_pos rfl]
      exact le_of_lt hlt
    · rw [if_neg hicur]
      have hold := h.others i hi hisize hicur
      by_cases hsibling : parent i = parent cur
      · rw [if_pos hsibling]
        rw [hsibling] at hold
        exact le_trans (le_of_lt hlt) hold
      · rw [if_neg hsibling]
        by_cases hchild : parent i = cur
        · rw [if_pos hchild]
          exact h.children hcur i hi hisize hchild
        · rw [if_neg hchild]
          exact hold
  case children =>
    intro hpos i hi hisize hchild
    rw [Array.size_swapIfInBounds] at hisize
    have hpp := parent_lt hpos
    have hpi := parent_lt hi
    have hgrand := h.others (parent cur) hpos (by omega) (by omega)
    rw [hget (parent (parent cur)), if_neg (by omega), if_neg (by omega), hget i,
      if_neg (by omega)]
    by_cases hicur : i = cur
    · rw [if_pos hicur]
      exact hgrand
    · rw [if_neg hicur]
      have hold := h.others i hi hisize hicur
      rw [hchild] at hold
      exact le_trans hgrand hold

theorem UpReady.isHeap (h : UpReady key a 0) : IsHeap key a :=
  fun i hi hisize _ => h.others i hi hisize (by omega)

theorem isHeap_siftUp (h : UpReady key a cur) (hsize : cur < a.size) (hfuel : cur ≤ fuel) :
    IsHeap key (siftUp key fuel a cur) := by
  induction fuel generalizing a cur with
  | zero =>
      obtain rfl : cur = 0 := by omega
      exact h.isHeap
  | succ fuel ih =>
      rw [siftUp]
      split
      case isTrue hzero =>
        subst hzero
        exact h.isHeap
      case isFalse hcur =>
        split
        case isTrue hle =>
          intro i hi hisize _
          by_cases hicur : i = cur
          · rw [hicur]
            exact hle
          · exact h.others i hi hisize hicur
        case isFalse hnot =>
          have hpos := Nat.pos_of_ne_zero hcur
          have hp := parent_lt hpos
          refine ih (h.swap hpos hsize (not_le.mp hnot)) ?_ (by omega)
          rw [Array.size_swapIfInBounds]
          omega

/-- Adding an element at the end and moving it up keeps a heap. -/
theorem isHeap_push (h : IsHeap key a) (x : α) :
    IsHeap key (siftUp key a.size (a.push x) a.size) := by
  refine isHeap_siftUp ⟨?_, ?_⟩ (by simp) (Nat.le_refl _)
  · intro i hi hisize hne
    rw [Array.size_push] at hisize
    have hlt : i < a.size := by omega
    have hp := parent_lt hi
    have hold := h i hi hlt (Nat.zero_le _)
    rwa [getElem!_pos (a.push x) i (by simp; omega),
      getElem!_pos (a.push x) (parent i) (by simp; omega),
      Array.getElem_push_lt hlt, Array.getElem_push_lt (Nat.lt_trans hp hlt),
      ← getElem!_pos a i, ← getElem!_pos a (parent i)]
  · intro hpos i hi hisize hchild
    have hp := parent_lt hi
    rw [Array.size_push] at hisize
    omega

/-- From `k` on, all is in order but that the element at `cur` may be too large. -/
structure DownReady (key : α → κ) (a : Array α) (k cur : Nat) : Prop where
  others : ∀ i, 0 < i → i < a.size → k ≤ parent i → parent i ≠ cur →
    key a[parent i]! ≤ key a[i]!
  children : k ≠ cur → ∀ i, 0 < i → i < a.size → parent i = cur →
    key a[parent cur]! ≤ key a[i]!
  below : k = cur ∨ k ≤ parent cur ∧ 0 < cur

variable (key a cur) in
theorem parent_smallerChild : parent (smallerChild key a cur) = cur := by
  rw [smallerChild, parent]
  split <;> omega

variable (key) in
theorem smallerChild_lt (h : ¬ a.size ≤ 2 * cur + 1) :
    smallerChild key a cur < a.size := by
  rw [smallerChild]
  split <;> omega

variable (key a cur) in
theorem smallerChild_pos : 0 < smallerChild key a cur := by
  rw [smallerChild]
  split <;> omega

theorem smallerChild_le (hi : 0 < i) (hisize : i < a.size) (hchild : parent i = cur) :
    key a[smallerChild key a cur]! ≤ key a[i]! := by
  have hcases : i = 2 * cur + 1 ∨ i = 2 * cur + 2 := by
    rw [parent] at hchild
    omega
  rw [smallerChild]
  split
  case isTrue hright =>
    rcases hcases with rfl | rfl
    · exact le_of_lt hright.2
    · exact le_refl _
  case isFalse hleft =>
    rcases hcases with rfl | rfl
    · exact le_refl _
    · exact not_lt.mp fun hlt => hleft ⟨hisize, hlt⟩

theorem DownReady.swap (h : DownReady key a k cur) (hsize : ¬ a.size ≤ 2 * cur + 1)
    (hlt : key a[smallerChild key a cur]! < key a[cur]!) :
    DownReady key (a.swapIfInBounds cur (smallerChild key a cur)) k
      (smallerChild key a cur) := by
  have hchildsize := smallerChild_lt key hsize
  have hchildpos := smallerChild_pos key a cur
  have hchildparent := parent_smallerChild key a cur
  have hsmallest : ∀ i, 0 < i → i < a.size → parent i = cur →
      key a[smallerChild key a cur]! ≤ key a[i]! := fun _ => smallerChild_le
  generalize smallerChild key a cur = child at *
  have hp := parent_lt hchildpos
  have hget := getElem!_swapIfInBounds (a := a) (i := cur) (j := child) (by omega) hchildsize
  have hk : k ≤ cur := by
    rcases h.below with rfl | ⟨hk, hcur⟩
    · exact Nat.le_refl _
    · have hlt := parent_lt hcur
      omega
  constructor
  case others =>
    intro i hi hisize hki hne
    rw [Array.size_swapIfInBounds] at hisize
    have hpi := parent_lt hi
    rw [hget (parent i), hget i]
    by_cases hpcur : parent i = cur
    · -- a child of `cur`, which now holds the smallest of its children
      rw [if_pos hpcur, if_neg (by omega)]
      by_cases hichild : i = child
      · rw [if_pos hichild]
        exact le_of_lt hlt
      · rw [if_neg hichild]
        exact hsmallest i hi hisize hpcur
    · rw [if_neg hpcur, if_neg hne]
      by_cases hicur : i = cur
      · rw [if_pos hicur]
        rw [hicur] at hi hki ⊢
        refine h.children ?_ child hchildpos hchildsize hchildparent
        have hlt := parent_lt hi
        omega
      · rw [if_neg hicur, if_neg (fun hichild => hpcur (by rw [hichild, hchildparent]))]
        exact h.others i hi hisize hki hpcur
  case children =>
    intro _ i hi hisize hpi
    rw [Array.size_swapIfInBounds] at hisize
    have hlt := parent_lt hi
    have hold := h.others i hi hisize (by omega) (by omega)
    rw [hpi] at hold
    rw [hchildparent, hget cur, if_pos rfl, hget i, if_neg (by omega), if_neg (by omega)]
    exact hold
  case below => exact .inr ⟨by omega, hchildpos⟩

theorem heapFrom_siftDown (h : DownReady key a k cur) (hfuel : a.size ≤ cur + fuel) :
    HeapFrom key (siftDown key fuel a cur) k := by
  induction fuel generalizing a cur with
  | zero =>
      intro i hi hisize hk
      have hp := parent_lt hi
      exact h.others i hi hisize hk (by rw [siftDown] at hisize; omega)
  | succ fuel ih =>
      rw [siftDown]
      split
      case isTrue hend =>
        intro i hi hisize hk
        refine h.others i hi hisize hk ?_
        rw [parent]
        omega
      case isFalse hsize =>
        split
        case isTrue hle =>
          intro i hi hisize hk
          by_cases hp : parent i = cur
          · rw [hp]
            exact le_trans hle (smallerChild_le hi hisize hp)
          · exact h.others i hi hisize hk hp
        case isFalse hnot =>
          refine ih (h.swap hsize (not_le.mp hnot)) ?_
          have hpos := smallerChild_pos key a cur
          have hlt := parent_lt hpos
          rw [parent_smallerChild] at hlt
          rw [Array.size_swapIfInBounds]
          omega

/-- Replacing the root and moving it down keeps a heap. -/
theorem isHeap_replaceRoot (h : IsHeap key a) (x : α) :
    IsHeap key (siftDown key a.size (a.setIfInBounds 0 x) 0) := by
  refine heapFrom_siftDown ⟨?_, fun hne => absurd rfl hne, .inl rfl⟩ (by simp)
  intro i hi hisize hk hp
  rw [Array.size_setIfInBounds] at hisize
  have hlt := parent_lt hi
  have hget : ∀ l, l < a.size → l ≠ 0 → (a.setIfInBounds 0 x)[l]! = a[l]! := by
    intro l hl hne
    rw [getElem!_pos _ l (by simpa using hl), getElem!_pos a l hl,
      Array.getElem_setIfInBounds_ne _ (Ne.symm hne)]
  rw [hget i hisize (by omega), hget (parent i) (by omega) hp]
  exact h i hi hisize hk

/-! ### Building a heap -/

/-- Moving the element at `k` down brings it in order with those below it. -/
theorem heapFrom_siftDown_succ (h : HeapFrom key a (k + 1)) :
    HeapFrom key (siftDown key a.size a k) k := by
  refine heapFrom_siftDown ⟨?_, fun hne => absurd rfl hne, .inl rfl⟩ (by omega)
  intro i hi hisize hk hp
  exact h i hi hisize (by omega)

theorem isHeap_siftBefore (h : HeapFrom key a k) : IsHeap key (siftBefore key k a) := by
  induction k generalizing a with
  | zero => exact h
  | succ k ih => exact ih (heapFrom_siftDown_succ h)

variable (key a) in
theorem isHeap_buildHeap : IsHeap key (buildHeap key a) := by
  refine isHeap_siftBefore fun i hi hisize hk => ?_
  rw [parent] at hk
  omega

/-- Where all keys are equal, any order is a heap. -/
theorem isHeap_of_const {c : κ} (h : ∀ x ∈ a.toList, key x = c) : IsHeap key a := by
  intro i hi hisize _
  have hget : ∀ j, j < a.size → key a[j]! = c := by
    intro j hj
    rw [getElem!_pos a j hj]
    exact h _ (Array.mem_toList_iff.mpr (Array.getElem_mem hj))
  have hp := parent_lt hi
  rw [hget i hisize, hget (parent i) (by omega)]

/-- In a heap nothing is moved up or down. -/
theorem siftUp_eq_self (h : IsHeap key a) (hcur : cur < a.size) :
    siftUp key fuel a cur = a := by
  cases fuel with
  | zero => rfl
  | succ fuel =>
      rw [siftUp]
      split
      · rfl
      · rw [if_pos (h cur (by omega) hcur (Nat.zero_le _))]

theorem siftDown_eq_self (h : IsHeap key a) : siftDown key fuel a cur = a := by
  cases fuel with
  | zero => rfl
  | succ fuel =>
      rw [siftDown]
      split
      case isTrue => rfl
      case isFalse hsize =>
        have hle := h _ (smallerChild_pos key a cur) (smallerChild_lt key hsize)
          (Nat.zero_le _)
        rw [parent_smallerChild] at hle
        rw [if_pos hle]

theorem siftBefore_eq_self (h : IsHeap key a) : siftBefore key k a = a := by
  induction k with
  | zero => rfl
  | succ k ih => rw [siftBefore, siftDown_eq_self h, ih]

theorem buildHeap_eq_self (h : IsHeap key a) : buildHeap key a = a :=
  siftBefore_eq_self h

end Heaps
end Lib
end Peerbit
