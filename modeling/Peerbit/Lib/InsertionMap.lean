import Mathlib.Data.List.Basic
import Mathlib.Data.List.Nodup

/-!
# Maps in the order of insertion

A map remembers in which order its keys came in.  Setting a key that is there
keeps its place.
-/

namespace Peerbit
namespace Lib

universe u v

structure InsertionMap (κ : Type u) (ν : Type v) where
  get : κ → Option ν
  keys : List κ
  nodup : keys.Nodup
  mem_keys : ∀ k, k ∈ keys ↔ (get k).isSome

namespace InsertionMap

variable {κ : Type u} {ν : Type v} [DecidableEq κ]

def empty : InsertionMap κ ν where
  get := fun _ => none
  keys := []
  nodup := List.nodup_nil
  mem_keys := by simp

def set (m : InsertionMap κ ν) (k : κ) (v : ν) : InsertionMap κ ν where
  get := Function.update m.get k (some v)
  keys := if k ∈ m.keys then m.keys else m.keys ++ [k]
  nodup := by
    split
    · exact m.nodup
    · rename_i h
      exact (List.perm_append_singleton _ _).nodup_iff.mpr
        (List.nodup_cons.mpr ⟨h, m.nodup⟩)
  mem_keys := by
    intro j
    by_cases hj : j = k
    · subst hj
      split <;> simp_all
    · rw [Function.update_of_ne hj, ← m.mem_keys j]
      split <;> simp [hj]

/-- The entries that a condition keeps. -/
def filter (m : InsertionMap κ ν) (keep : κ → ν → Bool) :
    InsertionMap κ ν where
  get := fun k => (m.get k).filter (keep k)
  keys := m.keys.filter (fun k => ((m.get k).filter (keep k)).isSome)
  nodup := m.nodup.filter _
  mem_keys := by
    intro k
    simp only [List.mem_filter, m.mem_keys k, and_iff_right_iff_imp]
    intro h
    cases hk : m.get k with
    | none => simp [hk] at h
    | some v => rfl

/-- The entries with the values that a function gives them, if it gives one. -/
def filterMap {ν' : Type v} (m : InsertionMap κ ν) (f : κ → ν → Option ν') :
    InsertionMap κ ν' where
  get := fun k => (m.get k).bind (f k)
  keys := m.keys.filter (fun k => ((m.get k).bind (f k)).isSome)
  nodup := m.nodup.filter _
  mem_keys := by
    intro k
    simp only [List.mem_filter, m.mem_keys k, and_iff_right_iff_imp]
    intro h
    cases hk : m.get k with
    | none => simp [hk] at h
    | some v => rfl

def delete (m : InsertionMap κ ν) (k : κ) : InsertionMap κ ν :=
  m.filter (fun j _ => j ≠ k)

/-- Changes the value of a key that is there. -/
def modify (m : InsertionMap κ ν) (k : κ) (f : ν → ν) : InsertionMap κ ν where
  get := Function.update m.get k ((m.get k).map f)
  keys := m.keys
  nodup := m.nodup
  mem_keys := by
    intro j
    by_cases hj : j = k
    · subst hj
      simp [m.mem_keys j]
    · rw [Function.update_of_ne hj, m.mem_keys j]

def entries (m : InsertionMap κ ν) : List (κ × ν) :=
  m.keys.filterMap (fun k => (m.get k).map (fun v => (k, v)))

section Lookups

variable (m : InsertionMap κ ν)

omit [DecidableEq κ] in
@[simp] theorem get_empty (k : κ) : (empty : InsertionMap κ ν).get k = none :=
  rfl

@[simp] theorem get_set_self (k : κ) (v : ν) : (m.set k v).get k = some v :=
  Function.update_self ..

theorem get_set_of_ne {j k : κ} (v : ν) (h : j ≠ k) :
    (m.set k v).get j = m.get j :=
  Function.update_of_ne h ..

omit [DecidableEq κ] in
@[simp] theorem get_filter (keep : κ → ν → Bool) (k : κ) :
    (m.filter keep).get k = (m.get k).filter (keep k) :=
  rfl

omit [DecidableEq κ] in
@[simp] theorem get_filterMap {ν' : Type v} (f : κ → ν → Option ν') (k : κ) :
    (m.filterMap f).get k = (m.get k).bind (f k) :=
  rfl

@[simp] theorem get_delete_self (k : κ) : (m.delete k).get k = none := by
  cases h : m.get k with
  | none => simp [delete, h]
  | some v => simp [delete, h]

theorem get_delete_of_ne {j k : κ} (h : j ≠ k) :
    (m.delete k).get j = m.get j := by
  cases hj : m.get j with
  | none => simp [delete, hj]
  | some v => simp [delete, hj, h]

theorem get_delete_eq_some {j k : κ} {v : ν} :
    (m.delete k).get j = some v ↔ j ≠ k ∧ m.get j = some v := by
  by_cases h : j = k
  · subst h
    simp
  · simp [get_delete_of_ne m h, h]

@[simp] theorem get_modify_self (k : κ) (f : ν → ν) :
    (m.modify k f).get k = (m.get k).map f :=
  Function.update_self ..

theorem get_modify_of_ne {j k : κ} (f : ν → ν) (h : j ≠ k) :
    (m.modify k f).get j = m.get j :=
  Function.update_of_ne h ..

variable {m}

omit [DecidableEq κ] in
theorem mem_entries {k : κ} {v : ν} :
    (k, v) ∈ m.entries ↔ m.get k = some v := by
  unfold entries
  rw [List.mem_filterMap]
  constructor
  · rintro ⟨j, _, hj⟩
    obtain ⟨w, hw, hpair⟩ := Option.map_eq_some_iff.mp hj
    obtain ⟨rfl, rfl⟩ := Prod.mk.inj hpair
    exact hw
  · intro h
    refine ⟨k, (m.mem_keys k).mpr ?_, ?_⟩
    · rw [h]
      rfl
    · rw [h]
      rfl

omit [DecidableEq κ] in
variable (m) in
theorem map_fst_entries : m.entries.map Prod.fst = m.keys := by
  unfold entries
  rw [List.map_filterMap]
  refine (List.filterMap_congr ?_).trans (List.filterMap_some (l := m.keys))
  intro k hk
  obtain ⟨v, hv⟩ := Option.isSome_iff_exists.mp ((m.mem_keys k).mp hk)
  rw [hv]
  rfl

omit [DecidableEq κ] in
/-- No two entries have one key. -/
theorem pairwise_entries :
    m.entries.Pairwise (fun e e' => e.1 ≠ e'.1) := by
  refine List.Pairwise.filterMap _ ?_ m.nodup
  intro k k' hne e he e' he'
  obtain ⟨v, _, rfl⟩ := Option.map_eq_some_iff.mp he
  obtain ⟨v', _, rfl⟩ := Option.map_eq_some_iff.mp he'
  exact hne

end Lookups

end InsertionMap

end Lib
end Peerbit
