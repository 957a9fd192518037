import Mathlib.Data.List.Sort

/-!
# Stable sorting

A stable sort keeps elements that tie in the order in which it finds them.  Two
lists are sorted to the same list exactly when they have the same elements in
the same order within every class of ties.

A sort whose comparisons may fail gives a permutation when it does not fail.
-/

namespace Peerbit
namespace Lib
namespace StableSort

universe u v

variable {α : Type u} (r : α → α → Prop) [DecidableRel r]

/-- Each may come before the other. -/
def Ties (a b : α) : Prop := r a b ∧ r b a

instance : DecidableRel (Ties r) :=
  fun a b => inferInstanceAs (Decidable (r a b ∧ r b a))

variable {r}

/-- Elements that tie with one another stay in their order. -/
theorem filter_insertionSort (htrans : ∀ a b c, r a b → r b c → r a c) (a : α)
    (l : List α) :
    (l.insertionSort r).filter (fun b => Ties r a b) =
      l.filter (fun b => Ties r a b) := by
  have hclass : (l.filter (fun b => Ties r a b)).Pairwise r := by
    refine List.pairwise_of_forall_mem_list (fun x hx y hy => ?_)
    have hxa : Ties r a x := by simpa using (List.mem_filter.mp hx).2
    have hya : Ties r a y := by simpa using (List.mem_filter.mp hy).2
    exact htrans x a y hxa.2 hya.1
  have hsub : (l.filter (fun b => Ties r a b)).Sublist
      ((l.insertionSort r).filter (fun b => Ties r a b)) := by
    have h := (List.sublist_insertionSort hclass List.filter_sublist).filter
      (fun b => decide (Ties r a b))
    simpa only [List.filter_filter, Bool.and_self] using h
  have hlength := ((List.perm_insertionSort r l).filter
    (fun b => decide (Ties r a b))).length_eq
  exact (hsub.eq_of_length hlength.symm).symm

theorem orderedInsert_of_forall {a : α} {l : List α} (h : ∀ b ∈ l, r a b) :
    l.orderedInsert r a = a :: l := by
  cases l with
  | nil => rfl
  | cons b l => exact if_pos (h b List.mem_cons_self)

theorem filter_orderedInsert (htrans : ∀ a b c, r a b → r b c → r a c) (p : α → Bool)
    (a : α) {l : List α} (hl : l.Pairwise r) :
    (l.orderedInsert r a).filter p =
      if p a then (l.filter p).orderedInsert r a else l.filter p := by
  induction l with
  | nil => cases hp : p a with
    | true => simp [hp]
    | false => simp [hp]
  | cons b l ih =>
      obtain ⟨hb, hrest⟩ := List.pairwise_cons.mp hl
      by_cases hab : r a b
      · have hfront : ∀ c ∈ (b :: l).filter p, r a c := by
          intro c hc
          rcases List.mem_cons.mp (List.mem_of_mem_filter hc) with rfl | hc
          · exact hab
          · exact htrans a b c hab (hb c hc)
        rw [orderedInsert_of_forall hfront, List.orderedInsert, if_pos hab]
        cases hp : p a with
        | true => simp only [List.filter_cons_of_pos hp, if_true]
        | false => simp [hp]
      · rw [List.orderedInsert, if_neg hab]
        cases hpb : p b with
        | true =>
            rw [List.filter_cons_of_pos hpb, List.filter_cons_of_pos hpb, ih hrest]
            split
            · rw [List.orderedInsert, if_neg hab]
            · rfl
        | false =>
            rw [List.filter_cons_of_neg (by simp [hpb]),
              List.filter_cons_of_neg (by simp [hpb]), ih hrest]

/-- Sorting some of the elements keeps them in the order of all. -/
theorem insertionSort_filter (htotal : ∀ a b, r a b ∨ r b a)
    (htrans : ∀ a b c, r a b → r b c → r a c) (p : α → Bool) (l : List α) :
    (l.filter p).insertionSort r = (l.insertionSort r).filter p := by
  have : Std.Total r := ⟨htotal⟩
  have : IsTrans α r := ⟨htrans⟩
  induction l with
  | nil => rfl
  | cons a l ih =>
      rw [List.insertionSort_cons, filter_orderedInsert htrans p a
        (List.pairwise_insertionSort r l), ← ih]
      cases hp : p a with
      | true => rw [List.filter_cons_of_pos hp, List.insertionSort_cons, if_pos rfl]
      | false => simp [hp]

/-- A sorted list is given by its classes of ties. -/
theorem eq_of_filter_eq (hrefl : ∀ a, r a a) {xs ys : List α}
    (hxs : xs.Pairwise r) (hys : ys.Pairwise r)
    (h : ∀ a, xs.filter (fun b => Ties r a b) =
      ys.filter (fun b => Ties r a b)) :
    xs = ys := by
  have hties : ∀ a, Ties r a a := fun a => ⟨hrefl a, hrefl a⟩
  have hmem : ∀ (a : α) (l : List α),
      a ∈ l.filter (fun b => Ties r a b) ↔ a ∈ l := by
    intro a l
    simp [List.mem_filter, hties a]
  induction xs generalizing ys with
  | nil =>
      refine (List.eq_nil_iff_forall_not_mem.mpr (fun b hb => ?_)).symm
      have hb' := (hmem b ys).mpr hb
      rw [← h b] at hb'
      exact List.not_mem_nil hb'
  | cons a xs ih =>
      cases ys with
      | nil =>
          have ha := (hmem a (a :: xs)).mpr List.mem_cons_self
          rw [h a] at ha
          exact absurd ha List.not_mem_nil
      | cons b ys =>
          have hle : ∀ {c d : α} {l : List α}, (c :: l).Pairwise r →
              d ∈ c :: l → r c d := by
            intro c d l hl hd
            rcases List.mem_cons.mp hd with rfl | hd
            · exact hrefl d
            · exact List.rel_of_pairwise_cons hl hd
          have hb : b ∈ a :: xs := by
            rw [← hmem, h b, hmem]
            exact List.mem_cons_self
          have ha : a ∈ b :: ys := by
            rw [← hmem, ← h a, hmem]
            exact List.mem_cons_self
          have hab : Ties r a b := ⟨hle hxs hb, hle hys ha⟩
          -- both are first in their class
          have hfirst := h a
          rw [List.filter_cons_of_pos (by simpa using hties a),
            List.filter_cons_of_pos (by simpa using hab)] at hfirst
          obtain rfl := (List.cons.inj hfirst).1
          refine congrArg (a :: ·) (ih hxs.of_cons hys.of_cons (fun c => ?_))
          have hc := h c
          by_cases hca : Ties r c a
          · rw [List.filter_cons_of_pos (by simpa using hca),
              List.filter_cons_of_pos (by simpa using hca)] at hc
            exact (List.cons.inj hc).2
          · rwa [List.filter_cons_of_neg (by simpa using hca),
              List.filter_cons_of_neg (by simpa using hca)] at hc

/-- Lists are sorted to the same list exactly when their ties are in the same
order. -/
theorem insertionSort_eq_iff (htotal : ∀ a b, r a b ∨ r b a)
    (htrans : ∀ a b c, r a b → r b c → r a c) {xs ys : List α} :
    xs.insertionSort r = ys.insertionSort r ↔
      ∀ a, xs.filter (fun b => Ties r a b) =
        ys.filter (fun b => Ties r a b) := by
  have : Std.Total r := ⟨htotal⟩
  have : IsTrans α r := ⟨htrans⟩
  constructor
  · intro h a
    rw [← filter_insertionSort htrans a xs, h, filter_insertionSort htrans]
  · intro h
    refine eq_of_filter_eq (fun a => (htotal a a).elim id id)
      (List.pairwise_insertionSort r xs) (List.pairwise_insertionSort r ys)
      (fun a => ?_)
    rw [filter_insertionSort htrans, filter_insertionSort htrans, h a]

/-! ### Comparisons that fail -/

section Failing

variable {ε : Type v} (compare : α → α → Except ε Int)

def orderedInsertM (a : α) : List α → Except ε (List α)
  | [] => .ok [a]
  | b :: l =>
      match compare a b with
      | .error e => .error e
      | .ok cmp =>
          if cmp ≤ 0 then .ok (a :: b :: l)
          else (orderedInsertM a l).map (b :: ·)

/-- A sort that fails when one of its comparisons does. -/
def insertionSortM : List α → Except ε (List α)
  | [] => .ok []
  | a :: l => (insertionSortM l).bind (orderedInsertM compare a)

variable {compare}

theorem perm_orderedInsertM {a : α} {l sorted : List α}
    (h : orderedInsertM compare a l = .ok sorted) : sorted.Perm (a :: l) := by
  induction l generalizing sorted with
  | nil =>
      obtain rfl := Except.ok.inj h
      exact List.Perm.refl _
  | cons b l ih =>
      rw [orderedInsertM] at h
      cases hcmp : compare a b with
      | error e =>
          rw [hcmp] at h
          cases h
      | ok cmp =>
          rw [hcmp] at h
          simp only at h
          split at h
          · obtain rfl := Except.ok.inj h
            exact List.Perm.refl _
          · cases hrest : orderedInsertM compare a l with
            | error e =>
                rw [hrest] at h
                cases h
            | ok rest =>
                rw [hrest] at h
                obtain rfl := Except.ok.inj h
                exact ((ih hrest).cons b).trans (List.Perm.swap a b l)

theorem perm_insertionSortM {l sorted : List α}
    (h : insertionSortM compare l = .ok sorted) : sorted.Perm l := by
  induction l generalizing sorted with
  | nil =>
      obtain rfl := Except.ok.inj h
      exact List.Perm.refl _
  | cons a l ih =>
      rw [insertionSortM] at h
      cases hrest : insertionSortM compare l with
      | error e =>
          rw [hrest] at h
          cases h
      | ok rest =>
          rw [hrest] at h
          exact (perm_orderedInsertM h).trans ((ih hrest).cons a)

/-- When no comparison fails, it is the stable sort. -/
theorem insertionSortM_eq {c : α → α → Int} (hc : ∀ a b, compare a b = .ok (c a b))
    (l : List α) :
    insertionSortM compare l = .ok (l.insertionSort (fun a b => c a b ≤ 0)) := by
  have hinsert : ∀ (a : α) (l : List α), orderedInsertM compare a l =
      .ok (l.orderedInsert (fun a b => c a b ≤ 0) a) := by
    intro a l
    induction l with
    | nil => rfl
    | cons b l ih =>
        rw [orderedInsertM, hc, List.orderedInsert, ih]
        by_cases hcmp : c a b ≤ 0
        · simp only [hcmp, if_true]
        · simp only [hcmp, if_false]
          rfl
  induction l with
  | nil => rfl
  | cons a l ih =>
      rw [insertionSortM, ih, List.insertionSort_cons]
      exact hinsert a _

end Failing

end StableSort
end Lib
end Peerbit
