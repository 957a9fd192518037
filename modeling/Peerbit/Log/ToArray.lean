import Peerbit.Log.JoinConvergence
import Peerbit.Lib.StableSort

/-!
# The entries of a log in order

`toArray` sorts the index and resolves each entry.  The sort is stable, so that
entries with equal sort keys come in the order of the index, which is the order
in which they were stored.
-/

namespace Peerbit
namespace Log

/-! ### Sorted entries -/

/-- A comparison of sort keys. -/
structure SortFn.Lawful (sortFn : SortFn) : Prop where
  oriented : ∀ a b, sortFn.sort b a = (sortFn.sort a b).swap
  trans : ∀ a b c, sortFn.sort a b ≠ .gt → sortFn.sort b c ≠ .gt →
    sortFn.sort a c ≠ .gt

theorem compareTimestamp_ne_gt (a b : Timestamp) :
    compareTimestamp a b ≠ .gt ↔
      a.wallTime < b.wallTime ∨
        (a.wallTime = b.wallTime ∧ a.logical ≤ b.logical) := by
  rw [compareTimestamp, ne_eq, Ordering.then_eq_gt, Nat.compare_eq_gt,
    Nat.compare_eq_eq, Nat.compare_eq_gt]
  omega

theorem compareTimestamp_swap (a b : Timestamp) :
    compareTimestamp b a = (compareTimestamp a b).swap := by
  rw [compareTimestamp, compareTimestamp, Ordering.swap_then, Nat.compare_swap,
    Nat.compare_swap]

theorem compareTimestamp_trans (a b c : Timestamp)
    (hab : compareTimestamp a b ≠ .gt) (hbc : compareTimestamp b c ≠ .gt) :
    compareTimestamp a c ≠ .gt := by
  rw [compareTimestamp_ne_gt] at hab hbc ⊢
  omega

theorem lastWriteWins_lawful : LastWriteWins.Lawful where
  oriented _ _ := compareTimestamp_swap _ _
  trans _ _ _ := compareTimestamp_trans _ _ _

theorem firstWriteWins_lawful : FirstWriteWins.Lawful where
  oriented _ _ := compareTimestamp_swap _ _
  trans _ _ _ hab hbc := compareTimestamp_trans _ _ _ hbc hab

/-- The order of two entries in `iterate`. -/
def SortFn.le (sortFn : SortFn) (a b : SortableEntry) : Prop :=
  sortFn.sort a b ≠ .gt

instance (sortFn : SortFn) : DecidableRel sortFn.le :=
  fun a b => inferInstanceAs (Decidable (sortFn.sort a b ≠ .gt))

theorem SortFn.Lawful.total {sortFn : SortFn} (h : sortFn.Lawful)
    (a b : SortableEntry) : sortFn.le a b ∨ sortFn.le b a := by
  unfold SortFn.le
  rw [h.oriented a b]
  cases sortFn.sort a b with
  | lt => exact .inl (fun hnot => nomatch hnot)
  | eq => exact .inl (fun hnot => nomatch hnot)
  | gt => exact .inr (fun hnot => nomatch hnot)

theorem SortFn.Lawful.ties_iff {sortFn : SortFn} (h : sortFn.Lawful)
    (a b : SortableEntry) :
    Lib.StableSort.Ties sortFn.le a b ↔ sortFn.sort a b = .eq := by
  unfold Lib.StableSort.Ties SortFn.le
  rw [h.oriented a b]
  cases sortFn.sort a b with
  | lt => exact ⟨fun hties => absurd rfl hties.2, fun hnot => nomatch hnot⟩
  | eq =>
      exact ⟨fun _ => rfl,
        fun _ => ⟨fun hnot => (nomatch hnot), fun hnot => nomatch hnot⟩⟩
  | gt => exact ⟨fun hties => absurd rfl hties.1, fun hnot => nomatch hnot⟩

theorem sortables_sorted (sortFn : SortFn) (index : HeadsIndex) :
    HeadsIndex.sortables (sortFn.sorted index) =
      index.sortables.insertionSort sortFn.le :=
  List.map_insertionSort _ _ _ _ (fun _ _ _ _ => Iff.rfl)

/-- Entries with equal sort keys were stored in the same order. -/
def SameTies (sortFn : SortFn) (index index' : HeadsIndex) : Prop :=
  ∀ x, index.sortables.filter (fun y => sortFn.sort x y = .eq) =
    index'.sortables.filter (fun y => sortFn.sort x y = .eq)

theorem sorted_eq_iff {sortFn : SortFn} (h : sortFn.Lawful)
    {index index' : HeadsIndex} :
    index.sortables.insertionSort sortFn.le =
        index'.sortables.insertionSort sortFn.le ↔
      SameTies sortFn index index' := by
  rw [Lib.StableSort.insertionSort_eq_iff h.total h.trans]
  simp only [h.ties_iff]
  rfl

/-- Without ties, indexes of the same entries have none in another order. -/
theorem SameTies.of_distinct {sortFn : SortFn} {index index' : HeadsIndex}
    (hkeyed : index.Keyed) (hkeyed' : index'.Keyed)
    (hsame : ∀ x, x ∈ index.sortables ↔ x ∈ index'.sortables)
    (hlawful : sortFn.Lawful)
    (hdistinct : ∀ x ∈ index.sortables, ∀ y ∈ index.sortables,
      sortFn.sort x y = .eq → x = y) :
    SameTies sortFn index index' := by
  have hnodup : ∀ {index : HeadsIndex}, index.Keyed → index.sortables.Nodup := by
    intro index hkeyed
    refine List.Nodup.of_map SortableEntry.hash ?_
    rw [HeadsIndex.sortables, List.map_map]
    exact hkeyed
  intro x
  have hties : ∀ a b, sortFn.sort x a = .eq → sortFn.sort x b = .eq →
      sortFn.sort a b = .eq := by
    intro a b ha hb
    obtain ⟨hxa, hax⟩ := (hlawful.ties_iff x a).mpr ha
    obtain ⟨hxb, hbx⟩ := (hlawful.ties_iff x b).mpr hb
    exact (hlawful.ties_iff a b).mp
      ⟨hlawful.trans a x b hax hxb, hlawful.trans b x a hbx hxa⟩
  have hall : ∀ xs : List SortableEntry, xs.Pairwise (fun _ _ => True) :=
    fun _ => List.pairwise_of_forall (fun _ _ => trivial)
  refine List.Perm.eq_of_pairwise ?_ (hall _) (hall _) ?_
  · intro a b ha hb _ _
    obtain ⟨ha, hxa⟩ := List.mem_filter.mp ha
    obtain ⟨hb, hxb⟩ := List.mem_filter.mp hb
    exact hdistinct a ha b ((hsame b).mpr hb)
      (hties a b (of_decide_eq_true hxa) (of_decide_eq_true hxb))
  · refine (List.perm_ext_iff_of_nodup ((hnodup hkeyed).filter _)
      ((hnodup hkeyed').filter _)).mpr (fun y => ?_)
    rw [List.mem_filter, List.mem_filter, hsame y]

/-! ### Resolving them -/

section ToArray

variable {α σ : Type}

/-- The results of `iterate` resolved in full, without those that are cached as
missing. -/
def EntryIndex.resolveAll :
    List Hash → EntryIndex α → Except LogError (List (Entry α)) × EntryIndex α
  | [], s => (.ok [], s)
  | k :: ks, s =>
      match s.getOrThrow k with
      | (.error e, s) => (.error e, s)
      | (.ok found, s) =>
          match EntryIndex.resolveAll ks s with
          | (.error e, s) => (.error e, s)
          | (.ok entries, s) => (.ok (found.toList ++ entries), s)

def toArray (env : LogEnv α σ) (s : LogState α σ) :
    Except LogError (List (Entry α)) × EntryIndex α :=
  s.entryIndex.resolveAll
    ((env.sortFn.sorted s.entryIndex.index).map (fun e => e.hash))

variable {U : Entry α → Prop}

/-- Stored entries are resolved to entries with their hashes. -/
theorem ResolveInv.resolveAll {s : EntryIndex α} (h : ResolveInv U s)
    {ks : List Hash} (hstored : ∀ k ∈ ks, s.index.Stored k) :
    ∃ entries s', s.resolveAll ks = (.ok entries, s') ∧
      (∀ e ∈ entries, U e) ∧ entries.map (fun e => e.hash) = ks := by
  induction ks generalizing s with
  | nil => exact ⟨[], s, rfl, fun _ he => (nomatch he), rfl⟩
  | cons k ks ih =>
      rw [List.forall_mem_cons] at hstored
      obtain ⟨hfound, hsome⟩ := h.get_fst k
      obtain ⟨v, hv⟩ := hsome hstored.1
      obtain ⟨hUv, hhash⟩ := hfound v hv
      obtain ⟨entries, s', hrest, hU, hhashes⟩ :=
        ih (h.get k) (fun j hj => by
          rw [EntryIndex.get_index]
          exact hstored.2 j hj)
      refine ⟨v :: entries, s', ?_, List.forall_mem_cons.mpr ⟨hUv, hU⟩, ?_⟩
      · rw [EntryIndex.resolveAll, h.getOrThrow hstored.1, hv]
        simp only [hrest, Option.toList_some, List.singleton_append]
      · rw [List.map_cons, hhash, hhashes]

/-- Lists whose elements are given by an image are given by their images. -/
theorem eq_of_map_eq {β γ : Type} {f : β → γ} {xs ys : List β}
    (hinj : ∀ x ∈ xs, ∀ y ∈ ys, f x = f y → x = y)
    (hmap : xs.map f = ys.map f) : xs = ys := by
  induction xs generalizing ys with
  | nil => exact (List.map_eq_nil_iff.mp hmap.symm).symm
  | cons x xs ih =>
      cases ys with
      | nil => exact nomatch hmap
      | cons y ys =>
          obtain ⟨hx, hxs⟩ := List.cons.inj hmap
          obtain rfl := hinj x List.mem_cons_self y List.mem_cons_self hx
          exact congrArg (x :: ·) (ih (fun a ha b hb =>
            hinj a (List.mem_cons_of_mem x ha) b (List.mem_cons_of_mem x hb))
            hxs)

/-- `toArray` gives the entries of the index, in its order. -/
theorem toArray_ok (env : LogEnv α σ) {s : LogState α σ}
    (h : ResolveInv U s.entryIndex)
    (hcontent : ∀ e f, U e → U f → e.hash = f.hash → e = f) :
    ∃ entries s', toArray env s = (.ok entries, s') ∧ (∀ e ∈ entries, U e) ∧
      entries.map Entry.toSortableEntry =
        s.entryIndex.index.sortables.insertionSort env.sortFn.le := by
  have hmem : ∀ e ∈ env.sortFn.sorted s.entryIndex.index,
      e ∈ s.entryIndex.index :=
    fun e he => (List.mem_insertionSort _).mp he
  have hstored : ∀ k ∈ (env.sortFn.sorted s.entryIndex.index).map
      (fun e => e.hash), s.entryIndex.index.Stored k := by
    intro k hk
    obtain ⟨e, he, rfl⟩ := List.mem_map.mp hk
    exact HeadsIndex.stored_of_mem (hmem e he)
  obtain ⟨entries, s', hrun, hU, hhashes⟩ := h.resolveAll hstored
  refine ⟨entries, s', hrun, hU, ?_⟩
  rw [← sortables_sorted]
  refine eq_of_map_eq (f := SortableEntry.hash) ?_ ?_
  · intro x hx y hy hhash
    obtain ⟨e, he, rfl⟩ := List.mem_map.mp hx
    obtain ⟨z, hz, rfl⟩ := List.mem_map.mp hy
    obtain ⟨f, hf, hfz⟩ :=
      h.sub _ (HeadsIndex.mem_sortables.mpr ⟨z, hmem z hz, rfl⟩)
    rw [← hfz] at hhash ⊢
    rw [hcontent e f (hU e he) hf hhash]
  · rw [List.map_map, HeadsIndex.sortables, List.map_map]
    exact hhashes

/-- Two logs of entries under their content hashes give the same array exactly
when their ties are in the same order. -/
theorem toArray_eq_iff {env env' : LogEnv α σ} {s s' : LogState α σ}
    (h : ResolveInv U s.entryIndex) (h' : ResolveInv U s'.entryIndex)
    (hcontent : ∀ e f, U e → U f → e.hash = f.hash → e = f)
    (hsort : env'.sortFn = env.sortFn) (hlawful : env.sortFn.Lawful) :
    (toArray env s).1 = (toArray env' s').1 ↔
      SameTies env.sortFn s.entryIndex.index s'.entryIndex.index := by
  obtain ⟨entries, _, hrun, hU, hsorted⟩ := toArray_ok env h hcontent
  obtain ⟨entries', _, hrun', hU', hsorted'⟩ :=
    toArray_ok env' h' hcontent
  rw [hrun, hrun', ← sorted_eq_iff hlawful, ← hsorted, ← hsort, ← hsorted']
  constructor
  · intro heq
    rw [Except.ok.inj heq]
  · intro hmap
    refine congrArg Except.ok (eq_of_map_eq (fun e he f hf hef => ?_) hmap)
    exact hcontent e f (hU e he) (hU' f hf) (congrArg SortableEntry.hash hef)

end ToArray

end Log
end Peerbit
