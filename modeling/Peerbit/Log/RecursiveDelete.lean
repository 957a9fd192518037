import Peerbit.Lib.StackWalk
import Peerbit.Log.PutStep
import Peerbit.Log.TrimLength

/-!
# Deleting recursively

With some entries, a recursive delete takes the ancestors that nothing else points to.
`prepareDeleteRecursively` finds them with a stack: a parent is put on it when no other
entry but cuts lists it.  Nothing is deleted meanwhile, and what was visited is not
noted.

So a parent with two children that are both deleted is kept, since each child sees the
other one.  And what is found in two ways is listed twice: an entry that is given and
is also the parent of a given one, or the parent of two cuts.  The list is right exactly
when each entry that is to be deleted is found once (`deletesExactly_iff`).
-/

namespace Peerbit
namespace Log

/-- A log whose entries, blocks and cached entries are the same ones, under their
content hashes, and where an entry can only list entries that were made before. -/
structure StoredDag {α : Type} (U : Entry α → Prop) (s : EntryIndex α) : Prop extends
    ResolveInv U s where
  content : ∀ e f, U e → U f → e.hash = f.hash → e = f
  acyclic : ∃ rank : Hash → Nat, ∀ e, U e → ∀ n ∈ e.meta.next, rank n < rank e.hash
  blocksStored : ∀ v ∈ s.store, s.index.Stored v.hash
  cachedStored : ∀ k v, s.cache.live k = some (some v) → s.index.Stored k

section Specification

variable (index : HeadsIndex) (from_ : List SortableEntry)

/-- The entries that are to be deleted: the given ones, and the stored parents whose
stored children are all to be deleted, or cuts. -/
inductive Deleted : SortableEntry → Prop
  | given {x : SortableEntry} (h : x ∈ from_) : Deleted x
  | parent {e x : SortableEntry} (he : Deleted e) (hx : x ∈ index.sortables)
      (hnext : x.hash ∈ e.meta.next)
      (hall : ∀ c ∈ index.sortables, x.hash ∈ c.meta.next → c.meta.type ≠ .CUT →
        Deleted c) : Deleted x

/-- The list has the stored entries that are to be deleted, each once. -/
structure DeletesExactly (toDelete : List PendingDelete) : Prop where
  once : (toDelete.map ShallowEntry.toSortableEntry).Nodup
  exact_ : ∀ x, x ∈ toDelete.map ShallowEntry.toSortableEntry ↔
    x ∈ index.sortables ∧ Deleted index from_ x

/-- Another entry than this one, and no cut, lists the hash. -/
def hasAlternativeNext (entry : SortableEntry) (next : Hash) : Bool :=
  (index.getHasNext next).any (fun x =>
    decide (x.meta.type ≠ .CUT) && decide (x.hash ≠ entry.hash))

/-- The stored parent under a hash, if no other entry but cuts lists it. -/
def freedNext (entry : SortableEntry) (next : Hash) : Option SortableEntry :=
  if hasAlternativeNext index entry next then none
  else (index.get next).map ShallowEntry.toSortableEntry

def freedNexts (entry : SortableEntry) : List SortableEntry :=
  entry.meta.next.filterMap (freedNext index entry)

open Classical in
/-- The entries that are to be deleted: the stored ones, and those that are given and not
stored. -/
noncomputable def deletedEntries : List SortableEntry :=
  from_.filter (fun x => decide (x ∉ index.sortables)) ++
    index.sortables.filter (fun x => decide (Deleted index from_ x))

/-- In how many ways an entry is found: how often it is given, and how often a deleted
entry lists it that no other one but cuts lists it with. -/
noncomputable def ways (x : SortableEntry) : Nat :=
  from_.count x + ((deletedEntries index from_).map (fun e => (freedNexts index e).count x)).sum

/-- Each stored entry that is to be deleted is found in one way. -/
def FoundOnce : Prop :=
  ∀ x ∈ index.sortables, Deleted index from_ x → ways index from_ x = 1

end Specification

/-! ### What the loop visits -/

section Loop

variable {α σ : Type} {U : Entry α → Prop} {index : HeadsIndex}

theorem mem_freedNexts {entry x : SortableEntry} (h : x ∈ freedNexts index entry) :
    x ∈ index.sortables ∧ x.hash ∈ entry.meta.next ∧
      hasAlternativeNext index entry x.hash = false := by
  obtain ⟨next, hnext, hx⟩ := List.mem_filterMap.mp h
  unfold freedNext at hx
  split at hx
  · cases hx
  · rename_i halone
    obtain ⟨e, he, rfl⟩ := Option.map_eq_some_iff.mp hx
    obtain ⟨hmem, rfl⟩ := HeadsIndex.get_eq_some he
    exact ⟨HeadsIndex.mem_sortables.mpr ⟨e, hmem, rfl⟩, hnext, by simpa using halone⟩

theorem eq_of_not_alternative {entry x c : SortableEntry}
    (halone : hasAlternativeNext index entry x.hash = false) (hc : c ∈ index.sortables)
    (hlists : x.hash ∈ c.meta.next) (hcut : c.meta.type ≠ .CUT) : c.hash = entry.hash := by
  obtain ⟨f, hf, rfl⟩ := HeadsIndex.mem_sortables.mp hc
  rw [hasAlternativeNext, List.any_eq_false] at halone
  have hnot := halone f (List.mem_filter.mpr ⟨hf, decide_eq_true hlists⟩)
  simp only [Bool.and_eq_true, decide_eq_true_eq, not_and, not_not] at hnot
  exact hnot hcut

theorem StoredDag.get {s : EntryIndex α} (h : StoredDag U s) (k : Hash) :
    StoredDag U (s.get k).2 := by
  refine { h.toResolveInv.get k with
    content := h.content, acyclic := h.acyclic, blocksStored := ?_, cachedStored := ?_ }
  · rw [EntryIndex.get_store, EntryIndex.get_index]
    exact h.blocksStored
  · intro j v hlive
    rw [EntryIndex.get_index]
    rcases h.live_get hlive with hold | ⟨rfl, hv⟩
    · exact h.cachedStored j v hold
    · obtain ⟨hmem, rfl⟩ := mem_of_getBlock hv.symm
      exact h.blocksStored v hmem

/-- What is found under a hash is the stored entry. -/
theorem StoredDag.get_fst {s : EntryIndex α} (h : StoredDag U s) (k : Hash) :
    (s.get k).1.map Entry.toSortableEntry =
      (s.index.get k).map ShallowEntry.toSortableEntry := by
  obtain ⟨hfound, hsome⟩ := h.toResolveInv.get_fst k
  cases hstored : s.index.get k with
  | none =>
      have hnot : ¬ s.index.Stored k := by
        rw [HeadsIndex.stored_iff_get, hstored]
        exact Bool.false_ne_true
      cases hget : (s.get k).1 with
      | none => rfl
      | some v =>
          unfold EntryIndex.get at hget
          rw [h.cached_eq] at hget
          split at hget
          · rename_i mem hmem
            change mem = some v at hget
            rw [hget] at hmem
            exact absurd (h.cachedStored k v hmem) hnot
          · obtain ⟨hmem, rfl⟩ := mem_of_getBlock hget
            exact absurd (h.blocksStored v hmem) hnot
  | some e =>
      obtain ⟨hmem, rfl⟩ := HeadsIndex.get_eq_some hstored
      obtain ⟨v, hv⟩ := hsome (HeadsIndex.stored_of_mem hmem)
      obtain ⟨hUv, hhash⟩ := hfound v hv
      obtain ⟨f, hUf, hfe⟩ := h.sub _ (HeadsIndex.mem_sortables.mpr ⟨e, hmem, rfl⟩)
      have hsame : f = v := by
        refine h.content f v hUf hUv ?_
        rw [hhash, hfe]
      rw [hv, Option.map_some, Option.map_some, ← hsame, hfe]

/-- The parents are put on the stack, the last one on its top. -/
theorem pushNexts_eq (entry : SortableEntry) (nexts : List Hash) {s : LogState α σ}
    (h : StoredDag U s.entryIndex) (stack : List SortableEntry) :
    (pushNexts entry nexts s stack).2 =
        (nexts.filterMap (freedNext s.entryIndex.index entry)).reverse ++ stack ∧
      StoredDag U (pushNexts entry nexts s stack).1.entryIndex ∧
      (pushNexts entry nexts s stack).1.entryIndex.index = s.entryIndex.index := by
  induction nexts generalizing s stack with
  | nil => exact ⟨rfl, h, rfl⟩
  | cons next nexts ih =>
      unfold pushNexts
      dsimp only
      split
      · rename_i halternative
        have hfreed : freedNext s.entryIndex.index entry next = none :=
          if_pos halternative
        rw [List.filterMap_cons_none hfreed]
        exact ih h stack
      · rename_i halone
        have hfreed : freedNext s.entryIndex.index entry next =
            (s.entryIndex.get next).1.map Entry.toSortableEntry :=
          (if_neg halone).trans (h.get_fst next).symm
        have hindex := EntryIndex.get_index s.entryIndex next
        split
        · rename_i ne s' hget
          obtain ⟨hne, rfl⟩ := Prod.mk.inj hget
          rw [hne, Option.map_some] at hfreed
          rw [List.filterMap_cons_some hfreed, List.reverse_cons, List.append_assoc,
            List.singleton_append]
          obtain ⟨hstack, hdag, hsame⟩ :=
            ih (s := (s.get next).2) (h.get next) (ne.toSortableEntry :: stack)
          refine ⟨hstack.trans ?_, hdag, hsame.trans hindex⟩
          rw [LogState.get, hindex]
        · rename_i s' hget
          obtain ⟨hne, rfl⟩ := Prod.mk.inj hget
          rw [hne, Option.map_none] at hfreed
          rw [List.filterMap_cons_none hfreed]
          obtain ⟨hstack, hdag, hsame⟩ := ih (s := (s.get next).2) (h.get next) stack
          refine ⟨hstack.trans ?_, hdag, hsame.trans hindex⟩
          rw [LogState.get, hindex]

/-- With enough fuel the loop visits what the walk visits, and prepares to delete the
stored entries among it. -/
theorem prepareDeleteLoop_eq {s : LogState α σ} (h : StoredDag U s.entryIndex)
    {stack visited : List SortableEntry}
    (hwalked : Lib.Walked
      (fun e => (freedNexts s.entryIndex.index e).reverse) stack visited)
    {fuel : Nat} (hfuel : visited.length ≤ fuel) (toDelete : List PendingDelete) :
    ∃ s', prepareDeleteLoop fuel false s stack toDelete =
      (.ok (toDelete ++ visited.filterMap (fun e => s.entryIndex.index.get e.hash)), s') := by
  generalize hindex : s.entryIndex.index = index at hwalked
  induction hwalked generalizing s fuel toDelete with
  | nil =>
      refine ⟨s, ?_⟩
      rw [List.filterMap_nil, List.append_nil]
      cases fuel with
      | zero => rfl
      | succ fuel => rfl
  | @cons entry stack visited hrest ih =>
      cases fuel with
      | zero => exact absurd hfuel (Nat.not_succ_le_zero _)
      | succ fuel =>
          obtain ⟨hpushed, hdag, hsame⟩ := pushNexts_eq entry entry.meta.next h stack
          obtain ⟨s', hs'⟩ := ih hdag (Nat.le_of_succ_le_succ hfuel)
            (toDelete ++ (prepareDelete s entry.hash).toList) (hsame.trans hindex)
          refine ⟨s', ?_⟩
          rw [prepareDeleteLoop, hpushed]
          subst hindex
          refine hs'.trans ?_
          rw [List.append_assoc]
          have hprepared : (prepareDelete s entry.hash).toList =
              [entry].filterMap (fun e => s.entryIndex.index.get e.hash) := by
            change (s.entryIndex.index.get entry.hash).toList = _
            cases hget : s.entryIndex.index.get entry.hash with
            | none => simp [hget]
            | some e => simp [hget]
          rw [hprepared, ← List.filterMap_append]
          rfl

end Loop

/-! ### What is found -/

section Found

variable {α σ : Type} {U : Entry α → Prop} {s : EntryIndex α}
variable {from_ visited : List SortableEntry}

/-- The entry is one of the log's. -/
def OfLog (U : Entry α → Prop) (x : SortableEntry) : Prop :=
  ∃ e, U e ∧ e.toSortableEntry = x

theorem StoredDag.eq_of_hash (h : StoredDag U s) {x y : SortableEntry} (hx : OfLog U x)
    (hy : OfLog U y) (hhash : x.hash = y.hash) : x = y := by
  obtain ⟨e, he, rfl⟩ := hx
  obtain ⟨f, hf, rfl⟩ := hy
  rw [h.content e f he hf hhash]

/-- A freed parent of an entry that is to be deleted is to be deleted too. -/
theorem StoredDag.deleted_of_freed (h : StoredDag U s) {e x : SortableEntry}
    (hof : OfLog U e) (he : Deleted s.index from_ e) (hx : x ∈ freedNexts s.index e) :
    Deleted s.index from_ x := by
  obtain ⟨hstored, hnext, halone⟩ := mem_freedNexts hx
  refine .parent he hstored hnext ?_
  intro c hc hlists hcut
  have hhash := eq_of_not_alternative halone hc hlists hcut
  rw [h.eq_of_hash (h.sub c hc) hof hhash]
  exact he

/-- The walk visits entries that are to be deleted. -/
theorem StoredDag.deleted_of_visited (h : StoredDag U s)
    (hgiven : ∀ x ∈ from_, OfLog U x)
    (hwalked : Lib.Walked (fun e => (freedNexts s.index e).reverse) from_.reverse visited) :
    ∀ x ∈ visited, OfLog U x ∧ Deleted s.index from_ x := by
  refine hwalked.forall ?_ ?_
  · intro x hx
    rw [List.mem_reverse] at hx
    exact ⟨hgiven x hx, .given hx⟩
  · rintro e ⟨hof, he⟩ x hx
    rw [List.mem_reverse] at hx
    exact ⟨h.sub x (mem_freedNexts hx).1, h.deleted_of_freed hof he hx⟩

/-- Each visit is of a given entry, or of a freed parent of a visited one. -/
theorem count_visited
    (hwalked : Lib.Walked (fun e => (freedNexts s.index e).reverse) from_.reverse visited)
    (x : SortableEntry) :
    visited.count x =
      from_.count x + (visited.map (fun e => (freedNexts s.index e).count x)).sum := by
  rw [hwalked.count x, List.count_reverse]
  simp only [List.count_reverse]

theorem sum_freed_eq_zero {x : SortableEntry} (hx : x ∉ s.index.sortables)
    (l : List SortableEntry) :
    (l.map (fun e => (freedNexts s.index e).count x)).sum = 0 := by
  refine List.sum_eq_zero ?_
  intro n hn
  obtain ⟨e, _, rfl⟩ := List.mem_map.mp hn
  exact List.count_eq_zero_of_not_mem (fun h => hx (mem_freedNexts h).1)

variable (from_) in
/-- How often an entry is among those that are to be deleted. -/
theorem StoredDag.count_deletedEntries (h : StoredDag U s) (x : SortableEntry) :
    (x ∉ s.index.sortables → (deletedEntries s.index from_).count x = from_.count x) ∧
      (x ∈ s.index.sortables → Deleted s.index from_ x →
        (deletedEntries s.index from_).count x = 1) ∧
      (x ∈ s.index.sortables → ¬ Deleted s.index from_ x →
        (deletedEntries s.index from_).count x = 0) := by
  have hgiven : x ∈ s.index.sortables →
      x ∉ from_.filter (fun x => decide (x ∉ s.index.sortables)) := by
    intro hx hmem
    simpa [hx] using (List.mem_filter.mp hmem).2
  refine ⟨?_, ?_, ?_⟩
  · intro hx
    rw [deletedEntries, List.count_append, List.count_filter (by simpa using hx),
      List.count_eq_zero_of_not_mem (fun hmem => hx (List.mem_of_mem_filter hmem)),
      Nat.add_zero]
  · intro hx hdeleted
    rw [deletedEntries, List.count_append, List.count_eq_zero_of_not_mem (hgiven hx),
      List.count_filter (by simpa using hdeleted),
      List.count_eq_one_of_mem h.keyed.nodup_sortables hx]
  · intro hx hnot
    refine List.count_eq_zero_of_not_mem ?_
    intro hmem
    rcases List.mem_append.mp hmem with hmem | hmem
    · exact hgiven hx hmem
    · exact hnot (by simpa using (List.mem_filter.mp hmem).2)

/-- Where each entry is found in one way, the walk visits those that are to be deleted. -/
theorem StoredDag.perm_of_foundOnce (h : StoredDag U s)
    (hgiven : ∀ x ∈ from_, OfLog U x)
    (hwalked : Lib.Walked (fun e => (freedNexts s.index e).reverse) from_.reverse visited)
    (honce : FoundOnce s.index from_) : visited.Perm (deletedEntries s.index from_) := by
  have hvisited := h.deleted_of_visited hgiven hwalked
  obtain ⟨rank, hrank⟩ := h.acyclic
  refine Lib.perm_of_count (freedNexts s.index) (fun x => rank x.hash) ?_ ?_
  · intro e he x hx
    have hof : OfLog U e := by
      rcases List.mem_append.mp he with he | he
      · exact (hvisited e he).1
      · rcases List.mem_append.mp he with he | he
        · exact hgiven e (List.mem_of_mem_filter he)
        · exact h.sub e (List.mem_of_mem_filter he)
    obtain ⟨f, hf, rfl⟩ := hof
    exact hrank f hf _ (mem_freedNexts hx).2.1
  · intro x hsums
    obtain ⟨hunstored, hdeleted, hkept⟩ := h.count_deletedEntries from_ x
    rw [count_visited hwalked]
    by_cases hx : x ∈ s.index.sortables
    · by_cases hdel : Deleted s.index from_ x
      · rw [hdeleted hx hdel, hsums]
        exact honce x hx hdel
      · rw [hkept hx hdel, ← count_visited hwalked]
        exact List.count_eq_zero_of_not_mem (fun hmem => hdel (hvisited x hmem).2)
    · rw [hunstored hx, sum_freed_eq_zero hx, Nat.add_zero]

/-- The stored entries among the visited ones. -/
theorem StoredDag.map_filterMap_get (h : StoredDag U s) {l : List SortableEntry}
    (hl : ∀ x ∈ l, OfLog U x) :
    (l.filterMap (fun e => s.index.get e.hash)).map ShallowEntry.toSortableEntry =
      l.filter (fun x => decide (x ∈ s.index.sortables)) := by
  induction l with
  | nil => rfl
  | cons x l ih =>
      obtain ⟨hx, hrest⟩ := List.forall_mem_cons.mp hl
      cases hget : s.index.get x.hash with
      | none =>
          have hnot : x ∉ s.index.sortables := by
            intro hmem
            have hstored := HeadsIndex.stored_iff_get.mp ⟨x, hmem, rfl⟩
            rw [hget] at hstored
            cases hstored
          simp only [List.filterMap_cons, hget]
          rw [ih hrest, List.filter_cons_of_neg (by simpa using hnot)]
      | some e =>
          obtain ⟨hmem, hhash⟩ := HeadsIndex.get_eq_some hget
          have he := HeadsIndex.mem_sortables.mpr ⟨e, hmem, rfl⟩
          have hsame := h.eq_of_hash (h.sub _ he) hx hhash
          simp only [List.filterMap_cons, hget]
          rw [List.map_cons, ih hrest, hsame,
            List.filter_cons_of_pos (by rw [← hsame]; exact decide_eq_true he)]

/-- The visited entries are the right ones exactly when each is found in one way. -/
theorem StoredDag.deletesExactly_visited_iff (h : StoredDag U s)
    (hgiven : ∀ x ∈ from_, OfLog U x)
    (hwalked : Lib.Walked (fun e => (freedNexts s.index e).reverse) from_.reverse visited) :
    DeletesExactly s.index from_ (visited.filterMap (fun e => s.index.get e.hash)) ↔
      FoundOnce s.index from_ := by
  have hvisited := h.deleted_of_visited hgiven hwalked
  have hfiltered := h.map_filterMap_get (fun x hx => (hvisited x hx).1)
  have hcountFilter : ∀ x ∈ s.index.sortables,
      (visited.filter (fun y => decide (y ∈ s.index.sortables))).count x = visited.count x :=
    fun x hx => List.count_filter (decide_eq_true hx)
  constructor
  · rintro ⟨hnodup, hexact⟩
    rw [hfiltered] at hnodup hexact
    have hstored : ∀ x ∈ s.index.sortables, Deleted s.index from_ x →
        visited.count x = 1 := by
      intro x hx hdel
      rw [← hcountFilter x hx]
      exact List.count_eq_one_of_mem hnodup ((hexact x).mpr ⟨hx, hdel⟩)
    have hperm : visited.Perm (deletedEntries s.index from_) := by
      rw [List.perm_iff_count]
      intro x
      obtain ⟨hunstored, hdeleted, hkept⟩ := h.count_deletedEntries from_ x
      by_cases hx : x ∈ s.index.sortables
      · by_cases hdel : Deleted s.index from_ x
        · rw [hdeleted hx hdel, hstored x hx hdel]
        · rw [hkept hx hdel]
          exact List.count_eq_zero_of_not_mem (fun hmem => hdel (hvisited x hmem).2)
      · rw [hunstored hx, count_visited hwalked, sum_freed_eq_zero hx, Nat.add_zero]
    intro x hx hdel
    rw [ways, ← (hperm.map _).sum_eq, ← count_visited hwalked]
    exact hstored x hx hdel
  · intro honce
    have hperm := h.perm_of_foundOnce hgiven hwalked honce
    have hcount : ∀ x ∈ s.index.sortables, Deleted s.index from_ x →
        visited.count x = 1 := by
      intro x hx hdel
      rw [List.perm_iff_count.mp hperm x]
      exact (h.count_deletedEntries from_ x).2.1 hx hdel
    refine ⟨?_, ?_⟩
    · rw [hfiltered, List.nodup_iff_count_le_one]
      intro x
      by_cases hmem : x ∈ visited.filter (fun y => decide (y ∈ s.index.sortables))
      · obtain ⟨hx, hstored⟩ := List.mem_filter.mp hmem
        have hstored := of_decide_eq_true hstored
        rw [hcountFilter x hstored, hcount x hstored (hvisited x hx).2]
      · rw [List.count_eq_zero_of_not_mem hmem]
        exact Nat.zero_le 1
    · intro x
      rw [hfiltered, List.mem_filter, decide_eq_true_eq]
      constructor
      · rintro ⟨hx, hstored⟩
        exact ⟨hstored, (hvisited x hx).2⟩
      · rintro ⟨hstored, hdel⟩
        refine ⟨List.count_pos_iff.mp ?_, hstored⟩
        rw [hcount x hstored hdel]
        exact Nat.one_pos

/-- A recursive delete ends, and lists the right entries exactly when each is found in
one way. -/
theorem deletesExactly_iff {s : LogState α σ} (h : StoredDag U s.entryIndex)
    (hgiven : ∀ x ∈ from_, ∃ e, U e ∧ e.toSortableEntry = x) :
    (∃ N, ∀ fuel, N ≤ fuel → ∃ toDelete s',
      prepareDeleteRecursively fuel s from_ false = (.ok toDelete, s') ∧
        DeletesExactly s.entryIndex.index from_ toDelete) ↔
      FoundOnce s.entryIndex.index from_ := by
  obtain ⟨rank, hrank⟩ := h.acyclic
  obtain ⟨visited, hwalked⟩ : ∃ visited, Lib.Walked
      (fun e => (freedNexts s.entryIndex.index e).reverse) from_.reverse visited := by
    refine Lib.exists_walked (P := OfLog U) (fun x => rank x.hash) ?_ ?_
    · rintro e ⟨f, hf, rfl⟩ x hx
      obtain ⟨hstored, hnext, -⟩ := mem_freedNexts (List.mem_reverse.mp hx)
      exact ⟨h.sub x hstored, hrank f hf _ hnext⟩
    · intro x hx
      exact hgiven x (List.mem_reverse.mp hx)
  rw [← h.deletesExactly_visited_iff hgiven hwalked]
  constructor
  · rintro ⟨N, hN⟩
    obtain ⟨toDelete, s', hrun, hexact⟩ :=
      hN (max N visited.length) (Nat.le_max_left _ _)
    obtain ⟨t, ht⟩ := prepareDeleteLoop_eq h hwalked
      (Nat.le_max_right N visited.length) []
    rw [prepareDeleteRecursively, ht] at hrun
    obtain ⟨hok, -⟩ := Prod.mk.inj hrun
    obtain rfl := Except.ok.inj hok
    exact hexact
  · intro hexact
    refine ⟨visited.length, ?_⟩
    intro fuel hfuel
    obtain ⟨t, ht⟩ := prepareDeleteLoop_eq h hwalked hfuel []
    exact ⟨_, t, ht, hexact⟩

end Found

/-! ### Logs that are put together -/

section Put

variable {α : Type} {U : Entry α → Prop} {s : EntryIndex α}

theorem StoredDag.empty (hcontent : ∀ e f, U e → U f → e.hash = f.hash → e = f)
    (rank : Hash → Nat) (hrank : ∀ e, U e → ∀ n ∈ e.meta.next, rank n < rank e.hash) :
    StoredDag U .empty where
  toResolveInv := .of_index_eq_nil rfl rfl (fun _ h => nomatch h)
  content := hcontent
  acyclic := ⟨rank, hrank⟩
  blocksStored _ h := nomatch h
  cachedStored _ _ h := nomatch h

theorem StoredDag.put (h : StoredDag U s) {e : Entry α} (he : U e) (unique isHead : Bool) :
    StoredDag U (s.put e unique isHead true) := by
  have hkeep : ∀ k, s.index.Stored k → (s.put e unique isHead true).index.Stored k := by
    intro k hk
    rw [EntryIndex.put_index, HeadsIndex.stored_putEntry h.keyed]
    exact .inr hk
  have hnew : (s.put e unique isHead true).index.Stored e.hash := by
    rw [EntryIndex.put_index, HeadsIndex.stored_putEntry h.keyed]
    exact .inl rfl
  refine { h.toResolveInv.put he (.inl rfl) with
    content := h.content, acyclic := h.acyclic, blocksStored := ?_, cachedStored := ?_ }
  · intro v hv
    rcases of_mem_store_putBlock hv with hold | rfl
    · exact hkeep _ (h.blocksStored v hold)
    · exact hnew
  · intro k v hlive
    rcases h.live_put hlive with ⟨rfl, -⟩ | ⟨-, hold⟩
    · exact hnew
    · exact hkeep k (h.cachedStored k v hold)

end Put

namespace Diamond

def entryOf (hash : String) (wallTime : Nat) (next : List Hash) : Entry String where
  hash := hash
  «meta» :=
    { clock := { id := "writer", timestamp := { wallTime := wallTime, logical := 0 } }
      gid := "g"
      next := next
      type := .APPEND }
  payload := hash
  payloadSize := 1

def one : Entry String := entryOf "1" 1 []

def two : Entry String := entryOf "2" 2 ["1"]

def three : Entry String := entryOf "3" 3 ["1"]

def four : Entry String := entryOf "4" 4 ["2", "3"]

def logOf (entries : List (Entry String)) : LogState String Unit where
  entryIndex := entries.foldl (fun s e => s.put e true true true) .empty
  trim := .init
  app := ()

theorem storedDag_logOf {entries : List (Entry String)}
    (hentries : entries ⊆ [one, two, three, four]) :
    StoredDag (· ∈ [one, two, three, four]) (logOf entries).entryIndex := by
  have hcontent : ∀ e ∈ [one, two, three, four], ∀ f ∈ [one, two, three, four],
      e.hash = f.hash → e = f := by decide
  have hrank : ∀ e ∈ [one, two, three, four], ∀ n ∈ e.meta.next,
      ["1", "2", "3", "4"].idxOf n < ["1", "2", "3", "4"].idxOf e.hash := by decide
  have hall : ∀ (entries : List (Entry String)) (s : EntryIndex String),
      entries ⊆ [one, two, three, four] → StoredDag (· ∈ [one, two, three, four]) s →
        StoredDag (· ∈ [one, two, three, four])
          (entries.foldl (fun s e => s.put e true true true) s) := by
    intro entries
    induction entries with
    | nil => exact fun s _ h => h
    | cons e entries ih =>
        intro s hsub h
        rw [List.cons_subset] at hsub
        exact ih _ hsub.2 (h.put hsub.1 true true)
  exact hall entries .empty hentries
    (.empty (fun e f he hf => hcontent e he f hf) _ hrank)

/-- Both children of the first entry are deleted, and it is not. -/
theorem not_deletesExactly :
    ¬ ∃ N, ∀ fuel, N ≤ fuel → ∃ toDelete s',
      prepareDeleteRecursively fuel (logOf [one, two, three, four])
        [four.toSortableEntry] false = (.ok toDelete, s') ∧
      DeletesExactly (logOf [one, two, three, four]).entryIndex.index
        [four.toSortableEntry] toDelete := by
  rintro ⟨N, hN⟩
  obtain ⟨toDelete, s', hrun, hexact⟩ := hN (N + 3) (Nat.le_add_right N 3)
  have hwalked : Lib.Walked
      (fun e => (freedNexts (logOf [one, two, three, four]).entryIndex.index e).reverse)
      [four.toSortableEntry]
      [four.toSortableEntry, three.toSortableEntry, two.toSortableEntry] :=
    .cons (.cons (.cons .nil))
  obtain ⟨t, ht⟩ := prepareDeleteLoop_eq (storedDag_logOf (List.Subset.refl _)) hwalked
    (Nat.le_add_left 3 N) []
  rw [prepareDeleteRecursively, List.reverse_singleton, ht] at hrun
  obtain ⟨hok, -⟩ := Prod.mk.inj hrun
  obtain rfl := Except.ok.inj hok
  have hfour : Deleted (logOf [one, two, three, four]).entryIndex.index
      [four.toSortableEntry] four.toSortableEntry :=
    .given (List.mem_singleton_self _)
  have hmiddle : ∀ x ∈ [two.toSortableEntry, three.toSortableEntry],
      Deleted (logOf [one, two, three, four]).entryIndex.index
        [four.toSortableEntry] x := by
    intro x hx
    refine .parent hfour ?_ ?_ ?_
    · revert x
      decide
    · revert x
      decide
    · intro c hc hlists _
      have honly : ∀ c ∈ (logOf [one, two, three, four]).entryIndex.index.sortables,
          ∀ x ∈ [two.toSortableEntry, three.toSortableEntry], x.hash ∈ c.meta.next →
            c = four.toSortableEntry := by decide
      rw [honly c hc x hx hlists]
      exact hfour
  have hone : Deleted (logOf [one, two, three, four]).entryIndex.index
      [four.toSortableEntry] one.toSortableEntry := by
    refine .parent (hmiddle two.toSortableEntry (by decide)) (by decide) (by decide) ?_
    intro c hc hlists _
    have honly : ∀ c ∈ (logOf [one, two, three, four]).entryIndex.index.sortables,
        one.hash ∈ c.meta.next → c ∈ [two.toSortableEntry, three.toSortableEntry] := by
      decide
    exact hmiddle c (honly c hc hlists)
  have hlisted := (hexact.exact_ one.toSortableEntry).mpr ⟨by decide, hone⟩
  exact absurd hlisted (by decide)

/-- A chain is deleted as a whole. -/
theorem deletesExactly_chain :
    ∃ N, ∀ fuel, N ≤ fuel → ∃ toDelete s',
      prepareDeleteRecursively fuel (logOf [one, two]) [two.toSortableEntry] false =
        (.ok toDelete, s') ∧
      DeletesExactly (logOf [one, two]).entryIndex.index [two.toSortableEntry] toDelete := by
  have hsub : [one, two] ⊆ [one, two, three, four] := by decide
  refine (deletesExactly_iff (storedDag_logOf hsub) ?_).mpr ?_
  · intro x hx
    exact ⟨two, by decide, (List.mem_singleton.mp hx).symm⟩
  · have htwo : Deleted (logOf [one, two]).entryIndex.index [two.toSortableEntry]
        two.toSortableEntry := .given (List.mem_singleton_self _)
    have hone : Deleted (logOf [one, two]).entryIndex.index [two.toSortableEntry]
        one.toSortableEntry := by
      refine .parent htwo (by decide) (by decide) ?_
      intro c hc hlists _
      have honly : ∀ c ∈ (logOf [one, two]).entryIndex.index.sortables,
          one.hash ∈ c.meta.next → c = two.toSortableEntry := by decide
      rw [honly c hc hlists]
      exact htwo
    have hindex : (logOf [one, two]).entryIndex.index.sortables =
        [one.toSortableEntry, two.toSortableEntry] := by decide
    have hentries : deletedEntries (logOf [one, two]).entryIndex.index
        [two.toSortableEntry] = [one.toSortableEntry, two.toSortableEntry] := by
      have hgiven : [two.toSortableEntry].filter (fun x =>
          decide (x ∉ (logOf [one, two]).entryIndex.index.sortables)) = [] := by decide
      rw [deletedEntries, hgiven, List.nil_append, hindex]
      refine List.filter_eq_self.mpr ?_
      intro x hx
      rcases List.mem_pair.mp hx with rfl | rfl
      · simpa using hone
      · simpa using htwo
    intro x hx hdeleted
    clear hdeleted
    rw [hindex] at hx
    rw [ways, hentries]
    revert x
    decide

end Diamond

end Log
end Peerbit
