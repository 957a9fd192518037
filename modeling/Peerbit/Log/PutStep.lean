import Peerbit.Log.LogCalls
import Peerbit.Log.OperationRule

/-!
# Storing an entry

`append` and `joinRecursively` store an entry, prepare the deletions of what it
cuts off, trim the log, tell the application, and run the deletions.  What the
application is told about is everything that leaves the log in this step.
-/

namespace Peerbit
namespace Log

/-! ### Reads -/

/-- The second index comes from the first by reading entries. -/
inductive Reads {α : Type} : EntryIndex α → EntryIndex α → Prop
  | refl {s : EntryIndex α} : Reads s s
  | get {s t : EntryIndex α} (h : Reads s t) (k : Hash) : Reads s (t.get k).2

section Steps

variable {α σ : Type} {U : Entry α → Prop}

namespace Reads

variable {s t u : EntryIndex α}

theorem trans (h : Reads s t) (h' : Reads t u) : Reads s u := by
  induction h' with
  | refl => exact h
  | get _ k ih => exact ih.get k

theorem one (s : EntryIndex α) (k : Hash) : Reads s (s.get k).2 :=
  Reads.refl.get k

/-- Reads change the cache only. -/
theorem eq_cache (h : Reads s t) : t = { s with cache := t.cache } := by
  induction h with
  | refl => rfl
  | @get t h k ih =>
      have hget := EntryIndex.get_snd t k
      rw [hget]
      simp only
      rw [ih]

theorem index_eq (h : Reads s t) : t.index = s.index := by
  rw [h.eq_cache]

theorem calls_eq (h : Reads s t) : t.calls = s.calls := by
  rw [h.eq_cache]

theorem resolveInv (h : Reads s t) (hinv : ResolveInv U s) :
    ResolveInv U t := by
  induction h with
  | refl => exact hinv
  | get _ k ih => exact ih.get k

theorem getOrThrow (h : Reads s t) (k : Hash) :
    Reads s (t.getOrThrow k).2 := by
  unfold EntryIndex.getOrThrow
  split
  · exact h
  · exact h.get k

end Reads

/-! ### Preparing deletions -/

/-- The entry was put into the index at some time. -/
def EntryIndex.HasPut (s : EntryIndex α) (e : Entry α) : Prop :=
  ∃ isHead, IndexCall.put e isHead ∈ s.calls

theorem EntryIndex.hasPut_delete (s : EntryIndex α) (k : Hash)
    (from_ : Option SortableEntry) (e : Entry α) :
    (s.delete k from_).HasPut e ↔ s.HasPut e := by
  unfold HasPut EntryIndex.delete
  simp only
  split
  · exact Iff.rfl
  · constructor
    · rintro ⟨b, hb⟩
      rcases List.mem_append.mp hb with hb | hb
      · exact ⟨b, hb⟩
      · cases List.mem_singleton.mp hb
    · rintro ⟨b, hb⟩
      exact ⟨b, List.mem_append_left _ hb⟩

theorem Reads.hasPut_iff {s t : EntryIndex α} (h : Reads s t) (e : Entry α) :
    t.HasPut e ↔ s.HasPut e := by
  unfold EntryIndex.HasPut
  rw [h.calls_eq]

/-! ### What leaves the log -/

/-- From one index to the next some entries left, all of them with a hash of
the list. -/
structure Leaves (U : Entry α → Prop) (s t : EntryIndex α)
    (left : List Hash) : Prop where
  inv : ResolveInv U t
  stored : ∀ k, t.index.Stored k ↔ s.index.Stored k ∧ k ∉ left
  hasPut : ∀ e, t.HasPut e ↔ s.HasPut e

theorem Leaves.of_reads {s t : EntryIndex α} (h : Reads s t)
    (hinv : ResolveInv U s) : Leaves U s t [] where
  inv := h.resolveInv hinv
  stored k := by
    rw [h.index_eq]
    simp
  hasPut e := h.hasPut_iff e

theorem Leaves.trans {s t u : EntryIndex α} {left left' : List Hash}
    (h : Leaves U s t left) (h' : Leaves U t u left') :
    Leaves U s u (left ++ left') where
  inv := h'.inv
  stored k := by
    rw [h'.stored, h.stored, List.mem_append, not_or, and_assoc]
  hasPut e := (h'.hasPut e).trans (h.hasPut e)

theorem leaves_delete {s : EntryIndex α} (hinv : ResolveInv U s) (k : Hash)
    (from_ : Option SortableEntry) :
    Leaves U s (s.delete k from_) [k] where
  inv := hinv.delete k from_
  stored j := by
    rw [List.mem_singleton]
    have hwith : ∀ from_ : SortableEntry,
        (s.index.deleteEntry k from_).Stored j ↔ s.index.Stored j ∧ j ≠ k :=
      fun from_ => HeadsIndex.stored_deleteEntry hinv.keyed
    unfold EntryIndex.delete
    simp only
    split
    · -- nothing is stored under the hash
      rename_i hnone
      have hmissing : ¬ s.index.Stored k := by
        rw [HeadsIndex.stored_iff_get]
        intro hsome
        obtain ⟨x, hx⟩ := Option.isSome_iff_exists.mp hsome
        simp [EntryIndex.getShallow, hx] at hnone
      constructor
      · intro hj
        refine ⟨hj, ?_⟩
        rintro rfl
        exact hmissing hj
      · exact fun h => h.1
    · exact hwith _
  hasPut e := EntryIndex.hasPut_delete s k from_ e

/-- A trimmed node is resolved before it is deleted. -/
theorem leaves_deleteNode {s : EntryIndex α} (hinv : ResolveInv U s)
    (node : ShallowEntry) :
    Leaves U s (deleteNode s node).2 [node.hash] ∧
      (∀ v, (deleteNode s node).1 = some v → U v ∧ v.hash = node.hash) ∧
      (s.index.Stored node.hash → ∃ v, (deleteNode s node).1 = some v) := by
  obtain ⟨hfound, hsome⟩ := hinv.get_fst node.hash
  refine ⟨?_, hfound, hsome⟩
  have hdelete := (Leaves.of_reads (Reads.one s node.hash) hinv).trans
    (leaves_delete (hinv.get node.hash) node.hash none)
  rw [List.nil_append] at hdelete
  have hmissing :
      ¬ ((s.get node.hash).2.delete node.hash none).index.Stored node.hash := by
    rw [hdelete.stored]
    simp
  exact
    { inv := hdelete.inv.rmBlock hmissing, stored := hdelete.stored
      hasPut := hdelete.hasPut }

/-- What a trim did to the entries so far. -/
structure Trimmed (U : Entry α → Prop) (s t : EntryIndex α)
    (deleted : List (Entry α)) : Prop where
  inv : ResolveInv U t
  sub : ∀ k, t.index.Stored k → s.index.Stored k
  listed : ∀ k, s.index.Stored k →
    t.index.Stored k ∨ ∃ e ∈ deleted, e.hash = k
  gone : ∀ e ∈ deleted, U e ∧ ¬ t.index.Stored e.hash
  hasPut : ∀ e, t.HasPut e ↔ s.HasPut e

theorem Trimmed.refl {s : EntryIndex α} (hinv : ResolveInv U s) :
    Trimmed U s s [] where
  inv := hinv
  sub _ h := h
  listed _ h := Or.inl h
  gone := by simp
  hasPut _ := Iff.rfl

theorem Trimmed.visit {s : EntryIndex α} {l : TrimLoop α}
    (h : Trimmed U s l.entryIndex l.deleted)
    (env : TrimEnv) (option : TrimOptions) (node : ShallowEntry) :
    Trimmed U s (trimVisit env option l node).entryIndex
      (trimVisit env option l node).deleted := by
  unfold trimVisit
  simp only
  split
  · obtain ⟨hleaves, hfound, hsome⟩ := leaves_deleteNode h.inv node
    refine
      { inv := hleaves.inv
        sub := fun k hk => h.sub k ((hleaves.stored k).mp hk).1
        listed := ?_, gone := ?_
        hasPut := fun e => (hleaves.hasPut e).trans (h.hasPut e) }
    · intro k hk
      rcases h.listed k hk with hstored | ⟨e, he, hhash⟩
      · by_cases hnode : k = node.hash
        · obtain ⟨v, hv⟩ := hsome (hnode ▸ hstored)
          refine Or.inr ⟨v, List.mem_append_right _ ?_, ?_⟩
          · simp [hv]
          · rw [hnode, (hfound v hv).2]
        · refine Or.inl ((hleaves.stored k).mpr ⟨hstored, ?_⟩)
          simpa using hnode
      · exact Or.inr ⟨e, List.mem_append_left _ he, hhash⟩
    · intro e he
      rcases List.mem_append.mp he with he | he
      · refine ⟨(h.gone e he).1, fun hstored => (h.gone e he).2 ?_⟩
        exact ((hleaves.stored _).mp hstored).1
      · obtain ⟨hU, hhash⟩ := hfound e (Option.mem_toList.mp he)
        refine ⟨hU, ?_⟩
        rw [hhash, hleaves.stored]
        simp
  · exact h

theorem Trimmed.loop
    {env : TrimEnv} {option : TrimOptions}
    {startNode tail : Option ShallowEntry} {turns : Bool} {fuel : Nat}
    {s : EntryIndex α} {l : TrimLoop α}
    (h : Trimmed U s l.entryIndex l.deleted) :
    Trimmed U s (trimLoop env option startNode tail turns fuel l).entryIndex
      (trimLoop env option startNode tail turns fuel l).deleted := by
  induction fuel generalizing l with
  | zero => exact h
  | succ fuel ih =>
      unfold trimLoop
      split
      · exact h
      · rename_i node _
        have hvisit := h.visit env option node
        split
        · simp only
          split
          · split
            · exact ih hvisit
            · exact hvisit
          · exact ih hvisit
        · exact h

end Steps

end Log
end Peerbit
