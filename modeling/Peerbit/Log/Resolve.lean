import Peerbit.Log.Log

/-!
# Resolving entries

The entry index reads an entry from its cache or from the blocks.  What it finds
for a stored hash is the entry with this hash: entries are addressed by their
content, the blocks hold every stored entry, and the cache does not say of a
stored entry that it is missing.
-/

namespace Peerbit
namespace Log

namespace HeadsIndex

/-- An entry with the hash is stored. -/
def Stored (index : HeadsIndex) (k : Hash) : Prop :=
  ∃ x ∈ index.sortables, x.hash = k

theorem stored_iff_get {index : HeadsIndex} {k : Hash} :
    index.Stored k ↔ (index.get k).isSome = true := by
  rw [isSome_get_iff]
  constructor
  · rintro ⟨x, hx, hhash⟩
    obtain ⟨e, he, rfl⟩ := mem_sortables.mp hx
    exact ⟨e, he, hhash⟩
  · rintro ⟨e, he, hhash⟩
    exact ⟨_, mem_sortables.mpr ⟨e, he, rfl⟩, hhash⟩

theorem stored_of_mem {index : HeadsIndex} {e : ShallowEntry} (he : e ∈ index) :
    index.Stored e.hash :=
  ⟨_, mem_sortables.mpr ⟨e, he, rfl⟩, rfl⟩

theorem stored_deleteEntry
    {index : HeadsIndex} (hkeyed : index.Keyed) {k j : Hash}
    {from_ : SortableEntry} :
    (index.deleteEntry k from_).Stored j ↔ index.Stored j ∧ j ≠ k := by
  constructor
  · rintro ⟨x, hx, rfl⟩
    obtain ⟨hx, hne⟩ := (mem_sortables_deleteEntry hkeyed).mp hx
    exact ⟨⟨x, hx, rfl⟩, hne⟩
  · rintro ⟨⟨x, hx, rfl⟩, hne⟩
    exact ⟨x, (mem_sortables_deleteEntry hkeyed).mpr ⟨hx, hne⟩, rfl⟩

theorem stored_putEntry
    {α : Type} {index : HeadsIndex} (hkeyed : index.Keyed) {entry : Entry α}
    {isHead : Bool} {j : Hash} :
    (index.putEntry entry isHead).Stored j ↔
      j = entry.hash ∨ index.Stored j := by
  constructor
  · rintro ⟨x, hx, rfl⟩
    rcases (mem_sortables_putEntry hkeyed).mp hx with rfl | ⟨hx, _⟩
    · exact Or.inl rfl
    · exact Or.inr ⟨x, hx, rfl⟩
  · rintro (rfl | ⟨x, hx, rfl⟩)
    · exact ⟨_, (mem_sortables_putEntry hkeyed).mpr (Or.inl rfl), rfl⟩
    · by_cases hhash : x.hash = entry.hash
      · exact ⟨_, (mem_sortables_putEntry hkeyed).mpr (Or.inl rfl), hhash.symm⟩
      · exact ⟨x, (mem_sortables_putEntry hkeyed).mpr (Or.inr ⟨hx, hhash⟩), rfl⟩

end HeadsIndex

section Resolve

variable {α : Type} {U : Entry α → Prop} {s : EntryIndex α}

theorem mem_of_getBlock {k : Hash} {v : Entry α} (h : s.getBlock k = some v) :
    v ∈ s.store ∧ v.hash = k :=
  ⟨List.mem_of_find?_eq_some h, by simpa using List.find?_some h⟩

theorem getBlock_isSome {k : Hash} :
    (s.getBlock k).isSome = true ↔ ∃ v ∈ s.store, v.hash = k := by
  simp [EntryIndex.getBlock]

theorem mem_store_putBlock {e v : Entry α} (hv : v ∈ s.store) :
    v ∈ (s.putBlock e).store := by
  unfold EntryIndex.putBlock
  split
  · exact hv
  · exact List.mem_append_left _ hv

theorem of_mem_store_putBlock {e v : Entry α} (hv : v ∈ (s.putBlock e).store) :
    v ∈ s.store ∨ v = e := by
  unfold EntryIndex.putBlock at hv
  split at hv
  · exact Or.inl hv
  · exact (List.mem_append.mp hv).imp id List.mem_singleton.mp

/-- A block with the hash of the entry is there after it was put. -/
theorem exists_mem_store_putBlock (e : Entry α) :
    ∃ v ∈ (s.putBlock e).store, v.hash = e.hash := by
  by_cases hsome : (s.getBlock e.hash).isSome = true
  · obtain ⟨v, hv, hhash⟩ := getBlock_isSome.mp hsome
    exact ⟨v, mem_store_putBlock hv, hhash⟩
  · refine ⟨e, ?_, rfl⟩
    unfold EntryIndex.putBlock
    rw [if_neg hsome]
    simp

/-- What reads and writes of the entry index keep, when all entries are of some
kind. -/
structure ResolveInv (U : Entry α → Prop) (s : EntryIndex α) : Prop where
  keyed : s.index.Keyed
  ready : s.cache.Ready
  sub : ∀ x ∈ s.index.sortables, ∃ e, U e ∧ e.toSortableEntry = x
  cached : ∀ k v, s.cache.live k = some (some v) → U v ∧ v.hash = k
  blocks : ∀ v ∈ s.store, U v
  resolvable : ∀ k, s.index.Stored k →
    s.cache.live k ≠ some none ∧ ∃ v ∈ s.store, v.hash = k

theorem ResolveInv.of_index_eq_nil
    (hindex : s.index = [])
    (hcache : s.cache = Utils.Cache.empty ENTRY_CACHE_MAX_SIZE none)
    (hblocks : ∀ v ∈ s.store, U v) :
    ResolveInv U s := by
  have hnone : ∀ k, ¬ s.index.Stored k := by
    rintro k ⟨x, hx, _⟩
    rw [hindex] at hx
    cases hx
  refine
    { keyed := ?_, ready := ?_, sub := ?_, cached := ?_, blocks := hblocks
      resolvable := fun k hk => absurd hk (hnone k) }
  · rw [hindex]
    exact List.nodup_nil
  · rw [hcache]
    exact Utils.Cache.ready_empty _
  · intro x hx
    rw [hindex] at hx
    cases hx
  · intro k v hlive
    rw [hcache] at hlive
    cases hlive

namespace ResolveInv

theorem cached_eq (h : ResolveInv U s) (k : Hash) :
    s.cached k = s.cache.live k := by
  unfold EntryIndex.cached
  rw [h.ready.get_eq]

theorem not_stored_of_has
    {k : Hash} (hhas : s.has k = false) : ¬ s.index.Stored k := by
  intro hstored
  unfold EntryIndex.has at hhas
  split at hhas
  · cases hhas
  · rw [HeadsIndex.stored_iff_get.mp hstored] at hhas
    cases hhas

theorem has_of_stored {k : Hash} (hstored : s.index.Stored k) :
    s.has k = true := by
  unfold EntryIndex.has
  split
  · rfl
  · exact HeadsIndex.stored_iff_get.mp hstored

theorem block (h : ResolveInv U s) {k : Hash} {v : Entry α}
    (hv : s.getBlock k = some v) :
    U v ∧ v.hash = k :=
  ⟨h.blocks v (mem_of_getBlock hv).1, (mem_of_getBlock hv).2⟩

theorem getBlock_of_stored
    (h : ResolveInv U s) {k : Hash} (hstored : s.index.Stored k) :
    ∃ v, s.getBlock k = some v :=
  Option.isSome_iff_exists.mp (getBlock_isSome.mpr (h.resolvable k hstored).2)

/-- What `get` finds: an entry with the hash, if it is stored. -/
theorem get_fst (h : ResolveInv U s) (k : Hash) :
    (∀ v, (s.get k).1 = some v → U v ∧ v.hash = k) ∧
      (s.index.Stored k → ∃ v, (s.get k).1 = some v) := by
  unfold EntryIndex.get
  rw [h.cached_eq]
  split
  · rename_i mem hmem
    refine ⟨?_, ?_⟩
    · rintro v rfl
      exact h.cached k v hmem
    · intro hstored
      cases mem with
      | none => exact absurd hmem (h.resolvable k hstored).1
      | some v => exact ⟨v, rfl⟩
  · exact ⟨fun v hv => h.block hv, fun hstored => h.getBlock_of_stored hstored⟩

/-- What is cached after a read was cached before, or is the block. -/
theorem live_get
    (h : ResolveInv U s) {k j : Hash} {found : Option (Entry α)}
    (hlive : (s.get k).2.cache.live j = some found) :
    s.cache.live j = some found ∨ j = k ∧ found = s.getBlock k := by
  unfold EntryIndex.get at hlive
  rw [h.cached_eq] at hlive
  split at hlive
  · exact Or.inl hlive
  · rcases h.ready.live_add (by decide) hlive with ⟨rfl, hv⟩ | ⟨_, hold⟩
    · exact Or.inr ⟨rfl, hv⟩
    · exact Or.inl hold

theorem get_ready (h : ResolveInv U s) (k : Hash) :
    (s.get k).2.cache.Ready := by
  unfold EntryIndex.get
  split
  · exact h.ready
  · exact h.ready.add 0 k _ (by decide)

end ResolveInv

@[simp] theorem EntryIndex.get_store (s : EntryIndex α) (k : Hash) :
    (s.get k).2.store = s.store := by
  unfold EntryIndex.get
  split <;> rfl

/-- Reading changes the cache only. -/
theorem EntryIndex.get_snd (s : EntryIndex α) (k : Hash) :
    (s.get k).2 = { s with cache := (s.get k).2.cache } := by
  unfold EntryIndex.get
  split <;> rfl

namespace ResolveInv

theorem get (h : ResolveInv U s) (k : Hash) : ResolveInv U (s.get k).2 := by
  refine
    { keyed := ?_, ready := h.get_ready k, sub := ?_, cached := ?_, blocks := ?_
      resolvable := ?_ }
  · rw [EntryIndex.get_index]
    exact h.keyed
  · rw [EntryIndex.get_index]
    exact h.sub
  · intro j v hlive
    rcases h.live_get hlive with hold | ⟨rfl, hv⟩
    · exact h.cached j v hold
    · exact h.block hv.symm
  · rw [EntryIndex.get_store]
    exact h.blocks
  · intro j hstored
    rw [EntryIndex.get_index] at hstored
    rw [EntryIndex.get_store]
    refine ⟨?_, (h.resolvable j hstored).2⟩
    intro hlive
    rcases h.live_get hlive with hold | ⟨rfl, hv⟩
    · exact (h.resolvable j hstored).1 hold
    · obtain ⟨v, hv'⟩ := h.getBlock_of_stored hstored
      rw [hv'] at hv
      cases hv

/-- A stored entry is found where a missing one is an error. -/
theorem getOrThrow
    (h : ResolveInv U s) {k : Hash} (hstored : s.index.Stored k) :
    s.getOrThrow k = (.ok (s.get k).1, (s.get k).2) := by
  unfold EntryIndex.getOrThrow
  rw [if_neg]
  rintro ⟨_, hnone⟩
  obtain ⟨v, hv⟩ := h.getBlock_of_stored hstored
  rw [hv] at hnone
  cases hnone

theorem putBlock (h : ResolveInv U s) {e : Entry α} (he : U e) :
    ResolveInv U (s.putBlock e) := by
  have hcache : (s.putBlock e).cache = s.cache := by
    unfold EntryIndex.putBlock
    split <;> rfl
  refine
    { keyed := ?_, ready := ?_, sub := ?_, cached := ?_, blocks := ?_
      resolvable := ?_ }
  · rw [EntryIndex.putBlock_index]
    exact h.keyed
  · rw [hcache]
    exact h.ready
  · rw [EntryIndex.putBlock_index]
    exact h.sub
  · rw [hcache]
    exact h.cached
  · intro v hv
    rcases of_mem_store_putBlock hv with hv | rfl
    · exact h.blocks v hv
    · exact he
  · intro k hstored
    rw [EntryIndex.putBlock_index] at hstored
    rw [hcache]
    obtain ⟨hlive, v, hv, hhash⟩ := h.resolvable k hstored
    exact ⟨hlive, v, mem_store_putBlock hv, hhash⟩

/-- What is cached after an entry was stored is the entry, or was cached
before. -/
theorem live_put
    (h : ResolveInv U s) {e : Entry α} {unique isHead toMultiHash : Bool}
    {k : Hash} {found : Option (Entry α)}
    (hlive : (s.put e unique isHead toMultiHash).cache.live k = some found) :
    (k = e.hash ∧ found = some e) ∨
      (k ≠ e.hash ∧ s.cache.live k = some found) := by
  have hcache : (s.put e unique isHead toMultiHash).cache =
      s.cache.add 0 e.hash (some e) 1 := by
    simp only [EntryIndex.put]
    split
    · unfold EntryIndex.putBlock
      split <;> rfl
    · rfl
  rw [hcache] at hlive
  exact h.ready.live_add (by decide) hlive

/-- Storing an entry, with its block or after its block. -/
theorem put
    (h : ResolveInv U s) {e : Entry α} (he : U e)
    {unique isHead toMultiHash : Bool}
    (hblock : toMultiHash = true ∨ ∃ v ∈ s.store, v.hash = e.hash) :
    ResolveInv U (s.put e unique isHead toMultiHash) := by
  have hstore : (s.put e unique isHead toMultiHash).store =
      (if toMultiHash then s.putBlock e else s).store := rfl
  refine
    { keyed := ?_, ready := ?_, sub := ?_, cached := ?_, blocks := ?_
      resolvable := ?_ }
  · rw [EntryIndex.put_index]
    exact h.keyed.putEntry _ _
  · have hready : (if toMultiHash then s.putBlock e else s).cache.Ready := by
      split
      · exact (h.putBlock he).ready
      · exact h.ready
    exact hready.add 0 _ _ (by decide)
  · intro x hx
    rw [EntryIndex.put_index] at hx
    rcases (HeadsIndex.mem_sortables_putEntry h.keyed).mp hx with rfl | ⟨hx, _⟩
    · exact ⟨e, he, rfl⟩
    · exact h.sub x hx
  · intro k v hlive
    rcases h.live_put hlive with ⟨rfl, hv⟩ | ⟨_, hold⟩
    · obtain rfl := Option.some.inj hv
      exact ⟨he, rfl⟩
    · exact h.cached k v hold
  · intro v hv
    rw [hstore] at hv
    split at hv
    · exact (h.putBlock he).blocks v hv
    · exact h.blocks v hv
  · intro k hk
    rw [EntryIndex.put_index, HeadsIndex.stored_putEntry h.keyed] at hk
    have hkeep : ∀ v ∈ s.store,
        v ∈ (s.put e unique isHead toMultiHash).store := by
      intro v hv
      rw [hstore]
      split
      · exact mem_store_putBlock hv
      · exact hv
    refine ⟨?_, ?_⟩
    · intro hlive
      rcases h.live_put hlive with ⟨_, hv⟩ | ⟨hne, hold⟩
      · cases hv
      · exact (h.resolvable k (hk.resolve_left hne)).1 hold
    · rcases hk with rfl | hk
      · rcases hblock with hmulti | ⟨v, hv, hhash⟩
        · rw [hstore, if_pos hmulti]
          exact exists_mem_store_putBlock e
        · exact ⟨v, hkeep v hv, hhash⟩
      · obtain ⟨v, hv, hhash⟩ := (h.resolvable k hk).2
        exact ⟨v, hkeep v hv, hhash⟩

theorem rmBlock (h : ResolveInv U s) {k : Hash} (hk : ¬ s.index.Stored k) :
    ResolveInv U (s.rmBlock k) :=
  { h with
    blocks := fun v hv => h.blocks v (List.mem_of_mem_filter hv)
    resolvable := fun j hj => by
      obtain ⟨hlive, v, hv, hhash⟩ := h.resolvable j hj
      refine ⟨hlive, v, List.mem_filter.mpr ⟨hv, ?_⟩, hhash⟩
      have hne : v.hash ≠ k := by
        rintro rfl
        exact hk (hhash ▸ hj)
      simpa using hne }

theorem delCache (h : ResolveInv U s) (k : Hash) :
    ResolveInv U { s with cache := s.cache.del k } :=
  { h with
    ready := h.ready.del k
    cached := fun j v hlive => h.cached j v (h.ready.live_del hlive).2
    resolvable := fun j hj =>
      ⟨fun hlive => (h.resolvable j hj).1 (h.ready.live_del hlive).2,
        (h.resolvable j hj).2⟩ }

theorem delete (h : ResolveInv U s) (k : Hash) (from_ : Option SortableEntry) :
    ResolveInv U (s.delete k from_) := by
  have hcache := h.delCache k
  unfold EntryIndex.delete
  simp only
  split
  · exact hcache
  · rename_i from_ _
    have hstored : ∀ j, (s.index.deleteEntry k from_).Stored j ↔
        s.index.Stored j ∧ j ≠ k := fun j =>
      HeadsIndex.stored_deleteEntry h.keyed
    refine
      { keyed := h.keyed.deleteEntry _ _, ready := hcache.ready, sub := ?_
        cached := hcache.cached
        blocks := fun v hv => h.blocks v (List.mem_of_mem_filter hv)
        resolvable := ?_ }
    · intro x hx
      exact h.sub x ((HeadsIndex.mem_sortables_deleteEntry h.keyed).mp hx).1
    · intro j hj
      obtain ⟨hj, hne⟩ := (hstored j).mp hj
      obtain ⟨hlive, v, hv, hhash⟩ := hcache.resolvable j hj
      refine ⟨hlive, v, List.mem_filter.mpr ⟨hv, ?_⟩, hhash⟩
      simpa [hhash] using hne

end ResolveInv

end Resolve

end Log
end Peerbit
