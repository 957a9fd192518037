import Peerbit.Lib.Machines
import Peerbit.Log.Resolve

/-!
# The length of the entry index

The entry index counts its entries itself, and answers `has` from its cache first.
Both rely on the cache: what is cached has to be in the index.

Reading breaks this.  An entry that is in the blocks only is cached when it is read.
From then on `has` says that it is there, and when it is put later it is not counted.
A `clear` breaks the length too, when the index does not hand out all its entries while
they are deleted.  Without such steps both answers are right
(`indexAgrees_of_cleanRun`).
-/

namespace Peerbit
namespace Log

section Sortables

variable {index : HeadsIndex}

theorem length_sortables (index : HeadsIndex) : index.sortables.length = index.length :=
  List.length_map _

theorem HeadsIndex.Keyed.nodup_sortables (hkeyed : index.Keyed) :
    index.sortables.Nodup := by
  refine List.Nodup.of_map SortableEntry.hash ?_
  rw [HeadsIndex.sortables, List.map_map]
  exact hkeyed

theorem HeadsIndex.Keyed.sortables_inj (hkeyed : index.Keyed) {x y : SortableEntry}
    (hx : x ∈ index.sortables) (hy : y ∈ index.sortables) (hhash : x.hash = y.hash) :
    x = y := by
  obtain ⟨e, he, rfl⟩ := HeadsIndex.mem_sortables.mp hx
  obtain ⟨f, hf, rfl⟩ := HeadsIndex.mem_sortables.mp hy
  rw [hkeyed.eq_of_hash he hf hhash]

theorem filter_sortables_of_not_stored {k : Hash} (hnot : ¬ index.Stored k) :
    index.sortables.filter (fun x => decide (x.hash ≠ k)) = index.sortables := by
  refine List.filter_eq_self.mpr ?_
  intro x hx
  rw [decide_eq_true_eq]
  rintro rfl
  exact hnot ⟨x, hx, rfl⟩

theorem sortables_deleteEntry (hkeyed : index.Keyed) (k : Hash) (from_ : SortableEntry) :
    (index.deleteEntry k from_).sortables =
      index.sortables.filter (fun x => decide (x.hash ≠ k)) := by
  have hdel : (index.del k).sortables =
      index.sortables.filter (fun x => decide (x.hash ≠ k)) := by
    simp only [HeadsIndex.sortables, HeadsIndex.del, List.filter_map]
    rfl
  unfold HeadsIndex.deleteEntry
  split
  · rw [(HeadsIndex.privateUpdateNextHeadProperty_spec (hkeyed.del k) _ _).2, hdel]
  · rename_i hnone
    rw [filter_sortables_of_not_stored]
    rw [HeadsIndex.stored_iff_get]
    exact hnone

/-- Deleting takes as many entries off the index as have the hash. -/
theorem length_deleteEntry (hkeyed : index.Keyed) (k : Hash) (from_ : SortableEntry) :
    (index.deleteEntry k from_).length + (index.filter (fun e => e.hash = k)).length =
      index.length := by
  have hmatching : (index.filter (fun e => e.hash = k)).length =
      (index.sortables.filter (fun x => !decide (x.hash ≠ k))).length := by
    rw [HeadsIndex.sortables, List.filter_map, List.length_map]
    refine congrArg List.length (List.filter_congr ?_)
    intro e _
    simp
  rw [← length_sortables, sortables_deleteEntry hkeyed, hmatching,
    ← List.length_eq_length_filter_add, length_sortables]

/-- Putting adds one entry where none has the hash. -/
theorem length_putEntry {α : Type} (hkeyed : index.Keyed) (entry : Entry α)
    (isHead : Bool) :
    (index.putEntry entry isHead).length =
      if (index.get entry.hash).isSome then index.length else index.length + 1 := by
  unfold HeadsIndex.putEntry
  rw [← length_sortables,
    (HeadsIndex.privateUpdateNextHeadProperty_spec (hkeyed.put _) _ _).2, length_sortables]
  unfold HeadsIndex.put
  change (if (index.get entry.hash).isSome then _ else _ : HeadsIndex).length = _
  split
  · exact List.length_map _
  · exact List.length_append

end Sortables

section Counted

variable {α : Type} {s t : EntryIndex α}

/-- A log with an index of different hashes, of which it knows the number. -/
structure Counted (s : EntryIndex α) : Prop where
  keyed : s.index.Keyed
  length : s.length = s.index.length

theorem Counted.congr (hs : Counted s) (hindex : t.index = s.index)
    (hlength : t.length = s.length) : Counted t := by
  obtain ⟨hkeyed, hcount⟩ := hs
  exact ⟨by rwa [hindex], by rwa [hlength, hindex]⟩

theorem Counted.get (hs : Counted s) (k : Hash) : Counted (s.get k).2 :=
  hs.congr (EntryIndex.get_index s k) (by rw [EntryIndex.get_snd])

theorem Counted.sortables_delete (hs : Counted s) (k : Hash)
    (from_ : Option SortableEntry) :
    (s.delete k from_).index.sortables =
      s.index.sortables.filter (fun x => decide (x.hash ≠ k)) := by
  unfold EntryIndex.delete
  dsimp only
  split
  · rename_i hnone
    have hnot : ¬ s.index.Stored k := by
      rw [HeadsIndex.stored_iff_get]
      have hget := (Option.or_eq_none_iff.mp hnone).2
      rw [Option.map_eq_none_iff] at hget
      intro hsome
      have hget : s.index.get k = none := hget
      rw [hget] at hsome
      cases hsome
    exact (filter_sortables_of_not_stored hnot).symm
  · exact sortables_deleteEntry hs.keyed k _

theorem Counted.delete (hs : Counted s) (k : Hash) (from_ : Option SortableEntry) :
    Counted (s.delete k from_) := by
  unfold EntryIndex.delete
  dsimp only
  split
  · exact hs.congr rfl rfl
  · rename_i f _
    refine ⟨hs.keyed.deleteEntry k f, ?_⟩
    have hlength := length_deleteEntry hs.keyed k f
    change s.length - ((s.index.filter (fun e => e.hash = k)).length : Int) =
      (s.index.deleteEntry k f).length
    rw [hs.length]
    omega

end Counted

/-! ### Sequences of calls -/

/-- `clear`.  The index decides which entries its iterator still hands out while they
are deleted: a hashmap index collects all of them first, a sqlite index asks for each
page of a hundred at its offset. -/
def EntryIndex.clear {α : Type} (s : EntryIndex α) (found : List Hash) : EntryIndex α :=
  let s := found.foldl (fun s k => s.delete k none) s
  { s with index := [], cache := Utils.Cache.empty ENTRY_CACHE_MAX_SIZE none }

/-- The calls of the entry index, and blocks that are stored by others. -/
inductive EntryIndexAction (α : Type) where
  | put (entry : Entry α) (unique isHead toMultiHash : Bool)
  | delete (k : Hash) (from_ : Option SortableEntry)
  | clear (found : List Hash)
  | get (k : Hash) (ignoreMissing : Bool)
  | storeBlock (entry : Entry α)

section Machine

variable {α : Type}

/-- `delete`, with a `from` of another hash as the error that it is. -/
def EntryIndex.deleteChecked (s : EntryIndex α) (k : Hash)
    (from_ : Option SortableEntry) : EntryIndex α :=
  if from_.any (fun f => decide (f.hash ≠ k)) then { s with cache := s.cache.del k }
  else s.delete k from_

/-- An entry is only put as `unique` if the index does not have it. -/
def entryIndexStep (s : EntryIndex α) : EntryIndexAction α → Option (EntryIndex α)
  | .put entry unique isHead toMultiHash =>
      if unique = true ∧ (s.index.get entry.hash).isSome then none
      else some (s.put entry unique isHead toMultiHash)
  | .delete k from_ => some (s.deleteChecked k from_)
  | .clear found => some (s.clear found)
  | .get k ignoreMissing =>
      some (if ignoreMissing then (s.get k).2 else (s.getOrThrow k).2)
  | .storeBlock entry => some (s.putBlock entry)

/-- The entry index of a log that is opened with what an index and the blocks hold. -/
def EntryIndex.opened (index : HeadsIndex) (store : List (Entry α)) : EntryIndex α where
  index := index
  cache := Utils.Cache.empty ENTRY_CACHE_MAX_SIZE none
  store := store
  length := index.length
  calls := []

def entryIndexMachine (index : HeadsIndex) (store : List (Entry α)) :
    Lib.Machine (EntryIndex α) (EntryIndexAction α) where
  init := .opened index store
  step := entryIndexStep

/-- The length is the number of entries, and `has` says what is in the index. -/
structure IndexAgrees (s : EntryIndex α) : Prop where
  length : s.length = s.index.length
  has : ∀ k, s.has k = true ↔ s.index.Stored k

/-- A step that reads no entry which is in the blocks only, and clears all entries. -/
def KeepsIndex (s : EntryIndex α) : EntryIndexAction α → Prop
  | .get k _ => s.cached k = none → (s.getBlock k).isSome → s.index.Stored k
  | .clear found => ∀ k, s.index.Stored k → k ∈ found
  | _ => True

/-- What is cached is in the index. -/
structure IndexInvariant (s : EntryIndex α) : Prop extends Counted s where
  ready : s.cache.Ready
  cached : ∀ k v, s.cache.live k = some (some v) → s.index.Stored k

end Machine

section Runs

variable {α : Type} {s t : EntryIndex α} {index : HeadsIndex} {store : List (Entry α)}

theorem IndexInvariant.agrees (hs : IndexInvariant s) : IndexAgrees s := by
  refine ⟨hs.length, ?_⟩
  intro k
  refine ⟨?_, ResolveInv.has_of_stored⟩
  intro hhas
  unfold EntryIndex.has EntryIndex.cached at hhas
  rw [hs.ready.get_eq] at hhas
  split at hhas
  · rename_i v hlive
    exact hs.cached k v hlive
  · exact HeadsIndex.stored_iff_get.mpr hhas

theorem IndexInvariant.opened (hkeyed : index.Keyed) (store : List (Entry α)) :
    IndexInvariant (.opened index store) where
  keyed := hkeyed
  length := rfl
  ready := Utils.Cache.ready_empty _
  cached _ _ hlive := nomatch hlive

/-- The index and the length are the same, and the cache says less. -/
theorem IndexInvariant.of_less (hs : IndexInvariant s) (hindex : t.index = s.index)
    (hlength : t.length = s.length) (hready : t.cache.Ready)
    (hless : ∀ k v, t.cache.live k = some (some v) →
      s.cache.live k = some (some v) ∨ s.index.Stored k) : IndexInvariant t := by
  refine { hs.toCounted.congr hindex hlength with ready := hready, cached := ?_ }
  intro k v hlive
  rw [hindex]
  rcases hless k v hlive with hold | hstored
  · exact hs.cached k v hold
  · exact hstored

theorem IndexInvariant.putBlock (hs : IndexInvariant s) (entry : Entry α) :
    IndexInvariant (s.putBlock entry) := by
  unfold EntryIndex.putBlock
  split
  · exact hs
  · exact hs.of_less rfl rfl hs.ready (fun _ _ hlive => .inl hlive)

theorem IndexInvariant.put (hs : IndexInvariant s) (entry : Entry α)
    {unique : Bool} (isHead toMultiHash : Bool)
    (hunique : unique = true → ¬ s.index.Stored entry.hash) :
    IndexInvariant (s.put entry unique isHead toMultiHash) := by
  have hindex := EntryIndex.put_index s entry unique isHead toMultiHash
  have hblock : IndexInvariant (if toMultiHash then s.putBlock entry else s) := by
    split
    · exact hs.putBlock entry
    · exact hs
  have hsame : (if toMultiHash then s.putBlock entry else s).index = s.index := by
    split
    · exact EntryIndex.putBlock_index s entry
    · rfl
  have hlive : ∀ k v, (s.put entry unique isHead toMultiHash).cache.live k = some (some v) →
      k = entry.hash ∨ (if toMultiHash then s.putBlock entry else s).cache.live k =
        some (some v) := by
    intro k v hlive
    exact (hblock.ready.live_add (by decide) hlive).imp And.left And.right
  refine { keyed := ?_, length := ?_, ready := ?_, cached := ?_ }
  · rw [hindex]
    exact hs.keyed.putEntry entry isHead
  · have hhas := hblock.agrees.has entry.hash
    rw [hsame] at hhas
    have hold : (if toMultiHash then s.putBlock entry else s).length = s.index.length := by
      rw [hblock.length, hsame]
    change (if unique = true ∨
      (if toMultiHash then s.putBlock entry else s).has entry.hash = false then
        (if toMultiHash then s.putBlock entry else s).length + 1
      else (if toMultiHash then s.putBlock entry else s).length) = _
    rw [hold, hindex, length_putEntry hs.keyed]
    by_cases hstored : s.index.Stored entry.hash
    · have hget := HeadsIndex.stored_iff_get.mp hstored
      rw [if_pos hget, if_neg]
      rintro (hu | hfalse)
      · exact hunique hu hstored
      · rw [hhas.mpr hstored] at hfalse
        cases hfalse
    · have hget : ¬ (s.index.get entry.hash).isSome = true :=
        fun h => hstored (HeadsIndex.stored_iff_get.mpr h)
      rw [if_neg hget, if_pos]
      · rfl
      · exact .inr (Bool.eq_false_iff.mpr (fun h => hstored (hhas.mp h)))
  · exact hblock.ready.add 0 _ _ (by decide)
  · intro k v hv
    rw [hindex, HeadsIndex.stored_putEntry hs.keyed]
    rcases hlive k v hv with hk | hold
    · exact .inl hk
    · have hstored := hblock.cached k v hold
      rw [hsame] at hstored
      exact .inr hstored

theorem IndexInvariant.delCache (hs : IndexInvariant s) (k : Hash) :
    IndexInvariant { s with cache := s.cache.del k } :=
  hs.of_less rfl rfl (hs.ready.del k) (fun _ _ hlive => .inl (hs.ready.live_del hlive).2)

theorem IndexInvariant.delete (hs : IndexInvariant s) (k : Hash)
    (from_ : Option SortableEntry) : IndexInvariant (s.delete k from_) := by
  have hcache : (s.delete k from_).cache = s.cache.del k := by
    unfold EntryIndex.delete
    dsimp only
    split <;> rfl
  refine { hs.toCounted.delete k from_ with ready := ?_, cached := ?_ }
  · rw [hcache]
    exact hs.ready.del k
  · intro j v hlive
    rw [hcache] at hlive
    obtain ⟨hne, hold⟩ := hs.ready.live_del hlive
    obtain ⟨x, hx, rfl⟩ := hs.cached j v hold
    refine ⟨x, ?_, rfl⟩
    rw [hs.sortables_delete]
    exact List.mem_filter.mpr ⟨hx, decide_eq_true hne⟩

theorem IndexInvariant.get (hs : IndexInvariant s) {k : Hash}
    (hkeeps : s.cached k = none → (s.getBlock k).isSome → s.index.Stored k) :
    IndexInvariant (s.get k).2 := by
  unfold EntryIndex.get
  split
  · exact hs
  · rename_i hnone
    refine hs.of_less rfl rfl (hs.ready.add 0 k _ (by decide)) ?_
    intro j v hlive
    rcases hs.ready.live_add (by decide) hlive with ⟨rfl, hfound⟩ | ⟨-, hold⟩
    · exact .inr (hkeeps hnone (by rw [← hfound]; rfl))
    · exact .inl hold

/-- Deleting all entries one by one leaves nothing to count. -/
theorem Counted.foldl_delete (hs : Counted s) (found : List Hash) :
    Counted (found.foldl (fun s k => s.delete k none) s) ∧
      (found.foldl (fun s k => s.delete k none) s).index.sortables =
        s.index.sortables.filter (fun x => decide (x.hash ∉ found)) := by
  induction found generalizing s with
  | nil =>
      refine ⟨hs, (List.filter_eq_self.mpr ?_).symm⟩
      simp
  | cons k found ih =>
      obtain ⟨hcounted, hsortables⟩ := ih (hs.delete k none)
      refine ⟨hcounted, ?_⟩
      rw [List.foldl_cons, hsortables, hs.sortables_delete, List.filter_filter]
      refine List.filter_congr ?_
      intro x _
      by_cases hx : x.hash = k
      · simp [hx]
      · simp [hx]

theorem IndexInvariant.clear (hs : IndexInvariant s) {found : List Hash}
    (hall : ∀ k, s.index.Stored k → k ∈ found) : IndexInvariant (s.clear found) := by
  obtain ⟨hcounted, hsortables⟩ := hs.toCounted.foldl_delete found
  have hnone : s.index.sortables.filter (fun x => decide (x.hash ∉ found)) = [] := by
    rw [List.filter_eq_nil_iff]
    intro x hx
    rw [decide_eq_true_eq, not_not]
    exact hall x.hash ⟨x, hx, rfl⟩
  have hlength := hcounted.length
  rw [← length_sortables, hsortables, hnone] at hlength
  exact
    { keyed := List.nodup_nil, length := hlength, ready := Utils.Cache.ready_empty _
      cached := fun _ _ hlive => nomatch hlive }

theorem IndexInvariant.step (hs : IndexInvariant s) {action : EntryIndexAction α}
    (hkeeps : KeepsIndex s action) (hstep : entryIndexStep s action = some t) :
    IndexInvariant t := by
  cases action with
  | put entry unique isHead toMultiHash =>
      obtain ⟨hunique, hput⟩ := Option.ite_none_left_eq_some.mp hstep
      obtain rfl := Option.some.inj hput
      refine hs.put entry isHead toMultiHash ?_
      intro hu hstored
      exact hunique ⟨hu, HeadsIndex.stored_iff_get.mp hstored⟩
  | delete k from_ =>
      obtain rfl := Option.some.inj hstep
      unfold EntryIndex.deleteChecked
      split
      · exact hs.delCache k
      · exact hs.delete k from_
  | clear found =>
      obtain rfl := Option.some.inj hstep
      exact hs.clear hkeeps
  | get k ignoreMissing =>
      obtain rfl := Option.some.inj hstep
      split
      · exact hs.get hkeeps
      · unfold EntryIndex.getOrThrow
        split
        · exact hs
        · exact hs.get hkeeps
  | storeBlock entry =>
      obtain rfl := Option.some.inj hstep
      exact hs.putBlock entry

/-- While no step reads an entry that is in the blocks only, and each `clear` finds all
entries, the length and `has` are right. -/
theorem indexAgrees_of_cleanRun (hkeyed : index.Keyed)
    (hrun : (entryIndexMachine index store).Run KeepsIndex s) : IndexAgrees s :=
  have hinv : IndexInvariant s := hrun.invariant (IndexInvariant.opened hkeyed store)
    (fun _ _ _ hs hkeeps hstep => IndexInvariant.step hs hkeeps hstep)
  hinv.agrees

end Runs

namespace BlockOnly

def entry : Entry String where
  hash := "1"
  «meta» :=
    { clock := { id := "writer", timestamp := { wallTime := 1, logical := 0 } }
      gid := "g"
      next := []
      type := .APPEND }
  payload := "1"
  payloadSize := 1

/-- The entry is read from the blocks before it is put: it is not counted. -/
theorem not_indexAgrees :
    ∃ s, (entryIndexMachine [] [entry]).Run Lib.Machine.Free s ∧ ¬ IndexAgrees s := by
  have hexec : ((entryIndexMachine [] [entry]).exec (.opened [] [entry])
      [.get "1" true, .put entry false true true]).map
        (fun s => (s.length, s.index.length)) = some (0, 1) := by
    decide +kernel
  obtain ⟨s, hs, hlengths⟩ := Option.map_eq_some_iff.mp hexec
  obtain ⟨hlength, hindex⟩ := Prod.mk.inj hlengths
  refine ⟨s, .of_exec .init _ hs, ?_⟩
  intro hagrees
  have heq := hagrees.length
  rw [hlength, hindex] at heq
  exact absurd heq (by decide)

/-- It is put before it is read. -/
theorem indexAgrees_put :
    ∃ s, (entryIndexMachine [] [entry]).Run KeepsIndex s ∧ IndexAgrees s ∧
      s.length = 1 ∧ s.has "1" = true := by
  have hput : (entryIndexMachine [] [entry]).Run KeepsIndex
      ((EntryIndex.opened [] [entry]).put entry true true true) :=
    .step (a := .put entry true true true) .init trivial rfl
  have hread := hput.step (a := EntryIndexAction.get "1" true)
    (fun _ _ => HeadsIndex.stored_iff_get.mpr (by decide)) rfl
  have hkeyed : HeadsIndex.Keyed [] := List.nodup_nil
  exact ⟨_, hread, indexAgrees_of_cleanRun hkeyed hread, by decide, by decide⟩

end BlockOnly

end Log
end Peerbit
