import Peerbit.Log.Entry
import Peerbit.Utils.Cache

/-!
# The entry index

The index of a log holds a shallow entry for each entry of the log, with a flag
that says whether it is a head.  The flag is kept up step by step: storing an
entry clears it on the entries it follows, deleting one sets it again on those
that nothing points to any more.

`HeadsIndex` is the index alone; `EntryIndex` adds the cache, the blocks and the
length.  `EntryIndex` also records the calls of `put` and `delete`, oldest
first; nothing reads this record but the proofs.
-/

namespace Peerbit
namespace Log

/-! ### The index of shallow entries -/

/-- `Index<ShallowEntry>`: at most one entry for each hash. -/
abbrev HeadsIndex := List ShallowEntry

namespace HeadsIndex

/-- `index.get`. -/
def get (index : HeadsIndex) (k : Hash) : Option ShallowEntry :=
  index.find? (fun e => e.hash = k)

/-- `index.put`. -/
def put (index : HeadsIndex) (entry : ShallowEntry) : HeadsIndex :=
  if (index.get entry.hash).isSome then
    index.map (fun e => if e.hash = entry.hash then entry else e)
  else
    index ++ [entry]

/-- `index.del` with a query for the hash. -/
def del (index : HeadsIndex) (k : Hash) : HeadsIndex :=
  index.filter (fun e => e.hash ≠ k)

/-- `getHasNext`. -/
def getHasNext (index : HeadsIndex) (next : Hash) : List ShallowEntry :=
  index.filter (fun e => next ∈ e.meta.next)

/-- `countHasNext`. -/
def countHasNext
    (index : HeadsIndex) (next : Hash) (excludeHash : Option Hash) : Nat :=
  (index.filter (fun e =>
    next ∈ e.meta.next ∧ ∀ excluded ∈ excludeHash, e.hash ≠ excluded)).length

/-- `getHeads`, without the sort. -/
def getHeads (index : HeadsIndex) (gid : Option String) : HeadsIndex :=
  index.filter (fun e => e.head = true ∧ ∀ g ∈ gid, e.meta.gid = g)

/-- The body of the loop of `privateUpdateNextHeadProperty`. -/
def updateHead (isHead : Bool) (index : HeadsIndex) (next : Hash) :
    HeadsIndex :=
  match index.get next with
  | none => index
  | some indexedEntry =>
      if isHead then
        if index.countHasNext next none = 0 then
          index.put { indexedEntry with head := true }
        else
          index
      else
        index.put { indexedEntry with head := false }

/-- `privateUpdateNextHeadProperty`. -/
def privateUpdateNextHeadProperty
    (index : HeadsIndex) (from_ : SortableEntry) (isHead : Bool) : HeadsIndex :=
  if from_.meta.type = .CUT then index
  else from_.meta.next.foldl (updateHead isHead) index

/-- What `EntryIndex.put` does to the index. -/
def putEntry {α : Type}
    (index : HeadsIndex) (entry : Entry α) (isHead : Bool) : HeadsIndex :=
  (index.put (entry.toShallow isHead)).privateUpdateNextHeadProperty
    entry.toSortableEntry false

/-- What `EntryIndex.delete` does to the index, once it has a `from`. -/
def deleteEntry
    (index : HeadsIndex) (k : Hash) (from_ : SortableEntry) : HeadsIndex :=
  if (index.get k).isSome then
    (index.del k).privateUpdateNextHeadProperty from_ true
  else
    index

/-! ### What the operations do to the entries -/

/-- The hash is a key. -/
def Keyed (index : HeadsIndex) : Prop :=
  (index.map (fun e => e.hash)).Nodup

/-- The entries without their flags. -/
def sortables (index : HeadsIndex) : List SortableEntry :=
  index.map ShallowEntry.toSortableEntry

theorem get_eq_some
    {index : HeadsIndex} {k : Hash} {e : ShallowEntry}
    (h : index.get k = some e) :
    e ∈ index ∧ e.hash = k := by
  refine ⟨List.mem_of_find?_eq_some h, ?_⟩
  simpa using List.find?_some h

theorem Keyed.eq_of_hash
    {index : HeadsIndex} (hkeyed : index.Keyed) {e f : ShallowEntry}
    (he : e ∈ index) (hf : f ∈ index) (hhash : e.hash = f.hash) :
    e = f :=
  List.inj_on_of_nodup_map hkeyed he hf hhash

theorem Keyed.get_of_mem
    {index : HeadsIndex} (hkeyed : index.Keyed) {e : ShallowEntry}
    (he : e ∈ index) :
    index.get e.hash = some e := by
  cases h : index.get e.hash with
  | none =>
      have hnone := List.find?_eq_none.mp h e he
      simp at hnone
  | some f =>
      obtain ⟨hf, hhash⟩ := get_eq_some h
      rw [hkeyed.eq_of_hash hf he hhash]

theorem isSome_get_iff {index : HeadsIndex} {k : Hash} :
    (index.get k).isSome = true ↔ ∃ e ∈ index, e.hash = k := by
  simp [get]

theorem mem_put
    {index : HeadsIndex} {entry e : ShallowEntry} :
    e ∈ index.put entry ↔
      e = entry ∨ (e ∈ index ∧ e.hash ≠ entry.hash) := by
  unfold put
  split
  · rename_i hsome
    obtain ⟨old, hold, hhash⟩ := isSome_get_iff.mp hsome
    rw [List.mem_map]
    constructor
    · rintro ⟨x, hx, rfl⟩
      by_cases hxe : x.hash = entry.hash
      · exact Or.inl (if_pos hxe)
      · rw [if_neg hxe]
        exact Or.inr ⟨hx, hxe⟩
    · rintro (rfl | ⟨he, hne⟩)
      · exact ⟨old, hold, if_pos hhash⟩
      · exact ⟨e, he, if_neg hne⟩
  · rename_i hnone
    have hfresh : ∀ x ∈ index, x.hash ≠ entry.hash := by
      intro x hx hhash
      exact hnone (isSome_get_iff.mpr ⟨x, hx, hhash⟩)
    rw [List.mem_append, List.mem_singleton]
    constructor
    · rintro (he | rfl)
      · exact Or.inr ⟨he, hfresh e he⟩
      · exact Or.inl rfl
    · rintro (rfl | ⟨he, _⟩)
      · exact Or.inr rfl
      · exact Or.inl he

theorem mem_del {index : HeadsIndex} {k : Hash} {e : ShallowEntry} :
    e ∈ index.del k ↔ e ∈ index ∧ e.hash ≠ k := by
  simp [del]

theorem map_hash_put_of_get
    {index : HeadsIndex} {entry : ShallowEntry}
    (h : (index.get entry.hash).isSome = true) :
    (index.put entry).map (fun e => e.hash) = index.map (fun e => e.hash) := by
  simp only [put, h, if_true, List.map_map]
  refine List.map_congr_left ?_
  intro e _
  simp only [Function.comp_apply]
  split
  · rename_i heq
    exact heq.symm
  · rfl

theorem Keyed.put
    {index : HeadsIndex} (hkeyed : index.Keyed) (entry : ShallowEntry) :
    (index.put entry).Keyed := by
  unfold Keyed
  by_cases h : (index.get entry.hash).isSome = true
  · rw [map_hash_put_of_get h]
    exact hkeyed
  · have hfresh : entry.hash ∉ index.map (fun e => e.hash) := by
      intro hmem
      obtain ⟨e, he, hhash⟩ := List.mem_map.mp hmem
      exact h (isSome_get_iff.mpr ⟨e, he, hhash⟩)
    simp only [HeadsIndex.put, h, Bool.false_eq_true, if_false, List.map_append,
      List.map_cons, List.map_nil]
    refine List.Nodup.append hkeyed (List.nodup_singleton _) ?_
    simpa using hfresh

theorem Keyed.del
    {index : HeadsIndex} (hkeyed : index.Keyed) (k : Hash) :
    (index.del k).Keyed :=
  hkeyed.sublist (List.Sublist.map _ List.filter_sublist)

/-- Writing a flag leaves the entries as they are. -/
theorem sortables_put_of_get
    {index : HeadsIndex} (hkeyed : index.Keyed) {entry : ShallowEntry}
    {next : Hash} (hget : index.get next = some entry) (isHead : Bool) :
    (index.put { entry with head := isHead }).sortables = index.sortables := by
  obtain ⟨hmem, hhash⟩ := get_eq_some hget
  have hsome : (index.get entry.hash).isSome = true := by
    rw [hhash, hget]
    rfl
  simp only [sortables, HeadsIndex.put, hsome, if_true, List.map_map]
  refine List.map_congr_left ?_
  intro e he
  simp only [Function.comp_apply]
  split
  · rename_i heq
    rw [hkeyed.eq_of_hash he hmem heq]
  · rfl

theorem updateHead_spec
    {index : HeadsIndex} (hkeyed : index.Keyed) (isHead : Bool) (next : Hash) :
    (updateHead isHead index next).Keyed ∧
      (updateHead isHead index next).sortables = index.sortables := by
  unfold updateHead
  split
  · exact ⟨hkeyed, rfl⟩
  · rename_i entry hget
    split
    · split
      · exact ⟨hkeyed.put _, sortables_put_of_get hkeyed hget true⟩
      · exact ⟨hkeyed, rfl⟩
    · exact ⟨hkeyed.put _, sortables_put_of_get hkeyed hget false⟩

theorem foldl_updateHead_spec
    {index : HeadsIndex} (hkeyed : index.Keyed) (isHead : Bool)
    (nexts : List Hash) :
    (nexts.foldl (updateHead isHead) index).Keyed ∧
      (nexts.foldl (updateHead isHead) index).sortables = index.sortables := by
  induction nexts generalizing index with
  | nil => exact ⟨hkeyed, rfl⟩
  | cons next nexts ih =>
      obtain ⟨hkeyed', heq⟩ := updateHead_spec hkeyed isHead next
      obtain ⟨hlast, hlast'⟩ := ih hkeyed'
      exact ⟨hlast, hlast'.trans heq⟩

theorem privateUpdateNextHeadProperty_spec
    {index : HeadsIndex} (hkeyed : index.Keyed) (from_ : SortableEntry)
    (isHead : Bool) :
    (index.privateUpdateNextHeadProperty from_ isHead).Keyed ∧
      (index.privateUpdateNextHeadProperty from_ isHead).sortables =
        index.sortables := by
  unfold privateUpdateNextHeadProperty
  split
  · exact ⟨hkeyed, rfl⟩
  · exact foldl_updateHead_spec hkeyed isHead _

theorem mem_sortables {index : HeadsIndex} {x : SortableEntry} :
    x ∈ index.sortables ↔ ∃ e ∈ index, e.toSortableEntry = x :=
  List.mem_map

theorem Keyed.putEntry
    {α : Type} {index : HeadsIndex} (hkeyed : index.Keyed) (entry : Entry α)
    (isHead : Bool) :
    (index.putEntry entry isHead).Keyed :=
  (privateUpdateNextHeadProperty_spec (hkeyed.put _) _ _).1

theorem Keyed.deleteEntry
    {index : HeadsIndex} (hkeyed : index.Keyed) (k : Hash)
    (from_ : SortableEntry) :
    (index.deleteEntry k from_).Keyed := by
  unfold HeadsIndex.deleteEntry
  split
  · exact (privateUpdateNextHeadProperty_spec (hkeyed.del k) _ _).1
  · exact hkeyed

theorem mem_sortables_putEntry
    {α : Type} {index : HeadsIndex} (hkeyed : index.Keyed) {entry : Entry α}
    {isHead : Bool} {x : SortableEntry} :
    x ∈ (index.putEntry entry isHead).sortables ↔
      x = entry.toSortableEntry ∨
        (x ∈ index.sortables ∧ x.hash ≠ entry.hash) := by
  unfold HeadsIndex.putEntry
  rw [(privateUpdateNextHeadProperty_spec (hkeyed.put _) _ _).2, mem_sortables,
    mem_sortables]
  constructor
  · rintro ⟨e, he, rfl⟩
    rcases mem_put.mp he with rfl | ⟨he, hne⟩
    · exact Or.inl rfl
    · exact Or.inr ⟨⟨e, he, rfl⟩, hne⟩
  · rintro (rfl | ⟨⟨e, he, rfl⟩, hne⟩)
    · exact ⟨entry.toShallow isHead, mem_put.mpr (Or.inl rfl), rfl⟩
    · exact ⟨e, mem_put.mpr (Or.inr ⟨he, hne⟩), rfl⟩

theorem mem_sortables_deleteEntry
    {index : HeadsIndex} (hkeyed : index.Keyed) {k : Hash}
    {from_ x : SortableEntry} :
    x ∈ (index.deleteEntry k from_).sortables ↔
      x ∈ index.sortables ∧ x.hash ≠ k := by
  unfold HeadsIndex.deleteEntry
  split
  · rw [(privateUpdateNextHeadProperty_spec (hkeyed.del k) _ _).2,
      mem_sortables, mem_sortables]
    constructor
    · rintro ⟨e, he, rfl⟩
      obtain ⟨he, hne⟩ := mem_del.mp he
      exact ⟨⟨e, he, rfl⟩, hne⟩
    · rintro ⟨⟨e, he, rfl⟩, hne⟩
      exact ⟨e, mem_del.mpr ⟨he, hne⟩, rfl⟩
  · rename_i hnone
    constructor
    · intro hx
      obtain ⟨e, he, rfl⟩ := mem_sortables.mp hx
      refine ⟨hx, ?_⟩
      intro hhash
      exact hnone (isSome_get_iff.mpr ⟨e, he, hhash⟩)
    · exact fun h => h.1

end HeadsIndex

/-! ### The entry index -/

/-- A call of `EntryIndex.put`, or of `EntryIndex.delete` with the `from` it
went on with. -/
inductive IndexCall (α : Type) where
  | put (entry : Entry α) (isHead : Bool)
  | delete (k : Hash) (from_ : SortableEntry)
deriving Repr, DecidableEq

def ENTRY_CACHE_MAX_SIZE : Int := 10

structure EntryIndex (α : Type) where
  index : HeadsIndex
  cache : Utils.Cache Hash (Entry α)
  store : List (Entry α)
  length : Int
  calls : List (IndexCall α)

namespace EntryIndex

variable {α : Type}

/-- The index of a log that is opened for the first time. -/
def empty : EntryIndex α where
  index := []
  cache := Utils.Cache.empty ENTRY_CACHE_MAX_SIZE none
  store := []
  length := 0
  calls := []

/-- `getShallow`. -/
def getShallow (s : EntryIndex α) (k : Hash) : Option ShallowEntry :=
  s.index.get k

/-- The cache has no time to live, and every `add` trims it, so that reading it
does not change it. -/
def cached (s : EntryIndex α) (k : Hash) : Option (Option (Entry α)) :=
  (s.cache.get 0 k).1

/-- `has`. -/
def has (s : EntryIndex α) (k : Hash) : Bool :=
  match s.cached k with
  | some (some _) => true
  | _ => (s.index.get k).isSome

/-- `store.get` without the other peers. -/
def getBlock (s : EntryIndex α) (k : Hash) : Option (Entry α) :=
  s.store.find? (fun e => e.hash = k)

/-- `store.put`. -/
def putBlock (s : EntryIndex α) (entry : Entry α) : EntryIndex α :=
  if (s.getBlock entry.hash).isSome then s
  else { s with store := s.store ++ [entry] }

/-- `store.rm`. -/
def rmBlock (s : EntryIndex α) (k : Hash) : EntryIndex α :=
  { s with store := s.store.filter (fun e => e.hash ≠ k) }

/-- `resolve` from the cache and the local blocks, where a missing entry is no
error; that it is missing is cached too. -/
def get (s : EntryIndex α) (k : Hash) : Option (Entry α) × EntryIndex α :=
  match s.cached k with
  | some mem => (mem, s)
  | none => (s.getBlock k, { s with cache := s.cache.add 0 k (s.getBlock k) 1 })

/-- `put`. -/
def put (s : EntryIndex α) (entry : Entry α)
    (unique isHead toMultiHash : Bool) : EntryIndex α :=
  let s := if toMultiHash then s.putBlock entry else s
  let length :=
    if unique = true ∨ s.has entry.hash = false then s.length + 1 else s.length
  { s with
    length := length
    cache := s.cache.add 0 entry.hash (some entry) 1
    index := s.index.putEntry entry isHead
    calls := s.calls ++ [.put entry isHead] }

/-- `delete`. -/
def delete (s : EntryIndex α) (k : Hash) (from_ : Option SortableEntry) :
    EntryIndex α :=
  let s := { s with cache := s.cache.del k }
  match from_.or ((s.getShallow k).map ShallowEntry.toSortableEntry) with
  | none => s
  | some from_ =>
      let deleted := (s.index.filter (fun e => e.hash = k)).length
      { s.rmBlock k with
        length := s.length - deleted
        index := s.index.deleteEntry k from_
        calls := s.calls ++ [.delete k from_] }

end EntryIndex

/-! ### What the calls do to the index -/

namespace IndexCall

variable {α : Type}

def apply (index : HeadsIndex) : IndexCall α → HeadsIndex
  | .put entry isHead => index.putEntry entry isHead
  | .delete k from_ => index.deleteEntry k from_

/-- A delete knows the meta record of the entry it deletes. -/
def Agrees (index : HeadsIndex) : IndexCall α → Prop
  | .put _ _ => True
  | .delete k from_ => ∀ e ∈ index, e.hash = k → e.meta = from_.meta

end IndexCall

/-- The calls lead from one index to the other. -/
inductive CallsRun {α : Type} :
    HeadsIndex → List (IndexCall α) → HeadsIndex → Prop
  | nil {index : HeadsIndex} : CallsRun index [] index
  | cons {index last : HeadsIndex} {call : IndexCall α}
      {calls : List (IndexCall α)}
      (hagrees : call.Agrees index)
      (hrest : CallsRun (call.apply index) calls last) :
      CallsRun index (call :: calls) last

theorem CallsRun.append
    {α : Type} {first middle last : HeadsIndex}
    {xs ys : List (IndexCall α)}
    (hxs : CallsRun first xs middle) (hys : CallsRun middle ys last) :
    CallsRun first (xs ++ ys) last := by
  induction hxs with
  | nil => exact hys
  | cons hagrees _ ih => exact .cons hagrees (ih hys)

theorem IndexCall.keyed_apply
    {α : Type} {index : HeadsIndex} (hkeyed : index.Keyed)
    (call : IndexCall α) :
    (call.apply index).Keyed := by
  cases call with
  | put entry isHead => exact hkeyed.putEntry entry isHead
  | delete k from_ => exact hkeyed.deleteEntry k from_

theorem CallsRun.keyed
    {α : Type} {first last : HeadsIndex} {calls : List (IndexCall α)}
    (h : CallsRun first calls last) (hkeyed : first.Keyed) :
    last.Keyed := by
  induction h with
  | nil => exact hkeyed
  | cons _ _ ih => exact ih (IndexCall.keyed_apply hkeyed _)

/-! ### Following the calls -/

/-- The second entry index comes from the first one by the calls it records. -/
def Follows {α : Type} (s s' : EntryIndex α) : Prop :=
  s.index.Keyed →
    ∃ calls, s'.calls = s.calls ++ calls ∧ CallsRun s.index calls s'.index

/-- It holds no entry that the first one does not hold. -/
def Shrinks {α : Type} (s s' : EntryIndex α) : Prop :=
  s.index.Keyed → ∀ x ∈ s'.index.sortables, x ∈ s.index.sortables

section Follows

variable {α : Type}

theorem Follows.of_index_eq
    {s s' : EntryIndex α} (hindex : s'.index = s.index)
    (hcalls : s'.calls = s.calls) :
    Follows s s' := by
  intro _
  refine ⟨[], by simp [hcalls], ?_⟩
  rw [hindex]
  exact .nil

theorem Follows.refl (s : EntryIndex α) : Follows s s :=
  .of_index_eq rfl rfl

theorem Follows.keyed
    {s s' : EntryIndex α} (h : Follows s s') (hkeyed : s.index.Keyed) :
    s'.index.Keyed := by
  obtain ⟨calls, _, hrun⟩ := h hkeyed
  exact hrun.keyed hkeyed

theorem Follows.trans
    {s s' s'' : EntryIndex α} (h : Follows s s') (h' : Follows s' s'') :
    Follows s s'' := by
  intro hkeyed
  obtain ⟨xs, hxs, hrun⟩ := h hkeyed
  obtain ⟨ys, hys, hrun'⟩ := h' (hrun.keyed hkeyed)
  refine ⟨xs ++ ys, ?_, hrun.append hrun'⟩
  rw [hys, hxs, List.append_assoc]

theorem Shrinks.of_index_eq
    {s s' : EntryIndex α} (hindex : s'.index = s.index) : Shrinks s s' := by
  intro _ x hx
  rwa [hindex] at hx

theorem Follows.shrinks_trans
    {s s' s'' : EntryIndex α} (hfollows : Follows s s') (h : Shrinks s s')
    (h' : Shrinks s' s'') : Shrinks s s'' := by
  intro hkeyed x hx
  exact h hkeyed x (h' (hfollows.keyed hkeyed) x hx)

namespace EntryIndex

@[simp] theorem get_index (s : EntryIndex α) (k : Hash) :
    (s.get k).2.index = s.index := by
  unfold get
  split <;> rfl

@[simp] theorem get_calls (s : EntryIndex α) (k : Hash) :
    (s.get k).2.calls = s.calls := by
  unfold get
  split <;> rfl

@[simp] theorem putBlock_index (s : EntryIndex α) (entry : Entry α) :
    (s.putBlock entry).index = s.index := by
  unfold putBlock
  split <;> rfl

@[simp] theorem putBlock_calls (s : EntryIndex α) (entry : Entry α) :
    (s.putBlock entry).calls = s.calls := by
  unfold putBlock
  split <;> rfl

theorem put_index (s : EntryIndex α) (entry : Entry α)
    (unique isHead toMultiHash : Bool) :
    (s.put entry unique isHead toMultiHash).index =
      s.index.putEntry entry isHead := by
  cases toMultiHash <;> simp [put]

theorem put_calls (s : EntryIndex α) (entry : Entry α)
    (unique isHead toMultiHash : Bool) :
    (s.put entry unique isHead toMultiHash).calls =
      s.calls ++ [.put entry isHead] := by
  cases toMultiHash <;> simp [put]

theorem follows_put (s : EntryIndex α) (entry : Entry α)
    (unique isHead toMultiHash : Bool) :
    Follows s (s.put entry unique isHead toMultiHash) := by
  intro _
  refine ⟨[.put entry isHead], put_calls s entry unique isHead toMultiHash, ?_⟩
  rw [put_index]
  exact .cons trivial .nil

/-- A deletion with the meta record of the stored entry follows its call. -/
theorem follows_delete
    (s : EntryIndex α) (k : Hash) (from_ : Option SortableEntry)
    (hfrom : ∀ f ∈ from_, ∀ x ∈ s.index.sortables, x.hash = k →
      x.meta = f.meta) :
    Follows s (s.delete k from_) := by
  intro hkeyed
  unfold delete
  simp only
  split
  · exact ⟨[], by simp, .nil⟩
  · rename_i f hf
    refine ⟨[.delete k f], rfl, .cons ?_ .nil⟩
    intro e he hhash
    cases from_ with
    | some g =>
        obtain rfl : g = f := by simpa using hf
        exact hfrom g rfl _ (HeadsIndex.mem_sortables.mpr ⟨e, he, rfl⟩) hhash
    | none =>
        have hget : s.index.get k = some e := by
          rw [← hhash]
          exact hkeyed.get_of_mem he
        simp only [getShallow, hget, Option.map_some, Option.none_or] at hf
        obtain rfl := Option.some.inj hf
        rfl

theorem shrinks_delete
    (s : EntryIndex α) (k : Hash) (from_ : Option SortableEntry) :
    Shrinks s (s.delete k from_) := by
  intro hkeyed x hx
  unfold delete at hx
  simp only at hx
  split at hx
  · exact hx
  · exact ((HeadsIndex.mem_sortables_deleteEntry hkeyed).mp hx).1

end EntryIndex

end Follows

end Log
end Peerbit
