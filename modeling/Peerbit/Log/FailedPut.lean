import Peerbit.Lib.Failing
import Peerbit.Lib.LiveMap
import Peerbit.Log.Resolve

/-!
# Puts that fail

A put asks the index, which may answer with an error.  While an entry is inserted its
promise is kept, so that a second put of it waits for the first one.  Only an insertion
that succeeds takes its promise back.  So the first failure is the answer to every later
put of the entry, however well the index works then (`put_poisons`).
-/

namespace Peerbit
namespace Log

/-- The promise of an insertion that is not over, or has failed. -/
inductive InsertionPromise where
  | pending
  | rejected (error : String)
deriving Repr, DecidableEq

/-- The entry index with what its insertions need: their promises, the calls of
`onGidRemoved` if there is such a function, and what the next calls of the index and of
this function throw.  Without any faults left they work. -/
structure InsertingIndex (α : Type) extends EntryIndex α where
  insertionPromises : Lib.LiveMap Hash InsertionPromise
  onGidRemoved : Option (List (List String))
  faults : List (Option String)

abbrev Insertion (α β : Type) : Type :=
  Lib.Failing (InsertingIndex α) String β

structure PutProperties where
  unique : Bool
  isHead : Bool
  toMultiHash : Bool
deriving Repr, DecidableEq

inductive PutResult where
  | stored
  | pending
  | missingHash
  | rejected (error : String)
deriving Repr, DecidableEq

namespace Insertion

variable {α : Type}

/-- A call that may throw what is next. -/
def call : Insertion α Unit := do
  let s ← get
  match s.faults with
  | [] => pure ()
  | fault :: faults =>
      modify (fun s => { s with faults := faults })
      match fault with
      | none => pure ()
      | some error => throw error

def indexHas (k : Hash) : Insertion α Bool := do
  call
  let s ← get
  pure (s.index.get k).isSome

def has (k : Hash) : Insertion α Bool := do
  let s ← get
  match s.cached k with
  | some (some _) => pure true
  | _ => indexHas k

/-- The entries that the entry follows, of another graph. -/
def nextsWithOthersGids (index : HeadsIndex) (entry : Entry α) : HeadsIndex :=
  index.filter (fun e => e.hash ∈ entry.meta.next ∧ e.meta.gid ≠ entry.meta.gid)

/-- The gids that only the entry still follows. -/
def shadowedGids (entry : Entry α) : HeadsIndex → List String → Insertion α (List String)
  | [], gids => pure gids
  | next :: nexts, gids => do
      call
      let s ← get
      if s.index.countHasNext next.hash (some entry.hash) > 0 then
        shadowedGids entry nexts gids
      else
        shadowedGids entry nexts
          (if next.meta.gid ∈ gids then gids else gids ++ [next.meta.gid])

def checkGids (entry : Entry α) : Insertion α Unit := do
  let s ← get
  if s.onGidRemoved.isSome ∧ entry.meta.next.length > 0 then
    call
    let s ← get
    let gids ← shadowedGids entry (nextsWithOthersGids s.index entry) []
    if gids.length > 0 then
      call
      modify (fun s => { s with onGidRemoved := s.onGidRemoved.map (· ++ [gids]) })
    else
      pure ()
  else
    pure ()

/-- The body of the loop of `privateUpdateNextHeadProperty`, for `false`. -/
def unmarkHead (next : Hash) : Insertion α Unit := do
  call
  let s ← get
  match s.index.get next with
  | none => pure ()
  | some indexedEntry =>
      call
      modify (fun s => { s with index := s.index.put { indexedEntry with head := false } })

def privateUpdateNextHeadProperty (entry : Entry α) : Insertion α Unit :=
  if entry.meta.type = .CUT then pure ()
  else entry.meta.next.forM unmarkHead

/-- What is done once the entry is counted and cached. -/
def write (entry : Entry α) (isHead : Bool) : Insertion α Unit := do
  call
  modify (fun s => { s with index := s.index.put (entry.toShallow isHead) })
  checkGids entry
  privateUpdateNextHeadProperty entry

/-- The condition under which the entry is counted: an entry that is put as `unique` is
not looked up. -/
def isNew (entry : Entry α) (properties : PutProperties) : Insertion α Bool :=
  if properties.unique = true then pure true
  else do
    let known ← has entry.hash
    pure (!known)

def count (isNew : Bool) : Insertion α Unit :=
  if isNew then modify (fun s => { s with length := s.length + 1 })
  else pure ()

/-- `fn` of `put`, but for its last line. -/
def fn (entry : Entry α) (properties : PutProperties) : Insertion α Unit := do
  let isNew ← isNew entry properties
  count isNew
  -- add cache after .has check before .has uses the cache
  modify (fun s => { s with cache := s.cache.add 0 entry.hash (some entry) 1 })
  write entry properties.isHead

end Insertion

namespace InsertingIndex

variable {α : Type}

def result : InsertionPromise → PutResult
  | .pending => .pending
  | .rejected error => .rejected error

def toMultihash (s : InsertingIndex α) (entry : Entry α) : InsertingIndex α :=
  { s with toEntryIndex := s.toEntryIndex.putBlock entry }

/-- `put`.  The promise is set when `fn` is waiting for the index: it is there before
`fn` ends, with success or without. -/
def put (s : InsertingIndex α) (entry : Entry α) (properties : PutProperties) :
    PutResult × InsertingIndex α :=
  if properties.toMultiHash = false ∧ entry.hash = "" then
    (.missingHash, s)
  else
    let s := if properties.toMultiHash then s.toMultihash entry else s
    match s.insertionPromises.get entry.hash with
    | some existingPromise => (result existingPromise, s)
    | none =>
        match (Insertion.fn entry properties).after s with
        | (.ok _, t) =>
            (.stored, { t with
              insertionPromises := t.insertionPromises.delete entry.hash })
        | (.error error, t) =>
            (.rejected error, { t with
              insertionPromises := t.insertionPromises.set entry.hash (.rejected error) })

/-- The same, with an index that works. -/
def working (s : InsertingIndex α) : InsertingIndex α :=
  { s with faults := [] }

/-- What a put that failed leaves is as it was, and the entry can be put later. -/
structure Recovers (s t : InsertingIndex α) (entry : Entry α) : Prop where
  length : t.length = s.length
  has : ∀ k, t.toEntryIndex.has k = s.toEntryIndex.has k
  later : ∀ properties : PutProperties,
    ((properties.toMultiHash = false → entry.hash ≠ "") →
      (t.working.put entry properties).1 = .stored ∧
        (t.working.put entry properties).2.index.Stored entry.hash)

end InsertingIndex

/-! ### With an index that works -/

section Working

variable {α : Type} {s t : InsertingIndex α}

open Lib.Failing Insertion

theorem Insertion.call_working (hfaults : s.faults = []) : call.after s = (.ok (), s) := by
  unfold call
  rw [after_bind_ok (after_get s), hfaults]
  rfl

theorem Insertion.has_working (hfaults : s.faults = []) (k : Hash) :
    (has k).after s = (.ok (s.toEntryIndex.has k), s) := by
  unfold has
  rw [after_bind_ok (after_get s)]
  unfold EntryIndex.has
  match s.cached k with
  | some (some _) => rfl
  | some none => exact after_bind_ok (call_working hfaults)
  | none => exact after_bind_ok (call_working hfaults)

/-- The index and the length are not touched, and the promises are kept. -/
structure SameEntries (s t : InsertingIndex α) : Prop where
  entries : t.toEntryIndex = s.toEntryIndex
  insertionPromises : t.insertionPromises = s.insertionPromises
  faults : t.faults = []

theorem Insertion.shadowedGids_working (hfaults : s.faults = []) (entry : Entry α)
    (nexts : HeadsIndex) (gids : List String) :
    ∃ found, (shadowedGids entry nexts gids).after s = (.ok found, s) := by
  induction nexts generalizing gids with
  | nil => exact ⟨gids, rfl⟩
  | cons next nexts ih =>
      unfold shadowedGids
      rw [after_bind_ok (call_working hfaults), after_bind_ok (after_get s)]
      split
      · exact ih gids
      · exact ih _

theorem Insertion.checkGids_working (hfaults : s.faults = []) (entry : Entry α) :
    ∃ t, (checkGids entry).after s = (.ok (), t) ∧ SameEntries s t := by
  unfold checkGids
  rw [after_bind_ok (after_get s)]
  split
  · obtain ⟨gids, hgids⟩ :=
      shadowedGids_working hfaults entry (nextsWithOthersGids s.index entry) []
    rw [after_bind_ok (call_working hfaults), after_bind_ok (after_get s),
      after_bind_ok hgids]
    split
    · rw [after_bind_ok (call_working hfaults)]
      exact ⟨_, rfl, ⟨rfl, rfl, hfaults⟩⟩
    · exact ⟨s, rfl, ⟨rfl, rfl, hfaults⟩⟩
  · exact ⟨s, rfl, ⟨rfl, rfl, hfaults⟩⟩

theorem Insertion.unmarkHead_working (hfaults : s.faults = []) (next : Hash) :
    (unmarkHead next).after s =
      (.ok (), { s with index := HeadsIndex.updateHead false s.index next }) := by
  unfold unmarkHead HeadsIndex.updateHead
  rw [after_bind_ok (call_working hfaults), after_bind_ok (after_get s)]
  cases s.index.get next with
  | none => rfl
  | some indexedEntry =>
      dsimp only
      rw [after_bind_ok (call_working hfaults)]
      rfl

theorem Insertion.forM_unmarkHead_working (hfaults : s.faults = []) (nexts : List Hash) :
    (nexts.forM unmarkHead).after s =
      (.ok (), { s with index := nexts.foldl (HeadsIndex.updateHead false) s.index }) := by
  induction nexts generalizing s with
  | nil => rfl
  | cons next nexts ih =>
      change (unmarkHead next >>= fun _ => nexts.forM unmarkHead).after s = _
      rw [after_bind_ok (unmarkHead_working hfaults next)]
      exact ih hfaults

theorem Insertion.privateUpdateNextHeadProperty_working (hfaults : s.faults = [])
    (entry : Entry α) :
    (privateUpdateNextHeadProperty entry).after s =
      (.ok (), { s with
        index := s.index.privateUpdateNextHeadProperty entry.toSortableEntry false }) := by
  unfold privateUpdateNextHeadProperty HeadsIndex.privateUpdateNextHeadProperty
  split
  · rfl
  · exact forM_unmarkHead_working hfaults _

theorem Insertion.write_working (hfaults : s.faults = []) (entry : Entry α)
    (isHead : Bool) :
    ∃ t, (write entry isHead).after s = (.ok (), t) ∧
      SameEntries { s with index := s.index.putEntry entry isHead } t := by
  unfold write
  rw [after_bind_ok (call_working hfaults), after_bind_ok (after_modify _ s)]
  obtain ⟨u, hu, hentries, hpromises, hnone⟩ :=
    checkGids_working (s := { s with index := s.index.put (entry.toShallow isHead) })
      hfaults entry
  rw [after_bind_ok hu, privateUpdateNextHeadProperty_working hnone]
  refine ⟨_, rfl, ?_, hpromises, hnone⟩
  exact congrArg (fun entries : EntryIndex α =>
    { entries with
      index := entries.index.privateUpdateNextHeadProperty entry.toSortableEntry false })
    hentries

theorem Insertion.isNew_working (hfaults : s.faults = []) (entry : Entry α)
    (properties : PutProperties) :
    (isNew entry properties).after s =
      (.ok (decide (properties.unique = true ∨ s.toEntryIndex.has entry.hash = false)),
        s) := by
  unfold isNew
  split
  · rename_i hunique
    rw [decide_eq_true (Or.inl hunique)]
    rfl
  · rename_i hunique
    rw [after_bind_ok (has_working hfaults entry.hash)]
    cases hhas : s.toEntryIndex.has entry.hash with
    | false =>
        rw [decide_eq_true (Or.inr rfl)]
        rfl
    | true =>
        rw [decide_eq_false]
        · rfl
        · rintro (h | h)
          · exact hunique h
          · cases h

/-- What `fn` does when nothing fails is what the entry index does, which records the
call too. -/
theorem Insertion.fn_working (hfaults : s.faults = []) (entry : Entry α)
    (properties : PutProperties) :
    ∃ t, (fn entry properties).after s = (.ok (), t) ∧
      { t.toEntryIndex with calls := s.calls ++ [.put entry properties.isHead] } =
        s.toEntryIndex.put entry properties.unique properties.isHead false := by
  have hwrite := fun length => write_working
    (s := { s with
      length := length
      cache := s.cache.add 0 entry.hash (some entry) 1 }) hfaults entry properties.isHead
  unfold fn
  rw [after_bind_ok (isNew_working hfaults entry properties)]
  unfold EntryIndex.put
  by_cases hnew : properties.unique = true ∨ s.toEntryIndex.has entry.hash = false
  · obtain ⟨t, ht, hentries, -, -⟩ := hwrite (s.length + 1)
    refine ⟨t, ?_, ?_⟩
    · rw [decide_eq_true hnew]
      exact ht
    · rw [hentries]
      simp only [Bool.false_eq_true, if_false, if_pos hnew]
  · obtain ⟨t, ht, hentries, -, -⟩ := hwrite s.length
    refine ⟨t, ?_, ?_⟩
    · rw [decide_eq_false hnew]
      exact ht
    · rw [hentries]
      simp only [Bool.false_eq_true, if_false, if_neg hnew]

theorem InsertingIndex.toMultihash_of (s : InsertingIndex α) (entry : Entry α)
    (properties : PutProperties) :
    ∃ u, (if properties.toMultiHash then s.toMultihash entry else s) = u ∧
      u.faults = s.faults ∧ u.insertionPromises = s.insertionPromises ∧
      u.calls = s.calls ∧
      u.toEntryIndex.put entry properties.unique properties.isHead false =
        s.toEntryIndex.put entry properties.unique properties.isHead
          properties.toMultiHash := by
  refine ⟨_, rfl, ?_⟩
  cases properties.toMultiHash with
  | false => exact ⟨rfl, rfl, rfl, rfl⟩
  | true => exact ⟨rfl, rfl, EntryIndex.putBlock_calls _ _, rfl⟩

/-- With an index that works, a put for which no promise is kept does what the entry
index does. -/
theorem InsertingIndex.put_working (hfaults : s.faults = []) {entry : Entry α}
    {properties : PutProperties} (hhash : properties.toMultiHash = false → entry.hash ≠ "")
    (hnone : s.insertionPromises.get entry.hash = none) :
    ∃ t, s.put entry properties = (.stored, t) ∧
      t.insertionPromises.get entry.hash = none ∧
      { t.toEntryIndex with calls := s.calls ++ [.put entry properties.isHead] } =
        s.toEntryIndex.put entry properties.unique properties.isHead
          properties.toMultiHash := by
  obtain ⟨u, hu, hufaults, hpromises, hcalls, hput⟩ := s.toMultihash_of entry properties
  obtain ⟨t, ht, hentries⟩ :=
    Insertion.fn_working (hufaults.trans hfaults) entry properties
  rw [hcalls, hput] at hentries
  refine ⟨{ t with insertionPromises := t.insertionPromises.delete entry.hash }, ?_,
    Lib.LiveMap.get_delete_self _ _, hentries⟩
  have hmissing : ¬ (properties.toMultiHash = false ∧ entry.hash = "") :=
    fun h => hhash h.1 h.2
  unfold InsertingIndex.put
  rw [if_neg hmissing, hu]
  dsimp only
  rw [hpromises, hnone, ht]

end Working

/-! ### With an index that fails -/

section Failing

variable {α : Type} {s t : InsertingIndex α} {entry : Entry α} {p : PutProperties}
  {error : String}

open Lib.Failing Insertion

/-- The promise of a put that failed is kept. -/
theorem InsertingIndex.promise_of_rejected
    (hfail : s.put entry p = (.rejected error, t)) :
    t.insertionPromises.get entry.hash = some (.rejected error) := by
  unfold InsertingIndex.put at hfail
  split at hfail
  · cases hfail
  · dsimp only at hfail
    split at hfail
    · rename_i existingPromise hexisting
      obtain ⟨hresult, rfl⟩ := Prod.mk.inj hfail
      rw [hexisting]
      cases existingPromise with
      | pending => cases hresult
      | rejected e =>
          obtain rfl := PutResult.rejected.inj hresult
          rfl
    · split at hfail
      · cases hfail
      · obtain ⟨hresult, rfl⟩ := Prod.mk.inj hfail
        obtain rfl := PutResult.rejected.inj hresult
        exact Lib.LiveMap.get_set_self _ _ _

/-- It is the answer to each further put. -/
theorem InsertingIndex.put_of_promise
    (hpromise : s.insertionPromises.get entry.hash = some (.rejected error))
    (hhash : p.toMultiHash = false → entry.hash ≠ "") :
    ∃ t, s.put entry p = (.rejected error, t) ∧ t.index = s.index := by
  obtain ⟨u, hu, -, hpromises, -, -⟩ := s.toMultihash_of entry p
  have hmissing : ¬ (p.toMultiHash = false ∧ entry.hash = "") :=
    fun h => hhash h.1 h.2
  refine ⟨u, ?_, ?_⟩
  · unfold InsertingIndex.put
    rw [if_neg hmissing, hu]
    dsimp only
    rw [hpromises, hpromise]
    rfl
  · rw [← hu]
    split
    · exact EntryIndex.putBlock_index _ _
    · rfl

/-- The entries are not touched but for the index: the length and the cache are these. -/
def CountsAs (length : Int) (cache : Utils.Cache Hash (Entry α)) (s : InsertingIndex α) :
    Prop :=
  s.length = length ∧ s.cache = cache

variable {length : Int} {cache : Utils.Cache Hash (Entry α)}

theorem Insertion.call_entries (s : InsertingIndex α) :
    (call.after s).2.toEntryIndex = s.toEntryIndex := by
  unfold call
  rw [after_bind_ok (after_get s)]
  split
  · rfl
  · rename_i fault faults _
    rw [after_bind_ok (after_modify _ s)]
    cases fault with
    | none => rfl
    | some error => rfl

theorem Insertion.keeps_call :
    Lib.Failing.Keeps (CountsAs length cache) (call : Insertion α Unit) := by
  intro s hs
  unfold CountsAs
  rw [call_entries s]
  exact hs

theorem Insertion.keeps_shadowedGids (entry : Entry α) (nexts : HeadsIndex)
    (gids : List String) :
    Lib.Failing.Keeps (CountsAs length cache) (shadowedGids entry nexts gids) := by
  induction nexts generalizing gids with
  | nil => exact .pure _
  | cons next nexts ih =>
      refine .bind keeps_call (fun _ => .get_bind ?_)
      intro s hs
      split
      · exact ih gids s hs
      · exact ih _ s hs

theorem Insertion.keeps_checkGids (entry : Entry α) :
    Lib.Failing.Keeps (CountsAs length cache) (checkGids entry) := by
  refine .get_bind ?_
  intro s hs
  split
  · refine Lib.Failing.Keeps.bind keeps_call (fun _ => .get_bind ?_) s hs
    intro s hs
    refine Lib.Failing.Keeps.bind (keeps_shadowedGids entry _ _) ?_ s hs
    intro gids
    split
    · exact .bind keeps_call (fun _ => .modify (fun _ hs => hs))
    · exact .pure _
  · exact hs

theorem Insertion.keeps_unmarkHead (next : Hash) :
    Lib.Failing.Keeps (CountsAs length cache) (unmarkHead next : Insertion α Unit) := by
  refine .bind keeps_call (fun _ => .get_bind ?_)
  intro s hs
  split
  · exact hs
  · refine Lib.Failing.Keeps.bind keeps_call (fun _ => ?_) s hs
    exact .modify (fun _ hs => hs)

variable (length cache) in
/-- All that comes after the entry is counted and cached leaves both as they are. -/
theorem Insertion.keeps_write (entry : Entry α) (isHead : Bool) :
    Lib.Failing.Keeps (CountsAs length cache) (write entry isHead) := by
  refine .bind keeps_call (fun _ => .bind (.modify (fun _ hs => hs)) (fun _ => ?_))
  refine .bind (keeps_checkGids entry) (fun _ => ?_)
  unfold privateUpdateNextHeadProperty
  split
  · exact .pure _
  · exact .forM keeps_unmarkHead

/-- The computation fails or answers this, and leaves the entries as they are. -/
def Answers {β : Type} (x : Insertion α β) (s : InsertingIndex α) (b : β) : Prop :=
  ∃ r u, x.after s = (r, u) ∧ u.toEntryIndex = s.toEntryIndex ∧ ∀ c, r = .ok c → c = b

theorem Insertion.indexHas_answers (s : InsertingIndex α) (k : Hash) :
    Answers (indexHas k) s (s.index.get k).isSome := by
  have hcall := call_entries s
  unfold Answers indexHas
  rw [after_bind]
  revert hcall
  rcases call.after s with ⟨r, u⟩
  intro hu
  cases r with
  | error error => exact ⟨.error error, u, rfl, hu, fun _ h => nomatch h⟩
  | ok _ =>
      refine ⟨.ok (u.index.get k).isSome, u, rfl, hu, ?_⟩
      rintro _ ⟨⟩
      exact congrArg (fun entries : EntryIndex α => (entries.index.get k).isSome) hu

theorem Insertion.has_answers (s : InsertingIndex α) (k : Hash) :
    Answers (has k) s (s.toEntryIndex.has k) := by
  unfold Answers has EntryIndex.has
  rw [after_bind_ok (after_get s)]
  match s.cached k with
  | some (some _) => exact ⟨.ok true, s, rfl, rfl, fun _ h => (Except.ok.inj h).symm⟩
  | some none => exact indexHas_answers s k
  | none => exact indexHas_answers s k

theorem Insertion.isNew_answers (s : InsertingIndex α) (entry : Entry α)
    (p : PutProperties) :
    Answers (isNew entry p) s
      (decide (p.unique = true ∨ s.toEntryIndex.has entry.hash = false)) := by
  unfold isNew
  split
  · rename_i hunique
    refine ⟨.ok true, s, rfl, rfl, ?_⟩
    rintro _ ⟨⟩
    exact (decide_eq_true (Or.inl hunique)).symm
  · rename_i hunique
    obtain ⟨r, u, hr, hu, hanswer⟩ := has_answers s entry.hash
    unfold Answers
    rw [after_bind, hr]
    cases r with
    | error error => exact ⟨.error error, u, rfl, hu, fun _ h => nomatch h⟩
    | ok known =>
        refine ⟨.ok (!known), u, rfl, hu, ?_⟩
        rintro _ ⟨⟩
        obtain rfl := hanswer known rfl
        cases s.toEntryIndex.has entry.hash <;> simp [hunique]

/-- A failure that comes later than the look-up leaves the entry counted and cached. -/
theorem Insertion.fn_counts (s : InsertingIndex α) (entry : Entry α) (p : PutProperties) :
    ((fn entry p).after s).2.toEntryIndex = s.toEntryIndex ∨
      CountsAs (s.toEntryIndex.put entry p.unique p.isHead false).length
        (s.toEntryIndex.put entry p.unique p.isHead false).cache
        ((fn entry p).after s).2 := by
  obtain ⟨r, u, hr, hu, hanswer⟩ := isNew_answers s entry p
  unfold fn
  rw [after_bind, hr]
  cases r with
  | error error => exact .inl hu
  | ok isNew =>
      refine .inr ?_
      obtain rfl := hanswer isNew rfl
      rw [← hu]
      have hkeeps := fun (length : Int) => keeps_write length
        (u.cache.add 0 entry.hash (some entry) 1) entry p.isHead
        { u with length := length, cache := u.cache.add 0 entry.hash (some entry) 1 }
        ⟨rfl, rfl⟩
      by_cases hnew : p.unique = true ∨ u.toEntryIndex.has entry.hash = false
      · rw [decide_eq_true hnew]
        unfold EntryIndex.put
        simp only [Bool.false_eq_true, if_false, if_pos hnew]
        exact hkeeps (u.length + 1)
      · rw [decide_eq_false hnew]
        unfold EntryIndex.put
        simp only [Bool.false_eq_true, if_false, if_neg hnew]
        exact hkeeps u.length

/-- What a failure leaves: the index is told nothing of the entry, or the entry is
counted and cached as if it were stored. -/
theorem InsertingIndex.rejected_counts (hnone : s.insertionPromises.get entry.hash = none)
    (hfail : s.put entry p = (.rejected error, t)) :
    CountsAs s.length s.cache t ∨
      CountsAs (s.toEntryIndex.put entry p.unique p.isHead p.toMultiHash).length
        (s.toEntryIndex.put entry p.unique p.isHead p.toMultiHash).cache t := by
  obtain ⟨u, hu, -, hpromises, -, hput⟩ := s.toMultihash_of entry p
  have hsame : u.length = s.length ∧ u.cache = s.cache := by
    rw [← hu]
    split
    · unfold InsertingIndex.toMultihash EntryIndex.putBlock
      split <;> exact ⟨rfl, rfl⟩
    · exact ⟨rfl, rfl⟩
  have hcounts := Insertion.fn_counts u entry p
  rw [hput] at hcounts
  unfold InsertingIndex.put at hfail
  rw [hu] at hfail
  dsimp only at hfail
  rw [hpromises, hnone] at hfail
  split at hfail
  · cases hfail
  · dsimp only at hfail
    revert hcounts hfail
    rcases (Insertion.fn entry p).after u with ⟨r, v⟩
    intro hcounts hfail
    cases r with
    | ok _ => cases hfail
    | error e =>
        obtain ⟨-, rfl⟩ := Prod.mk.inj hfail
        rcases hcounts with hcounts | hcounts
        · have hcounts : v.toEntryIndex = u.toEntryIndex := hcounts
          refine .inl ⟨?_, ?_⟩
          · exact (congrArg EntryIndex.length hcounts).trans hsame.1
          · exact (congrArg EntryIndex.cache hcounts).trans hsame.2
        · exact .inr hcounts

/-- Whichever step of an insertion throws, its entry cannot be put any more, even if the
index works again. -/
theorem put_poisons (hfail : s.put entry p = (.rejected error, t)) :
    ¬ s.Recovers t entry ∧
      ∀ later : PutProperties, (later.toMultiHash = false → entry.hash ≠ "") →
        ∃ u, t.working.put entry later = (.rejected error, u) ∧ u.index = t.index := by
  have hpromise : t.insertionPromises.get entry.hash = some (.rejected error) :=
    InsertingIndex.promise_of_rejected hfail
  refine ⟨?_, ?_⟩
  · intro hrecovers
    have hhash : true = false → entry.hash ≠ "" := fun h => nomatch h
    obtain ⟨u, hu, -⟩ := InsertingIndex.put_of_promise
      (s := t.working) (p := ⟨false, true, true⟩) hpromise hhash
    have hstored := (hrecovers.later ⟨false, true, true⟩ hhash).1
    rw [hu] at hstored
    cases hstored
  · intro later hhash
    exact InsertingIndex.put_of_promise hpromise hhash

end Failing

namespace OneFault

def entry : Entry String where
  hash := "1"
  «meta» :=
    { clock := { id := "writer", timestamp := { wallTime := 1, logical := 0 } }
      gid := "g"
      next := []
      type := .APPEND }
  payload := "1"
  payloadSize := 1

/-- An index that fails once, when the entry is written. -/
def start : InsertingIndex String :=
  { EntryIndex.empty with
    insertionPromises := .empty, onGidRemoved := none, faults := [some "full"] }

def asked : PutProperties := ⟨true, true, true⟩

theorem put_start : (start.put entry asked).1 = .rejected "full" := by
  decide +kernel

/-- After the failure the entry is counted, although it is not in the index. -/
theorem not_recovers :
    (start.put entry asked).1 = .rejected "full" ∧
      ¬ start.Recovers (start.put entry asked).2 entry := by
  refine ⟨by decide +kernel, ?_⟩
  intro hrecovers
  have hlength := hrecovers.length
  exact absurd hlength (by decide +kernel)

theorem put_poisons_start :
    ¬ start.Recovers (start.put entry asked).2 entry ∧
      ∀ later : PutProperties, (later.toMultiHash = false → entry.hash ≠ "") →
        ∃ u, (start.put entry asked).2.working.put entry later = (.rejected "full", u) ∧
          u.index = (start.put entry asked).2.index :=
  put_poisons (Prod.ext put_start rfl)

end OneFault

end Log
end Peerbit
