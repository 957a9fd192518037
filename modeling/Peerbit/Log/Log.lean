import Peerbit.Log.Trim

/-!
# The log

The operations of a log: append, join, remove and trim.  Each works on the entry
index and tells the application what it added and what it removed.

The application is a state with two handlers, `canAppend` and `onChange`.  They
may read the entry index, and fail; of the log itself they change no more than
the cache, which reading fills.

Operations of one log run one after the other here, and so do the deletions that
an operation collects and then runs.
-/

namespace Peerbit
namespace Log

/-- The errors that the modelled functions throw, and the end of the recursion
depth that a run is given. -/
inductive LogError where
  | nextNotBefore (next : Hash)
  | accessDenied
  | failedToLoad (k : Hash)
  | failedToResolveBlock (k : Hash)
  | unexpectedValueType (head : Hash)
  | noEntryWithKey
  | depth
deriving Repr, DecidableEq

/-- `entryIndex.get` where a missing entry is an error: only one that is cached
as missing is returned as `undefined`. -/
def EntryIndex.getOrThrow {α : Type} (s : EntryIndex α) (k : Hash) :
    Except LogError (Option (Entry α)) × EntryIndex α :=
  if (s.cached k).isNone ∧ (s.getBlock k).isNone then
    (.error (.failedToLoad k), s)
  else
    (.ok (s.get k).1, (s.get k).2)

/-- What a handler leaves behind: the state of the application and the cache. -/
structure Handled (α σ : Type) where
  app : σ
  cache : Utils.Cache Hash (Entry α)

/-- The options of a log and what is around it. -/
structure LogEnv (α σ : Type) where
  sortFn : SortFn
  canAppend : σ → EntryIndex α → Entry α →
    Except LogError Bool × Handled α σ
  onChange : σ → EntryIndex α → Change α →
    Except LogError Unit × Handled α σ
  /-- The trim option of the log. -/
  trim : Option TrimOptions
  canTrim : σ → String → ShallowEntry → Bool
  cacheId : σ → String → Option String
  /-- The blocks that other peers serve. -/
  remote : Hash → Option (Entry α)
  /-- The content hash, and the size of a payload. -/
  hashOf : Meta → α → Hash
  byteLengthOf : α → Nat

structure LogState (α σ : Type) where
  entryIndex : EntryIndex α
  trim : TrimState
  app : σ

def LogState.open {α σ : Type} (app : σ) : LogState α σ where
  entryIndex := EntryIndex.empty
  trim := TrimState.init
  app := app

namespace LogState

variable {α σ : Type}

/-- The state after a handler ran. -/
def handled (s : LogState α σ) (h : Handled α σ) : LogState α σ :=
  { s with app := h.app, entryIndex := { s.entryIndex with cache := h.cache } }

def has (s : LogState α σ) (k : Hash) : Bool := s.entryIndex.has k

/-- `get` of the log: a missing entry is no error. -/
def get (s : LogState α σ) (k : Hash) : Option (Entry α) × LogState α σ :=
  let resolved := s.entryIndex.get k
  (resolved.1, { s with entryIndex := resolved.2 })

end LogState

section Operations

variable {α σ : Type} (env : LogEnv α σ)

def runCanAppend (s : LogState α σ) (entry : Entry α) :
    Except LogError Bool × LogState α σ :=
  let answer := env.canAppend s.app s.entryIndex entry
  (answer.1, s.handled answer.2)

def runOnChange (s : LogState α σ) (change : Change α) :
    Except LogError Unit × LogState α σ :=
  let answer := env.onChange s.app s.entryIndex change
  (answer.1, s.handled answer.2)

/-- `Entry.fromMultihash`, from the local blocks or from other peers. -/
def fromMultihash (s : LogState α σ) (hash : Hash) : Option (Entry α) :=
  (s.entryIndex.getBlock hash).or (env.remote hash)

/-! ### Deleting -/

/-- A deletion that is prepared: the shallow entry it was prepared with. -/
abbrev PendingDelete := ShallowEntry

/-- `prepareDelete`. -/
def prepareDelete (s : LogState α σ) (hash : Hash) : Option PendingDelete :=
  s.entryIndex.getShallow hash

/-- The `fn` of a prepared deletion. -/
def runDelete (s : LogState α σ) (pending : PendingDelete) : LogState α σ :=
  { s with
    trim := s.trim.deleteFromCache env.sortFn s.entryIndex.index pending.hash
    entryIndex :=
      s.entryIndex.delete pending.hash (some pending.toSortableEntry) }

def runDeletes (s : LogState α σ) (pending : List PendingDelete) :
    LogState α σ :=
  pending.foldl (runDelete env) s

/-- The loop over `entry.meta.next` in `prepareDeleteRecursively`: the parents
that nothing but the entry and entries of type `CUT` point to. -/
def pushNexts (entry : SortableEntry) :
    List Hash → LogState α σ → List SortableEntry →
      LogState α σ × List SortableEntry
  | [], s, stack => (s, stack)
  | next :: nexts, s, stack =>
      let hasAlternativeNext :=
        (s.entryIndex.index.getHasNext next).any (fun x =>
          decide (x.meta.type ≠ .CUT) && decide (x.hash ≠ entry.hash))
      if hasAlternativeNext then
        pushNexts entry nexts s stack
      else
        match s.get next with
        | (some ne, s) => pushNexts entry nexts s (ne.toSortableEntry :: stack)
        | (none, s) => pushNexts entry nexts s stack

/-- The loop of `prepareDeleteRecursively`; the top of the stack is the head of
the list. -/
def prepareDeleteLoop :
    Nat → Bool → LogState α σ → List SortableEntry → List PendingDelete →
      Except LogError (List PendingDelete) × LogState α σ
  | _, _, s, [], toDelete => (.ok toDelete, s)
  | 0, _, s, _ :: _, _ => (.error .depth, s)
  | fuel + 1, skip, s, entry :: stack, toDelete =>
      let toDelete :=
        if skip then toDelete
        else toDelete ++ (prepareDelete s entry.hash).toList
      let pushed := pushNexts entry entry.meta.next s stack
      prepareDeleteLoop fuel false pushed.1 pushed.2 toDelete

/-- `prepareDeleteRecursively`.  The source pops its stack from the end of the
list it is given. -/
def prepareDeleteRecursively (fuel : Nat) (s : LogState α σ)
    (from_ : List SortableEntry) (skipFirst : Bool) :
    Except LogError (List PendingDelete) × LogState α σ :=
  prepareDeleteLoop fuel skipFirst s from_.reverse []

/-- `processEntry`. -/
def processEntry (fuel : Nat) (s : LogState α σ) (entry : Entry α) :
    Except LogError (List PendingDelete) × LogState α σ :=
  if entry.meta.type = .CUT then
    prepareDeleteRecursively fuel s [entry.toSortableEntry] true
  else
    (.ok [], s)

/-! ### Trimming -/

/-- `trim` of the log; without an option it takes that of the log.  `now` is the
time in nanoseconds. -/
def trim (s : LogState α σ) (option : Option TrimOptions) (now : Int) :
    List (Entry α) × LogState α σ :=
  match option.or env.trim with
  | none => ([], s)
  | some option =>
      let trimmed :=
        trimTask
          { sortFn := env.sortFn, canTrim := env.canTrim s.app
            cacheId := env.cacheId s.app, now := now }
          option s.entryIndex s.trim
      (trimmed.1, { s with entryIndex := trimmed.2.1, trim := trimmed.2.2 })

/-- What `append` and `joinRecursively` do once the entry is stored: delete
what it cuts off, trim, and tell the application. -/
def afterPut (fuel : Nat) (s : LogState α σ) (entry : Entry α) (isHead : Bool)
    (trimOption : Option TrimOptions) (now : Int) :
    Except LogError Unit × LogState α σ :=
  match processEntry fuel s entry with
  | (.error e, s) => (.error e, s)
  | (.ok pendingDeletes, s) =>
      let trimmed := trim env s trimOption now
      let removed :=
        pendingDeletes.map ShallowOrFullEntry.shallow ++
          trimmed.1.map ShallowOrFullEntry.full
      match runOnChange env trimmed.2
          { added := [(isHead, entry)], removed := removed } with
      | (.error e, s) => (.error e, s)
      | (.ok _, s) => (.ok (), runDeletes env s pendingDeletes)

/-! ### Joining -/

structure JoinOptions (α : Type) where
  references : List (Entry α) := []
  trim : Option TrimOptions := none
  reset : Bool := false
  now : Int := 0

/-- Whether a head of the entry's graph has cut the entry off. -/
def alreadyDeleted (s : LogState α σ) (entry : Entry α) : Bool :=
  (s.entryIndex.index.getHeads (some entry.meta.gid)).any (fun v =>
    decide (v.meta.type = .CUT) && decide (entry.hash ∈ v.meta.next) &&
      decide (env.sortFn.sort entry.toSortableEntry v.toSortableEntry = .lt))

/-- The entry that `joinRecursively` finds for a hash. -/
def findNested (s : LogState α σ) (options : JoinOptions α) (a : Hash) :
    Option (Entry α) :=
  (options.references.find? (fun e => e.hash = a)).or (fromMultihash env s a)

/-- The loop over the parents, given the function that joins one of them. -/
def joinNexts
    (join : LogState α σ → Entry α → Except LogError Bool × LogState α σ)
    (options : JoinOptions α) :
    List Hash → LogState α σ → Except LogError Unit × LogState α σ
  | [], s => (.ok (), s)
  | a :: nexts, s =>
      if s.has a = false ∨ options.reset = true then
        match findNested env s options a with
        | none => (.error (.failedToResolveBlock a), s)
        | some nested =>
            match join s nested with
            | (.error e, s) => (.error e, s)
            | (.ok _, s) => joinNexts join options nexts s
      else
        joinNexts join options nexts s

/-- `joinRecursively`. -/
def joinRecursively (options : JoinOptions α) :
    Nat → LogState α σ → Entry α → Bool → Except LogError Bool × LogState α σ
  | 0, s, _, _ => (.error .depth, s)
  | fuel + 1, s, entry, isHead =>
      if s.has entry.hash = true ∧ options.reset = false then
        (.ok false, s)
      else if alreadyDeleted env s entry then
        (.ok false, s)
      else
        let nexts := if entry.meta.type = .CUT then [] else entry.meta.next
        match joinNexts env
            (fun s nested => joinRecursively options fuel s nested false)
            options nexts s with
        | (.error e, s) => (.error e, s)
        | (.ok _, s) =>
            match runCanAppend env s entry with
            | (.error e, s) => (.error e, s)
            | (.ok false, s) => (.ok false, s)
            | (.ok true, s) =>
                let s :=
                  { s with
                    entryIndex := s.entryIndex.put entry false isHead true }
                match afterPut env fuel s entry isHead options.trim
                    options.now with
                | (.error e, s) => (.error e, s)
                | (.ok _, s) => (.ok true, s)

/-- `heads.set(key, value)`. -/
def setHead (heads : List (Hash × Bool)) (key : Hash) (value : Bool) :
    List (Hash × Bool) :=
  (key, value) :: heads.filter (fun e => e.1 ≠ key)

/-- The map `heads` of `join`. -/
def joinHeads (entries : List (Entry α)) : List (Hash × Bool) :=
  entries.foldl
    (fun heads entry =>
      if (heads.find? (fun e => e.1 = entry.hash)).isSome then heads
      else
        entry.meta.next.foldl (fun heads next => setHead heads next false)
          (setHead heads entry.hash true))
    []

/-- The loop of `join` over the entries. -/
def joinEntries (fuel : Nat) (options : JoinOptions α)
    (heads : List (Hash × Bool)) :
    List (Entry α) → LogState α σ → Except LogError Unit × LogState α σ
  | [], s => (.ok (), s)
  | entry :: entries, s =>
      let isHead :=
        ((heads.find? (fun e => e.1 = entry.hash)).map Prod.snd).getD false
      match joinRecursively env options fuel s entry isHead with
      | (.error e, s) => (.error e, s)
      | (.ok _, s) => joinEntries fuel options heads entries s

/-- `join` of an array of entries. -/
def join (fuel : Nat) (s : LogState α σ) (entries : List (Entry α))
    (options : JoinOptions α) : Except LogError Unit × LogState α σ :=
  joinEntries env fuel
    { options with references := entries ++ options.references }
    (joinHeads entries) entries s

/-! ### Appending -/

/-- An element of `options.meta.next`: a whole entry, or what is needed of it
for sorting. -/
inductive NextEntry (α : Type) where
  | entry (entry : Entry α)
  | sortable (entry : SortableEntry)

def NextEntry.sortableEntry : NextEntry α → SortableEntry
  | .entry e => e.toSortableEntry
  | .sortable e => e

/-- The options of `append`.  `clock` is what the hybrid clock of the log
returns, or the given timestamp; `gid` is the id for an entry without nexts,
from the seed or random. -/
structure AppendOptions (α : Type) where
  next : Option (List (NextEntry α)) := none
  type : EntryType := .APPEND
  gid : String
  clock : Clock
  trim : Option TrimOptions := none
  now : Int := 0

/-- `Timestamp.compare(a, b) >= 0`. -/
def Timestamp.notBefore (a b : Timestamp) : Bool :=
  decide (compareTimestamp a b ≠ .lt)

/-- The gid in `EntryV0.create`: the least one of the nexts. -/
def minGid (gid : String) : List SortableEntry → String
  | [] => gid
  | n :: nexts =>
      nexts.foldl (fun gid n => if n.meta.gid < gid then n.meta.gid else gid)
        n.meta.gid

/-- `EntryV0.create`, up to the check by `canAppend`. -/
def createEntry (data : α) (options : AppendOptions α)
    (nexts : List SortableEntry) : Except LogError (Entry α) :=
  match nexts.find? (fun n =>
      n.meta.clock.timestamp.notBefore options.clock.timestamp) with
  | some n => .error (.nextNotBefore n.hash)
  | none =>
      let «meta» : Meta :=
        { clock := options.clock, gid := minGid options.gid nexts
          type := options.type, next := nexts.map (fun n => n.hash) }
      .ok
        { hash := env.hashOf «meta» data, «meta» := «meta», payload := data
          payloadSize := env.byteLengthOf data }

/-- The entry that `append` joins for a next that is not in the log. -/
def resolveNext (s : LogState α σ) :
    NextEntry α → Except LogError (Option (Entry α)) × LogState α σ
  | .entry entry => (.ok (some entry), s)
  | .sortable e =>
      let resolved := s.entryIndex.getOrThrow e.hash
      (resolved.1, { s with entryIndex := resolved.2 })

/-- The loop in `append` over nexts that are not in the log. -/
def joinMissingNexts (fuel : Nat) (now : Int) :
    List (NextEntry α) → LogState α σ → Except LogError Unit × LogState α σ
  | [], s => (.ok (), s)
  | e :: nexts, s =>
      if s.has e.sortableEntry.hash then
        joinMissingNexts fuel now nexts s
      else
        match resolveNext s e with
        | (.error e, s) => (.error e, s)
        | (.ok none, s) => joinMissingNexts fuel now nexts s
        | (.ok (some entry), s) =>
            match join env fuel s [entry] { now := now } with
            | (.error e, s) => (.error e, s)
            | (.ok _, s) => joinMissingNexts fuel now nexts s

/-- The nexts of `append`: the given ones or the heads of the log. -/
def appendNexts (s : LogState α σ) (options : AppendOptions α) :
    List (NextEntry α) :=
  options.next.getD
    ((env.sortFn.sorted (s.entryIndex.index.getHeads none)).map
      (fun e => .sortable e.toSortableEntry))

/-- `append`. -/
def append (fuel : Nat) (s : LogState α σ) (data : α)
    (options : AppendOptions α) : Except LogError (Entry α) × LogState α σ :=
  let nexts := appendNexts env s options
  match createEntry env data options (nexts.map NextEntry.sortableEntry) with
  | .error e => (.error e, s)
  | .ok entry =>
      match runCanAppend env s entry with
      | (.error e, s) => (.error e, s)
      | (.ok false, s) => (.error .accessDenied, s)
      | (.ok true, s) =>
          let s := { s with entryIndex := s.entryIndex.putBlock entry }
          match joinMissingNexts env fuel options.now
              (if entry.meta.type = .CUT then [] else nexts) s with
          | (.error e, s) => (.error e, s)
          | (.ok _, s) =>
              let s :=
                { s with
                  entryIndex := s.entryIndex.put entry true true false }
              match afterPut env fuel s entry true options.trim options.now with
              | (.error e, s) => (.error e, s)
              | (.ok _, s) => (.ok entry, s)

/-! ### Removing -/

/-- `remove`. -/
def remove (fuel : Nat) (s : LogState α σ) (entries : List SortableEntry)
    (recursively : Bool) : Except LogError Unit × LogState α σ :=
  if entries.isEmpty then
    (.ok (), s)
  else
    let prepared :=
      if recursively then
        prepareDeleteRecursively fuel s entries false
      else
        (.ok (entries.flatMap (fun e => (prepareDelete s e.hash).toList)), s)
    match prepared with
    | (.error e, s) => (.error e, s)
    | (.ok removed, s) =>
        match runOnChange env s
            { added := [], removed := removed.map ShallowOrFullEntry.shallow }
          with
        | (.error e, s) => (.error e, s)
        | (.ok _, s) => (.ok (), runDeletes env s removed)

/-- `deleteRecursively`. -/
def deleteRecursively (fuel : Nat) (s : LogState α σ)
    (from_ : List SortableEntry) (skipFirst : Bool) :
    Except LogError Unit × LogState α σ :=
  match prepareDeleteRecursively fuel s from_ skipFirst with
  | (.error e, s) => (.error e, s)
  | (.ok toDelete, s) => (.ok (), runDeletes env s toDelete)

/-- `delete`. -/
def delete (s : LogState α σ) (hash : Hash) : LogState α σ :=
  match prepareDelete s hash with
  | none => s
  | some pending => runDelete env s pending

/-! ### Runs -/

/-- An operation on a log. -/
inductive LogOp (α : Type) where
  | append (data : α) (options : AppendOptions α)
  | join (entries : List (Entry α)) (options : JoinOptions α)
  | remove (entries : List SortableEntry) (recursively : Bool)
  | deleteRecursively (from_ : List SortableEntry) (skipFirst : Bool)
  | delete (hash : Hash)
  | trim (option : Option TrimOptions) (now : Int)

/-- The state after an operation.  When it throws, this is the state it
leaves behind. -/
def LogOp.run (fuel : Nat) (s : LogState α σ) : LogOp α → LogState α σ
  | .append data options => (Log.append env fuel s data options).2
  | .join entries options => (Log.join env fuel s entries options).2
  | .remove entries recursively => (Log.remove env fuel s entries recursively).2
  | .deleteRecursively from_ skipFirst =>
      (Log.deleteRecursively env fuel s from_ skipFirst).2
  | .delete hash => Log.delete env s hash
  | .trim option now => (Log.trim env s option now).2

end Operations

end Log
end Peerbit
