import Mathlib
import Peerbit.Log.EntryIndex

/-!
# Trimming

`Trim` deletes the first entries, in the order of the sort function, until the
log is short, small or young enough.  A filter may hold back the entries of a
graph; with a cache id it also remembers where the last trim stopped.
-/

namespace Peerbit
namespace Log

inductive TrimCondition where
  | length (to_ : Nat) (from_ : Option Nat)
  | bytelength (to_ : Nat) (from_ : Option Nat)
  | time (maxAge : Nat)
deriving Repr, DecidableEq

/-- `TrimOptions`.  The functions `canTrim` and `cacheId` of the filter are given
by names, which stand for their identity; what they return is asked from the
environment of the log. -/
structure TrimOptions where
  condition : TrimCondition
  canTrim : Option String
  cacheId : Option String
deriving Repr, DecidableEq

/-- `trimOptionsEqual`. -/
def trimOptionsEqual (a b : TrimOptions) : Bool :=
  decide (a.condition = b.condition) && decide (a.canTrim = b.canTrim)

/-- The fields of `Trim` that it reads again. -/
structure TrimState where
  canTrimCacheLastNode : Option ShallowEntry
  trimLastHead : Option ShallowEntry
  trimLastTail : Option ShallowEntry
  trimLastLength : Int
  trimLastOptions : Option TrimOptions
  trimLastSeed : Option String
deriving Repr, DecidableEq

def TrimState.init : TrimState where
  canTrimCacheLastNode := none
  trimLastHead := none
  trimLastTail := none
  trimLastLength := 0
  trimLastOptions := none
  trimLastSeed := none

/-- What a trim asks its log for. -/
structure TrimEnv where
  sortFn : SortFn
  /-- The filter, by name. -/
  canTrim : String → ShallowEntry → Bool
  /-- The cache id of a filter, by name. -/
  cacheId : String → Option String
  /-- The time of the trim, in nanoseconds. -/
  now : Int

section Neighbours

variable (sortFn : SortFn) (index : HeadsIndex)

def getOldest : Option ShallowEntry := (sortFn.sorted index).head?

def getNewest : Option ShallowEntry := (sortFn.sortedReversed index).head?

def getBefore (before : ShallowEntry) : Option ShallowEntry :=
  (sortFn.sortedReversed
    (index.filter (fun e =>
      sortFn.before before.toSortableEntry e.toSortableEntry))).head?

def getAfter (before : ShallowEntry) : Option ShallowEntry :=
  (sortFn.sorted
    (index.filter (fun e =>
      sortFn.after before.toSortableEntry e.toSortableEntry))).head?

end Neighbours

/-- `deleteFromCache`. -/
def TrimState.deleteFromCache
    (sortFn : SortFn) (index : HeadsIndex) (s : TrimState) (hash : Hash) :
    TrimState :=
  match s.canTrimCacheLastNode with
  | none => s
  | some node =>
      if node.hash = hash then
        { s with canTrimCacheLastNode := getAfter sortFn index node }
      else
        s

section Task

variable {α : Type} (env : TrimEnv)

/-- `deleteNode`. -/
def deleteNode (s : EntryIndex α) (node : ShallowEntry) :
    Option (Entry α) × EntryIndex α :=
  let resolved := s.get node.hash
  (resolved.1, (resolved.2.delete node.hash none).rmBlock node.hash)

def byteLength (s : EntryIndex α) : Nat :=
  (s.index.map (fun e => e.payloadSize)).sum

/-- Whether the trim has anything to do. -/
def TrimCondition.starts (condition : TrimCondition) (s : EntryIndex α) : Bool :=
  match condition with
  | .length to_ from_ => decide (((from_.getD to_ : Nat) : Int) ≤ s.length)
  | .bytelength to_ from_ => decide (from_.getD to_ ≤ byteLength s)
  | .time _ => true

/-- `done`. -/
def TrimCondition.done (condition : TrimCondition) (s : EntryIndex α) : Bool :=
  match condition with
  | .length to_ _ => decide (s.length ≤ to_)
  | .bytelength to_ _ => decide (byteLength s ≤ to_)
  | .time maxAge =>
      match getOldest env.sortFn s.index with
      | none => true
      | some oldest =>
          decide (env.now - oldest.meta.clock.timestamp.wallTime <
            (maxAge : Int) * 1000000)

/-- The variables of the loop. -/
structure TrimLoop (α : Type) where
  entryIndex : EntryIndex α
  node : Option ShallowEntry
  lastNode : Option ShallowEntry
  looped : Bool
  canTrimByGid : List (String × Bool)
  deleted : List (Entry α)

def trimStart (s : EntryIndex α) (node : Option ShallowEntry) : TrimLoop α :=
  { entryIndex := s, node := node, lastNode := node, looped := false
    canTrimByGid := [], deleted := [] }

/-- Whether the filter lets the entry be deleted; asked once for each graph. -/
def deleteAble (option : TrimOptions) (canTrimByGid : List (String × Bool))
    (node : ShallowEntry) : Bool × List (String × Bool) :=
  match option.canTrim with
  | none => (true, canTrimByGid)
  | some name =>
      match canTrimByGid.find? (fun e => e.1 = node.meta.gid) with
      | some known => (known.2, canTrimByGid)
      | none =>
          let answer := env.canTrim name node
          (answer, canTrimByGid ++ [(node.meta.gid, answer)])

/-- One pass through the loop, up to the check for the end of the entries. -/
def trimVisit (option : TrimOptions) (s : TrimLoop α) (node : ShallowEntry) :
    TrimLoop α :=
  let able := deleteAble env option s.canTrimByGid node
  if able.1 then
    let prev := getAfter env.sortFn s.entryIndex.index node
    let next := getBefore env.sortFn s.entryIndex.index node
    let removed := deleteNode s.entryIndex node
    { s with
      entryIndex := removed.2
      node := prev
      lastNode := prev.or next
      canTrimByGid := able.2
      deleted := s.deleted ++ removed.1.toList }
  else
    { s with
      node := getAfter env.sortFn s.entryIndex.index node
      lastNode := some node
      canTrimByGid := able.2 }

/-- The loop of `trimTask`; `turns` says whether it may start over at the
tail. -/
def trimLoop (option : TrimOptions) (startNode tail : Option ShallowEntry)
    (turns : Bool) : Nat → TrimLoop α → TrimLoop α
  | 0, s => s
  | fuel + 1, s =>
      match s.node with
      | none => s
      | some node =>
          if option.condition.done env s.entryIndex = false ∧
              0 < s.entryIndex.length ∧
              (s.looped = false ∨
                some node.hash ≠ startNode.map (fun e => e.hash)) then
            let s := trimVisit env option s node
            if s.node.isNone then
              if s.looped = false ∧ turns = true then
                trimLoop option startNode tail turns fuel
                  { s with node := tail, looped := true }
              else
                s
            else
              trimLoop option startNode tail turns fuel s
          else
            s

/-- Whether the trim forgets where the last one stopped: the cache id of the
filter changed, or there is none. -/
def trimResets (t : TrimState) (seed : Option String) : Bool :=
  decide (seed ≠ t.trimLastSeed) || seed.isNone

/-- `changed`: whether there is anything new to trim. -/
def trimChanged (option : TrimOptions) (s : EntryIndex α) (t : TrimState)
    (seed : Option String) : Bool :=
  trimResets t seed ||
    decide (t.trimLastHead.map (fun e => e.hash) ≠
      (getNewest env.sortFn s.index).map (fun e => e.hash)) ||
    decide (t.trimLastTail.map (fun e => e.hash) ≠
      (getOldest env.sortFn s.index).map (fun e => e.hash)) ||
    decide (t.trimLastLength ≠ s.length) ||
    !(t.trimLastOptions.any (fun last => trimOptionsEqual last option))

/-- `trimTask`, with the entries it deleted. -/
def trimTask (option : TrimOptions) (s : EntryIndex α) (t : TrimState) :
    List (Entry α) × EntryIndex α × TrimState :=
  let seed := option.cacheId.bind env.cacheId
  if option.condition.starts s = false ∨ trimChanged env option s t seed = false
  then
    ([], s, t)
  else
    let tail := getOldest env.sortFn s.index
    let node :=
      if trimResets t seed then tail else t.canTrimCacheLastNode.or tail
    -- each pass moves on in the order, and the loop turns around once
    let fuel := 2 * s.index.length + 2
    let done := trimLoop env option node tail seed.isNone fuel (trimStart s node)
    (done.deleted, done.entryIndex,
      { canTrimCacheLastNode := done.node.or done.lastNode
        trimLastHead := getNewest env.sortFn done.entryIndex.index
        trimLastTail := getOldest env.sortFn done.entryIndex.index
        trimLastLength := done.entryIndex.length
        trimLastOptions := some option
        trimLastSeed := seed })

end Task

end Log
end Peerbit
