import Mathlib.Data.List.Sort
import Mathlib.Data.Ordering.Lemmas

/-!
# Log entries

An entry carries a payload and a meta record: its clock, the id of its graph,
the hashes of the entries it follows, and whether it appends to them or cuts
them off.  The index keeps a shallow copy without the payload, with a flag for
the heads.
-/

namespace Peerbit
namespace Log

/-- A content identifier, as a string. -/
abbrev Hash := String

structure Timestamp where
  wallTime : Nat
  logical : Nat
deriving Repr, DecidableEq

/-- `LamportClock`. -/
structure Clock where
  id : String
  timestamp : Timestamp
deriving Repr, DecidableEq

inductive EntryType where
  | APPEND
  | CUT
deriving Repr, DecidableEq

structure Meta where
  clock : Clock
  gid : String
  next : List Hash
  type : EntryType
deriving Repr, DecidableEq

/-- What the sort functions read of an entry. -/
structure SortableEntry where
  hash : Hash
  «meta» : Meta
deriving Repr, DecidableEq

structure ShallowEntry extends SortableEntry where
  payloadSize : Nat
  head : Bool
deriving Repr, DecidableEq

structure Entry (α : Type) extends SortableEntry where
  payload : α
  payloadSize : Nat
deriving Repr, DecidableEq

def Entry.toShallow {α : Type} (entry : Entry α) (isHead : Bool) :
    ShallowEntry :=
  { entry.toSortableEntry with
    payloadSize := entry.payloadSize, head := isHead }

inductive ShallowOrFullEntry (α : Type) where
  | shallow (entry : ShallowEntry)
  | full (entry : Entry α)
deriving Repr, DecidableEq

def ShallowOrFullEntry.hash {α : Type} : ShallowOrFullEntry α → Hash
  | .shallow entry => entry.hash
  | .full entry => entry.hash

/-- `Change`: the added entries with whether they were stored as heads. -/
structure Change (α : Type) where
  added : List (Bool × Entry α)
  removed : List (ShallowOrFullEntry α)

/-! ### Sorting -/

/-- `SortFn`: the order of its sort keys, and its queries for the entries before
and after one. -/
structure SortFn where
  sort : SortableEntry → SortableEntry → Ordering
  before : SortableEntry → SortableEntry → Bool
  after : SortableEntry → SortableEntry → Bool

/-- By wall time, then by logical time. -/
def compareTimestamp (a b : Timestamp) : Ordering :=
  (compare a.wallTime b.wallTime).then (compare a.logical b.logical)

def LastWriteWins : SortFn where
  sort a b := compareTimestamp a.meta.clock.timestamp b.meta.clock.timestamp
  before entry other :=
    decide (other.meta.clock.timestamp.wallTime <
      entry.meta.clock.timestamp.wallTime)
  after entry other :=
    decide (entry.meta.clock.timestamp.wallTime <
      other.meta.clock.timestamp.wallTime)

def FirstWriteWins : SortFn where
  sort a b := compareTimestamp b.meta.clock.timestamp a.meta.clock.timestamp
  before entry other :=
    decide (entry.meta.clock.timestamp.wallTime <
      other.meta.clock.timestamp.wallTime)
  after entry other :=
    decide (other.meta.clock.timestamp.wallTime <
      entry.meta.clock.timestamp.wallTime)

/-- `iterate` without a query, on the results of a query. -/
def SortFn.sorted (sortFn : SortFn) (entries : List ShallowEntry) :
    List ShallowEntry :=
  entries.insertionSort
    (fun a b => sortFn.sort a.toSortableEntry b.toSortableEntry ≠ .gt)

/-- The same with the directions of all keys turned around. -/
def SortFn.sortedReversed (sortFn : SortFn) (entries : List ShallowEntry) :
    List ShallowEntry :=
  entries.insertionSort
    (fun a b => sortFn.sort b.toSortableEntry a.toSortableEntry ≠ .gt)

end Log
end Peerbit
