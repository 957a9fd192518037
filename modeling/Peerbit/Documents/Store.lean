import Peerbit.Log.Resolve

/-!
# The document store

A document store is a log of operations that put and delete documents, and an
index with a row for each document id.  The store accepts an entry after looking
at the history of the row that is there, and on every change of the log it
writes the rows of the added and the removed entries.

The documents are plain values, which can be decoded.  The store also records
the changes it handles, oldest first; nothing reads this record but the proofs.
-/

namespace Peerbit
namespace Documents

open Log

/-- `Operation`.  The operations with string keys, which older versions wrote,
are read as these. -/
inductive Operation (K D : Type) where
  | put (data : D)
  | delete (key : K)
deriving Repr, DecidableEq

structure Context where
  created : Nat
  modified : Nat
  head : Hash
  gid : String
  size : Nat
deriving Repr, DecidableEq

/-- `IDocumentWithContext`. -/
structure IndexedDocument (I : Type) where
  value : I
  context : Context
deriving Repr, DecidableEq

/-- A change with the entry index that its handler finds. -/
structure HandledChange (K D : Type) where
  change : Change (Operation K D)
  entryIndex : EntryIndex (Operation K D)

/-- The options of a store. -/
structure DocumentsOptions (K D I : Type) where
  immutable : Bool
  idResolver : D → K
  transformer : D → Context → I
  /-- Whether documents are indexed as they are, and then the cast back. -/
  indexedTypeIsDocumentType : Bool
  asDocument : I → D
  /-- The checks of the shared log: signatures and replicas. -/
  sharedLogCanAppend : Entry (Operation K D) → Bool
  canPerform : Entry (Operation K D) → Bool
  /-- The context of the first result that other peers give for a key. -/
  remoteResult : K → Option Context
  /-- The recursion depth for walking through a history. -/
  depth : Nat

structure DocumentsState (K D I : Type) where
  rows : List (K × IndexedDocument I)
  resolverCache : Utils.Cache K D
  changes : List (HandledChange K D)

def DocumentsState.empty {K D I : Type} : DocumentsState K D I where
  rows := []
  resolverCache := Utils.Cache.empty 10 none
  changes := []

section Store

variable {K D I : Type} [DecidableEq K]

/-! ### The index of documents -/

namespace DocumentsState

/-- `index.get`. -/
def row (s : DocumentsState K D I) (id : K) : Option (IndexedDocument I) :=
  (s.rows.find? (fun r => r.1 = id)).map Prod.snd

/-- `index.put`. -/
def setRow (s : DocumentsState K D I) (id : K) (row : IndexedDocument I) :
    DocumentsState K D I :=
  { s with rows := (id, row) :: s.rows.filter (fun r => r.1 ≠ id) }

theorem row_setRow (s : DocumentsState K D I) (id : K)
    (row : IndexedDocument I) : (s.setRow id row).row id = some row := by
  simp [setRow, DocumentsState.row]

/-- The context in `DocumentIndex.put`. -/
def contextOf (s : DocumentsState K D I) (entry : Entry (Operation K D))
    (id : K) : Context :=
  let wallTime := entry.meta.clock.timestamp.wallTime
  { created :=
      match s.row id with
      | some existing =>
          if existing.context.created = 0 then wallTime
          else existing.context.created
      | none => wallTime
    modified := wallTime
    head := entry.hash
    gid := entry.meta.gid
    size := entry.payloadSize }

/-- `DocumentIndex.del`. -/
def del (s : DocumentsState K D I) (key : K) : DocumentsState K D I :=
  { s with
    resolverCache := s.resolverCache.del key
    rows := s.rows.filter (fun r => r.1 ≠ key) }

end DocumentsState

variable (options : DocumentsOptions K D I)

/-- `DocumentIndex.put`. -/
def indexPut (s : DocumentsState K D I) (value : D)
    (entry : Entry (Operation K D)) (id : K) : DocumentsState K D I :=
  let context := s.contextOf entry id
  { s with resolverCache := s.resolverCache.add 0 id (some value) 1 }.setRow id
    { value := options.transformer value context, context := context }

theorem row_indexPut (s : DocumentsState K D I) (value : D)
    (entry : Entry (Operation K D)) (id : K) :
    (indexPut options s value entry id).row id =
      some
        { value := options.transformer value (s.contextOf entry id)
          context := s.contextOf entry id } :=
  DocumentsState.row_setRow _ _ _

/-- `resolveDocument`. -/
def resolveDocument (s : DocumentsState K D I)
    (index : EntryIndex (Operation K D)) (id : K) (row : IndexedDocument I) :
    Except LogError (Option D) × DocumentsState K D I ×
      EntryIndex (Operation K D) :=
  let cached := s.resolverCache.get 0 id
  let s := { s with resolverCache := cached.2 }
  match cached.1 with
  | some (some value) => (.ok (some value), s, index)
  | _ =>
      if options.indexedTypeIsDocumentType then
        (.ok (some (options.asDocument row.value)), s, index)
      else
        match index.get row.context.head with
        | (none, index) => (.ok none, s, index)
        | (some head, index) =>
            match head.payload with
            | .put data => (.ok (some data), s, index)
            | .delete _ =>
                (.error (.unexpectedValueType row.context.head), s, index)

/-- `DocumentIndex.get` from the local index. -/
def indexGet (s : DocumentsState K D I) (index : EntryIndex (Operation K D))
    (key : K) :
    Except LogError (Option D) × DocumentsState K D I ×
      EntryIndex (Operation K D) :=
  match s.row key with
  | none => (.ok none, s, index)
  | some row => resolveDocument options s index key row

/-- `getDetailed` without resolving the document; the local result comes
first, and its head is loaded with it. -/
def getDetailed (s : DocumentsState K D I)
    (index : EntryIndex (Operation K D)) (key : K) (remote : Bool) :
    Option Context × EntryIndex (Operation K D) :=
  match s.row key with
  | some row => (some row.context, (index.get row.context.head).2)
  | none => (if remote then options.remoteResult key else none, index)

/-! ### Accepting entries -/

/-- The loop of `pointsToHistory`: whether the next is the given entry, or comes
before it in its history. -/
def pointsToHistory (next : Hash) :
    Nat → EntryIndex (Operation K D) → Option (Entry (Operation K D)) →
      Except LogError Bool × EntryIndex (Operation K D)
  | _, index, none => (.ok false, index)
  | depth, index, some current =>
      if current.hash = next then
        (.ok true, index)
      else
        match current.meta.next, depth with
        | [], _ => (.ok false, index)
        | _ :: _, 0 => (.error .depth, index)
        | n :: _, depth + 1 =>
            let resolved := index.get n
            pointsToHistory next depth resolved.2 resolved.1

/-- `_canAppend` for a put of a document. -/
def canAppendPut (s : DocumentsState K D I) (index : EntryIndex (Operation K D))
    (entry : Entry (Operation K D)) (data : D) :
    Except LogError Bool × EntryIndex (Operation K D) :=
  let existing :=
    getDetailed options s index (options.idResolver data) options.immutable
  let index := existing.2
  match existing.1 with
  | none => (.ok (decide (entry.meta.next.length = 0)), index)
  | some context =>
      if context.head = entry.hash then
        (.ok (decide (entry.meta.next.length = 0)), index)
      else if options.immutable then
        -- the oldest entry is picked
        if context.created < entry.meta.clock.timestamp.wallTime then
          (.ok false, index)
        else
          (.ok (decide (entry.meta.next.length = 0)), index)
      else
        match entry.meta.next with
        | [next] =>
            match index.getOrThrow context.head with
            | (.error e, index) => (.error e, index)
            | (.ok none, index) => (.ok false, index)
            | (.ok (some prevEntry), index) =>
                pointsToHistory next options.depth index (some prevEntry)
        | _ => (.ok false, index)

/-- `_canAppend` for a delete. -/
def canAppendDelete (s : DocumentsState K D I)
    (index : EntryIndex (Operation K D)) (entry : Entry (Operation K D))
    (key : K) : Except LogError Bool × EntryIndex (Operation K D) :=
  match entry.meta.next with
  | [next] =>
      let existing := getDetailed options s index key options.immutable
      match existing.1 with
      | none => (.ok true, existing.2)
      | some context =>
          let doc := existing.2.get context.head
          pointsToHistory next options.depth doc.2 doc.1
  | _ => (.ok false, index)

/-- `_canAppend`. -/
def canAppendHistory (s : DocumentsState K D I)
    (index : EntryIndex (Operation K D)) (entry : Entry (Operation K D)) :
    Except LogError Bool × EntryIndex (Operation K D) :=
  match entry.payload with
  | .put data => canAppendPut options s index entry data
  | .delete key => canAppendDelete options s index entry key

/-- `canAppend`, after the checks of the shared log. -/
def canAppend (s : DocumentsState K D I) (index : EntryIndex (Operation K D))
    (entry : Entry (Operation K D)) :
    Except LogError Bool × EntryIndex (Operation K D) :=
  if options.sharedLogCanAppend entry then
    match canAppendHistory options s index entry with
    | (.ok true, index) => (.ok (options.canPerform entry), index)
    | refused => refused
  else
    (.ok false, index)

/-! ### Handling changes -/

/-- `removedSet`. -/
def removedHashes (change : Change (Operation K D)) : List Hash :=
  change.removed.map ShallowOrFullEntry.hash

def resolveRemovedEntry (index : EntryIndex (Operation K D)) :
    ShallowOrFullEntry (Operation K D) →
      Except LogError (Option (Entry (Operation K D))) ×
        EntryIndex (Operation K D)
  | .full e => (.ok (some e), index)
  | .shallow e => index.getOrThrow e.hash

/-- The removed entries, resolved one after the other. -/
def resolveRemoved :
    List (ShallowOrFullEntry (Operation K D)) → EntryIndex (Operation K D) →
      Except LogError (List (Entry (Operation K D))) ×
        EntryIndex (Operation K D)
  | [], index => (.ok [], index)
  | r :: removed, index =>
      match resolveRemovedEntry index r with
      | (.error e, index) => (.error e, index)
      | (.ok entry, index) =>
          match resolveRemoved removed index with
          | (.error e, index) => (.error e, index)
          | (.ok entries, index) => (.ok (entry.toList ++ entries), index)

/-- The state of the loop of `handleChanges`. -/
structure ChangesLoop (K D I : Type) where
  app : DocumentsState K D I
  entryIndex : EntryIndex (Operation K D)
  modified : List K

/-- The body of the loop of `handleChanges`. -/
def handleItem (removedSet : List Hash) (s : ChangesLoop K D I)
    (item : Entry (Operation K D)) : Except LogError Unit × ChangesLoop K D I :=
  match item.payload with
  | .put data =>
      let key := options.idResolver data
      if key ∈ s.modified then
        (.ok (), s)
      else if item.hash ∈ removedSet then
        (.ok (), { s with app := s.app.del key, modified := key :: s.modified })
      else
        (.ok (),
          { s with
            app := indexPut options s.app data item key
            modified := key :: s.modified })
  | .delete key =>
      if key ∈ s.modified then
        (.ok (), s)
      else
        match indexGet options s.app s.entryIndex key with
        | (.error e, app, index) =>
            (.error e, { s with app := app, entryIndex := index })
        | (.ok none, app, index) =>
            (.ok (), { s with app := app, entryIndex := index })
        | (.ok (some _), app, index) =>
            (.ok (),
              { app := app.del key, entryIndex := index
                modified := key :: s.modified })

/-- The loop of `handleChanges`. -/
def handleItems (removedSet : List Hash) :
    List (Entry (Operation K D)) → ChangesLoop K D I →
      Except LogError Unit × ChangesLoop K D I
  | [], s => (.ok (), s)
  | item :: items, s =>
      match handleItem options removedSet s item with
      | (.error e, s) => (.error e, s)
      | (.ok _, s) => handleItems removedSet items s

/-- `handleChanges`. -/
def handleChanges (s : DocumentsState K D I)
    (index : EntryIndex (Operation K D)) (change : Change (Operation K D)) :
    Except LogError Unit × DocumentsState K D I × EntryIndex (Operation K D) :=
  let s :=
    { s with
      changes :=
        s.changes ++
          [{ change := change, entryIndex := index }] }
  match resolveRemoved change.removed index with
  | (.error e, index) => (.error e, s, index)
  | (.ok removed, index) =>
      let handled :=
        handleItems options (removedHashes change)
          (change.added.map Prod.snd ++ removed)
          { app := s, entryIndex := index, modified := [] }
      (handled.1, handled.2.app, handled.2.entryIndex)

/-! ### The store -/

/-- The log of a store: the given one, with the handlers of the store. -/
def documentsEnv (log : LogEnv (Operation K D) (DocumentsState K D I)) :
    LogEnv (Operation K D) (DocumentsState K D I) :=
  { log with
    canAppend := fun app index entry =>
      let answer := canAppend options app index entry
      (answer.1, { app := app, cache := answer.2.cache })
    onChange := fun app index change =>
      let handled := handleChanges options app index change
      (handled.1, { app := handled.2.1, cache := handled.2.2.cache }) }

abbrev StoreState (K D I : Type) :=
  LogState (Operation K D) (DocumentsState K D I)

variable (log : LogEnv (Operation K D) (DocumentsState K D I))

/-- `_resolveEntry`: from the log, or from the blocks. -/
def resolveEntry (s : StoreState K D I) (hash : Hash) :
    Except LogError (Entry (Operation K D)) × StoreState K D I :=
  match s.get hash with
  | (some entry, s) => (.ok entry, s)
  | (none, s) =>
      match fromMultihash log s hash with
      | some entry => (.ok entry, s)
      | none => (.error (.failedToResolveBlock hash), s)

/-- `getDetailed` of a store between its changes. -/
def existingDocument (s : StoreState K D I) (key : K) (remote : Bool) :
    Option Context × StoreState K D I :=
  let existing := getDetailed options s.app s.entryIndex key remote
  (existing.1, { s with entryIndex := existing.2 })


/-- The options that `put` and `del` append with, once they know the existing
document; given nexts take precedence over its head. -/
def appendOptionsFor (appendOptions : AppendOptions (Operation K D))
    (existing : Option Context) (s : StoreState K D I) :
    Except LogError (AppendOptions (Operation K D)) × StoreState K D I :=
  match existing with
  | none =>
      (.ok { appendOptions with next := appendOptions.next.or (some []) }, s)
  | some context =>
      match resolveEntry log s context.head with
      | (.error e, s) => (.error e, s)
      | (.ok entry, s) =>
          (.ok
            { appendOptions with
              next := appendOptions.next.or (some [.entry entry]) }, s)

/-- `put` up to the append.  With `unique` the index is not asked, with
`checkRemote` other peers are asked too. -/
def preparePut (s : StoreState K D I) (doc : D)
    (appendOptions : AppendOptions (Operation K D))
    (unique checkRemote : Bool) :
    Except LogError (AppendOptions (Operation K D)) × StoreState K D I :=
  let existing :=
    if unique then (none, s)
    else existingDocument options s (options.idResolver doc) checkRemote
  appendOptionsFor log appendOptions existing.1 existing.2

/-- `del` up to the append. -/
def prepareDel (s : StoreState K D I) (key : K)
    (appendOptions : AppendOptions (Operation K D)) :
    Except LogError (AppendOptions (Operation K D)) × StoreState K D I :=
  match existingDocument options s key true with
  | (none, s) => (.error .noEntryWithKey, s)
  | (some context, s) =>
      appendOptionsFor log { appendOptions with type := .CUT } (some context) s

def put (fuel : Nat) (s : StoreState K D I) (doc : D)
    (appendOptions : AppendOptions (Operation K D))
    (unique checkRemote : Bool) :
    Except LogError (Entry (Operation K D)) × StoreState K D I :=
  match preparePut options log s doc appendOptions unique checkRemote with
  | (.error e, s) => (.error e, s)
  | (.ok appendOptions, s) =>
      append (documentsEnv options log) fuel s (.put doc) appendOptions

def del (fuel : Nat) (s : StoreState K D I) (key : K)
    (appendOptions : AppendOptions (Operation K D)) :
    Except LogError (Entry (Operation K D)) × StoreState K D I :=
  match prepareDel options log s key appendOptions with
  | (.error e, s) => (.error e, s)
  | (.ok appendOptions, s) =>
      append (documentsEnv options log) fuel s (.delete key) appendOptions

/-- The error of a result. -/
def thrown {β : Type} : Except LogError β → Option LogError
  | .error e => some e
  | .ok _ => none

/-- An operation on a store. -/
inductive StoreOp (K D : Type) where
  | put (doc : D) (appendOptions : AppendOptions (Operation K D))
      (unique checkRemote : Bool)
  | del (key : K) (appendOptions : AppendOptions (Operation K D))
  | join (entries : List (Entry (Operation K D)))
      (joinOptions : JoinOptions (Operation K D))

/-- What an operation throws, if it does, and the state it leaves behind. -/
def StoreOp.run (fuel : Nat) (s : StoreState K D I) :
    StoreOp K D → Option LogError × StoreState K D I
  | .put doc appendOptions unique checkRemote =>
      let r := Documents.put options log fuel s doc appendOptions unique
        checkRemote
      (thrown r.1, r.2)
  | .del key appendOptions =>
      let r := Documents.del options log fuel s key appendOptions
      (thrown r.1, r.2)
  | .join entries joinOptions =>
      let r := Log.join (documentsEnv options log) fuel s entries joinOptions
      (thrown r.1, r.2)

end Store

end Documents
end Peerbit
