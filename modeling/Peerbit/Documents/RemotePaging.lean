import Peerbit.Documents.Store
import Peerbit.Indexer.IndexIterators

/-!
# Paging for a remote peer

A peer sends a search request, and collects what is left with further requests
under the same id.  The results of a page that do not fit into a batch wait in a
queue, from where the next page takes them first.

When a page takes the last results of the index, its iterator is dropped, and
with it the request that a collect request is answered for.  The results that
still wait in the queue are then taken out without being answered
(`delivered_paging_iff`).

The tables of queues and of iterators are read and written under the id of the
request only, so that what they hold under it is the state.  The timer that
drops a queue after a minute is left out, and so is the gid peer history, which
a request that replicates is written to.
-/

namespace Peerbit
namespace Documents

open Log Indexer

def MAX_BATCH_SIZE : Nat := 5000000

/-- `SearchRequest` and `SearchRequestIndexed`. -/
inductive SearchKind where
  | documents
  | indexed
deriving Repr, DecidableEq

structure SearchQuery (Q : Type) where
  kind : SearchKind
  /-- The query and the sort. -/
  query : Q
  fetch : Nat

inductive RemoteQuery (Q : Type) where
  | search (request : SearchQuery Q)
  | collectNext (amount : Nat)

inductive SearchResult (D I E : Type) where
  | value (context : Context) (value : D) (indexedValue : I)
  | indexed (context : Context) (indexedValue : I) (entries : List E)

def SearchResult.indexedValue {D I E : Type} : SearchResult D I E → I
  | .value _ _ indexedValue => indexedValue
  | .indexed _ indexedValue _ => indexedValue

structure SearchResults (D I E : Type) where
  results : List (SearchResult D I E)
  kept : Nat

/-- What a page reads besides its queues: the results that the index selects
for a query, in its order, the filter of the store, and the log. -/
structure QuerySources (P Q D I E : Type) where
  iterator : IndexIterator (IndexedDocument I)
  index : Q → List (IndexedDocument I)
  canRead : Option (I → P → Bool)
  resolveDocument : IndexedDocument I → Option D
  logGet : Hash → Option E

/-- A value of `ResumableIterators.queues`. -/
structure CachedIterator {P Q D I E : Type} (src : QuerySources P Q D I E) where
  iterator : src.iterator.State
  request : SearchQuery Q

/-- A value of `_resultQueue`. -/
structure ResultQueue (P I : Type) where
  from_ : P
  queue : List (IndexedDocument I)
  keptInIndex : Nat

structure PagingState {P Q D I E : Type} (src : QuerySources P Q D I E) where
  resultQueue : Option (ResultQueue P I)
  queues : Option (CachedIterator src)

section Paging

variable {P Q D I E : Type} [DecidableEq P]

namespace QuerySources

variable (src : QuerySources P Q D I E)

/-! ### Resumable iterators -/

/-- `ResumableIterators.next`, with the iterator that it reads. -/
def next (amount : Nat) (cached : CachedIterator src) :
    List (IndexedDocument I) × Option (CachedIterator src) :=
  let page := src.iterator.next cached.iterator amount
  (page.1,
    if src.iterator.done page.2 = some true then none
    else some { cached with iterator := page.2 })

def iterateAndFetch (request : SearchQuery Q) :
    List (IndexedDocument I) × Option (CachedIterator src) :=
  src.next request.fetch
    { iterator := src.iterator.iterate (src.index request.query)
      request := request }

def getPending (queues : Option (CachedIterator src)) :
    Option Nat × Option (CachedIterator src) :=
  match queues with
  | none => (none, none)
  | some cached =>
      let pending := src.iterator.pending cached.iterator
      (some pending.1, some { cached with iterator := pending.2 })

/-! ### Pages -/

/-- The request that a query is answered for, its results from the index, and
the iterator that stays. -/
def fetchIndexed (prevQueued : Option (ResultQueue P I))
    (queues : Option (CachedIterator src)) :
    RemoteQuery Q → Except String (Option (SearchQuery Q) ×
      List (IndexedDocument I) × Option (CachedIterator src))
  | .search request => .ok (some request, src.iterateAndFetch request)
  | .collectNext amount =>
      let fromQuery := queues.map CachedIterator.request
      if prevQueued.map ResultQueue.keptInIndex = some 0 then
        .ok (fromQuery, [], queues)
      else
        match queues with
        | none => .error "Missing iterator for request"
        | some cached => .ok (fromQuery, src.next amount cached)

def isReadable (from_ : P) (result : IndexedDocument I) : Bool :=
  match src.canRead with
  | none => true
  | some canRead => canRead result.value from_

/-- What is sent of a result, if it is sent. -/
def toResult (fromQuery : Option (SearchQuery Q)) (from_ : P)
    (result : IndexedDocument I) : Option (SearchResult D I E) :=
  if src.isReadable from_ result then
    match fromQuery.map SearchQuery.kind with
    | some .documents =>
        (src.resolveDocument result).map
          (fun value => .value result.context value result.value)
    | some .indexed =>
        some (.indexed result.context result.value
          (src.logGet result.context.head).toList)
    | none => none
  else none

/-- The loop over the results: what is sent, and what is put into the queue. -/
def filterResults (fromQuery : Option (SearchQuery Q)) (from_ : P)
    (isLocal : Bool) : Nat → List (IndexedDocument I) →
      List (SearchResult D I E) × List (IndexedDocument I)
  | _, [] => ([], [])
  | resultSize, result :: toIterate =>
      let resultSize := resultSize + result.context.size
      let rest := filterResults fromQuery from_ isLocal resultSize toIterate
      if !isLocal && decide (MAX_BATCH_SIZE < resultSize) then
        (rest.1, result :: rest.2)
      else
        ((src.toResult fromQuery from_ result).toList ++ rest.1, rest.2)

def processQuery (s : PagingState src) (query : RemoteQuery Q) (from_ : P)
    (isLocal : Bool) : Except String (SearchResults D I E × PagingState src) :=
  let prevQueued := if isLocal then none else s.resultQueue
  if prevQueued.any (fun queued => queued.from_ ≠ from_) then
    .error "Different from in queued results"
  else
    match src.fetchIndexed prevQueued s.queues query with
    | .error e => .error e
    | .ok (fromQuery, indexedResult, queues) =>
        let toIterate := (prevQueued.elim [] ResultQueue.queue) ++ indexedResult
        let pending := src.getPending queues
        let kept := pending.1.getD 0
        let filtered := src.filterResults fromQuery from_ isLocal 0 toIterate
        let results :=
          { results := filtered.1, kept := kept + filtered.2.length }
        let resultQueue :=
          if isLocal then s.resultQueue
          else if results.kept = 0 then none
          else some { from_ := from_, queue := filtered.2, keptInIndex := kept }
        .ok (results, { resultQueue := resultQueue, queues := pending.2 })

/-- The answers to the queries of a peer, up to the first one that keeps
nothing. -/
def paging (from_ : P) (s : PagingState src) :
    List (RemoteQuery Q) → Except String (List (SearchResults D I E))
  | [] => .ok []
  | query :: queries =>
      match src.processQuery s query from_ false with
      | .error e => .error e
      | .ok (results, s) =>
          if results.kept = 0 then .ok [results]
          else (paging from_ s queries).map (results :: ·)

end QuerySources

/-- The last answer keeps nothing. -/
def Complete (answers : List (SearchResults D I E)) : Prop :=
  ∃ last, answers.getLast? = some last ∧ last.kept = 0

/-- The documents of the answers, in their order. -/
def delivered (answers : List (SearchResults D I E)) : List I :=
  answers.flatMap (fun results => results.results.map SearchResult.indexedValue)

/-! ### What a page takes and leaves -/

/-- The results that are taken in the batch. -/
def fits : Nat → List (IndexedDocument I) → List (IndexedDocument I)
  | _, [] => []
  | resultSize, result :: toIterate =>
      if MAX_BATCH_SIZE < resultSize + result.context.size then []
      else result :: fits (resultSize + result.context.size) toIterate

/-- The results that are left for the queue. -/
def overflow : Nat → List (IndexedDocument I) → List (IndexedDocument I)
  | _, [] => []
  | resultSize, result :: toIterate =>
      if MAX_BATCH_SIZE < resultSize + result.context.size then result :: toIterate
      else overflow (resultSize + result.context.size) toIterate

theorem fits_append_overflow (resultSize : Nat) (l : List (IndexedDocument I)) :
    fits resultSize l ++ overflow resultSize l = l := by
  induction l generalizing resultSize with
  | nil => rfl
  | cons result l ih =>
      rw [fits, overflow]
      split
      · rfl
      · rw [List.cons_append, ih]

/-- A batch takes a result that is not too large for it. -/
theorem length_overflow_lt {l : List (IndexedDocument I)} (hne : l ≠ [])
    (hsize : ∀ result ∈ l, result.context.size ≤ MAX_BATCH_SIZE) :
    (overflow 0 l).length < l.length := by
  cases l with
  | nil => exact absurd rfl hne
  | cons result l =>
      have hle := hsize result List.mem_cons_self
      have hsplit := congrArg List.length
        (fits_append_overflow (0 + result.context.size) l)
      rw [List.length_append] at hsplit
      rw [overflow, if_neg (by omega), List.length_cons]
      omega

namespace QuerySources

variable (src : QuerySources P Q D I E)

omit [DecidableEq P] in
theorem filterResults_full {fromQuery : Option (SearchQuery Q)} {from_ : P}
    {resultSize : Nat} (hfull : MAX_BATCH_SIZE < resultSize)
    (l : List (IndexedDocument I)) :
    src.filterResults fromQuery from_ false resultSize l = ([], l) := by
  induction l generalizing resultSize with
  | nil => rfl
  | cons result l ih =>
      have hnext : MAX_BATCH_SIZE < resultSize + result.context.size := by omega
      simp [filterResults, ih hnext, hnext]

omit [DecidableEq P] in
theorem filterResults_eq {fromQuery : Option (SearchQuery Q)} {from_ : P}
    (resultSize : Nat) (l : List (IndexedDocument I)) :
    src.filterResults fromQuery from_ false resultSize l =
      ((fits resultSize l).filterMap (src.toResult fromQuery from_),
        overflow resultSize l) := by
  induction l generalizing resultSize with
  | nil => rfl
  | cons result l ih =>
      by_cases hfull : MAX_BATCH_SIZE < resultSize + result.context.size
      · simp [filterResults, fits, overflow, hfull, src.filterResults_full hfull]
      · cases hresult : src.toResult fromQuery from_ result <;>
          simp [filterResults, fits, overflow, hfull, ih, hresult]

/-- The page of a query takes the last results of the index. -/
def Exhausts (s : PagingState src) : RemoteQuery Q → Prop
  | .search request =>
      src.iterator.done (src.iterator.next
        (src.iterator.iterate (src.index request.query)) request.fetch).2 = some true
  | .collectNext amount =>
      s.resultQueue.map ResultQueue.keptInIndex ≠ some 0 ∧
        ∃ cached, s.queues = some cached ∧
          src.iterator.done (src.iterator.next cached.iterator amount).2 = some true

/-- The results that a query goes through. -/
def toIterate (s : PagingState src) (query : RemoteQuery Q) :
    List (IndexedDocument I) :=
  s.resultQueue.elim [] ResultQueue.queue ++
    match src.fetchIndexed s.resultQueue s.queues query with
    | .ok (_, indexedResult, _) => indexedResult
    | .error _ => []

/-- When the iterator and its request are dropped, no readable result waits. -/
def AnswersLast (from_ : P) (s : PagingState src) (query : RemoteQuery Q) : Prop :=
  src.Exhausts s query →
    ∀ result ∈ overflow 0 (src.toIterate s query), src.isReadable from_ result = false

/-- All queries up to the one that keeps nothing answer their last results. -/
def KeepsAnswering (from_ : P) (s : PagingState src) : List (RemoteQuery Q) → Prop
  | [] => True
  | query :: queries =>
      src.AnswersLast from_ s query ∧
        ∀ results s', src.processQuery s query from_ false = .ok (results, s') →
          results.kept ≠ 0 → KeepsAnswering from_ s' queries

/-! ### Readable and answered results -/

/-- A request for documents needs the document of a result. -/
def resolves (request : SearchQuery Q) (result : IndexedDocument I) : Bool :=
  match request.kind with
  | .documents => (src.resolveDocument result).isSome
  | .indexed => true

/-- The documents that a peer can read. -/
def readable (from_ : P) (l : List (IndexedDocument I)) : List I :=
  (l.filter (src.isReadable from_)).map IndexedDocument.value

/-- The documents that are sent when the request is still known. -/
def answered (request : SearchQuery Q) (from_ : P)
    (l : List (IndexedDocument I)) : List I :=
  (l.filterMap (src.toResult (some request) from_)).map SearchResult.indexedValue

variable {src} {request : SearchQuery Q} {from_ : P}
variable {l l' : List (IndexedDocument I)}

omit [DecidableEq P] in
theorem readable_append :
    src.readable from_ (l ++ l') = src.readable from_ l ++ src.readable from_ l' := by
  simp [readable]

omit [DecidableEq P] in
theorem readable_eq_nil :
    src.readable from_ l = [] ↔ ∀ result ∈ l, src.isReadable from_ result = false := by
  simp [readable]

omit [DecidableEq P] in
theorem answered_eq_filter :
    src.answered request from_ l =
      ((l.filter (src.isReadable from_)).filter (src.resolves request)).map
        IndexedDocument.value := by
  induction l with
  | nil => rfl
  | cons result l ih =>
      rw [answered] at ih ⊢
      by_cases hread : src.isReadable from_ result
      · rw [List.filter_cons_of_pos hread, List.filterMap_cons]
        cases hkind : request.kind with
        | indexed => simp [toResult, hread, hkind, resolves, SearchResult.indexedValue, ih]
        | documents =>
            cases hvalue : src.resolveDocument result with
            | none => simp [toResult, hread, hkind, resolves, hvalue, ih]
            | some value =>
                simp [toResult, hread, hkind, resolves, hvalue,
                  SearchResult.indexedValue, ih]
      · rw [List.filter_cons_of_neg hread, List.filterMap_cons_none (by
          rw [toResult, if_neg hread])]
        exact ih

omit [DecidableEq P] in
theorem answered_sublist :
    (src.answered request from_ l).Sublist (src.readable from_ l) := by
  rw [answered_eq_filter]
  exact List.Sublist.map _ List.filter_sublist

omit [DecidableEq P] in
theorem answered_eq_readable :
    src.answered request from_ l = src.readable from_ l ↔
      ∀ result ∈ l, src.isReadable from_ result → src.resolves request result := by
  have hlength : src.answered request from_ l = src.readable from_ l ↔
      ((l.filter (src.isReadable from_)).filter (src.resolves request)).length =
        (l.filter (src.isReadable from_)).length := by
    constructor
    · intro h
      have hlen := congrArg List.length h
      rwa [answered_eq_filter, readable, List.length_map, List.length_map] at hlen
    · intro h
      refine answered_sublist.eq_of_length ?_
      rwa [answered_eq_filter, readable, List.length_map, List.length_map]
  rw [hlength, List.length_filter_eq_length_iff]
  simp

omit [DecidableEq P] in
/-- A request that is not known any more is not answered. -/
theorem filterMap_toResult_none :
    l.filterMap (src.toResult none from_) = [] := by
  simp [List.filterMap_eq_nil_iff, toResult]

/-! ### States between the pages -/

/-- The request is known, and its iterator has `left`. -/
structure Resumable (request : SearchQuery Q) (from_ : P)
    (queue left : List (IndexedDocument I)) (s : PagingState src) : Prop where
  resultQueue : s.resultQueue = some
    { from_ := from_, queue := queue, keptInIndex := left.length }
  queues : ∃ cached, s.queues = some cached ∧ cached.request = request ∧
    src.iterator.left cached.iterator = left ∧ (src.iterator.done cached.iterator).isSome

/-- The request is dropped, and results still wait. -/
structure Dropped (from_ : P) (queue : List (IndexedDocument I))
    (s : PagingState src) : Prop where
  resultQueue : s.resultQueue = some
    { from_ := from_, queue := queue, keptInIndex := 0 }
  queues : s.queues = none

/-- The iterator after a page: it is gone, or it has what is left. -/
def Stays (request : SearchQuery Q) (rest : List (IndexedDocument I))
    (exhausts : Prop) (queues : Option (CachedIterator src)) : Prop :=
  exhausts ∧ queues = none ∧ rest = [] ∨
    ¬ exhausts ∧ ∃ cached, queues = some cached ∧ cached.request = request ∧
      src.iterator.left cached.iterator = rest ∧ (src.iterator.done cached.iterator).isSome

/-- A query takes `page` from the index after the results in the queue, and
leaves `rest` there. -/
structure Fetches (request : SearchQuery Q) (from_ : P)
    (queue page rest : List (IndexedDocument I)) (s : PagingState src)
    (query : RemoteQuery Q) : Prop where
  sender : ∀ queued, s.resultQueue = some queued → queued.from_ = from_
  queue : s.resultQueue.elim [] ResultQueue.queue = queue
  fetched : ∃ queues, src.fetchIndexed s.resultQueue s.queues query =
    .ok (some request, page, queues) ∧ Stays request rest (src.Exhausts s query) queues

variable {s : PagingState src} {queue left page rest : List (IndexedDocument I)}
variable {query : RemoteQuery Q} {amount : Nat}

omit [DecidableEq P] in
theorem next_spec (cached : CachedIterator src) (hamount : 0 < amount) :
    (src.next amount cached).1 = (src.iterator.left cached.iterator).take amount ∧
      Stays cached.request ((src.iterator.left cached.iterator).drop amount)
        (src.iterator.done (src.iterator.next cached.iterator amount).2 = some true)
        (src.next amount cached).2 := by
  refine ⟨src.iterator.next_fst _ hamount, ?_⟩
  have hleft := src.iterator.left_next cached.iterator hamount
  by_cases hdone :
      src.iterator.done (src.iterator.next cached.iterator amount).2 = some true
  · refine .inl ⟨hdone, if_pos hdone, ?_⟩
    rw [← hleft, src.iterator.left_of_done _ hdone]
  · exact .inr ⟨hdone, _, if_neg hdone, rfl, hleft, src.iterator.done_next _ hamount⟩

omit [DecidableEq P] in
theorem fetches_search (hfree : s.resultQueue = none) (hfetch : 0 < request.fetch) :
    Fetches request from_ [] ((src.index request.query).take request.fetch)
      ((src.index request.query).drop request.fetch) s (.search request) where
  sender queued hqueued := by
    rw [hfree] at hqueued
    cases hqueued
  queue := by rw [hfree]; rfl
  fetched := by
    let cached : CachedIterator src :=
      { iterator := src.iterator.iterate (src.index request.query)
        request := request }
    have hnext := next_spec cached hfetch
    rw [src.iterator.left_iterate] at hnext
    refine ⟨_, ?_, hnext.2⟩
    rw [fetchIndexed, ← hnext.1]
    rfl

omit [DecidableEq P] in
theorem fetches_collectNext (h : Resumable request from_ queue left s)
    (hamount : 0 < amount) :
    Fetches request from_ queue (left.take amount) (left.drop amount) s
      (.collectNext amount) where
  sender queued hqueued := by
    rw [h.resultQueue] at hqueued
    rw [← Option.some.inj hqueued]
  queue := by rw [h.resultQueue]; rfl
  fetched := by
    obtain ⟨cached, hqueues, rfl, rfl, hfetched⟩ := h.queues
    by_cases hkept : s.resultQueue.map ResultQueue.keptInIndex = some 0
    · have hnil : src.iterator.left cached.iterator = [] := by
        rw [h.resultQueue] at hkept
        exact List.length_eq_zero_iff.mp (Option.some.inj hkept)
      have hnot : ¬ src.Exhausts s (.collectNext amount) := fun hex => hex.1 hkept
      refine ⟨some cached, ?_, .inr ⟨hnot, cached, rfl, rfl, ?_, hfetched⟩⟩
      · rw [hqueues, fetchIndexed, if_pos hkept, hnil, List.take_nil]
        rfl
      · rw [hnil, List.drop_nil]
    · have hnext := next_spec cached hamount
      refine ⟨(src.next amount cached).2, ?_, ?_⟩
      · rw [hqueues, fetchIndexed, if_neg hkept, ← hnext.1]
        rfl
      · have hex : src.Exhausts s (.collectNext amount) ↔
            src.iterator.done (src.iterator.next cached.iterator amount).2 =
              some true := by
          simp [Exhausts, hkept, hqueues]
        rw [Stays, hex]
        exact hnext.2

omit [DecidableEq P] in
theorem toIterate_eq (h : Fetches request from_ queue page rest s query) :
    src.toIterate s query = queue ++ page := by
  obtain ⟨queues, hfetched, -⟩ := h.fetched
  rw [toIterate, h.queue, hfetched]

omit [DecidableEq P] in
theorem getPending_spec {queues : Option (CachedIterator src)} {exhausts : Prop}
    (h : Stays request rest exhausts queues) :
    (src.getPending queues).1.getD 0 = rest.length ∧
      Stays request rest exhausts (src.getPending queues).2 := by
  rcases h with ⟨hex, rfl, rfl⟩ | ⟨hex, cached, rfl, hrequest, hleft, hfetched⟩
  · exact ⟨rfl, .inl ⟨hex, rfl, rfl⟩⟩
  · refine ⟨?_, .inr ⟨hex, _, rfl, hrequest, ?_, ?_⟩⟩
    · rw [← hleft]
      exact src.iterator.pending_fst cached.iterator hfetched
    · rw [← hleft]
      exact src.iterator.left_pending cached.iterator hfetched
    · exact src.iterator.done_pending cached.iterator hfetched

/-- One page: the results that fit are answered, the others wait. -/
theorem processQuery_spec (h : Fetches request from_ queue page rest s query) :
    ∃ results s', src.processQuery s query from_ false = .ok (results, s') ∧
      results.results.map SearchResult.indexedValue =
        src.answered request from_ (fits 0 (queue ++ page)) ∧
      results.kept = rest.length + (overflow 0 (queue ++ page)).length ∧
      (results.kept ≠ 0 →
        src.Exhausts s query ∧ rest = [] ∧
            Dropped from_ (overflow 0 (queue ++ page)) s' ∨
          ¬ src.Exhausts s query ∧
            Resumable request from_ (overflow 0 (queue ++ page)) rest s') := by
  obtain ⟨queues, hfetched, hstays⟩ := h.fetched
  obtain ⟨hpending, hstays⟩ := getPending_spec hstays
  have hsender : ¬ s.resultQueue.any (fun queued => queued.from_ ≠ from_) := by
    cases hqueued : s.resultQueue with
    | none => simp
    | some queued => simp [h.sender queued hqueued]
  let results : SearchResults D I E :=
    { results := (fits 0 (queue ++ page)).filterMap (src.toResult (some request) from_)
      kept := rest.length + (overflow 0 (queue ++ page)).length }
  let resultQueue : Option (ResultQueue P I) :=
    if results.kept = 0 then none
    else some
      { from_ := from_, queue := overflow 0 (queue ++ page), keptInIndex := rest.length }
  have hprocess : src.processQuery s query from_ false =
      .ok (results, { resultQueue, queues := (src.getPending queues).2 }) := by
    simp only [processQuery, Bool.false_eq_true, if_false]
    rw [if_neg hsender, hfetched]
    simp only [h.queue, hpending, filterResults_eq]
    rfl
  refine ⟨_, _, hprocess, rfl, rfl, fun hkept => ?_⟩
  rcases hstays with ⟨hex, hnone, rfl⟩ | ⟨hex, hcached⟩
  · exact .inl ⟨hex, rfl, if_neg hkept, hnone⟩
  · exact .inr ⟨hex, if_neg hkept, hcached⟩

/-- A page of a dropped request. -/
theorem processQuery_dropped (h : Dropped from_ queue s) (amount : Nat) :
    ∃ results s', src.processQuery s (.collectNext amount) from_ false =
        .ok (results, s') ∧
      results.results = [] ∧ results.kept = (overflow 0 queue).length ∧
      (results.kept ≠ 0 → Dropped from_ (overflow 0 queue) s') := by
  let results : SearchResults D I E :=
    { results := [], kept := 0 + (overflow 0 queue).length }
  let resultQueue : Option (ResultQueue P I) :=
    if results.kept = 0 then none
    else some { from_ := from_, queue := overflow 0 queue, keptInIndex := 0 }
  have hprocess : src.processQuery s (.collectNext amount) from_ false =
      .ok (results, { resultQueue, queues := none }) := by
    simp only [processQuery, Bool.false_eq_true, if_false, h.resultQueue, h.queues]
    rw [if_neg (by simp)]
    simp [fetchIndexed, getPending, filterResults_eq, filterMap_toResult_none,
      results, resultQueue]
  exact ⟨_, _, hprocess, rfl, Nat.zero_add _, fun hkept => ⟨if_neg hkept, rfl⟩⟩

/-! ### All pages -/

theorem complete_cons {results : SearchResults D I E}
    {answers : List (SearchResults D I E)} (hkept : results.kept ≠ 0) :
    Complete (results :: answers) ↔ Complete answers := by
  cases answers with
  | nil => simp [Complete, hkept]
  | cons next answers => simp [Complete, List.getLast?_cons_cons]

/-- What is known of the answers for `docs` in the end. -/
def Delivers (request : SearchQuery Q) (from_ : P) (docs : List (IndexedDocument I))
    (s : PagingState src) (queries : List (RemoteQuery Q))
    (answers : List (SearchResults D I E)) : Prop :=
  (delivered answers).Sublist (src.readable from_ docs) ∧
    (delivered answers = src.readable from_ docs ↔
      (∀ result ∈ docs, src.isReadable from_ result → src.resolves request result) ∧
        src.KeepsAnswering from_ s queries)

theorem keepsAnswering_cons {queries : List (RemoteQuery Q)}
    {results : SearchResults D I E} {s' : PagingState src}
    (hprocess : src.processQuery s query from_ false = .ok (results, s')) :
    src.KeepsAnswering from_ s (query :: queries) ↔
      src.AnswersLast from_ s query ∧
        (results.kept ≠ 0 → src.KeepsAnswering from_ s' queries) := by
  rw [KeepsAnswering, hprocess]
  constructor
  · exact fun h => ⟨h.1, h.2 results s' rfl⟩
  · intro h
    refine ⟨h.1, fun results' t hok => ?_⟩
    obtain ⟨rfl, rfl⟩ := Prod.mk.inj (Except.ok.inj hok)
    exact h.2

theorem paging_cons {queries : List (RemoteQuery Q)}
    {results : SearchResults D I E} {s' : PagingState src}
    (hprocess : src.processQuery s query from_ false = .ok (results, s')) :
    src.paging from_ s (query :: queries) =
      if results.kept = 0 then .ok [results]
      else (src.paging from_ s' queries).map (results :: ·) := by
  rw [paging, hprocess]

theorem sublist_append_eq {D₁ D₂ R₁ R₂ : List I} (h₁ : D₁.Sublist R₁)
    (h₂ : D₂.Sublist R₂) : D₁ ++ D₂ = R₁ ++ R₂ ↔ D₁ = R₁ ∧ D₂ = R₂ := by
  constructor
  · intro h
    have hlength := congrArg List.length h
    rw [List.length_append, List.length_append] at hlength
    have hle₁ := h₁.length_le
    have hle₂ := h₂.length_le
    exact ⟨h₁.eq_of_length (by omega), h₂.eq_of_length (by omega)⟩
  · rintro ⟨rfl, rfl⟩
    rfl

/-- After the request is dropped, the queue is emptied without an answer. -/
theorem paging_dropped (h : Dropped from_ queue s) (hne : queue ≠ [])
    (hsize : ∀ result ∈ queue, result.context.size ≤ MAX_BATCH_SIZE)
    (pages : List Nat) :
    ∃ answers, src.paging from_ s (pages.map .collectNext) = .ok answers ∧
      (queue.length ≤ pages.length → Complete answers) ∧
      delivered answers = [] ∧
      src.KeepsAnswering from_ s (pages.map .collectNext) := by
  induction pages generalizing queue s with
  | nil =>
      refine ⟨[], rfl, fun hlength => ?_, rfl, trivial⟩
      exact absurd (List.length_eq_zero_iff.mp (Nat.le_zero.mp hlength)) hne
  | cons amount pages ih =>
      obtain ⟨results, s', hprocess, hnone, hkept, hdropped⟩ :=
        processQuery_dropped h amount
      have hlast : src.AnswersLast from_ s (.collectNext amount) := by
        rintro ⟨-, cached, hcached, -⟩
        rw [h.queues] at hcached
        cases hcached
      have hlt := length_overflow_lt hne hsize
      rw [List.map_cons, paging_cons hprocess, keepsAnswering_cons hprocess]
      by_cases hzero : results.kept = 0
      · refine ⟨[results], if_pos hzero, fun _ => ⟨results, rfl, hzero⟩, ?_, hlast, ?_⟩
        · simp [delivered, hnone]
        · exact fun hkept => absurd hzero hkept
      · have hleft : ∀ result ∈ overflow 0 queue, result ∈ queue := by
          intro result hresult
          rw [← fits_append_overflow 0 queue]
          exact List.mem_append_right _ hresult
        obtain ⟨answers, hpaging, hcomplete, hdelivered, hkeeps⟩ :=
          ih (hdropped hzero)
            (fun hnil => hzero (by rw [hkept, hnil]; rfl))
            (fun result hresult => hsize result (hleft result hresult))
        refine ⟨results :: answers, ?_, ?_, ?_, hlast, fun _ => hkeeps⟩
        · rw [if_neg hzero, hpaging]
          rfl
        · intro hlength
          rw [complete_cons hzero]
          rw [List.length_cons] at hlength
          exact hcomplete (by omega)
        · simpa [delivered, hnone] using hdelivered

/-- A page answers `taken`, and `waiting` waits for the next one. -/
structure Pages (request : SearchQuery Q) (from_ : P)
    (taken waiting rest : List (IndexedDocument I)) (s : PagingState src)
    (query : RemoteQuery Q) (results : SearchResults D I E)
    (s' : PagingState src) : Prop where
  process : src.processQuery s query from_ false = .ok (results, s')
  sent : results.results.map SearchResult.indexedValue =
    src.answered request from_ taken
  kept : results.kept = rest.length + waiting.length
  last : src.AnswersLast from_ s query ↔
    (src.Exhausts s query → src.readable from_ waiting = [])
  next : results.kept ≠ 0 →
    src.Exhausts s query ∧ rest = [] ∧ Dropped from_ waiting s' ∨
      ¬ src.Exhausts s query ∧ Resumable request from_ waiting rest s'

section Page

variable {taken waiting : List (IndexedDocument I)} {s' : PagingState src}
variable {results : SearchResults D I E} {answers : List (SearchResults D I E)}
variable {queries : List (RemoteQuery Q)}

theorem Pages.delivered_cons (h : Pages request from_ taken waiting rest s query results s') :
    delivered (results :: answers) =
      src.answered request from_ taken ++ delivered answers := by
  rw [delivered, List.flatMap_cons, h.sent]
  rfl

theorem Pages.delivers_last (h : Pages request from_ taken waiting rest s query results s')
    (hzero : results.kept = 0) :
    Delivers request from_ (taken ++ waiting ++ rest) s (query :: queries)
      [results] := by
  have hkept := h.kept
  obtain rfl : rest = [] := List.length_eq_zero_iff.mp (by omega)
  obtain rfl : waiting = [] := List.length_eq_zero_iff.mp (by omega)
  have hlast : src.AnswersLast from_ s query := h.last.mpr (fun _ => rfl)
  rw [Delivers, h.delivered_cons, keepsAnswering_cons h.process]
  simp only [delivered, List.flatMap_nil, List.append_nil, answered_eq_readable]
  refine ⟨answered_sublist, fun hall => ⟨hall, hlast, ?_⟩, And.left⟩
  exact fun hkept => absurd hzero hkept

theorem Pages.delivers_dropped
    (h : Pages request from_ taken waiting [] s query results s')
    (hex : src.Exhausts s query) (hnone : delivered answers = [])
    (hkeeps : src.KeepsAnswering from_ s' queries) :
    Delivers request from_ (taken ++ waiting) s (query :: queries)
      (results :: answers) := by
  have hsub : (src.answered request from_ taken).Sublist (src.readable from_ taken) :=
    answered_sublist
  have hnil := List.nil_sublist (src.readable from_ waiting)
  rw [Delivers, h.delivered_cons, hnone, readable_append,
    keepsAnswering_cons h.process, h.last]
  refine ⟨hsub.append hnil, (sublist_append_eq hsub hnil).trans ?_⟩
  rw [answered_eq_readable]
  constructor
  · rintro ⟨htaken, hwaiting⟩
    refine ⟨fun result hresult hread => ?_, fun _ => hwaiting.symm, fun _ => hkeeps⟩
    rcases List.mem_append.mp hresult with hresult | hresult
    · exact htaken result hresult hread
    · rw [readable_eq_nil.mp hwaiting.symm result hresult] at hread
      cases hread
  · rintro ⟨hall, hwaiting, -⟩
    exact ⟨fun result hresult => hall result (List.mem_append_left _ hresult),
      (hwaiting hex).symm⟩

theorem Pages.delivers_cons
    (h : Pages request from_ taken waiting rest s query results s')
    (hzero : results.kept ≠ 0) (hex : ¬ src.Exhausts s query)
    (hdelivers : Delivers request from_ (waiting ++ rest) s' queries answers) :
    Delivers request from_ (taken ++ waiting ++ rest) s (query :: queries)
      (results :: answers) := by
  obtain ⟨hsub, hiff⟩ := hdelivers
  have htaken : (src.answered request from_ taken).Sublist
      (src.readable from_ taken) := answered_sublist
  rw [Delivers, h.delivered_cons, List.append_assoc, readable_append,
    keepsAnswering_cons h.process, h.last]
  refine ⟨htaken.append hsub, (sublist_append_eq htaken hsub).trans ?_⟩
  rw [answered_eq_readable, hiff]
  constructor
  · rintro ⟨htaken, hothers, hkeeps⟩
    refine ⟨fun result hresult => ?_, fun h => absurd h hex, fun _ => hkeeps⟩
    rcases List.mem_append.mp hresult with hresult | hresult
    · exact htaken result hresult
    · exact hothers result hresult
  · rintro ⟨hall, -, hkeeps⟩
    exact ⟨fun result hresult => hall result (List.mem_append_left _ hresult),
      fun result hresult => hall result (List.mem_append_right _ hresult),
      hkeeps hzero⟩

end Page

theorem pages_of_fetches (h : Fetches request from_ queue page rest s query) :
    ∃ results s', Pages request from_ (fits 0 (queue ++ page))
      (overflow 0 (queue ++ page)) rest s query results s' := by
  obtain ⟨results, s', hprocess, hsent, hkept, hnext⟩ := processQuery_spec h
  refine ⟨results, s', hprocess, hsent, hkept, ?_, hnext⟩
  rw [AnswersLast, toIterate_eq h, readable_eq_nil]

/-- What is known of all answers to queries. -/
def Outcome (request : SearchQuery Q) (from_ : P) (docs : List (IndexedDocument I))
    (s : PagingState src) (queries : List (RemoteQuery Q)) : Prop :=
  ∃ answers, src.paging from_ s queries = .ok answers ∧
    (docs.length ≤ queries.length → Complete answers) ∧
    (Complete answers → Delivers request from_ docs s queries answers)

/-- The outcome of a page and of those that follow. -/
theorem outcome_of_fetches {pages : List Nat}
    (h : Fetches request from_ queue page rest s query)
    (hsize : ∀ result ∈ queue ++ page, result.context.size ≤ MAX_BATCH_SIZE)
    (hempty : queue ++ page = [] → rest = [])
    (hrest : ∀ s' : PagingState src,
      Resumable request from_ (overflow 0 (queue ++ page)) rest s' →
      overflow 0 (queue ++ page) ++ rest ≠ [] →
      Outcome request from_ (overflow 0 (queue ++ page) ++ rest) s'
        (pages.map .collectNext)) :
    Outcome request from_ (queue ++ page ++ rest) s
      (query :: pages.map .collectNext) := by
  obtain ⟨results, s', hpages⟩ := pages_of_fetches h
  have hsplit := fits_append_overflow 0 (queue ++ page)
  have hlt := fun hne => length_overflow_lt hne hsize
  have hwaitingSize : ∀ result ∈ overflow 0 (queue ++ page),
      result.context.size ≤ MAX_BATCH_SIZE := by
    intro result hresult
    refine hsize result ?_
    rw [← hsplit]
    exact List.mem_append_right _ hresult
  by_cases hzero : results.kept = 0
  · refine ⟨[results], ?_, fun _ => ⟨results, rfl, hzero⟩, fun _ => ?_⟩
    · rw [paging_cons hpages.process, if_pos hzero]
    · have hdelivers : Delivers request from_ _ s (query :: pages.map .collectNext)
          [results] := hpages.delivers_last hzero
      rwa [hsplit] at hdelivers
  have hkept := hpages.kept
  have hfull : queue ++ page ≠ [] := by
    intro hnil
    rw [hnil, hempty hnil] at hkept
    exact hzero hkept
  have hless : (overflow 0 (queue ++ page)).length + rest.length <
      (queue ++ page ++ rest).length := by
    have hlt := hlt hfull
    have happend : (queue ++ page ++ rest).length = (queue ++ page).length + rest.length :=
      List.length_append
    rw [happend]
    omega
  rcases hpages.next hzero with ⟨hex, rfl, hdropped⟩ | ⟨hex, hresumable⟩
  · have hne : overflow 0 (queue ++ page) ≠ [] := by
      intro hnil
      rw [hnil] at hkept
      exact hzero hkept
    obtain ⟨answers, hpaging, hcomplete, hnone, hkeeps⟩ :=
      paging_dropped hdropped hne hwaitingSize pages
    refine ⟨results :: answers, ?_, fun hlength => ?_, fun _ => ?_⟩
    · rw [paging_cons hpages.process, if_neg hzero, hpaging]
      rfl
    · rw [complete_cons hzero]
      rw [List.length_cons, List.length_map] at hlength
      exact hcomplete (by rw [List.length_nil] at hless; omega)
    · have hdelivers := hpages.delivers_dropped hex hnone hkeeps
      rwa [hsplit, ← List.append_nil (queue ++ page)] at hdelivers
  · have hne : overflow 0 (queue ++ page) ++ rest ≠ [] := by
      intro hnil
      obtain ⟨hwaiting, rfl⟩ := List.append_eq_nil_iff.mp hnil
      rw [hwaiting] at hkept
      exact hzero hkept
    obtain ⟨answers, hpaging, hcomplete, hdelivers⟩ := hrest s' hresumable hne
    refine ⟨results :: answers, ?_, fun hlength => ?_, fun hdone => ?_⟩
    · rw [paging_cons hpages.process, if_neg hzero, hpaging]
      rfl
    · rw [complete_cons hzero]
      rw [List.length_cons] at hlength
      exact hcomplete (by rw [List.length_append]; omega)
    · have hdelivers := hpages.delivers_cons hzero hex
        (hdelivers ((complete_cons hzero).mp hdone))
      rwa [hsplit] at hdelivers

/-- The outcome of the pages that collect what is left. -/
theorem outcome_of_resumable {pages : List Nat}
    (h : Resumable request from_ queue left s) (hne : queue ++ left ≠ [])
    (hsize : ∀ result ∈ queue ++ left, result.context.size ≤ MAX_BATCH_SIZE)
    (hpages : ∀ amount ∈ pages, 0 < amount) :
    Outcome request from_ (queue ++ left) s (pages.map .collectNext) := by
  induction pages generalizing queue left s with
  | nil =>
      refine ⟨[], rfl, fun hlength => ?_, fun hcomplete => ?_⟩
      · exact absurd (List.length_eq_zero_iff.mp (Nat.le_zero.mp hlength)) hne
      · obtain ⟨last, hlast, -⟩ := hcomplete
        cases hlast
  | cons amount pages ih =>
      have hamount := hpages amount List.mem_cons_self
      have hfetches := fetches_collectNext h hamount
      have hall : queue ++ left.take amount ++ left.drop amount = queue ++ left := by
        rw [List.append_assoc, List.take_append_drop]
      have hmem : ∀ result ∈ queue ++ left.take amount, result ∈ queue ++ left := by
        intro result hresult
        rw [← hall]
        exact List.mem_append_left _ hresult
      rw [← hall]
      refine outcome_of_fetches hfetches (fun result hresult =>
        hsize result (hmem result hresult)) ?_ ?_
      · intro hnil
        obtain ⟨-, htake⟩ := List.append_eq_nil_iff.mp hnil
        rcases List.take_eq_nil_iff.mp htake with hzero | hleft
        · omega
        · rw [hleft, List.drop_nil]
      · intro s' hresumable hne
        refine ih hresumable hne (fun result hresult => hsize result ?_)
          (fun n hn => hpages n (List.mem_cons_of_mem _ hn))
        rw [← hall]
        rcases List.mem_append.mp hresult with hresult | hresult
        · refine List.mem_append_left _ ?_
          rw [← fits_append_overflow 0 (queue ++ left.take amount)]
          exact List.mem_append_right _ hresult
        · exact List.mem_append_right _ hresult

/-- The pages of a search deliver the documents that the peer can read if and
only if these can be resolved, and none of them waits when the index has no more
results.  As many pages as there are documents are enough. -/
theorem delivered_paging_iff (src : QuerySources P Q D I E) (s : PagingState src)
    (request : SearchQuery Q) (from_ : P) (pages : List Nat)
    (hfree : s.resultQueue = none) (hfetch : 0 < request.fetch)
    (hpages : ∀ amount ∈ pages, 0 < amount)
    (hsize : ∀ result ∈ src.index request.query,
      result.context.size ≤ MAX_BATCH_SIZE) :
    ∃ answers,
      src.paging from_ s (.search request :: pages.map .collectNext) = .ok answers ∧
      ((src.index request.query).length ≤ pages.length + 1 → Complete answers) ∧
      (Complete answers →
        (delivered answers = src.readable from_ (src.index request.query) ↔
          (∀ result ∈ src.index request.query,
            src.isReadable from_ result → src.resolves request result) ∧
          src.KeepsAnswering from_ s
            (.search request :: pages.map .collectNext))) := by
  have hfetches : Fetches request from_ [] ((src.index request.query).take request.fetch)
      ((src.index request.query).drop request.fetch) s (.search request) :=
    fetches_search hfree hfetch
  have hall := List.take_append_drop request.fetch (src.index request.query)
  have hmem : ∀ result ∈ [] ++ (src.index request.query).take request.fetch,
      result ∈ src.index request.query :=
    fun result hresult => List.mem_of_mem_take hresult
  have houtcome : Outcome request from_
      ([] ++ (src.index request.query).take request.fetch ++
        (src.index request.query).drop request.fetch) s
      (.search request :: pages.map .collectNext) := by
    refine outcome_of_fetches hfetches
      (fun result hresult => hsize result (hmem result hresult)) ?_ ?_
    · intro hnil
      rcases List.take_eq_nil_iff.mp hnil with hzero | hnone
      · omega
      · rw [hnone, List.drop_nil]
    · intro s' hresumable hne
      refine outcome_of_resumable hresumable hne (fun result hresult => hsize result ?_)
        hpages
      rcases List.mem_append.mp hresult with hresult | hresult
      · refine hmem result ?_
        rw [← fits_append_overflow 0 ([] ++ _)]
        exact List.mem_append_right _ hresult
      · exact List.mem_of_mem_drop hresult
  rw [List.nil_append, hall] at houtcome
  obtain ⟨answers, hpaging, hcomplete, hdelivers⟩ := houtcome
  refine ⟨answers, hpaging, fun hlength => hcomplete ?_, fun hdone => (hdelivers hdone).2⟩
  rw [List.length_cons, List.length_map]
  exact hlength

end QuerySources

end Paging

section LargeDocuments

/-- Two documents that do not fit into one batch. -/
def largeDocuments : List (IndexedDocument String) :=
  [{ value := "a"
     context := { created := 1, modified := 1, head := "h1", gid := "g1", size := 3000000 } },
   { value := "b"
     context := { created := 2, modified := 2, head := "h2", gid := "g2", size := 3000000 } }]

def largeSources : QuerySources String Unit String String String where
  iterator := hashmapIterator (IndexedDocument String)
  index _ := largeDocuments
  canRead := none
  resolveDocument result := some result.value
  logGet := some

def noQueues : PagingState largeSources where
  resultQueue := none
  queues := none

def searchFor (fetch : Nat) : RemoteQuery Unit :=
  .search { kind := .documents, query := (), fetch := fetch }

/-- They are delivered one by one. -/
theorem delivered_paging_oneByOne :
    ∃ answers, largeSources.paging "peer" noQueues
        [searchFor 1, .collectNext 1] = .ok answers ∧
      delivered answers = ["a", "b"] := by
  obtain ⟨answers, hpaging, hcomplete, hiff⟩ :=
    QuerySources.delivered_paging_iff largeSources noQueues
      { kind := .documents, query := (), fetch := 1 } "peer" [1]
      rfl (by decide) (by decide) (by decide)
  refine ⟨answers, hpaging, (hiff (hcomplete (by decide))).mpr ⟨fun _ _ _ => rfl, ?_⟩⟩
  refine ⟨fun _ _ hresult => (nomatch hresult), fun results s' hprocess _ => ?_⟩
  obtain ⟨rfl, rfl⟩ := Prod.mk.inj (Except.ok.inj hprocess)
  exact ⟨fun _ _ hresult => (nomatch hresult), fun _ _ _ _ => trivial⟩

/-- Both are in the first page, and the second one is lost. -/
theorem not_delivered_paging_overflow :
    ∃ answers, largeSources.paging "peer" noQueues
        [searchFor 2, .collectNext 2] = .ok answers ∧
      Complete answers ∧
      delivered answers ≠ largeSources.readable "peer" largeDocuments := by
  refine ⟨_, rfl, ⟨_, rfl, rfl⟩, ?_⟩
  decide

end LargeDocuments

end Documents
end Peerbit
