import Mathlib
import Peerbit.Indexer.HashmapIndex
import Peerbit.Lib.Paging
import Peerbit.Lib.StableSort

/-!
# Paging in a hashmap index

`iterate` runs its query at the first call, sorts the results and keeps them in a
queue.  Every page is cut from the front of the queue.

A page has at least one result, also when none is wanted: `getBatchFromResults`
looks at the size of the batch after it has put a result into it.  `pending`, as the
first call, fetches a page of no results and drops it, and with it the first result
(`not_lossless_pending`).  After a page, `pending` only counts what is left.

The index does not change while it is iterated.
-/

namespace Peerbit
namespace Indexer

open Lib.Paging

universe u v

/-! ### The order of the results -/

inductive SortDirection where
  | asc
  | desc
deriving Repr, DecidableEq

/-- A `Sort` of a request. -/
structure SortKey where
  key : List String
  direction : SortDirection
deriving Repr, DecidableEq

section Order

variable {S : Type} (sortCompare : Value S → Value S → Int)

def extractSortCompare (a b : Value S) : List SortKey → Except TypeError Int
  | [] => .ok 0
  | sort :: sorts => do
      let av ← a.resolve sort.key
      let bv ← b.resolve sort.key
      let cmp := sortCompare av bv
      if cmp ≠ 0 then
        return if sort.direction = .asc then cmp else -cmp
      else
        extractSortCompare a b sorts

variable {K : Type}

def sortResults (sortArr : List SortKey) (indexedDocuments : List (K × Value S)) :
    Except TypeError (List (K × Value S)) :=
  if 1 < indexedDocuments.length ∧ 0 < sortArr.length then
    Lib.StableSort.insertionSortM
      (fun a b => extractSortCompare sortCompare a.2 b.2 sortArr) indexedDocuments
  else
    .ok indexedDocuments

/-- What `iterate` puts into the queue: the results of the query, in their order. -/
def fullResult (queryAll : Except TypeError (List (K × Value S)))
    (sortArr : List SortKey) : Except TypeError (List (K × Value S)) :=
  queryAll.bind (sortResults sortCompare sortArr)

theorem perm_sortResults {sortArr : List SortKey}
    {indexedDocuments results : List (K × Value S)}
    (h : sortResults sortCompare sortArr indexedDocuments = .ok results) :
    results.Perm indexedDocuments := by
  rw [sortResults] at h
  split at h
  · exact Lib.StableSort.perm_insertionSortM h
  · obtain rfl := Except.ok.inj h
    exact List.Perm.refl _

end Order

/-! ### The iterator -/

/-- What the closures of `iterate` share. -/
structure HashmapIterator (R : Type u) where
  queue : Option (List R)
  done : Option Bool
deriving Repr, DecidableEq

/-- The loop of `getBatchFromResults`. -/
def getBatchLoop {R : Type u} (wantedSize : WithTop Nat) : List R → List R → List R
  | batch, [] => batch
  | batch, result :: results =>
      let batch := batch ++ [result]
      if wantedSize ≤ batch.length then batch
      else getBatchLoop wantedSize batch results

/-- The batch, and the results that stay. -/
def getBatchFromResults {R : Type u} (results : List R) (wantedSize : WithTop Nat) :
    List R × List R :=
  let batch := getBatchLoop wantedSize [] results
  (batch, results.drop batch.length)

namespace HashmapIterator

section Calls

variable {R : Type u} {m : Type u → Type v} [Monad m] (queryAll : m (List R))

/-- The state after the results of the query came. -/
def loaded (s : HashmapIterator R) (indexedDocuments : List R) : HashmapIterator R :=
  match indexedDocuments with
  | [] => { s with done := some true }
  | _ :: _ => { s with queue := some indexedDocuments, done := some false }

/-- The end of `fetch`. -/
def page (s : HashmapIterator R) (n : WithTop Nat) : List R × HashmapIterator R :=
  match s.queue with
  | none => ([], s)
  | some arr =>
      let batch := getBatchFromResults arr n
      (batch.1,
        { queue := some batch.2
          done := if arr.length ≤ n then some true else s.done })

def fetch (s : HashmapIterator R) (n : WithTop Nat) : m (List R × HashmapIterator R) := do
  if s.queue.isNone && s.done != some true then
    let indexedDocuments ← queryAll
    return (s.loaded indexedDocuments).page n
  else
    return s.page n

def pending (s : HashmapIterator R) : m (Nat × HashmapIterator R) := do
  if s.done.isNone then
    let (_, s) ← s.fetch queryAll 0
    return (if s.done = some true then 0 else (s.queue.getD []).length, s)
  else
    return (if s.done = some true then 0 else (s.queue.getD []).length, s)

end Calls

/-! ### What is left -/

variable {R : Type u} (docs : List R)

/-- The states that an iterator over `docs` comes to. -/
inductive Reached : HashmapIterator R → Prop
  | fresh : Reached ⟨none, none⟩
  | loaded (arr : List R) : Reached ⟨some arr, some false⟩
  | done {queue : Option (List R)} (hqueue : queue.getD [] = []) :
      Reached ⟨queue, some true⟩

def left (s : HashmapIterator R) : List R :=
  match s.done with
  | none => docs
  | some _ => s.queue.getD []

/-! ### Batches -/

variable {docs : List R} {s : HashmapIterator R}

theorem getBatchLoop_bounds (wantedSize : WithTop Nat) (batch results : List R) :
    batch <+: getBatchLoop wantedSize batch results ∧
      getBatchLoop wantedSize batch results <+: batch ++ results := by
  induction results generalizing batch with
  | nil =>
      rw [List.append_nil]
      exact ⟨List.prefix_refl _, List.prefix_refl _⟩
  | cons result results ih =>
      have hstep : batch <+: batch ++ [result] := List.prefix_append _ _
      have hsplit : batch ++ result :: results = batch ++ [result] ++ results := by simp
      rw [getBatchLoop, hsplit]
      split
      · exact ⟨hstep, List.prefix_append _ _⟩
      · exact ⟨hstep.trans (ih _).1, (ih _).2⟩

theorem getBatchLoop_nat {n : Nat} {batch : List R} (hbatch : batch.length < n)
    (results : List R) :
    getBatchLoop n batch results = batch ++ results.take (n - batch.length) := by
  induction results generalizing batch with
  | nil => rw [getBatchLoop, List.take_nil, List.append_nil]
  | cons result results ih =>
      have hlength : (batch ++ [result]).length = batch.length + 1 := by simp
      have hsucc : n - batch.length = n - (batch.length + 1) + 1 := by omega
      rw [getBatchLoop, hlength, hsucc, List.take_succ_cons]
      simp only [Nat.cast_le]
      split
      case isTrue hfull =>
        rw [Nat.sub_eq_zero_of_le hfull, List.take_zero]
      case isFalse hfull =>
        rw [ih (by omega), hlength, List.append_assoc, List.singleton_append]

/-- A batch that may be as large as the results takes all of them. -/
theorem getBatchLoop_all {wantedSize : WithTop Nat} {batch results : List R}
    (h : ((batch.length + results.length : Nat) : WithTop Nat) ≤ wantedSize) :
    getBatchLoop wantedSize batch results = batch ++ results := by
  induction results generalizing batch with
  | nil => rw [getBatchLoop, List.append_nil]
  | cons result results ih =>
      have hlength : (batch ++ [result]).length = batch.length + 1 := by simp
      rw [List.length_cons] at h
      rw [getBatchLoop, hlength]
      split
      case isTrue hfull =>
        have hle := Nat.cast_le.mp (h.trans hfull)
        obtain rfl : results = [] := List.length_eq_zero_iff.mp (by omega)
        rfl
      case isFalse hfull =>
        have hnext : batch.length + 1 + results.length =
            batch.length + (results.length + 1) := by omega
        rw [ih (by rw [hlength, hnext]; exact h), List.append_assoc, List.singleton_append]

theorem getBatchFromResults_append (results : List R) (wantedSize : WithTop Nat) :
    (getBatchFromResults results wantedSize).1 ++
      (getBatchFromResults results wantedSize).2 = results := by
  obtain ⟨rest, hrest⟩ := (getBatchLoop_bounds wantedSize [] results).2
  rw [List.nil_append] at hrest
  rw [getBatchFromResults]
  generalize getBatchLoop wantedSize [] results = batch at *
  subst hrest
  rw [List.drop_left]

/-! ### Calls -/

/-- A page takes what it returns off what is left. -/
structure Took (docs : List R) (s : HashmapIterator R) (n : WithTop Nat) (batch : List R)
    (s' : HashmapIterator R) : Prop where
  append : batch ++ s'.left docs = s.left docs
  take : ∀ k : Nat, 0 < k → n = k → batch = (s.left docs).take k
  all : ((s.left docs).length : WithTop Nat) ≤ n → s'.left docs = []
  reached : Reached s'
  fetched : s'.done.isSome

variable (docs) in
theorem took_page (h : Reached s) (hsome : s.done.isSome) (n : WithTop Nat) :
    Took docs s n (s.page n).1 (s.page n).2 := by
  cases h with
  | fresh => cases hsome
  | loaded arr =>
      have happend := getBatchFromResults_append arr n
      have hall : (arr.length : WithTop Nat) ≤ n → (getBatchFromResults arr n).2 = [] := by
        intro hall
        rw [getBatchFromResults, getBatchLoop_all (by simpa using hall)]
        simp
      have htake : ∀ k : Nat, 0 < k → n = k → (getBatchFromResults arr n).1 = arr.take k := by
        rintro k hk rfl
        exact getBatchLoop_nat hk arr
      rw [page]
      dsimp only
      split
      case isTrue hfull => exact ⟨happend, htake, hall, .done (hall hfull), rfl⟩
      case isFalse hfull => exact ⟨happend, htake, hall, .loaded _, rfl⟩
  | @done queue hqueue =>
      have hleft : left docs ⟨queue, some true⟩ = [] := hqueue
      have hpage : (page ⟨queue, some true⟩ n).1 = [] ∧
          Reached (page ⟨queue, some true⟩ n).2 ∧
          (page ⟨queue, some true⟩ n).2.done.isSome ∧
          (page ⟨queue, some true⟩ n).2.left docs = [] := by
        cases queue with
        | none => exact ⟨rfl, .done rfl, rfl, rfl⟩
        | some arr =>
            obtain rfl : arr = [] := hqueue
            have hnone : page ⟨some ([] : List R), some true⟩ n =
                ([], ⟨some [], some true⟩) := by
              simp [page, getBatchFromResults, getBatchLoop]
            rw [hnone]
            exact ⟨rfl, .done rfl, rfl, rfl⟩
      obtain ⟨hbatch, hreached, hsome, hnil⟩ := hpage
      refine ⟨?_, fun k _ _ => ?_, fun _ => hnil, hreached, hsome⟩
      · rw [hbatch, hnil, hleft]
        rfl
      · rw [hbatch, hleft, List.take_nil]

section Fetch

variable {m : Type u → Type v} [Monad m] [LawfulMonad m]

/-- The state in which a page is taken. -/
def opened (docs : List R) (s : HashmapIterator R) : HashmapIterator R :=
  if s.done.isNone then s.loaded docs else s

variable (docs) in
theorem opened_spec (h : Reached s) :
    Reached (s.opened docs) ∧ (s.opened docs).done.isSome ∧
      (s.opened docs).left docs = s.left docs := by
  cases h with
  | fresh =>
      cases docs with
      | nil => exact ⟨.done rfl, rfl, rfl⟩
      | cons d docs => exact ⟨.loaded _, rfl, rfl⟩
  | loaded arr => exact ⟨.loaded _, rfl, rfl⟩
  | done hqueue => exact ⟨.done hqueue, rfl, rfl⟩

theorem fetch_pure (h : Reached s) (n : WithTop Nat) :
    s.fetch (pure docs : m (List R)) n = pure ((s.opened docs).page n) := by
  cases h with
  | fresh => simp [fetch, opened]
  | loaded arr => simp [fetch, opened]
  | done hqueue => simp [fetch, opened]

variable (docs) in
theorem took_fetch (h : Reached s) (n : WithTop Nat) :
    ∃ batch s', s.fetch (pure docs : m (List R)) n = pure (batch, s') ∧
      Took docs s n batch s' := by
  obtain ⟨hreached, hsome, hleft⟩ := opened_spec docs h
  have hpage := took_page docs hreached hsome n
  refine ⟨_, _, fetch_pure h n, ?_, ?_, ?_, hpage.reached, hpage.fetched⟩
  · rw [← hleft]
    exact hpage.append
  · rw [← hleft]
    exact hpage.take
  · rw [← hleft]
    exact hpage.all

omit [LawfulMonad m] in
/-- `pending` counts what is left, once something was fetched. -/
theorem pending_fetched (h : Reached s) (hsome : s.done.isSome) (queryAll : m (List R)) :
    s.pending queryAll = pure ((s.left docs).length, s) := by
  cases h with
  | fresh => cases hsome
  | loaded arr => simp [pending, left]
  | done hqueue => simp [pending, left, hqueue]

/-- There is no first result that it could lose. -/
theorem pending_nil :
    (⟨none, none⟩ : HashmapIterator R).pending (pure [] : m (List R)) =
      pure (0, ⟨none, some true⟩) := by
  simp [pending, fetch, loaded, page]

end Fetch

theorem left_of_done (h : Reached s) (hdone : s.done = some true) :
    s.left docs = [] := by
  cases h with
  | fresh => cases hdone
  | loaded arr => cases hdone
  | done hqueue => exact hqueue

end HashmapIterator

/-! ### Runs of calls -/

section Runs

variable {S K : Type} (results : Except TypeError (List (K × Value S)))
variable (deserialized : Value S → Value S) (reference : Bool)

def cloneResults (indexed : List (K × Value S)) : List (K × Value S) :=
  indexed.map (fun x => (x.1, deserialized x.2))

/-- What a client gets for a batch. -/
def handOut (batch : List (K × Value S)) : List (K × Value S) :=
  if reference then batch else cloneResults deserialized batch

/-- The iterator that `iterate` returns, when `results` is what the query and the sort
give.  A query that throws leaves the iterator as it is. -/
def hashmapIterate :
    PagedIterator (HashmapIterator (K × Value S)) (K × Value S) TypeError where
  init := ⟨none, none⟩
  fetch s n :=
    match s.fetch results n with
    | .error e => (.error e, s)
    | .ok (batch, s) => (.ok (handOut deserialized reference batch), s)
  pending s :=
    match s.pending results with
    | .error e => (.error e, s)
    | .ok (n, s) => (.ok n, s)
  done s := s.done

/-- `pending` is not called before something was fetched, if there are results. -/
def PendingLater (full : List (K × Value S)) (s : HashmapIterator (K × Value S))
    (call : PagingCall) : Prop :=
  call = .pending → full ≠ [] → s.done.isSome

variable {deserialized reference} {full : List (K × Value S)}

theorem handOut_append (batch rest : List (K × Value S)) :
    handOut deserialized reference (batch ++ rest) =
      handOut deserialized reference batch ++ handOut deserialized reference rest := by
  rw [handOut, handOut, handOut]
  split
  · rfl
  · exact List.map_append

theorem length_handOut (batch : List (K × Value S)) :
    (handOut deserialized reference batch).length = batch.length := by
  rw [handOut]
  split
  · rfl
  · exact List.length_map _

theorem handOut_nil : handOut deserialized reference ([] : List (K × Value S)) = [] := by
  rw [handOut, cloneResults, List.map_nil, ite_self]

variable (full deserialized reference) in
theorem hashmapIterate_fetch {s : HashmapIterator (K × Value S)} (h : s.Reached)
    (n : WithTop Nat) :
    ∃ batch s', (hashmapIterate (.ok full) deserialized reference).fetch s n =
        (.ok (handOut deserialized reference batch), s') ∧
      HashmapIterator.Took full s n batch s' := by
  obtain ⟨batch, s', hfetch, htook⟩ :=
    HashmapIterator.took_fetch (m := Except TypeError) full h n
  have hok : s.fetch (.ok full : Except TypeError _) n = .ok (batch, s') := hfetch
  refine ⟨batch, s', ?_, htook⟩
  simp only [hashmapIterate, hok]

theorem hashmapIterate_accounts (full : List (K × Value S)) :
    Accounts (hashmapIterate (.ok full) deserialized reference)
      HashmapIterator.Reached
      (fun s => handOut deserialized reference (s.left full))
      (fun _ => handOut deserialized reference full) (PendingLater full) where
  init_good := .fresh
  init_left := rfl
  next s n hreached _ _ := by
    obtain ⟨batch, s', hfetch, htook⟩ := hashmapIterate_fetch deserialized
      reference full hreached n
    refine ⟨_, s', hfetch, htook.reached, fun returned hreturned => ?_⟩
    rw [← hreturned, ← htook.append, handOut_append, List.append_assoc]
  all s hreached _ := by
    obtain ⟨batch, s', hfetch, htook⟩ := hashmapIterate_fetch deserialized
      reference full hreached ⊤
    have hnil := htook.all le_top
    refine ⟨_, s', hfetch, htook.reached, ?_, fun returned hreturned => ?_⟩
    · rw [hnil, handOut_nil]
    · rw [← hreturned, ← htook.append, hnil, List.append_nil]
  pending s hreached hguard := by
    by_cases hsome : s.done.isSome
    · have hpending : s.pending (.ok full : Except TypeError _) =
          .ok ((s.left full).length, s) :=
        HashmapIterator.pending_fetched hreached hsome _
      refine ⟨s, ?_, hreached, rfl, rfl⟩
      rw [length_handOut, hashmapIterate]
      simp only [hpending]
    · -- nothing was fetched, and there are no results
      obtain rfl : full = [] := by
        by_contra hne
        exact hsome (hguard rfl hne)
      cases hreached with
      | loaded arr => exact absurd rfl hsome
      | done hqueue => exact absurd rfl hsome
      | fresh =>
          have hpending : HashmapIterator.pending (.ok [] : Except TypeError _)
              (⟨none, none⟩ : HashmapIterator (K × Value S)) =
                .ok (0, ⟨none, some true⟩) :=
            HashmapIterator.pending_nil
          refine ⟨⟨none, some true⟩, ?_, .done rfl, rfl, rfl⟩
          rw [length_handOut, hashmapIterate]
          simp only [hpending]
          rfl
  done s hreached hdone := by
    rw [HashmapIterator.left_of_done hreached hdone, handOut_nil]

/-- A client that calls `pending` only after a page loses nothing. -/
theorem lossless_of_pendingLater (sortCompare : Value S → Value S → Int)
    (queryAll : Except TypeError (List (K × Value S))) (sortArr : List SortKey)
    (hfull : fullResult sortCompare queryAll sortArr = .ok full)
    {s : PagingState (HashmapIterator (K × Value S)) (K × Value S) TypeError}
    (hrun : (paging (hashmapIterate (fullResult sortCompare queryAll sortArr)
      deserialized reference)).Run
        (fun s call => PendingLater full s.iterator call) s) :
    Lossless (fun _ => handOut deserialized reference full) s := by
  rw [hfull] at hrun
  exact (hashmapIterate_accounts full).lossless hrun

end Runs

section FirstPending

def twoNotes : List (String × Value Nat) :=
  [("a", .scalar 1), ("b", .scalar 2)]

def notesIterate : PagedIterator (HashmapIterator (String × Value Nat))
    (String × Value Nat) TypeError :=
  hashmapIterate (fullResult (fun _ _ => 0) (.ok twoNotes) []) id true

/-- A page, and then `pending`. -/
theorem lossless_notes :
    ∃ s, (paging notesIterate).exec (paging notesIterate).init [.next 1, .pending] =
        some s ∧ Lossless (fun _ => handOut id true twoNotes) s := by
  refine ⟨_, rfl, lossless_of_pendingLater (fun _ _ => 0) (.ok twoNotes) [] rfl ?_⟩
  refine .step (.step .init (a := .next 1) ?_ rfl) (a := .pending) ?_ rfl
  · intro h
    cases h
  · exact fun _ _ => rfl

/-- `pending` returns 1 of 2, and the first page is the second result. -/
theorem not_lossless_pending :
    ¬ ∀ s, (paging notesIterate).Run Lib.Machine.Free s →
      Lossless (fun _ => handOut id true twoNotes) s := by
  intro h
  have hexec : (paging notesIterate).exec (paging notesIterate).init [.pending, .next 1] =
      some ⟨⟨some [], some true⟩, [("b", .scalar 2)], .page⟩ := rfl
  obtain ⟨rest, hrest⟩ := (h _ (.of_exec .init _ hexec)).returned
  have hfirst := congrArg (fun l => l.head?.map Prod.fst) hrest
  exact absurd hfirst (by simp [handOut, twoNotes])

end FirstPending

end Indexer
end Peerbit
