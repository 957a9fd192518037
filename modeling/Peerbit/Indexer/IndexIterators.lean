import Peerbit.Indexer.HashmapPaging
import Peerbit.Indexer.SQLitePaging

/-!
# Iterators over an index

`iterate` selects the results of a request, in its order, and hands them out in
pages.  An `IndexIterator` is what the two engines have in common for a client that
takes pages: every page is the next slice of the results, and `pending` counts those
that are left once there was a page.

The engines differ in when they are done.  The hashmap index is done as soon as
a page takes all that is left.  The sqlite index is done when a page is not
full, or when `pending` counts that nothing is left.

The index does not change while it is iterated, and the sqlite index counts as many
results as it has.
-/

namespace Peerbit
namespace Indexer

/-- The interface of an iterator, with the results that are left. -/
structure IndexIterator (R : Type) where
  State : Type
  iterate : List R → State
  next : State → Nat → List R × State
  /-- It is `none` while nothing is fetched. -/
  done : State → Option Bool
  pending : State → Nat × State
  left : State → List R
  left_iterate (results : List R) : left (iterate results) = results
  next_fst (s : State) {amount : Nat} (hamount : 0 < amount) :
    (next s amount).1 = (left s).take amount
  left_next (s : State) {amount : Nat} (hamount : 0 < amount) :
    left (next s amount).2 = (left s).drop amount
  done_next (s : State) {amount : Nat} (hamount : 0 < amount) :
    (done (next s amount).2).isSome
  left_of_done (s : State) : done s = some true → left s = []
  pending_fst (s : State) (hfetched : (done s).isSome) : (pending s).1 = (left s).length
  left_pending (s : State) (hfetched : (done s).isSome) : left (pending s).2 = left s
  done_pending (s : State) (hfetched : (done s).isSome) : (done (pending s).2).isSome

variable {R : Type}

/-! ### The hashmap index -/

namespace HashmapIterator

variable {docs : List R} {s : HashmapIterator R}

variable (docs) in
theorem took_next (h : Reached s) (n : Nat) :
    Took docs s n (s.fetch (m := Id) docs n).1 (s.fetch (m := Id) docs n).2 := by
  obtain ⟨batch, s', hfetch, htook⟩ := took_fetch (m := Id) docs h n
  have hpage : s.fetch (m := Id) docs n = (batch, s') := hfetch
  rw [hpage]
  exact htook

theorem pending_eq (h : Reached s) (hsome : s.done.isSome) :
    s.pending (m := Id) docs = ((s.left docs).length, s) :=
  pending_fetched (m := Id) h hsome docs

theorem reached_pending (h : Reached s) : Reached (s.pending (m := Id) docs).2 := by
  by_cases hsome : s.done.isSome
  · rw [pending_eq h hsome]
    exact h
  · have hnone : s.done.isNone := by simpa using hsome
    have hstate : (s.pending (m := Id) docs).2 = (s.fetch (m := Id) docs 0).2 := by
      rw [pending, if_pos hnone]
      rfl
    rw [hstate]
    exact (took_next docs h 0).reached

end HashmapIterator

def hashmapIterator (R : Type) : IndexIterator R where
  State := { s : List R × HashmapIterator R // s.2.Reached }
  iterate results := ⟨(results, ⟨none, none⟩), .fresh⟩
  next s n :=
    ((s.1.2.fetch (m := Id) s.1.1 n).1,
      ⟨(s.1.1, (s.1.2.fetch (m := Id) s.1.1 n).2),
        (HashmapIterator.took_next s.1.1 s.2 n).reached⟩)
  done s := s.1.2.done
  pending s :=
    ((s.1.2.pending (m := Id) s.1.1).1,
      ⟨(s.1.1, (s.1.2.pending (m := Id) s.1.1).2), HashmapIterator.reached_pending s.2⟩)
  left s := s.1.2.left s.1.1
  left_iterate _ := rfl
  next_fst s amount hamount :=
    (HashmapIterator.took_next s.1.1 s.2 amount).take amount hamount rfl
  left_next s amount hamount := by
    have htook := HashmapIterator.took_next s.1.1 s.2 amount
    have happend := htook.append
    rw [htook.take amount hamount rfl] at happend
    have hsplit := List.take_append_drop amount (s.1.2.left s.1.1)
    exact List.append_cancel_left (happend.trans hsplit.symm)
  done_next s amount _ := (HashmapIterator.took_next s.1.1 s.2 amount).fetched
  left_of_done s := HashmapIterator.left_of_done s.2
  pending_fst s hfetched := congrArg Prod.fst (HashmapIterator.pending_eq s.2 hfetched)
  left_pending s hfetched :=
    congrArg (fun p => p.2.left s.1.1) (HashmapIterator.pending_eq s.2 hfetched)
  done_pending s hfetched :=
    (congrArg (fun p => p.2.done.isSome) (HashmapIterator.pending_eq s.2 hfetched)).trans
      hfetched

/-! ### The sqlite index -/

/-- A source in which nothing fails, and the count is the number of results. -/
def countedSource (results : List R) : SearchSource R R Empty where
  convertSearchRequestToQuery _ := .ok results
  resolve := .ok
  count := .ok results.length

namespace SQLiteIterator

variable {results : List R} {s : SQLiteIterator R}

theorem results_countedSource (results : List R) (fetchAll : Bool) :
    (countedSource results).results fetchAll = .ok results :=
  Lib.Results.mapM_eq_ok_iff.mpr (List.forall₂_same.mpr (fun _ _ => rfl))

/-- An iterator over the results that only takes pages. -/
structure Pages (results : List R) (s : SQLiteIterator R) : Prop where
  counted : s.Counted (countedSource results) (fun _ => results)
  runs : s.Runs false

/-- What a call returns, when it does not fail. -/
def returnedOf {α : Type} (call : Except (FetchError Empty) α × SQLiteIterator R)
    (a : α) : α :=
  match call.1 with
  | .ok a => a
  | .error _ => a

def nextPage (results : List R) (s : SQLiteIterator R) (amount : Nat) :
    List R × SQLiteIterator R :=
  let call := s.fetch (countedSource results) amount
  (returnedOf call [], call.2)

def pendingPages (results : List R) (s : SQLiteIterator R) : Nat × SQLiteIterator R :=
  let call := s.pending (countedSource results)
  (returnedOf call 0, call.2)

theorem nextPage_spec (h : s.Pages results) (amount : Nat) :
    (s.nextPage results amount).1 = (results.drop s.offset).take amount ∧
      (s.nextPage results amount).2.Pages results ∧
      (s.nextPage results amount).2.offset =
        s.offset + ((results.drop s.offset).take amount).length ∧
      (s.nextPage results amount).2.done.isSome := by
  obtain ⟨s', hfetch, hcounted, hprepared, hoffset⟩ :=
    h.counted.next (results_countedSource results false) h.runs amount
  have hruns := hprepared.runs
  obtain ⟨stmt, hstmt, -⟩ := hprepared
  rw [nextPage, hfetch]
  refine ⟨rfl, ⟨hcounted, hruns⟩, hoffset, ?_⟩
  rw [done, if_pos (by rw [hstmt]; rfl)]
  rfl

theorem pendingPages_spec (h : s.Pages results) :
    (s.pendingPages results).1 = results.length - s.offset ∧
      (s.pendingPages results).2.Pages results ∧
      (s.pendingPages results).2.offset = s.offset ∧
      (s.pendingPages results).2.stmt = s.stmt := by
  obtain ⟨s', hpending, hcounted, hstmt, hoffset⟩ :=
    h.counted.pending (fun _ _ _ => rfl)
  rw [pendingPages, hpending]
  refine ⟨rfl, ⟨hcounted, fun stmt h' => h.runs stmt ?_⟩, hoffset, hstmt⟩
  rw [← hstmt, h']

theorem isSome_done : s.done.isSome = s.stmt.isSome := by
  rw [done]
  cases s.stmt with
  | none => rfl
  | some stmt => rfl

end SQLiteIterator

def sqliteIterator (R : Type) : IndexIterator R where
  State := { s : List R × SQLiteIterator R // s.2.Pages s.1 }
  iterate results :=
    ⟨(results, (sqliteIterate (countedSource results)).init),
      (sqliteIterate_accounts (countedSource results) (fun _ => results)).init_good,
      fun _ hstmt => absurd hstmt (by simp [sqliteIterate])⟩
  next s amount :=
    ((s.1.2.nextPage s.1.1 amount).1,
      ⟨(s.1.1, (s.1.2.nextPage s.1.1 amount).2),
        (SQLiteIterator.nextPage_spec s.2 amount).2.1⟩)
  done s := s.1.2.done
  pending s :=
    ((s.1.2.pendingPages s.1.1).1,
      ⟨(s.1.1, (s.1.2.pendingPages s.1.1).2), (SQLiteIterator.pendingPages_spec s.2).2.1⟩)
  left s := s.1.1.drop s.1.2.offset
  left_iterate _ := rfl
  next_fst s amount _ := (SQLiteIterator.nextPage_spec s.2 amount).1
  left_next s amount _ := by
    have hoffset := (SQLiteIterator.nextPage_spec s.2 amount).2.2.1
    have hsplit := List.prefix_iff_eq_append.mp
      (List.take_prefix amount (s.1.1.drop s.1.2.offset))
    have hdrop := List.take_append_drop amount (s.1.1.drop s.1.2.offset)
    dsimp only
    rw [hoffset, ← List.drop_drop]
    exact List.append_cancel_left (hsplit.trans hdrop.symm)
  done_next s amount _ := (SQLiteIterator.nextPage_spec s.2 amount).2.2.2
  left_of_done s hdone := by
    have hmore : s.1.2.hasMore = false := by
      rw [SQLiteIterator.done] at hdone
      split at hdone
      · simpa using hdone
      · cases hdone
    exact List.drop_eq_nil_of_le (s.2.counted.hasMore hmore false s.2.runs)
  pending_fst s _ := by
    rw [List.length_drop]
    exact (SQLiteIterator.pendingPages_spec s.2).1
  left_pending s _ :=
    congrArg (fun offset => s.1.1.drop offset) (SQLiteIterator.pendingPages_spec s.2).2.2.1
  done_pending s hfetched := by
    rw [SQLiteIterator.isSome_done] at hfetched ⊢
    rw [(SQLiteIterator.pendingPages_spec s.2).2.2.2]
    exact hfetched

end Indexer
end Peerbit
