import Mathlib
import Peerbit.Indexer.SQLiteIndex
import Peerbit.Lib.Paging

/-!
# Paging in a SQLite index

`iterate` prepares one statement, at its first fetch: with `limit ? offset ?` for
`next`, and without for `all`.  Later calls run this statement, whatever they want.
After `next`, `all` leaves the limit unbound, and SQLite rejects a limit that is null;
after `all`, `next` binds two values too many, and another `all` selects all rows again
(`not_lossless_all`).

How many results are left is the count of the query less the offset.

The index does not change while it is iterated, so that a statement selects the same
rows in the same order.
-/

namespace Peerbit
namespace Indexer

open Sqlite Lib.Paging

variable {Row R ε : Type}

/-- What an iterator asks its database for: the rows of the statement of its query, with
limits or without (`fetchAll`), the result that is read from a row, and the count. -/
structure SearchSource (Row R ε : Type) where
  convertSearchRequestToQuery : (fetchAll : Bool) → Except ε (List Row)
  resolve : Row → Except ε R
  count : Except ε Nat

/-- A prepared statement, and the rows that it selects without a limit. -/
structure SearchStatement (Row : Type) where
  fetchAll : Bool
  rows : List Row
deriving Repr, DecidableEq

/-- Errors of the query, and those of SQLite for values that do not fit a statement: too
many of them, and a limit that is not a number. -/
inductive FetchError (ε : Type) where
  | query (e : ε)
  | range
  | mismatch
deriving Repr, DecidableEq

/-- `stmt.all`, with the amount and the offset for all other than `⊤`. -/
def SearchStatement.all (stmt : SearchStatement Row) (amount : WithTop Nat) (offset : Nat) :
    Except (FetchError ε) (List Row) :=
  match stmt.fetchAll, amount with
  | true, none => .ok stmt.rows
  | true, some _ => .error .range
  | false, some limit => .ok ((stmt.rows.drop offset).take limit)
  | false, none => .error .mismatch

theorem SearchStatement.all_limit {stmt : SearchStatement Row} (h : stmt.fetchAll = false)
    (limit offset : Nat) :
    (stmt.all limit offset : Except (FetchError ε) _) =
      .ok ((stmt.rows.drop offset).take limit) := by
  obtain ⟨fetchAll, rows⟩ := stmt
  obtain rfl : fetchAll = false := h
  rfl

theorem SearchStatement.all_rows {stmt : SearchStatement Row} (h : stmt.fetchAll = true)
    (offset : Nat) : (stmt.all ⊤ offset : Except (FetchError ε) _) = .ok stmt.rows := by
  obtain ⟨fetchAll, rows⟩ := stmt
  obtain rfl : fetchAll = true := h
  rfl

/-- What the closures of `iterate` share.  `once` is that there is a statement. -/
structure SQLiteIterator (Row : Type) where
  offset : Nat
  stmt : Option (SearchStatement Row)
  hasMore : Bool
  kept : Option Nat
  totalCount : Option Nat
deriving Repr, DecidableEq

namespace SQLiteIterator

variable (src : SearchSource Row R ε)

/-- The statement that a fetch runs. -/
def prepare (s : SQLiteIterator Row) (amount : WithTop Nat) :
    Except (FetchError ε) (SearchStatement Row) :=
  match s.stmt with
  | some stmt => .ok stmt
  | none =>
      match src.convertSearchRequestToQuery (amount == ⊤) with
      | .ok rows => .ok { fetchAll := amount == ⊤, rows }
      | .error e => .error (.query e)

def fetch (s : SQLiteIterator Row) (amount : WithTop Nat) :
    Except (FetchError ε) (List R) × SQLiteIterator Row :=
  let s := { s with kept := none }
  match s.prepare src amount with
  | .error e => (.error e, s)
  | .ok stmt =>
      let s := { s with stmt := some stmt }
      match stmt.all amount s.offset with
      | .error e => (.error e, s)
      | .ok allResults =>
          match allResults.mapM src.resolve with
          | .error e => (.error (.query e), s)
          | .ok results =>
              (.ok results,
                { s with
                  offset := s.offset + results.length
                  hasMore :=
                    if amount = ⊤ ∨ results.length < amount then false else s.hasMore })

def pending (s : SQLiteIterator Row) : Except (FetchError ε) Nat × SQLiteIterator Row :=
  if s.hasMore then
    match s.kept with
    | some kept => (.ok kept, s)
    | none =>
        match s.totalCount.elim src.count .ok with
        | .error e => (.error (.query e), s)
        | .ok totalCount =>
            let kept := totalCount - s.offset
            (.ok kept,
              { s with
                totalCount := some totalCount
                kept := some kept
                hasMore := decide (0 < kept) })
  else (.ok 0, s)

def done (s : SQLiteIterator Row) : Option Bool :=
  if s.stmt.isSome then some !s.hasMore else none

end SQLiteIterator

/-- The iterator that `iterate` returns.  The loop of `all` ends after its first fetch,
which leaves `hasMore` false. -/
def sqliteIterate (src : SearchSource Row R ε) :
    PagedIterator (SQLiteIterator Row) R (FetchError ε) where
  init := { offset := 0, stmt := none, hasMore := true, kept := none, totalCount := none }
  fetch s amount := s.fetch src amount
  pending s := s.pending src
  done s := s.done

/-! ### What is left -/

namespace SQLiteIterator

/-- The statement is of this kind, or may become it. -/
def Runs (s : SQLiteIterator Row) (fetchAll : Bool) : Prop :=
  ∀ stmt, s.stmt = some stmt → stmt.fetchAll = fetchAll

/-- There is a statement, of this kind. -/
def Prepared (s : SQLiteIterator Row) (fetchAll : Bool) : Prop :=
  ∃ stmt, s.stmt = some stmt ∧ stmt.fetchAll = fetchAll

/-- The kind of the statement, with limits as long as there is none. -/
def kind (s : SQLiteIterator Row) : Bool :=
  (s.stmt.map SearchStatement.fetchAll).getD false

variable (full : Bool → List R)

def left (s : SQLiteIterator Row) : List R :=
  (full s.kind).drop s.offset

end SQLiteIterator

/-- All results of a statement. -/
def SearchSource.results (src : SearchSource Row R ε) (fetchAll : Bool) :
    Except ε (List R) := do
  let rows ← src.convertSearchRequestToQuery fetchAll
  rows.mapM src.resolve

/-- The calls that fit the statement: `next` after `next`, and `all` first, or again when
there are no results.  While there may be more, the count is the number of results. -/
def SearchSource.Allows (src : SearchSource Row R ε) (full : Bool → List R)
    (s : SQLiteIterator Row) : PagingCall → Prop
  | .next _ => src.results false = .ok (full false) ∧ s.Runs false
  | .all =>
      src.results true = .ok (full true) ∧ s.Runs true ∧
        (s.stmt.isSome → full true = [])
  | .pending =>
      s.hasMore = true → ∀ fetchAll, s.Runs fetchAll →
        src.count = .ok (full fetchAll).length
  | .done => True

/-- What the counters of an iterator say. -/
structure SQLiteIterator.Counted (src : SearchSource Row R ε) (full : Bool → List R)
    (s : SQLiteIterator Row) : Prop where
  fresh : s.stmt = none → s.offset = 0
  stmt : ∀ stmt, s.stmt = some stmt →
    stmt.rows.mapM src.resolve = .ok (full stmt.fetchAll)
  offset : ∀ fetchAll, s.Runs fetchAll → s.offset ≤ (full fetchAll).length
  hasMore : s.hasMore = false → ∀ fetchAll, s.Runs fetchAll →
    (full fetchAll).length ≤ s.offset
  kept : ∀ kept, s.kept = some kept → ∀ fetchAll, s.Runs fetchAll →
    s.offset + kept = (full fetchAll).length
  totalCount : ∀ total, s.totalCount = some total → ∀ fetchAll, s.Runs fetchAll →
    total = (full fetchAll).length

/-! ### Fetches -/

section Fetch

variable {src : SearchSource Row R ε} {full : Bool → List R} {s : SQLiteIterator Row}
variable {b : Bool} {amount : WithTop Nat} {stmt : SearchStatement Row} {batch : List R}

theorem SQLiteIterator.Prepared.kind_eq (h : s.Prepared b) : s.kind = b := by
  obtain ⟨stmt, hstmt, rfl⟩ := h
  rw [kind, hstmt]
  rfl

theorem SQLiteIterator.Prepared.runs (h : s.Prepared b) : s.Runs b := by
  obtain ⟨stmt, hstmt, rfl⟩ := h
  intro stmt' hstmt'
  rw [Option.some.inj (hstmt.symm.trans hstmt')]

theorem SQLiteIterator.runs_kind (s : SQLiteIterator Row) : s.Runs s.kind := by
  intro stmt hstmt
  rw [kind, hstmt]
  rfl

variable (amount) in
theorem SQLiteIterator.Counted.prepare (h : s.Counted src full)
    (hresults : src.results b = .ok (full b)) (hruns : s.Runs b)
    (hamount : (amount == ⊤) = b) :
    ∃ stmt, s.prepare src amount = .ok stmt ∧ stmt.fetchAll = b ∧
      stmt.rows.mapM src.resolve = .ok (full b) := by
  rw [SQLiteIterator.prepare]
  cases hstmt : s.stmt with
  | some stmt =>
      have hkind := hruns stmt hstmt
      refine ⟨stmt, rfl, hkind, ?_⟩
      rw [← hkind]
      exact h.stmt stmt hstmt
  | none =>
      obtain ⟨rows, hrows, hresolve⟩ := Lib.Results.bind_eq_ok_iff.mp hresults
      rw [hamount, hrows]
      exact ⟨_, rfl, rfl, hresolve⟩

/-- A fetch that resolves `batch` takes it off what is left. -/
theorem SQLiteIterator.Counted.fetch (h : s.Counted src full) (hruns : s.Runs b)
    (hprepare : s.prepare src amount = .ok stmt) (hkind : stmt.fetchAll = b)
    (hrows : stmt.rows.mapM src.resolve = .ok (full b))
    {page : List Row} (hpage : (stmt.all amount s.offset : Except (FetchError ε) _) = .ok page)
    (hbatch : page.mapM src.resolve = .ok batch)
    (hstarts : batch <+: (full b).drop s.offset)
    (hlast : amount = ⊤ ∨ (batch.length : WithTop Nat) < amount →
      (full b).length ≤ s.offset + batch.length) :
    ∃ s', s.fetch src amount = (.ok batch, s') ∧ s'.Counted src full ∧ s'.Prepared b ∧
      s'.offset = s.offset + batch.length := by
  have hoffset : s.offset + batch.length ≤ (full b).length := by
    have hlength := hstarts.length_le
    have hle := h.offset b hruns
    rw [List.length_drop] at hlength
    omega
  have hfetch : s.fetch src amount = (.ok batch,
      { s with
        kept := none
        stmt := some stmt
        offset := s.offset + batch.length
        hasMore :=
          if amount = ⊤ ∨ (batch.length : WithTop Nat) < amount then false
          else s.hasMore }) := by
    have hprepare' : ({ s with kept := none } : SQLiteIterator Row).prepare src amount =
        .ok stmt := hprepare
    simp only [SQLiteIterator.fetch, hprepare', hpage, hbatch]
  have hruns' : ∀ fetchAll, (∀ st, some stmt = some st → st.fetchAll = fetchAll) →
      fetchAll = b := by
    intro fetchAll hall
    rw [← hall stmt rfl, hkind]
  refine ⟨_, hfetch, ?_, ⟨stmt, rfl, hkind⟩, rfl⟩
  constructor
  case fresh =>
    intro hnone
    cases hnone
  case stmt =>
    intro st hst
    obtain rfl := Option.some.inj hst
    rw [hkind]
    exact hrows
  case offset =>
    intro fetchAll hall
    rw [hruns' fetchAll hall]
    exact hoffset
  case hasMore =>
    intro hmore fetchAll hall
    rw [hruns' fetchAll hall]
    dsimp only at hmore ⊢
    split at hmore
    case isTrue hshort => exact hlast hshort
    case isFalse hshort => exact (h.hasMore hmore b hruns).trans (Nat.le_add_right _ _)
  case kept =>
    intro kept hkept
    cases hkept
  case totalCount =>
    intro total htotal fetchAll hall
    rw [hruns' fetchAll hall]
    exact h.totalCount total htotal b hruns

theorem SQLiteIterator.Counted.next (h : s.Counted src full)
    (hresults : src.results false = .ok (full false)) (hruns : s.Runs false) (n : Nat) :
    ∃ s', s.fetch src n = (.ok (((full false).drop s.offset).take n), s') ∧
      s'.Counted src full ∧ s'.Prepared false ∧
      s'.offset = s.offset + (((full false).drop s.offset).take n).length := by
  obtain ⟨stmt, hprepare, hkind, hrows⟩ :=
    h.prepare n hresults hruns (by simp)
  have hpage : (stmt.all n s.offset : Except (FetchError ε) _) =
      .ok ((stmt.rows.drop s.offset).take n) :=
    SearchStatement.all_limit hkind n s.offset
  have hbatch : ((stmt.rows.drop s.offset).take n).mapM src.resolve =
      .ok (((full false).drop s.offset).take n) := by
    rw [Lib.Results.mapM_eq_ok_iff] at hrows ⊢
    exact List.forall₂_take n (List.forall₂_drop s.offset hrows)
  refine h.fetch hruns hprepare hkind hrows hpage hbatch (List.take_prefix _ _) ?_
  rintro (htop | hshort)
  · exact absurd htop (by simp)
  · have hshort := Nat.cast_lt.mp hshort
    rw [List.length_take, List.length_drop] at hshort ⊢
    omega

theorem SQLiteIterator.Counted.all (h : s.Counted src full)
    (hresults : src.results true = .ok (full true)) (hruns : s.Runs true)
    (hfirst : s.stmt.isSome → full true = []) :
    ∃ s', s.fetch src ⊤ = (.ok (full true), s') ∧ s'.Counted src full ∧
      s'.Prepared true ∧ s.offset = 0 ∧ s'.offset = (full true).length := by
  have hzero : s.offset = 0 := by
    cases hstmt : s.stmt with
    | none => exact h.fresh hstmt
    | some stmt =>
        have hle := h.offset true hruns
        rw [hfirst (by rw [hstmt]; rfl)] at hle
        exact Nat.le_zero.mp hle
  obtain ⟨stmt, hprepare, hkind, hrows⟩ :=
    h.prepare ⊤ hresults hruns (by simp)
  have hpage : (stmt.all ⊤ s.offset : Except (FetchError ε) _) = .ok stmt.rows :=
    SearchStatement.all_rows hkind s.offset
  have hstarts : full true <+: (full true).drop s.offset := by
    rw [hzero]
    exact List.prefix_refl _
  obtain ⟨s', hfetch, hcounted, hprepared, hoffset⟩ :=
    h.fetch hruns hprepare hkind hrows hpage hrows hstarts (fun _ => by omega)
  refine ⟨s', hfetch, hcounted, hprepared, hzero, ?_⟩
  rw [hoffset, hzero, Nat.zero_add]

theorem SQLiteIterator.Counted.pending (h : s.Counted src full)
    (hcount : s.hasMore = true → ∀ fetchAll, s.Runs fetchAll →
      src.count = .ok (full fetchAll).length) :
    ∃ s', s.pending src = (.ok ((full s.kind).length - s.offset), s') ∧
      s'.Counted src full ∧ s'.stmt = s.stmt ∧ s'.offset = s.offset := by
  have hruns := s.runs_kind
  have hle := h.offset s.kind hruns
  rw [SQLiteIterator.pending]
  split
  case isFalse hmore =>
    have hnone := h.hasMore (by simpa using hmore) s.kind hruns
    refine ⟨s, ?_, h, rfl, rfl⟩
    rw [Nat.sub_eq_zero_of_le hnone]
  case isTrue hmore =>
    cases hkept : s.kept with
    | some kept =>
        have hsum := h.kept kept hkept s.kind hruns
        refine ⟨s, ?_, h, rfl, rfl⟩
        rw [← hsum, Nat.add_sub_cancel_left]
    | none =>
        dsimp only
        have htotal : ∃ total, s.totalCount.elim src.count .ok = .ok total ∧
            ∀ fetchAll, s.Runs fetchAll → total = (full fetchAll).length := by
          cases htotal : s.totalCount with
          | some total => exact ⟨total, rfl, h.totalCount total htotal⟩
          | none =>
              have hall := hcount hmore
              refine ⟨(full s.kind).length, hall s.kind hruns, fun fetchAll hfetch => ?_⟩
              have heq := (hall s.kind hruns).symm.trans (hall fetchAll hfetch)
              exact Except.ok.inj heq
        obtain ⟨total, helim, hlength⟩ := htotal
        let s' : SQLiteIterator Row :=
          { s with
            totalCount := some total
            kept := some (total - s.offset)
            hasMore := decide (0 < total - s.offset) }
        refine ⟨s', ?_, ?_, rfl, rfl⟩
        · rw [helim, ← hlength s.kind hruns]
        constructor
        case fresh => exact h.fresh
        case stmt => exact h.stmt
        case offset => exact h.offset
        case hasMore =>
          intro hzero fetchAll hfetch
          have hnone := of_decide_eq_false hzero
          rw [← hlength fetchAll hfetch]
          show total ≤ s.offset
          omega
        case kept =>
          rintro kept ⟨⟩ fetchAll hfetch
          have hle := h.offset fetchAll hfetch
          rw [← hlength fetchAll hfetch] at hle ⊢
          exact Nat.add_sub_cancel' hle
        case totalCount =>
          rintro t ⟨⟩
          exact hlength

end Fetch

/-! ### Runs of calls -/

theorem sqliteIterate_accounts (src : SearchSource Row R ε) (full : Bool → List R) :
    Accounts (sqliteIterate src) (SQLiteIterator.Counted src full)
      (SQLiteIterator.left full) (fun s => full s.kind) (src.Allows full) where
  init_good := {
    fresh := fun _ => rfl
    stmt := fun _ h => absurd h (by simp [sqliteIterate])
    offset := fun _ _ => Nat.zero_le _
    hasMore := fun h => absurd h (by simp [sqliteIterate])
    kept := fun _ h => absurd h (by simp [sqliteIterate])
    totalCount := fun _ h => absurd h (by simp [sqliteIterate]) }
  init_left := rfl
  next s n h hguard _ := by
    obtain ⟨s', hfetch, hcounted, hprepared, hoffset⟩ := h.next hguard.1 hguard.2 n
    refine ⟨_, s', hfetch, hcounted, fun returned hreturned => ?_⟩
    have hfalse : s.kind = false := by
      cases hstmt : s.stmt with
      | none =>
          rw [SQLiteIterator.kind, hstmt]
          rfl
      | some stmt =>
          exact SQLiteIterator.Prepared.kind_eq ⟨stmt, hstmt, hguard.2 stmt hstmt⟩
    rw [SQLiteIterator.left, hfalse] at hreturned
    rw [SQLiteIterator.left, hprepared.kind_eq, hoffset, ← List.drop_drop, List.append_assoc]
    generalize (full false).drop s.offset = rest at *
    rw [List.prefix_iff_eq_append.mp (List.take_prefix n rest), hreturned]
  all s h hguard := by
    obtain ⟨s', hfetch, hcounted, hprepared, hzero, hoffset⟩ :=
      h.all hguard.1 hguard.2.1 hguard.2.2
    refine ⟨_, s', hfetch, hcounted, ?_, fun returned hreturned => ?_⟩
    · rw [SQLiteIterator.left, hprepared.kind_eq, hoffset, List.drop_length]
    · rw [SQLiteIterator.left, hzero, List.drop_zero] at hreturned
      rw [List.append_left_eq_self.mp hreturned, hprepared.kind_eq, List.nil_append]
  pending s h hguard := by
    obtain ⟨s', hpending, hcounted, hstmt, hoffset⟩ := h.pending hguard
    have hkind : s'.kind = s.kind := by rw [SQLiteIterator.kind, hstmt, SQLiteIterator.kind]
    refine ⟨s', ?_, hcounted, ?_, ?_⟩
    · rw [SQLiteIterator.left, List.length_drop]
      exact hpending
    · rw [SQLiteIterator.left, SQLiteIterator.left, hkind, hoffset]
    · rw [hkind]
  done s h hdone := by
    have hsome : s.stmt.isSome ∧ s.hasMore = false := by
      have hdone : s.done = some true := hdone
      rw [SQLiteIterator.done] at hdone
      split at hdone
      case isTrue hsome => exact ⟨hsome, by simpa using hdone⟩
      case isFalse => cases hdone
    exact List.drop_eq_nil_of_le (h.hasMore hsome.2 s.kind s.runs_kind)

/-- A client whose calls fit the statement loses nothing. -/
theorem lossless_of_allows (src : SearchSource Row R ε) (full : Bool → List R)
    {s : PagingState (SQLiteIterator Row) R (FetchError ε)}
    (hrun : (paging (sqliteIterate src)).Run
      (fun s call => src.Allows full s.iterator call) s) :
    Lossless (fun i => full i.kind) s :=
  (sqliteIterate_accounts src full).lossless hrun

/-! ### The statements of an index -/

section Index

variable {L V : Type} [DecidableEq V]
variable (compares : L → SQLField → Option V → Option Bool)
variable (jsonGroupArray : List (List (SQLField × Option V)) → Option V)
variable (ix : SQLiteIndex V) (request : Request L) (shape : Option Shape)

/-- The index as it is asked by an iterator, with the order of the rows. -/
def SQLiteIndex.source (order : Bool → List (Output V) → List (Output V))
    (resolve : Output V → Except SqlError R) :
    SearchSource (Output V) R SqlError where
  convertSearchRequestToQuery fetchAll :=
    (ix.iterate compares jsonGroupArray request shape).map (order fetchAll)
  resolve := resolve
  count := ix.count compares request

/-- When the count agrees with the documents that match, it is the number of results. -/
theorem SQLiteIndex.count_source {compares : L → SQLField → Option V → Option Bool}
    {jsonGroupArray : List (List (SQLField × Option V)) → Option V}
    {ix : SQLiteIndex V} {request : Request L} {shape : Option Shape}
    {order : Bool → List (Output V) → List (Output V)}
    {resolve : Output V → Except SqlError R} {fetchAll : Bool} {full : List R}
    (hagrees : ix.CountAgrees compares jsonGroupArray request shape)
    (horder : ∀ rows, (order fetchAll rows).Perm rows)
    (hfull : (ix.source compares jsonGroupArray request shape order resolve).results
      fetchAll = .ok full) :
    (ix.source compares jsonGroupArray request shape order resolve).count =
      .ok full.length := by
  obtain ⟨rows, hrows, hperm, hcount⟩ := hagrees
  have hresolve : (order fetchAll rows).mapM resolve = .ok full := by
    rw [SearchSource.results, SQLiteIndex.source, hrows] at hfull
    exact hfull
  have hlength := (Lib.Results.mapM_eq_ok_iff.mp hresolve).length_eq
  have hmatching := hperm.length_eq
  rw [List.length_map] at hmatching
  rw [← hlength, (horder rows).length_eq, hmatching]
  exact hcount

end Index

section TwoPosts

def twoPosts : SearchSource String String String where
  convertSearchRequestToQuery _ := .ok ["a", "b"]
  resolve := .ok
  count := .ok 2

/-- Pages of one result, with the count of what is left between them. -/
theorem lossless_posts :
    ∃ s, (paging (sqliteIterate twoPosts)).exec (paging (sqliteIterate twoPosts)).init
        [.next 1, .pending, .next 1] = some s ∧
      Lossless (fun _ => ["a", "b"]) s := by
  refine ⟨_, rfl, lossless_of_allows twoPosts (fun _ => ["a", "b"]) ?_⟩
  refine .step (.step (.step .init (a := .next 1) ?_ rfl) (a := .pending) ?_ rfl)
    (a := .next 1) ?_ rfl
  · exact ⟨rfl, fun stmt hstmt => absurd hstmt (by simp [paging, sqliteIterate])⟩
  · exact fun _ _ _ => rfl
  · refine ⟨rfl, fun stmt hstmt => ?_⟩
    obtain rfl := Option.some.inj hstmt
    rfl

/-- A second `all` returns everything again. -/
theorem not_lossless_all :
    ¬ ∀ s, (paging (sqliteIterate twoPosts)).Run Lib.Machine.Free s →
      Lossless (fun _ => ["a", "b"]) s := by
  intro h
  have hexec : (paging (sqliteIterate twoPosts)).exec
      (paging (sqliteIterate twoPosts)).init [.all, .all] =
        some ⟨⟨4, some ⟨true, ["a", "b"]⟩, false, none, none⟩,
          ["a", "b", "a", "b"], .rest⟩ := rfl
  exact absurd ((h _ (.of_exec .init _ hexec)).rest rfl) (by decide)

end TwoPosts

end Indexer
end Peerbit
