import Peerbit.Indexer.FlattenedRows

/-!
# Statements of an index

An index counts documents with one statement for each table of documents, and iterates
them with the union of the statements of the flattened query.  A table that lacks a
field of the query is skipped.

Whether both agree on the documents that match is stated here, with the condition under
which they do.
-/

namespace Peerbit
namespace Indexer

open Sqlite Lib.LeftJoins

/-! ### The index -/

/-- The tables of an index, with their rows and the keys of their classes' fields.  A
row has the primary key of its document, and a field that is not a vector has one value
at most. -/
structure SQLiteIndex (V : Type) [DecidableEq V] where
  roots : List Table
  schemaKeys : Table → List String
  rows : String → List (Row V)
  names : ((Table.allOf roots).map Table.name).Nodup
  documents : ∀ table ∈ roots, table.inline = false ∧ table.referencedInArray = false
  keys : ∀ table ∈ roots, ((rows table.name).map (primaryOf table)).Nodup
  single : ∀ root ∈ roots, ∀ table ∈ Table.allOf root.children,
    table.inline = false → table.referencedInArray = false →
      (rows table.name).Pairwise (fun row row' =>
        sqlEqual (row PARENT_TABLE_ID) (row' PARENT_TABLE_ID) = false)

section Collect

variable {α : Type}

/-- What the loops over the tables do with results: those that are `MissingFieldError`s
are skipped. -/
def skipMissing : List (Except SqlError α) → Except SqlError (List α)
  | [] => .ok []
  | .ok a :: results => do
      let as ← skipMissing results
      return a :: as
  | .error e :: results => if e.isMissingField then skipMissing results else .error e

def lastError (results : List (Except SqlError α)) : SqlError :=
  (results.reverse.findSome? (fun result =>
    match result with
    | .ok _ => none
    | .error e => some e)).getD .unexpected

/-- The results of the loops, of which there is one at least. -/
def collect (results : List (Except SqlError α)) : Except SqlError (List α) := do
  let as ← skipMissing results
  if as.isEmpty then .error (lastError results) else return as

def resultOf : Except SqlError α → Option α
  | .ok a => some a
  | .error _ => none

theorem skipMissing_eq_ok_iff {results : List (Except SqlError α)} {as : List α} :
    skipMissing results = .ok as ↔
      (∀ e, .error e ∈ results → e.isMissingField = true) ∧
        as = results.filterMap resultOf := by
  induction results generalizing as with
  | nil =>
      rw [skipMissing]
      constructor
      · rintro ⟨⟩
        exact ⟨fun e he => (nomatch he), rfl⟩
      · rintro ⟨-, rfl⟩
        rfl
  | cons result results ih =>
      cases result with
      | ok a =>
          rw [skipMissing, Lib.Results.bind_eq_ok_iff]
          simp only [ih, List.mem_cons, reduceCtorEq, false_or, List.filterMap_cons, resultOf]
          constructor
          · rintro ⟨as, ⟨herrors, rfl⟩, h⟩
            exact ⟨herrors, (Except.ok.inj h).symm⟩
          · rintro ⟨herrors, rfl⟩
            exact ⟨_, ⟨herrors, rfl⟩, rfl⟩
      | error e =>
          rw [skipMissing]
          simp only [List.mem_cons, Except.error.injEq, List.filterMap_cons, resultOf]
          split
          · rename_i hmissing
            rw [ih]
            refine and_congr_left fun _ => ?_
            constructor
            · rintro herrors e' (rfl | he')
              · exact hmissing
              · exact herrors e' he'
            · exact fun herrors e' he' => herrors e' (Or.inr he')
          · rename_i hmissing
            constructor
            · rintro ⟨⟩
            · rintro ⟨herrors, -⟩
              exact absurd (herrors e (Or.inl rfl)) hmissing

theorem collect_eq_ok_iff {results : List (Except SqlError α)} {as : List α} :
    collect results = .ok as ↔
      (∀ e, .error e ∈ results → e.isMissingField = true) ∧
        as = results.filterMap resultOf ∧ as ≠ [] := by
  rw [collect, Lib.Results.bind_eq_ok_iff]
  simp only [skipMissing_eq_ok_iff]
  constructor
  · rintro ⟨as', ⟨herrors, rfl⟩, h⟩
    split at h
    · cases h
    · rename_i hne
      obtain rfl := Except.ok.inj h
      exact ⟨herrors, rfl, by simpa using hne⟩
  · rintro ⟨herrors, rfl, hne⟩
    refine ⟨_, ⟨herrors, rfl⟩, ?_⟩
    rw [if_neg (by simpa using hne)]
    rfl

end Collect

section Index

variable {L V : Type} [DecidableEq V]
variable (compares : L → SQLField → Option V → Option Bool)
variable (jsonGroupArray : List (List (SQLField × Option V)) → Option V)
variable (ix : SQLiteIndex V) (request : Request L) (shape : Option Shape)

/-- The statement of conditions for a table of documents. -/
def SQLiteIndex.convert (table : Table) (queries : List (QueryTree (QueryLeaf L))) :
    Except SqlError (Statement L) :=
  convertRequestToQuery ix.schemaKeys (Table.allOf ix.roots).length table queries

/-- The joined rows of a document. -/
def SQLiteIndex.joined (table : Table) (st : Statement L) (row : Row V) : List (Env V) :=
  joinAll (queryJoins ix.rows st) (startEnv table row)

/-- `convertCountRequestToQuery`, and what SQLite returns for it. -/
def SQLiteIndex.countTable (table : Table) : Except SqlError Nat := do
  let st ← ix.convert table request.query
  if st.prepares [scopeOf table] then
    return ((ix.rows table.name).flatMap (ix.joined table st)).countP (st.holds compares)
  else .error .refused

/-- `count` -/
def SQLiteIndex.count : Except SqlError Nat := do
  let counts ← collect (ix.roots.map (ix.countTable compares request))
  return counts.sum

/-- One of the statements that are combined. -/
structure Select (L : Type) where
  table : Table
  selected : Selected
  statement : Statement L

def Select.prepares (select : Select L) : Bool :=
  inScope [scopeOf select.table] select.selected.joins &&
    select.statement.prepares
      (scopeOf select.table :: select.selected.joins.map (fun j => (j.table, j.primary)))

/-- The statements for a table of documents. -/
def SQLiteIndex.selectsOf (table : Table) (selected : Selected) :
    List (Except SqlError (Select L)) :=
  (flatten request.props).map (fun p => do
    let statement ← ix.convert table p.query
    return { table, selected, statement })

/-- `convertSearchRequestToQuery`, without the order and the limits. -/
def SQLiteIndex.convertSearchRequestToQuery : Except SqlError (List (Select L)) := do
  let selected ← ix.roots.mapM (fun table => selectAllFieldsFromTable table shape)
  collect ((ix.roots.zip selected).flatMap (fun t => ix.selectsOf request t.1 t.2))

def SQLiteIndex.rowsOf (select : Select L) : List (Output V) :=
  selectRows jsonGroupArray ix.rows compares select.table select.selected select.statement

/-- `UNION` removes rows that come twice; there is none for one statement. -/
def SQLiteIndex.union : List (Select L) → List (Output V)
  | [select] => ix.rowsOf compares jsonGroupArray select
  | selects => (selects.flatMap (ix.rowsOf compares jsonGroupArray)).dedup

/-- `iterate`, to the end. -/
def SQLiteIndex.iterate : Except SqlError (List (Output V)) := do
  let selects ← ix.convertSearchRequestToQuery request shape
  if selects.all Select.prepares then return ix.union compares jsonGroupArray selects
  else .error .refused

/-! ### What is wanted -/

def Output.document (r : Output V) : String × Option V :=
  (r.table, r.id)

def documentOf (table : Table) (row : Row V) : String × Option V :=
  (table.name, primaryOf table row)

/-- The tables of documents that have the fields of the query. -/
def SQLiteIndex.known : List (Table × Statement L) :=
  ix.roots.filterMap (fun table =>
    (resultOf (ix.convert table request.query)).map (fun st => (table, st)))

open Classical in
/-- The documents that match. -/
noncomputable def SQLiteIndex.matching : List (String × Option V) :=
  (ix.known request).flatMap (fun t =>
    ((ix.rows t.1.name).filter (fun row => decide (Matches ix.rows compares t.1 t.2 row))).map
      (documentOf t.1))

/-- The rows that are iterated have each matching document once, and the documents are
counted. -/
def SQLiteIndex.CountAgrees : Prop :=
  ∃ rows, ix.iterate compares jsonGroupArray request shape = .ok rows ∧
    (rows.map Output.document).Perm (ix.matching compares request) ∧
      ix.count compares request = .ok (ix.matching compares request).length

/-- Nothing is selected of a table of documents. -/
def SQLiteIndex.Selects (select : Select L) : Prop :=
  ∃ row ∈ ix.rows select.table.name,
    documentRows ix.rows compares select.table select.selected select.statement row ≠ []

/-- The fields of the shape are wanted as a whole or by name, and some table of
documents has the fields of the query.  Such tables find the names of the conditions,
and their documents satisfy them with one choice of rows only.  Documents of the other
tables satisfy no part of the query. -/
structure SQLiteIndex.OneChoiceEach : Prop where
  shapes : ∀ table ∈ ix.roots, ∃ selected, selectAllFieldsFromTable table shape = .ok selected
  some_known : ix.known request ≠ []
  known : ∀ t ∈ ix.known request, t.2.prepares [scopeOf t.1] = true ∧
    ∀ row ∈ ix.rows t.1.name, OneChoice ix.rows compares t.1 t.2 row
  unknown : ∀ table ∈ ix.roots, ∀ e, ix.convert table request.query = .error e →
    e.isMissingField = true ∧ ∀ selected, selectAllFieldsFromTable table shape = .ok selected →
      ∀ p ∈ flatten request.props,
        match ix.convert table p.query with
        | .error e => e.isMissingField = true
        | .ok statement =>
            Select.prepares { table, selected, statement } = true ∧
              ¬ ix.Selects compares { table, selected, statement }

/-! ### Tables of documents -/

theorem sublist_allOf (tables : List Table) : tables.Sublist (Table.allOf tables) := by
  induction tables with
  | nil => exact List.Sublist.refl _
  | cons first rest ih =>
      rw [Table.allOf_cons, List.cons_append]
      exact (ih.trans (List.sublist_append_right _ _)).cons_cons _

variable {compares jsonGroupArray ix request shape}

theorem SQLiteIndex.root_inj {table table' : Table} (h : table ∈ ix.roots)
    (h' : table' ∈ ix.roots) (hname : table.name = table'.name) : table = table' :=
  List.inj_on_of_nodup_map (ix.names.sublist ((sublist_allOf _).map _)) h h' hname

theorem SQLiteIndex.name_ne {table child : Table} (h : table ∈ ix.roots)
    (hchild : child ∈ Table.allOf table.children) : child.name ≠ table.name := by
  have hnodup := ix.names.sublist ((Table.all_sublist h).map Table.name)
  rw [Table.all_eq, List.map_cons, List.nodup_cons] at hnodup
  intro hname
  exact hnodup.1 (hname ▸ List.mem_map_of_mem hchild)

theorem SQLiteIndex.apart {table : Table} (h : table ∈ ix.roots) {selected : Selected}
    (hselected : selectAllFieldsFromTable table shape = .ok selected) :
    Apart table selected := by
  intro j hj
  obtain ⟨child, hchild, hname, -⟩ :=
    single_of_selected (ix.documents table h).2 hselected hj
  rw [← hname]
  exact ix.name_ne h hchild

omit ix in
theorem sqlEqual_of_sqlEqual {x y z : Option V} (h : sqlEqual x y = true)
    (h' : sqlEqual x z = true) : sqlEqual y z = true := by
  cases x <;> cases y <;> cases z <;> simp_all [sqlEqual]

/-- Without groups, what is selected has one row at most. -/
theorem SQLiteIndex.single_selectJoins {table : Table} (h : table ∈ ix.roots)
    {selected : Selected} (hselected : selectAllFieldsFromTable table shape = .ok selected)
    (hgroup : selected.groupByParentId = false) {j : LeftJoin Identifier (Row V)}
    (hj : j ∈ selectJoins ix.rows selected) (e : Env V) : (j.rows e).length ≤ 1 := by
  obtain ⟨j, hmem, rfl⟩ := List.mem_map.mp hj
  obtain ⟨child, hchild, hname, hplain⟩ :=
    single_of_selected (ix.documents table h).2 hselected hmem
  obtain ⟨hinline, harray⟩ := hplain hgroup
  have hsingle := ix.single table h child hchild hinline harray
  rw [hname] at hsingle
  rw [Join.leftJoin]
  dsimp only
  split
  · exact Nat.zero_le 1
  · rw [← List.countP_eq_length_filter, countP_le_one_iff]
    refine hsingle.imp fun hne hboth => ?_
    rw [sqlEqual_of_sqlEqual hboth.1 hboth.2] at hne
    cases hne

theorem SQLiteIndex.mem_known {t : Table × Statement L} :
    t ∈ ix.known request ↔ t.1 ∈ ix.roots ∧ ix.convert t.1 request.query = .ok t.2 := by
  rw [SQLiteIndex.known, List.mem_filterMap]
  constructor
  · rintro ⟨table, htable, hst⟩
    obtain ⟨st, hresult, rfl⟩ := Option.map_eq_some_iff.mp hst
    cases hconvert : ix.convert table request.query with
    | error e =>
        rw [hconvert] at hresult
        cases hresult
    | ok st' =>
        rw [hconvert] at hresult
        obtain rfl := Option.some.inj hresult
        exact ⟨htable, rfl⟩
  · rintro ⟨htable, hconvert⟩
    exact ⟨t.1, htable, by rw [hconvert]; rfl⟩

end Index

end Indexer
end Peerbit
