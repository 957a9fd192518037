import Peerbit.Indexer.SelectedTables
import Peerbit.Lib.LeftJoins

/-!
# Rows of a statement

A statement joins its tables to the row of each document and keeps the joined rows that
satisfy its conditions.  Each of them stands for a choice of one row from each table
that the query joins.

When these tables all refer to the document, a document that satisfies the conditions
with one choice only has one row in what a statement returns, and the row does not
depend on the conditions (`mem_selectRows`).
-/

namespace Peerbit
namespace Indexer

open Sqlite Lib.LeftJoins

/-- The columns of a row; a column that is null has no value. -/
abbrev Row (V : Type) := String → Option V

/-- The rows that are joined under each name. -/
abbrev Env (V : Type) := Identifier → Option (Row V)

section Statements

variable {L V : Type}

/-- The value of a column, null when no row is joined. -/
def columnOf (env : Env V) (as : Identifier) (name : String) : Option V :=
  (env as).bind (fun row => row name)

/-- What a comparison with a value gives, which may be null, is left open. -/
def Condition.eval (compares : L → SQLField → Option V → Option Bool) (env : Env V) :
    Condition L → Option Bool
  | .isNull as field => some (columnOf env as field.name).isNone
  | .compare as field comparison => compares comparison field (columnOf env as field.name)

def Statement.holds (compares : L → SQLField → Option V → Option Bool) (st : Statement L)
    (env : Env V) : Bool :=
  st.where_.eval (Condition.eval compares env) == some true

/-- Whether SQLite finds all names of a statement: the tables that are joined refer to
the scope, no name is of two tables, and the conditions are about tables of the scope or
about joined ones. -/
def Statement.prepares (scope : List (String × Option String)) (st : Statement L) : Bool :=
  st.joins.all (fun j => j.parent.any scope.contains) &&
    decide (st.joins.map Join.table).Nodup &&
    st.where_.leaves.all (fun condition =>
      match condition.as with
      | .table name => (scope.map (·.1)).contains name
      | .query name => (st.joins.map Join.table).contains name
      | .nested _ => false)

theorem prepares_iff {scope : List (String × Option String)} {st : Statement L} :
    st.prepares scope = true ↔
      (∀ j ∈ st.joins, ∃ parent ∈ scope, j.parent = some parent) ∧
        (st.joins.map Join.table).Nodup ∧
          ∀ condition ∈ st.where_.leaves,
            (∃ name ∈ scope.map (·.1), condition.as = .table name) ∨
              ∃ name ∈ st.joins.map Join.table, condition.as = .query name := by
  rw [Statement.prepares, Bool.and_eq_true, Bool.and_eq_true, List.all_eq_true,
    List.all_eq_true, decide_eq_true_eq, and_assoc]
  refine and_congr (forall₂_congr fun j _ => ?_) (and_congr_right fun _ =>
    forall₂_congr fun condition _ => ?_)
  · rw [Option.any_eq_true]
    constructor
    · rintro ⟨parent, hparent, hmem⟩
      exact ⟨parent, List.contains_iff_mem.mp hmem, hparent⟩
    · rintro ⟨parent, hmem, hparent⟩
      exact ⟨parent, hparent, List.contains_iff_mem.mpr hmem⟩
  · cases condition.as <;> simp

theorem prepares_mono {scope scope' : List (String × Option String)} {st : Statement L}
    (hsub : scope ⊆ scope') (h : st.prepares scope = true) : st.prepares scope' = true := by
  obtain ⟨hparents, hnames, hconditions⟩ := prepares_iff.mp h
  refine prepares_iff.mpr ⟨fun j hj => ?_, hnames, fun condition hcondition => ?_⟩
  · obtain ⟨parent, hmem, hparent⟩ := hparents j hj
    exact ⟨parent, hsub hmem, hparent⟩
  · refine (hconditions condition hcondition).imp_left ?_
    rintro ⟨name, hname, has⟩
    exact ⟨name, List.map_subset _ hsub hname, has⟩

theorem holds_congr
    {compares : L → SQLField → Option V → Option Bool} {st : Statement L} {env env' : Env V}
    (h : ∀ condition ∈ st.where_.leaves, env condition.as = env' condition.as) :
    st.holds compares env = st.holds compares env' := by
  rw [Statement.holds, Statement.holds, QueryTree.eval_congr]
  intro condition hcondition
  have has := h condition hcondition
  cases condition <;> simp only [Condition.eval, columnOf, Condition.as] at has ⊢ <;> rw [has]

end Statements

/-! ### Joins of a query -/

section Choices

variable {L V : Type} [DecidableEq V]
variable (rows : String → List (Row V)) (compares : L → SQLField → Option V → Option Bool)

/-- In SQL null is not equal to null. -/
def sqlEqual : Option V → Option V → Bool
  | some x, some y => x == y
  | _, _ => false

/-- A left join, with the name under which a table is joined. -/
def Join.leftJoin (as : String → Identifier) (j : Join) : LeftJoin Identifier (Row V) where
  as := as j.table
  rows := fun env =>
    match j.parent with
    | none => []
    | some (parent, primary) =>
        (rows j.table).filter (fun row =>
          sqlEqual ((env (.table parent)).bind (fun row => primary.bind row))
            (row PARENT_TABLE_ID))

/-- The joins of a query, each under a name of its own. -/
def queryJoins (st : Statement L) : List (LeftJoin Identifier (Row V)) :=
  st.joins.map (Join.leftJoin rows .query)

def primaryOf (table : Table) (row : Row V) : Option V :=
  table.primary.bind row

/-- A document before anything is joined. -/
def startEnv (table : Table) (row : Row V) : Env V :=
  Function.update (fun _ => none) (.table table.name) (some row)

/-- A choice of a row from each table that the query joins, with which the document
satisfies the conditions. -/
def Satisfied (st : Statement L) (env : Env V) (choice : Identifier → Nat) : Prop :=
  Valid (queryJoins rows st) env choice ∧
    st.holds compares (chosen choice (queryJoins rows st) env) = true

/-- The document satisfies the conditions with some rows of the tables. -/
def Matches (table : Table) (st : Statement L) (row : Row V) : Prop :=
  ∃ choice, Satisfied rows compares st (startEnv table row) choice

/-- The document satisfies the conditions with one choice of rows only. -/
def OneChoice (table : Table) (st : Statement L) (row : Row V) : Prop :=
  ∀ choice choice', Satisfied rows compares st (startEnv table row) choice →
    Satisfied rows compares st (startEnv table row) choice' →
    ∀ j ∈ st.joins, choice (.query j.table) = choice' (.query j.table)

variable {rows compares} {table : Table} {st : Statement L} {env env' : Env V}

theorem as_queryJoins : (queryJoins rows st).map LeftJoin.as =
    st.joins.map (fun j => Identifier.query j.table) := by
  rw [queryJoins, List.map_map]
  rfl

theorem table_not_mem_queryJoins (name : String) :
    Identifier.table name ∉ (queryJoins rows st).map LeftJoin.as := by
  rw [as_queryJoins]
  simp

theorem query_mem_queryJoins {name : String} :
    .query name ∈ (queryJoins rows st).map LeftJoin.as ↔ name ∈ st.joins.map Join.table := by
  rw [as_queryJoins]
  simp

theorem leftJoin_rows_congr {as : String → Identifier} {j : Join}
    {parent : String × Option String} (hparent : j.parent = some parent)
    (h : env (.table parent.1) = env' (.table parent.1)) :
    (j.leftJoin rows as).rows env = (j.leftJoin rows as).rows env' := by
  rw [Join.leftJoin]
  simp only [hparent, h]

/-- The joined tables refer to the document. -/
theorem rows_queryJoins
    (hprepares : st.prepares [scopeOf table] = true)
    (h : env (.table table.name) = env' (.table table.name))
    {j : LeftJoin Identifier (Row V)} (hj : j ∈ queryJoins rows st) :
    j.rows env = j.rows env' := by
  obtain ⟨j, hmem, rfl⟩ := List.mem_map.mp hj
  obtain ⟨parent, hscope, hparent⟩ := (prepares_iff.mp hprepares).1 j hmem
  rw [List.mem_singleton] at hscope
  subst hscope
  exact leftJoin_rows_congr hparent h

theorem steady_queryJoins (hprepares : st.prepares [scopeOf table] = true) (env : Env V) :
    Steady (queryJoins rows st) env := by
  intro j hj e he
  exact rows_queryJoins hprepares (he _ (table_not_mem_queryJoins _)) hj

theorem nodup_queryJoins {scope : List (String × Option String)}
    (hprepares : st.prepares scope = true) :
    ((queryJoins rows st).map LeftJoin.as).Nodup := by
  rw [as_queryJoins, ← Function.comp_def, ← List.map_map]
  exact (prepares_iff.mp hprepares).2.1.map (fun _ _ h => Identifier.query.inj h)

/-- What is joined to a document does not depend on other tables. -/
theorem satisfied_congr
    (hprepares : st.prepares [scopeOf table] = true)
    (h : env (.table table.name) = env' (.table table.name)) {choice : Identifier → Nat} :
    Satisfied rows compares st env choice ↔ Satisfied rows compares st env' choice := by
  have hcandidates : ∀ j ∈ queryJoins rows st, j.candidates env = j.candidates env' :=
    fun j hj => LeftJoin.candidates_congr (rows_queryJoins hprepares h hj)
  refine and_congr (forall₂_congr fun j hj => ?_) ?_
  · rw [hcandidates j hj]
  · rw [holds_congr]
    intro condition hcondition
    rcases (prepares_iff.mp hprepares).2.2 condition hcondition with
      ⟨name, hname, has⟩ | ⟨name, hname, has⟩
    · rw [List.map_singleton, List.mem_singleton] at hname
      subst hname
      rw [has, chosen_of_not_mem (table_not_mem_queryJoins _),
        chosen_of_not_mem (table_not_mem_queryJoins _)]
      exact h
    · have hjoined : Identifier.query name ∈ (queryJoins rows st).map LeftJoin.as :=
        query_mem_queryJoins.mpr hname
      obtain ⟨j, hj, hjoin⟩ := List.mem_map.mp hjoined
      rw [has, ← hjoin,
        (steady_queryJoins hprepares env).chosen_of_mem (nodup_queryJoins hprepares) hj,
        (steady_queryJoins hprepares env').chosen_of_mem (nodup_queryJoins hprepares) hj,
        hcandidates j hj]

theorem exists_holds_iff (hprepares : st.prepares [scopeOf table] = true) (env : Env V) :
    (∃ e ∈ joinAll (queryJoins rows st) env, st.holds compares e = true) ↔
      ∃ choice, Satisfied rows compares st env choice := by
  simp only [(steady_queryJoins hprepares env).mem_joinAll (nodup_queryJoins hprepares)]
  constructor
  · rintro ⟨_, ⟨choice, hvalid, rfl⟩, hholds⟩
    exact ⟨choice, hvalid, hholds⟩
  · rintro ⟨choice, hvalid, hholds⟩
    exact ⟨_, ⟨choice, hvalid, rfl⟩, hholds⟩

/-- One choice only means one joined row at most. -/
theorem countP_le_one_iff_oneChoice
    {row : Row V} (hprepares : st.prepares [scopeOf table] = true)
    (h : env (.table table.name) = some row) :
    (joinAll (queryJoins rows st) env).countP (st.holds compares) ≤ 1 ↔
      OneChoice rows compares table st row := by
  have henv : env (.table table.name) = startEnv table row (.table table.name) := by
    rw [h, startEnv, Function.update_self]
  rw [countP_joinAll_le_one (steady_queryJoins hprepares env) (nodup_queryJoins hprepares),
    OneChoice]
  refine forall₂_congr fun choice choice' => ?_
  rw [← satisfied_congr hprepares henv, ← satisfied_congr hprepares henv]
  constructor
  · rintro hall ⟨hvalid, hholds⟩ ⟨hvalid', hholds'⟩ j hj
    exact hall hvalid hvalid' hholds hholds' _ (List.mem_map_of_mem hj)
  · intro hall hvalid hvalid' hholds hholds' j hj
    obtain ⟨j, hmem, rfl⟩ := List.mem_map.mp hj
    exact hall ⟨hvalid, hholds⟩ ⟨hvalid', hholds'⟩ j hmem

theorem countP_pos_iff_matches
    {row : Row V} (hprepares : st.prepares [scopeOf table] = true)
    (h : env (.table table.name) = some row) :
    0 < (joinAll (queryJoins rows st) env).countP (st.holds compares) ↔
      Matches rows compares table st row := by
  have henv : env (.table table.name) = startEnv table row (.table table.name) := by
    rw [h, startEnv, Function.update_self]
  rw [List.countP_pos_iff, exists_holds_iff hprepares, Matches]
  exact exists_congr fun choice => satisfied_congr hprepares henv

end Choices

/-! ### What is returned -/

/-- A row that is returned: of which table of documents it is, the primary key, and the
values that are selected.  The columns of other tables of documents are null. -/
structure Output (V : Type) where
  table : String
  id : Option V
  cells : List (Option V)
deriving DecidableEq

section Outputs

variable {L V : Type} [DecidableEq V]
variable (jsonGroupArray : List (List (SQLField × Option V)) → Option V)

/-- A value for some joined rows: that of the first one, or a JSON array of all. -/
def Resolver.value (group : List (Env V)) : Resolver → Option V
  | .column table field =>
      group.head?.bind (fun env => columnOf env (.table table) field.name)
  | .groupArray table fields =>
      jsonGroupArray (group.map (fun env =>
        fields.map (fun field => (field, columnOf env (.table table) field.name))))

def keyOf (table : Table) (env : Env V) : Option V :=
  (env (.table table.name)).bind (primaryOf table)

def outputOf (table : Table) (selected : Selected) (group : List (Env V)) : Output V where
  table := table.name
  id := group.head?.bind (keyOf table)
  cells := selected.resolvers.map (Resolver.value jsonGroupArray group)

variable (rows : String → List (Row V)) (compares : L → SQLField → Option V → Option Bool)
variable (table : Table) (selected : Selected) (st : Statement L)

/-- The joins of what is selected, each table under its own name. -/
def selectJoins : List (LeftJoin Identifier (Row V)) :=
  selected.joins.map (Join.leftJoin rows .table)

/-- The joined rows of a document that satisfy the conditions. -/
def documentRows (row : Row V) : List (Env V) :=
  (joinAll (selectJoins rows selected ++ queryJoins rows st) (startEnv table row)).filter
    (st.holds compares)

/-- The rows of a statement, grouped by document if something is gathered. -/
def selectRows : List (Output V) :=
  let envs := (rows table.name).flatMap (documentRows rows compares table selected st)
  if selected.groupByParentId then
    ((envs.map (keyOf table)).dedup).map (fun key =>
      outputOf jsonGroupArray table selected
        (envs.filter (fun env => decide (keyOf table env = key))))
  else envs.map (fun env => outputOf jsonGroupArray table selected [env])

/-- What is selected of a document, whatever the conditions are. -/
def selectedOutput (row : Row V) : Output V :=
  outputOf jsonGroupArray table selected
    (joinAll (selectJoins rows selected) (startEnv table row))

variable {jsonGroupArray rows compares table selected st}

/-- The rows that are joined under the names of tables. -/
def tablesOf (env : Env V) (name : String) : Option (Row V) :=
  env (.table name)

omit [DecidableEq V] in
/-- What is returned depends on these rows only. -/
theorem outputOf_congr
    {group group' : List (Env V)} (h : group.map tablesOf = group'.map tablesOf) :
    outputOf jsonGroupArray table selected group =
      outputOf jsonGroupArray table selected group' := by
  have hhead : ∀ f : (String → Option (Row V)) → Option V,
      group.head?.bind (fun env => f (tablesOf env)) =
        group'.head?.bind (fun env => f (tablesOf env)) := by
    intro f
    have hheads := congrArg List.head? h
    rw [List.head?_map, List.head?_map] at hheads
    cases hgroup : group.head? <;> cases hgroup' : group'.head? <;>
      simp [hgroup, hgroup'] at hheads ⊢
    rw [hheads]
  have hmap : ∀ f : (String → Option (Row V)) → List (SQLField × Option V),
      group.map (fun env => f (tablesOf env)) = group'.map (fun env => f (tablesOf env)) := by
    intro f
    have hmaps := congrArg (List.map f) h
    rwa [List.map_map, List.map_map] at hmaps
  have hid : group.head?.bind (keyOf table) = group'.head?.bind (keyOf table) :=
    hhead (fun tables => (tables table.name).bind (primaryOf table))
  rw [outputOf, outputOf, hid]
  congr 1
  refine List.map_congr_left fun resolver _ => ?_
  cases resolver with
  | column name field =>
      exact hhead (fun tables => (tables name).bind (fun row => row field.name))
  | groupArray name fields =>
      exact congrArg jsonGroupArray (hmap (fun tables =>
        fields.map (fun field => (field, (tables name).bind (fun row => row field.name)))))

/-- The tables that are selected are others than that of the documents. -/
def Apart (table : Table) (selected : Selected) : Prop :=
  ∀ j ∈ selected.joins, j.table ≠ table.name

theorem root_of_mem_joinAll
    (hapart : Apart table selected) {row : Row V} {e : Env V}
    (he : e ∈ joinAll (selectJoins rows selected) (startEnv table row)) :
    e (.table table.name) = some row := by
  rw [eq_of_mem_joinAll he, startEnv, Function.update_self]
  intro hmem
  obtain ⟨_, hleft, has⟩ := List.mem_map.mp hmem
  obtain ⟨j, hj, rfl⟩ := List.mem_map.mp hleft
  exact hapart j hj (Identifier.table.inj has)

theorem documentRows_eq (row : Row V) :
    documentRows rows compares table selected st row =
      (joinAll (selectJoins rows selected) (startEnv table row)).flatMap (fun e =>
        (joinAll (queryJoins rows st) e).filter (st.holds compares)) := by
  rw [documentRows, joinAll_append, List.filter_flatMap]

theorem tablesOf_of_mem_joinAll {e e' : Env V} (h : e' ∈ joinAll (queryJoins rows st) e) :
    tablesOf e' = tablesOf e := by
  funext name
  have hkept : e' (.table name) = e (.table name) :=
    eq_of_mem_joinAll h (table_not_mem_queryJoins name)
  exact hkept

theorem keyOf_of_mem_documentRows
    (hapart : Apart table selected) {row : Row V} {e : Env V}
    (he : e ∈ documentRows rows compares table selected st row) :
    keyOf table e = primaryOf table row := by
  rw [documentRows_eq] at he
  obtain ⟨e', he', he⟩ := List.mem_flatMap.mp he
  have htables : e (.table table.name) = e' (.table table.name) :=
    congrFun (tablesOf_of_mem_joinAll (List.mem_filter.mp he).1) table.name
  rw [keyOf, htables, root_of_mem_joinAll hapart he', Option.bind_some]

section Direct

variable (hapart : Apart table selected) (hprepares : st.prepares [scopeOf table] = true)
include hapart hprepares

theorem documentRows_eq_nil
    {row : Row V} (hmatches : ¬ Matches rows compares table st row) :
    documentRows rows compares table selected st row = [] := by
  rw [documentRows_eq, List.flatMap_eq_nil_iff]
  intro e he
  have hroot := root_of_mem_joinAll hapart he
  rw [← countP_pos_iff_matches hprepares hroot, List.countP_eq_length_filter,
    Nat.not_lt, Nat.le_zero, List.length_eq_zero_iff] at hmatches
  exact hmatches

/-- With one choice, the joined rows are those of what is selected. -/
theorem tablesOf_documentRows
    {row : Row V} (hmatches : Matches rows compares table st row)
    (hone : OneChoice rows compares table st row) :
    (documentRows rows compares table selected st row).map tablesOf =
      (joinAll (selectJoins rows selected) (startEnv table row)).map tablesOf := by
  rw [documentRows_eq, List.map_flatMap, List.map_eq_flatMap]
  refine List.flatMap_congr fun e he => ?_
  have hroot := root_of_mem_joinAll hapart he
  have hle := (countP_le_one_iff_oneChoice hprepares hroot).mpr hone
  have hpos := (countP_pos_iff_matches hprepares hroot).mpr hmatches
  obtain ⟨e', he', hfilter⟩ := filter_eq_singleton hle (List.countP_pos_iff.mp hpos)
  rw [hfilter, List.map_singleton, tablesOf_of_mem_joinAll he']

theorem documentRows_ne_nil_iff {row : Row V} (hone : OneChoice rows compares table st row) :
    documentRows rows compares table selected st row ≠ [] ↔
      Matches rows compares table st row := by
  constructor
  · intro hne
    by_contra hmatches
    exact hne (documentRows_eq_nil hapart hprepares hmatches)
  · intro hmatches hnil
    have htables := tablesOf_documentRows hapart hprepares hmatches hone
    rw [hnil, List.map_nil, eq_comm, List.map_eq_nil_iff] at htables
    exact joinAll_ne_nil _ _ htables

end Direct

section Grouped

variable (rows compares table selected st) in
/-- The documents have keys of their own, each satisfies the conditions with one choice
only, and without groups nothing that is selected multiplies rows. -/
structure Unrepeated : Prop where
  apart : Apart table selected
  prepares : st.prepares [scopeOf table] = true
  keys : ((rows table.name).map (primaryOf table)).Nodup
  one : ∀ row ∈ rows table.name, OneChoice rows compares table st row
  single : selected.groupByParentId = false →
    ∀ j ∈ selectJoins rows selected, ∀ e, (j.rows e).length ≤ 1

theorem filter_keyOf
    (hapart : Apart table selected) (hkeys : ((rows table.name).map (primaryOf table)).Nodup)
    {row : Row V} (hrow : row ∈ rows table.name) :
    ((rows table.name).flatMap (documentRows rows compares table selected st)).filter
        (fun env => decide (keyOf table env = primaryOf table row)) =
      documentRows rows compares table selected st row :=
  filter_flatMap_key hkeys (fun _ _ _ he => keyOf_of_mem_documentRows hapart he) hrow

/-- The group of a document that satisfies the conditions. -/
theorem Unrepeated.outputOf_documentRows
    (h : Unrepeated rows compares table selected st) {row : Row V} (hrow : row ∈ rows table.name)
    (hmatches : Matches rows compares table st row) :
    outputOf jsonGroupArray table selected (documentRows rows compares table selected st row) =
      selectedOutput jsonGroupArray rows table selected row :=
  outputOf_congr (tablesOf_documentRows h.apart h.prepares hmatches (h.one row hrow))

theorem Unrepeated.mem_grouped
    (h : Unrepeated rows compares table selected st) {r : Output V} :
    r ∈ ((((rows table.name).flatMap (documentRows rows compares table selected st)).map
          (keyOf table)).dedup).map (fun key => outputOf jsonGroupArray table selected
        (((rows table.name).flatMap (documentRows rows compares table selected st)).filter
          (fun env => decide (keyOf table env = key)))) ↔
      ∃ row ∈ rows table.name, Matches rows compares table st row ∧
        r = selectedOutput jsonGroupArray rows table selected row := by
  simp only [List.mem_map, List.mem_dedup, List.mem_flatMap, exists_exists_and_eq_and]
  constructor
  · rintro ⟨e, ⟨row, hrow, he⟩, rfl⟩
    have hmatches := (documentRows_ne_nil_iff h.apart h.prepares (h.one row hrow)).mp
      (List.ne_nil_of_mem he)
    refine ⟨row, hrow, hmatches, ?_⟩
    rw [keyOf_of_mem_documentRows h.apart he, filter_keyOf h.apart h.keys hrow,
      h.outputOf_documentRows hrow hmatches]
  · rintro ⟨row, hrow, hmatches, rfl⟩
    obtain ⟨e, he⟩ := List.exists_mem_of_ne_nil _
      ((documentRows_ne_nil_iff h.apart h.prepares (h.one row hrow)).mpr hmatches)
    refine ⟨e, ⟨row, hrow, he⟩, ?_⟩
    rw [keyOf_of_mem_documentRows h.apart he, filter_keyOf h.apart h.keys hrow,
      h.outputOf_documentRows hrow hmatches]

/-- Without groups a document has one joined row. -/
theorem Unrepeated.documentRows_eq_singleton
    (h : Unrepeated rows compares table selected st)
    (hgroup : selected.groupByParentId = false) {row : Row V} (hrow : row ∈ rows table.name)
    (hmatches : Matches rows compares table st row) :
    ∃ e, documentRows rows compares table selected st row = [e] := by
  obtain ⟨e, he⟩ := joinAll_eq_singleton (h.single hgroup) (startEnv table row)
  have htables := tablesOf_documentRows h.apart h.prepares hmatches (h.one row hrow)
  rw [he, List.map_singleton, List.map_eq_singleton_iff] at htables
  obtain ⟨e', he', -⟩ := htables
  exact ⟨e', he'⟩

/-- A statement returns what is selected of each document that satisfies the
conditions. -/
theorem Unrepeated.mem_selectRows
    (h : Unrepeated rows compares table selected st) {r : Output V} :
    r ∈ selectRows jsonGroupArray rows compares table selected st ↔
      ∃ row ∈ rows table.name, Matches rows compares table st row ∧
        r = selectedOutput jsonGroupArray rows table selected row := by
  rw [selectRows]
  cases hgroup : selected.groupByParentId with
  | true =>
      rw [if_pos rfl]
      exact h.mem_grouped
  | false =>
      rw [if_neg Bool.false_ne_true]
      simp only [List.mem_map, List.mem_flatMap]
      constructor
      · rintro ⟨e, ⟨row, hrow, he⟩, rfl⟩
        have hmatches := (documentRows_ne_nil_iff h.apart h.prepares (h.one row hrow)).mp
          (List.ne_nil_of_mem he)
        obtain ⟨e', he'⟩ :=
          h.documentRows_eq_singleton hgroup hrow hmatches
        rw [he', List.mem_singleton] at he
        subst he
        refine ⟨row, hrow, hmatches, ?_⟩
        rw [← h.outputOf_documentRows hrow hmatches, he']
      · rintro ⟨row, hrow, hmatches, rfl⟩
        obtain ⟨e, he⟩ :=
          h.documentRows_eq_singleton hgroup hrow hmatches
        refine ⟨e, ⟨row, hrow, he ▸ List.mem_singleton_self e⟩, ?_⟩
        rw [← h.outputOf_documentRows hrow hmatches, he]

/-- The rows of a statement are of different documents. -/
theorem Unrepeated.nodup_selectRows (h : Unrepeated rows compares table selected st) :
    ((selectRows jsonGroupArray rows compares table selected st).map Output.id).Nodup := by
  rw [selectRows]
  cases hgroup : selected.groupByParentId with
  | true =>
      rw [if_pos rfl, List.map_map]
      have hids : ∀ key ∈ (((rows table.name).flatMap
            (documentRows rows compares table selected st)).map (keyOf table)).dedup,
          (Output.id ∘ fun key => outputOf jsonGroupArray table selected
            (((rows table.name).flatMap (documentRows rows compares table selected st)).filter
              (fun env => decide (keyOf table env = key)))) key = id key := by
        intro key hkey
        rw [List.mem_dedup, List.mem_map] at hkey
        obtain ⟨e, he, rfl⟩ := hkey
        obtain ⟨row, hrow, he⟩ := List.mem_flatMap.mp he
        have hmatches := (documentRows_ne_nil_iff h.apart h.prepares (h.one row hrow)).mp
          (List.ne_nil_of_mem he)
        have hkey := keyOf_of_mem_documentRows h.apart he
        obtain ⟨first, rest, hrows⟩ := List.exists_cons_of_ne_nil (List.ne_nil_of_mem he)
        rw [Function.comp_apply, hkey, filter_keyOf h.apart h.keys hrow, hrows]
        exact keyOf_of_mem_documentRows h.apart (hrows ▸ List.mem_cons_self)
      rw [List.map_congr_left hids, List.map_id]
      exact List.nodup_dedup _
  | false =>
      rw [if_neg Bool.false_ne_true, List.map_map]
      refine nodup_keys_flatMap h.keys (fun _ _ _ he => keyOf_of_mem_documentRows h.apart he) ?_
      intro row hrow
      by_cases hmatches : Matches rows compares table st row
      · obtain ⟨e, he⟩ :=
          h.documentRows_eq_singleton hgroup hrow hmatches
        rw [he, List.length_singleton]
      · rw [documentRows_eq_nil h.apart h.prepares hmatches]
        exact Nat.zero_le 1

end Grouped

end Outputs

end Indexer
end Peerbit
