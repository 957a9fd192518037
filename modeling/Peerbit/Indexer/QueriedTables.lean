import Peerbit.Indexer.FlattenQuery
import Peerbit.Indexer.RowSchema
import Peerbit.Lib.Results

/-!
# Tables that a query joins

A key path that is not of a column of the table that is queried leads to other tables,
which the statement joins under names of their own.  The conditions of the statement
are about columns of these tables.

The joins of a query are the joins of its leaves (`convert_joins`), its conditions are
theirs (`convert_eval`), and a condition is about the queried table or about a table
that is joined (`scoped_statement`).
-/

namespace Peerbit
namespace Indexer

open Sqlite

/-- What is thrown: the first two are `MissingFieldError`s, and the last is
SQLite's. -/
inductive SqlError where
  | propertyNotFound (key : String) (schema : List String)
  | noFieldToJoin
  | unexpected
  | noFieldsToResolve
  | refused
deriving DecidableEq

def SqlError.isMissingField : SqlError → Bool
  | .propertyNotFound _ _ => true
  | .noFieldToJoin => true
  | _ => false

/-- A name in a statement: a table's own, the one under which a query joins it, or the
one that is made up for a `Nested`. -/
inductive Identifier where
  | table (name : String)
  | query (name : String)
  | nested (size : Nat)
deriving DecidableEq

/-- A table with the ones that it is part of, the nearest first. -/
structure Located where
  table : Table
  ancestors : List Table

/-- A table that is joined, with the column of another that its rows refer to. -/
structure Join where
  table : String
  primary : Option String
  parent : Option (String × Option String)
deriving DecidableEq

/-- `getNonInlinedTable` -/
def getNonInlinedTable (tables : List Table) : Option Table :=
  tables.find? (fun table => !table.inline)

def Located.join (t : Located) : Join where
  table := t.table.name
  primary := t.table.primary
  parent := (getNonInlinedTable t.ancestors).map (fun parent => (parent.name, parent.primary))

theorem sizeOf_child {table child : Table} (h : child ∈ table.children) :
    sizeOf child < sizeOf table := by
  have hlist := List.sizeOf_lt_of_mem h
  cases table
  rw [Table.mk.sizeOf_spec]
  dsimp only at hlist
  omega

/-! ### Key paths -/

/-- The table that is queried, or one below it. -/
inductive QueryTable (start : Located) where
  | start
  | below (table parent : Table) (ancestors : List Table)
      (hsize : sizeOf table < sizeOf start.table)

namespace QueryTable

variable {start : Located}

def located : QueryTable start → Located
  | .start => start
  | .below table parent ancestors _ => { table, ancestors := parent :: ancestors }

def table (t : QueryTable start) : Table :=
  t.located.table

theorem sizeOf_le (t : QueryTable start) : sizeOf t.table ≤ sizeOf start.table := by
  cases t with
  | start => exact Nat.le_refl _
  | below table parent ancestors hsize => exact Nat.le_of_lt hsize

def children (t : QueryTable start) : List (QueryTable start) :=
  t.table.children.attach.map (fun child =>
    .below child.val t.table t.located.ancestors
      (Nat.lt_of_lt_of_le (sizeOf_child child.property) t.sizeOf_le))

end QueryTable

/-- Whether the table is of the field with this key. -/
def isMatching (key : String) (table : Table) : Bool :=
  table.parentPath.getLast? == some key

section Paths

variable (schemaKeys : Table → List String) {start : Located}

/-- The tables of a key among some children, up to one of simple values. -/
def matchChildren (key : String) :
    List (QueryTable start) → List (QueryTable start) × Option (QueryTable start)
  | [] => ([], none)
  | child :: rest =>
      if isMatching key child.table then
        if child.table.isSimpleValue then ([], some child)
        else (child :: (matchChildren key rest).1, (matchChildren key rest).2)
      else matchChildren key rest

/-- The tables of a key, one step from the current ones. -/
def matchTables (key : String) :
    List (QueryTable start) →
      Except SqlError (List (QueryTable start) × Option (QueryTable start))
  | [] => .ok ([], none)
  | current :: rest =>
      if key ∉ schemaKeys current.table ∧ current.children ≠ [] then
        .error (.propertyNotFound key (schemaKeys current.table))
      else
        match matchChildren key current.children with
        | (tables, some found) => .ok (tables, some found)
        | (tables, none) => do
            let (more, found) ← matchTables key rest
            return (tables ++ more, found)

/-- Where a path leads: the last tables, or the one of simple values, and all that were
met. -/
structure Walk (start : Located) where
  currentTables : List (QueryTable start)
  found : Option (QueryTable start)
  met : List (QueryTable start)

def walkPath : List String → List (QueryTable start) → Except SqlError (Walk start)
  | [], current => .ok { currentTables := current, found := none, met := [] }
  | key :: path, current => do
      let (newTables, found) ← matchTables schemaKeys key current
      match found with
      | some table =>
          return { currentTables := [], found := some table, met := newTables ++ [table] }
      | none =>
          if newTables.isEmpty then
            return { currentTables := current, found := none, met := [] }
          else
            let walk ← walkPath path newTables
            return { walk with met := newTables ++ walk.met }

/-- The fields of inlined tables on the way up, the outermost first. -/
def inlinePath : List Table → List String
  | [] => []
  | table :: tables =>
      if table.inline then inlinePath tables ++ [table.parentPath.getLastD ""] else []

structure Resolved (start : Located) where
  queryKey : String
  foreignTables : List (QueryTable start)
  joins : List Join

/-- What the tables that were met are joined as; inlined ones are not. -/
def joinsOf (met : List (QueryTable start)) : List Join :=
  (met.filter (fun t => !t.table.inline)).map (fun t => t.located.join)

/-- `resolveTableToQuery`, where the table itself is not searched. -/
def resolveTableToQuery (start : Located) (path : List String) :
    Except SqlError (Resolved start) := do
  let walk ← walkPath schemaKeys path [.start]
  match walk.found with
  | some table =>
      return { queryKey := FOREIGN_VALUE_PROPERTY
               foreignTables := [table]
               joins := joinsOf walk.met }
  | none =>
      let foreignTables := walk.currentTables.filter (fun t =>
        t.table.fields.any (fun field => path.getLast? == some field.key))
      match foreignTables.getLast? with
      | none => .error .noFieldToJoin
      | some last =>
          return { queryKey :=
                     inlineFieldName
                       (inlinePath (last.table :: last.located.ancestors) ++
                         [path.getLastD ""])
                   foreignTables
                   joins := joinsOf walk.met }

end Paths

/-! ### Conditions -/

/-- A comparison with a column of a joined table. -/
inductive Condition (L : Type) where
  | isNull (as : Identifier) (field : SQLField)
  | compare (as : Identifier) (field : SQLField) (comparison : L)

def Condition.as {L : Type} : Condition L → Identifier
  | .isNull as _ => as
  | .compare as _ _ => as

/-- The joins and the conditions of a query. -/
structure Converted (L : Type) where
  joins : List Join
  where_ : QueryTree (Condition L)

/-- What a query has at the ends of its connectives. -/
inductive QueryLeaf (L : Type) where
  | state (query : StateFieldQuery L)
  | nested (path : List String) (queries : List (QueryTree (QueryLeaf L)))

def StateFieldQuery.withKey {L : Type} (key : List String) :
    StateFieldQuery L → StateFieldQuery L
  | .isNull _ => .isNull key
  | .compare _ comparison => .compare key comparison

/-- The condition of a leaf on a column. -/
def StateFieldQuery.on {L : Type} (as : Identifier) (field : SQLField) :
    StateFieldQuery L → Condition L
  | .isNull _ => .isNull as field
  | .compare _ comparison => .compare as field comparison

section Conversion

variable {L : Type} (schemaKeys : Table → List String)

/-- `convertStateFieldQuery`.  The tables are the ones that are joined for this leaf;
an inlined table is never joined. -/
def convertStateField (path : List String) (skipKeys : Nat) (start : Located)
    (tableAlias : Option Identifier) (joined : List String) (query : StateFieldQuery L) :
    Except SqlError (Converted L) :=
  match start.table.fields.find? (fun field => field.name == inlineFieldName query.key) with
  | some field =>
      if start.ancestors.isEmpty || joined.contains start.table.name then
        .ok { joins := []
              where_ := .field (query.on (tableAlias.getD (.table start.table.name)) field) }
      else .error .unexpected
  | none => do
      let resolved ← resolveTableToQuery schemaKeys start (path ++ query.key.drop skipKeys)
      let parts ← resolved.foreignTables.mapM (fun foreign =>
        match foreign with
        | .start => .error .unexpected
        | .below table parent ancestors _ =>
            convertStateField path skipKeys { table, ancestors := parent :: ancestors }
              (some (.query table.name)) (joined ++ resolved.joins.map Join.table)
              (query.withKey [resolved.queryKey]))
      return { joins := resolved.joins ++ parts.flatMap Converted.joins
               where_ := .or (parts.map Converted.where_) }
termination_by sizeOf start.table

variable (size : Nat) (root : Located)

mutual

/-- `convertQueryToSQLQuery` -/
def convertQuery (path : List String) (tableAlias : Option Identifier) (skipKeys : Nat) :
    QueryTree (QueryLeaf L) → Except SqlError (Converted L)
  | .field leaf => convertLeaf path tableAlias skipKeys leaf
  | .and queries => do
      let parts ← convertQueries path tableAlias skipKeys queries
      return { joins := parts.flatMap Converted.joins
               where_ := .and (parts.map Converted.where_) }
  | .or queries => do
      let parts ← convertQueries path tableAlias skipKeys queries
      return { joins := parts.flatMap Converted.joins
               where_ := .or (parts.map Converted.where_) }
  | .not query => do
      let part ← convertQuery path tableAlias skipKeys query
      return { joins := part.joins, where_ := .not part.where_ }

def convertLeaf (path : List String) (tableAlias : Option Identifier) (skipKeys : Nat) :
    QueryLeaf L → Except SqlError (Converted L)
  | .state query => convertStateField schemaKeys path skipKeys root tableAlias [] query
  | .nested nestedPath queries => do
      let parts ← convertQueries (path ++ nestedPath) (some (.nested size))
        (skipKeys + nestedPath.length) queries
      return { joins := parts.flatMap Converted.joins
               where_ := .and (parts.map Converted.where_) }

def convertQueries (path : List String) (tableAlias : Option Identifier) (skipKeys : Nat) :
    List (QueryTree (QueryLeaf L)) → Except SqlError (List (Converted L))
  | [] => .ok []
  | query :: rest => do
      let part ← convertQuery path tableAlias skipKeys query
      let parts ← convertQueries path tableAlias skipKeys rest
      return part :: parts

end

theorem convertQueries_eq_mapM
    (path : List String) (tableAlias : Option Identifier) (skipKeys : Nat)
    (queries : List (QueryTree (QueryLeaf L))) :
    convertQueries schemaKeys size root path tableAlias skipKeys queries =
      queries.mapM (convertQuery schemaKeys size root path tableAlias skipKeys) := by
  induction queries with
  | nil => rfl
  | cons query rest ih =>
      rw [convertQueries, ih, List.mapM_cons]

end Conversion

/-! ### Trees whose leaves are trees -/

section Bind

variable {M K : Type}

mutual

def QueryTree.bind (f : M → QueryTree K) : QueryTree M → QueryTree K
  | .field query => f query
  | .and queries => .and (bindAll f queries)
  | .or queries => .or (bindAll f queries)
  | .not query => .not (query.bind f)

def bindAll (f : M → QueryTree K) : List (QueryTree M) → List (QueryTree K)
  | [] => []
  | query :: rest => query.bind f :: bindAll f rest

end

theorem bindAll_eq_map (f : M → QueryTree K) (queries : List (QueryTree M)) :
    bindAll f queries = queries.map (QueryTree.bind f) := by
  induction queries with
  | nil => rfl
  | cons query rest ih => rw [bindAll, ih, List.map_cons]

theorem evalAnd_congr {leaf : K → Option Bool} {leaf' : M → Option Bool}
    {f : QueryTree M → QueryTree K} {queries : List (QueryTree M)}
    (h : ∀ q ∈ queries, (f q).eval leaf = q.eval leaf') :
    evalAnd leaf (queries.map f) = evalAnd leaf' queries := by
  induction queries with
  | nil => rfl
  | cons q rest ih =>
      rw [List.map_cons, evalAnd, evalAnd, h q List.mem_cons_self,
        ih (fun q hq => h q (List.mem_cons_of_mem _ hq))]

theorem evalOr_congr {leaf : K → Option Bool} {leaf' : M → Option Bool}
    {f : QueryTree M → QueryTree K} {queries : List (QueryTree M)}
    (h : ∀ q ∈ queries, (f q).eval leaf = q.eval leaf') :
    evalOr leaf (queries.map f) = evalOr leaf' queries := by
  induction queries with
  | nil => rfl
  | cons q rest ih =>
      rw [List.map_cons, evalOr, evalOr, h q List.mem_cons_self,
        ih (fun q hq => h q (List.mem_cons_of_mem _ hq))]

theorem QueryTree.eval_bind (leaf : K → Option Bool) (f : M → QueryTree K)
    (q : QueryTree M) :
    (q.bind f).eval leaf = q.eval (fun query => (f query).eval leaf) := by
  induction q using QueryTree.operandInduction with
  | field query => rw [QueryTree.bind, QueryTree.eval]
  | and queries ih =>
      rw [QueryTree.bind, bindAll_eq_map, QueryTree.eval, QueryTree.eval, evalAnd_congr ih]
  | or queries ih =>
      rw [QueryTree.bind, bindAll_eq_map, QueryTree.eval, QueryTree.eval, evalOr_congr ih]
  | not query ih => rw [QueryTree.bind, QueryTree.eval, QueryTree.eval, ih]

/-- What a query gives depends on its leaves. -/
theorem QueryTree.eval_congr {value value' : M → Option Bool} (q : QueryTree M)
    (h : ∀ leaf ∈ q.leaves, value leaf = value' leaf) : q.eval value = q.eval value' := by
  induction q using QueryTree.operandInduction with
  | field query => exact h query (by simp [QueryTree.leaves])
  | and queries ih =>
      rw [QueryTree.leaves] at h
      have hoperands := evalAnd_congr (f := id) fun q hq =>
        ih q hq fun leaf hleaf => h leaf (mem_leaves_operands.mpr ⟨q, hq, hleaf⟩)
      rwa [List.map_id] at hoperands
  | or queries ih =>
      rw [QueryTree.leaves] at h
      have hoperands := evalOr_congr (f := id) fun q hq =>
        ih q hq fun leaf hleaf => h leaf (mem_leaves_operands.mpr ⟨q, hq, hleaf⟩)
      rwa [List.map_id] at hoperands
  | not query ih =>
      rw [QueryTree.leaves] at h
      rw [QueryTree.eval, QueryTree.eval, ih h]

theorem leavesOf_map {f : QueryTree M → QueryTree K} {g : M → List K}
    {queries : List (QueryTree M)}
    (h : ∀ q ∈ queries, (f q).leaves = q.leaves.flatMap g) :
    leavesOf (queries.map f) = (leavesOf queries).flatMap g := by
  induction queries with
  | nil => rfl
  | cons q rest ih =>
      rw [List.map_cons, leavesOf, leavesOf, List.flatMap_append, h q List.mem_cons_self,
        ih (fun q hq => h q (List.mem_cons_of_mem _ hq))]

theorem QueryTree.leaves_bind (f : M → QueryTree K) (q : QueryTree M) :
    (q.bind f).leaves = q.leaves.flatMap (fun query => (f query).leaves) := by
  induction q using QueryTree.operandInduction with
  | field query => rw [QueryTree.bind, QueryTree.leaves, List.flatMap_singleton]
  | and queries ih =>
      rw [QueryTree.bind, bindAll_eq_map, QueryTree.leaves, QueryTree.leaves,
        leavesOf_map ih]
  | or queries ih =>
      rw [QueryTree.bind, bindAll_eq_map, QueryTree.leaves, QueryTree.leaves,
        leavesOf_map ih]
  | not query ih => rw [QueryTree.bind, QueryTree.leaves, QueryTree.leaves, ih]

end Bind

/-! ### What is converted -/

section Facts

variable {L : Type} {schemaKeys : Table → List String} {size : Nat} {root : Located}
variable {path : List String} {tableAlias : Option Identifier} {skipKeys : Nat}

variable (schemaKeys size root path tableAlias skipKeys) in
/-- The leaf is of fields that the table has. -/
def LeafConverts (leaf : QueryLeaf L) : Prop :=
  ∃ c, convertLeaf schemaKeys size root path tableAlias skipKeys leaf = .ok c

variable (schemaKeys size root path tableAlias skipKeys) in
def leafConverted (leaf : QueryLeaf L) : Converted L :=
  match convertLeaf schemaKeys size root path tableAlias skipKeys leaf with
  | .ok c => c
  | .error _ => { joins := [], where_ := .or [] }

variable (schemaKeys size root path tableAlias skipKeys) in
/-- A query with each of its leaves converted. -/
def converted (q : QueryTree (QueryLeaf L)) : Converted L where
  joins := q.leaves.flatMap (fun leaf =>
    (leafConverted schemaKeys size root path tableAlias skipKeys leaf).joins)
  where_ := q.bind (fun leaf =>
    (leafConverted schemaKeys size root path tableAlias skipKeys leaf).where_)

theorem convertQueries_iff {queries : List (QueryTree (QueryLeaf L))}
    {parts : List (Converted L)}
    (h : ∀ q ∈ queries, ∀ c,
      convertQuery schemaKeys size root path tableAlias skipKeys q = .ok c ↔
        (∀ leaf ∈ q.leaves, LeafConverts schemaKeys size root path tableAlias skipKeys leaf) ∧
          c = converted schemaKeys size root path tableAlias skipKeys q) :
    convertQueries schemaKeys size root path tableAlias skipKeys queries = .ok parts ↔
      (∀ leaf, HasLeaf queries leaf →
          LeafConverts schemaKeys size root path tableAlias skipKeys leaf) ∧
        parts = queries.map (converted schemaKeys size root path tableAlias skipKeys) := by
  rw [convertQueries_eq_mapM, Lib.Results.mapM_eq_ok_map h]
  refine and_congr_left fun _ => ?_
  constructor
  · rintro hall leaf ⟨q, hq, hleaf⟩
    exact hall q hq leaf hleaf
  · intro hall q hq leaf hleaf
    exact hall leaf ⟨q, hq, hleaf⟩

/-- A connective converts when its operands do. -/
theorem convertOperands_iff {queries : List (QueryTree (QueryLeaf L))} {c : Converted L}
    {connective : List (QueryTree (Condition L)) → QueryTree (Condition L)}
    {whole : QueryTree (QueryLeaf L)} (hleaves : whole.leaves = leavesOf queries)
    (hbind : ∀ f, whole.bind f = connective (bindAll f queries))
    (h : ∀ q ∈ queries, ∀ c,
      convertQuery schemaKeys size root path tableAlias skipKeys q = .ok c ↔
        (∀ leaf ∈ q.leaves, LeafConverts schemaKeys size root path tableAlias skipKeys leaf) ∧
          c = converted schemaKeys size root path tableAlias skipKeys q) :
    (∃ parts, convertQueries schemaKeys size root path tableAlias skipKeys queries =
        .ok parts ∧
          (pure { joins := parts.flatMap Converted.joins
                  where_ := connective (parts.map Converted.where_) } :
            Except SqlError (Converted L)) = .ok c) ↔
      (∀ leaf ∈ whole.leaves,
          LeafConverts schemaKeys size root path tableAlias skipKeys leaf) ∧
        c = converted schemaKeys size root path tableAlias skipKeys whole := by
  have hwhole : converted schemaKeys size root path tableAlias skipKeys whole =
      { joins := (queries.map (converted schemaKeys size root path tableAlias
            skipKeys)).flatMap Converted.joins
        where_ := connective ((queries.map (converted schemaKeys size root path tableAlias
            skipKeys)).map Converted.where_) } := by
    simp [converted, hleaves, hbind, leavesOf_eq_flatMap, List.flatMap_assoc,
      List.flatMap_map, bindAll_eq_map, List.map_map, Function.comp_def]
  rw [hwhole, hleaves]
  simp only [mem_leaves_operands, convertQueries_iff h]
  constructor
  · rintro ⟨parts, ⟨hall, rfl⟩, hc⟩
    exact ⟨hall, (Except.ok.inj hc).symm⟩
  · rintro ⟨hall, rfl⟩
    exact ⟨_, ⟨hall, rfl⟩, rfl⟩

theorem convertQuery_iff (q : QueryTree (QueryLeaf L)) (c : Converted L) :
    convertQuery schemaKeys size root path tableAlias skipKeys q = .ok c ↔
      (∀ leaf ∈ q.leaves, LeafConverts schemaKeys size root path tableAlias skipKeys leaf) ∧
        c = converted schemaKeys size root path tableAlias skipKeys q := by
  induction q using QueryTree.operandInduction generalizing c with
  | field leaf =>
      rw [convertQuery, QueryTree.leaves, List.forall_mem_singleton, LeafConverts, converted,
        QueryTree.leaves, List.flatMap_singleton, QueryTree.bind, leafConverted]
      cases hleaf : convertLeaf schemaKeys size root path tableAlias skipKeys leaf with
      | error e => simp
      | ok c' => simp [eq_comm]
  | and queries ih =>
      rw [convertQuery, Lib.Results.bind_eq_ok_iff]
      exact convertOperands_iff rfl (fun _ => rfl) ih
  | or queries ih =>
      rw [convertQuery, Lib.Results.bind_eq_ok_iff]
      exact convertOperands_iff rfl (fun _ => rfl) ih
  | not query ih =>
      rw [convertQuery, QueryTree.leaves, Lib.Results.bind_eq_ok_iff]
      simp only [ih]
      constructor
      · rintro ⟨part, ⟨hleaves, rfl⟩, hc⟩
        refine ⟨hleaves, (Except.ok.inj hc).symm.trans ?_⟩
        rw [converted, converted, QueryTree.leaves, QueryTree.bind]
      · rintro ⟨hleaves, rfl⟩
        refine ⟨_, ⟨hleaves, rfl⟩, congrArg Except.ok ?_⟩
        rw [converted, converted, QueryTree.leaves, QueryTree.bind]

end Facts

/-! ### Names of the conditions -/

section Scopes

variable {L : Type} {schemaKeys : Table → List String} {size : Nat} {root : Located}

theorem exists_of_mem_leaves_or {parts : List (Converted L)} {condition : Condition L}
    (h : condition ∈ leavesOf (parts.map Converted.where_)) :
    ∃ part ∈ parts, condition ∈ part.where_.leaves := by
  obtain ⟨where_, hmem, hleaf⟩ := mem_leaves_operands.mp h
  obtain ⟨part, hpart, rfl⟩ := List.mem_map.mp hmem
  exact ⟨part, hpart, hleaf⟩

/-- A condition of a leaf is about the table where it was looked for, or about one that
is joined. -/
theorem scoped_of_convertStateField
    {path : List String} {skipKeys : Nat} {start : Located} {tableAlias : Option Identifier}
    {joined : List String} {query : StateFieldQuery L} {c : Converted L}
    (h : convertStateField schemaKeys path skipKeys start tableAlias joined query = .ok c)
    {condition : Condition L} (hcondition : condition ∈ c.where_.leaves) :
    (condition.as = tableAlias.getD (.table start.table.name) ∧
        (start.ancestors = [] ∨ start.table.name ∈ joined)) ∨
      (∃ name ∈ joined, condition.as = .query name) ∨
        ∃ j ∈ c.joins, condition.as = .query j.table := by
  induction hn : sizeOf start.table using Nat.strong_induction_on generalizing
    start tableAlias joined query c with
  | _ n ih =>
      rw [convertStateField] at h
      split at h
      · split at h
        · rename_i field _ hpresent
          obtain rfl := (Except.ok.inj h).symm
          rw [QueryTree.leaves, List.mem_singleton] at hcondition
          subst hcondition
          refine Or.inl ⟨by cases query <;> rfl, ?_⟩
          simpa using hpresent
        · cases h
      · rw [Lib.Results.bind_eq_ok_iff] at h
        obtain ⟨resolved, -, h⟩ := h
        rw [Lib.Results.bind_eq_ok_iff] at h
        obtain ⟨parts, hparts, h⟩ := h
        obtain rfl := (Except.ok.inj h).symm
        obtain ⟨part, hpart, hleaf⟩ := exists_of_mem_leaves_or hcondition
        rw [Lib.Results.mapM_eq_ok_iff] at hparts
        obtain ⟨foreign, -, hforeign⟩ :=
          (Lib.Results.exists_of_forall₂ hparts).2 part hpart
        cases foreign with
        | start => cases hforeign
        | below table parent ancestors hsize =>
            have hjoined : ∀ name ∈ joined ++ resolved.joins.map Join.table,
                condition.as = .query name →
                  (∃ name ∈ joined, condition.as = .query name) ∨
                    ∃ j ∈ resolved.joins ++ parts.flatMap Converted.joins,
                      condition.as = .query j.table := by
              intro name hname has
              rcases List.mem_append.mp hname with hname | hname
              · exact Or.inl ⟨name, hname, has⟩
              · obtain ⟨j, hj, rfl⟩ := List.mem_map.mp hname
                exact Or.inr ⟨j, List.mem_append_left _ hj, has⟩
            rcases ih _ (hn ▸ hsize) hforeign hleaf rfl with
              ⟨has, hempty | hname⟩ | ⟨name, hname, has⟩ | ⟨j, hj, has⟩
            · cases hempty
            · exact Or.inr (hjoined _ hname has)
            · exact Or.inr (hjoined _ hname has)
            · exact Or.inr (Or.inr ⟨j, List.mem_append_right _
                (List.mem_flatMap.mpr ⟨part, hpart, hj⟩), has⟩)

variable (size root) in
/-- Every condition is about the queried table or about a table that is joined, or its
name is made up. -/
def Scoped (c : Converted L) : Prop :=
  ∀ condition ∈ c.where_.leaves,
    condition.as = .table root.table.name ∨ condition.as = .nested size ∨
      ∃ j ∈ c.joins, condition.as = .query j.table

theorem Scoped.of_parts {parts : List (Converted L)} {where_ : QueryTree (Condition L)}
    (hleaves : where_.leaves = leavesOf (parts.map Converted.where_))
    (h : ∀ part ∈ parts, Scoped size root part) :
    Scoped size root { joins := parts.flatMap Converted.joins, where_ } := by
  intro condition hcondition
  obtain ⟨part, hpart, hleaf⟩ := exists_of_mem_leaves_or (hleaves ▸ hcondition)
  rcases h part hpart condition hleaf with has | has | ⟨j, hj, has⟩
  · exact Or.inl has
  · exact Or.inr (Or.inl has)
  · exact Or.inr (Or.inr ⟨j, List.mem_flatMap.mpr ⟨part, hpart, hj⟩, has⟩)

/-- The name that conditions on the queried table get. -/
def Plain (size : Nat) (tableAlias : Option Identifier) : Prop :=
  tableAlias = none ∨ tableAlias = some (.nested size)

variable (schemaKeys size root) in
/-- What holds of each comparison, and of the queries that connectives join. -/
structure Connected (P : Converted L → Prop) : Prop where
  state : ∀ {path : List String} {tableAlias : Option Identifier} {skipKeys : Nat}
    {query : StateFieldQuery L} {c : Converted L}, Plain size tableAlias →
      convertStateField schemaKeys path skipKeys root tableAlias [] query = .ok c → P c
  parts : ∀ (parts : List (Converted L)) (where_ : QueryTree (Condition L)),
    where_.leaves = leavesOf (parts.map Converted.where_) → (∀ part ∈ parts, P part) →
      P { joins := parts.flatMap Converted.joins, where_ }

mutual

theorem connected_convertQuery
    {P : Converted L → Prop} (hP : Connected schemaKeys size root P)
    {path : List String} {tableAlias : Option Identifier} {skipKeys : Nat}
    (halias : Plain size tableAlias) (q : QueryTree (QueryLeaf L)) {c : Converted L}
    (h : convertQuery schemaKeys size root path tableAlias skipKeys q = .ok c) :
    P c := by
  match q with
  | .field leaf => exact connected_convertLeaf hP halias leaf (by rwa [convertQuery] at h)
  | .and queries =>
      rw [convertQuery, Lib.Results.bind_eq_ok_iff] at h
      obtain ⟨parts, hparts, h⟩ := h
      obtain rfl := (Except.ok.inj h).symm
      exact hP.parts parts _ (by rw [QueryTree.leaves])
        (connected_convertQueries hP halias queries hparts)
  | .or queries =>
      rw [convertQuery, Lib.Results.bind_eq_ok_iff] at h
      obtain ⟨parts, hparts, h⟩ := h
      obtain rfl := (Except.ok.inj h).symm
      exact hP.parts parts _ (by rw [QueryTree.leaves])
        (connected_convertQueries hP halias queries hparts)
  | .not query =>
      rw [convertQuery, Lib.Results.bind_eq_ok_iff] at h
      obtain ⟨part, hpart, h⟩ := h
      obtain rfl := (Except.ok.inj h).symm
      have hnot := hP.parts [part] (.not part.where_)
        (by simp [QueryTree.leaves, leavesOf])
        (List.forall_mem_singleton.mpr (connected_convertQuery hP halias query hpart))
      rwa [List.flatMap_singleton] at hnot

theorem connected_convertLeaf
    {P : Converted L → Prop} (hP : Connected schemaKeys size root P)
    {path : List String} {tableAlias : Option Identifier} {skipKeys : Nat}
    (halias : Plain size tableAlias) (leaf : QueryLeaf L) {c : Converted L}
    (h : convertLeaf schemaKeys size root path tableAlias skipKeys leaf = .ok c) :
    P c := by
  match leaf with
  | .state query =>
      rw [convertLeaf] at h
      exact hP.state halias h
  | .nested nestedPath queries =>
      rw [convertLeaf, Lib.Results.bind_eq_ok_iff] at h
      obtain ⟨parts, hparts, h⟩ := h
      obtain rfl := (Except.ok.inj h).symm
      exact hP.parts parts _ (by rw [QueryTree.leaves])
        (connected_convertQueries hP (Or.inr rfl) queries hparts)

theorem connected_convertQueries
    {P : Converted L → Prop} (hP : Connected schemaKeys size root P)
    {path : List String} {tableAlias : Option Identifier} {skipKeys : Nat}
    (halias : Plain size tableAlias) (queries : List (QueryTree (QueryLeaf L)))
    {parts : List (Converted L)}
    (h : convertQueries schemaKeys size root path tableAlias skipKeys queries = .ok parts) :
    ∀ part ∈ parts, P part := by
  match queries with
  | [] =>
      rw [convertQueries] at h
      obtain rfl := (Except.ok.inj h).symm
      exact fun part hpart => nomatch hpart
  | query :: rest =>
      rw [convertQueries, Lib.Results.bind_eq_ok_iff] at h
      obtain ⟨part, hpart, h⟩ := h
      rw [Lib.Results.bind_eq_ok_iff] at h
      obtain ⟨parts, hparts, h⟩ := h
      obtain rfl := (Except.ok.inj h).symm
      rw [List.forall_mem_cons]
      exact ⟨connected_convertQuery hP halias query hpart,
        connected_convertQueries hP halias rest hparts⟩

end

theorem connected_scoped : Connected (L := L) schemaKeys size root (Scoped size root) where
  state := by
    intro path tableAlias skipKeys query c halias h condition hcondition
    rcases scoped_of_convertStateField h hcondition with ⟨has, -⟩ | ⟨name, hname, -⟩ | hjoined
    · rcases halias with rfl | rfl
      · exact Or.inl has
      · exact Or.inr (Or.inl has)
    · cases hname
    · exact Or.inr (Or.inr hjoined)
  parts := fun _ _ hleaves h => Scoped.of_parts hleaves h

end Scopes

/-! ### Requests -/

/-- What is joined, and the conditions on the joined rows. -/
structure Statement (L : Type) where
  joins : List Join
  where_ : QueryTree (Condition L)

/-- The joins, each where it is set first.  A name is of one table, so what is set again
is the same. -/
def joinBuilder (joins : List Join) : List Join :=
  joins.reverse.dedup.reverse

theorem mem_joinBuilder {joins : List Join} {j : Join} :
    j ∈ joinBuilder joins ↔ j ∈ joins := by
  rw [joinBuilder, List.mem_reverse, List.mem_dedup, List.mem_reverse]

theorem nodup_joinBuilder (joins : List Join) : (joinBuilder joins).Nodup := by
  rw [joinBuilder, List.nodup_reverse]
  exact List.nodup_dedup _

section Requests

variable {L : Type} (schemaKeys : Table → List String) (size : Nat) (table : Table)

/-- `convertRequestToQuery` for a table of documents. -/
def convertRequestToQuery (queries : List (QueryTree (QueryLeaf L))) :
    Except SqlError (Statement L) := do
  let parts ← convertQueries schemaKeys size { table, ancestors := [] } [] none 0 queries
  return { joins := joinBuilder (parts.flatMap Converted.joins)
           where_ := .and (parts.map Converted.where_) }

/-- A leaf with the table of documents as what is queried. -/
def rootConverted (leaf : QueryLeaf L) : Converted L :=
  leafConverted schemaKeys size { table, ancestors := [] } [] none 0 leaf

def requestParts (queries : List (QueryTree (QueryLeaf L))) : List (Converted L) :=
  queries.map (converted schemaKeys size { table, ancestors := [] } [] none 0)

/-- The statement for queries whose leaves convert. -/
def statement (queries : List (QueryTree (QueryLeaf L))) : Statement L where
  joins := joinBuilder ((requestParts schemaKeys size table queries).flatMap Converted.joins)
  where_ := .and ((requestParts schemaKeys size table queries).map Converted.where_)

variable {schemaKeys size table} {queries queries' : List (QueryTree (QueryLeaf L))}

theorem convertRequestToQuery_iff {st : Statement L} :
    convertRequestToQuery schemaKeys size table queries = .ok st ↔
      (∀ leaf, HasLeaf queries leaf →
          LeafConverts schemaKeys size { table, ancestors := [] } [] none 0 leaf) ∧
        st = statement schemaKeys size table queries := by
  rw [convertRequestToQuery, Lib.Results.bind_eq_ok_iff]
  simp only [convertQueries_iff (fun q _ c => convertQuery_iff q c)]
  constructor
  · rintro ⟨parts, ⟨hleaves, rfl⟩, hst⟩
    exact ⟨hleaves, (Except.ok.inj hst).symm⟩
  · rintro ⟨hleaves, rfl⟩
    exact ⟨_, ⟨hleaves, rfl⟩, rfl⟩

theorem mem_statement_joins {j : Join} :
    j ∈ (statement schemaKeys size table queries).joins ↔
      ∃ leaf, HasLeaf queries leaf ∧ j ∈ (rootConverted schemaKeys size table leaf).joins := by
  rw [statement, mem_joinBuilder, requestParts, List.mem_flatMap]
  simp only [List.mem_map, exists_exists_and_eq_and, converted, List.mem_flatMap]
  constructor
  · rintro ⟨q, hq, leaf, hleaf, hj⟩
    exact ⟨leaf, ⟨q, hq, hleaf⟩, hj⟩
  · rintro ⟨leaf, ⟨q, hq, hleaf⟩, hj⟩
    exact ⟨q, hq, leaf, hleaf, hj⟩

theorem mem_statement_leaves {condition : Condition L} :
    condition ∈ (statement schemaKeys size table queries).where_.leaves ↔
      ∃ leaf, HasLeaf queries leaf ∧
        condition ∈ (rootConverted schemaKeys size table leaf).where_.leaves := by
  rw [statement, QueryTree.leaves, mem_leaves_operands, requestParts]
  simp only [HasLeaf, List.mem_map, exists_exists_and_eq_and, converted,
    QueryTree.leaves_bind, List.mem_flatMap]
  constructor
  · rintro ⟨q, hq, leaf, hleaf, hcondition⟩
    exact ⟨leaf, ⟨q, hq, hleaf⟩, hcondition⟩
  · rintro ⟨leaf, ⟨q, hq, hleaf⟩, hcondition⟩
    exact ⟨q, hq, leaf, hleaf, hcondition⟩

/-- The where clause holds when all queries do. -/
theorem statement_eval (value : Condition L → Option Bool) :
    (statement schemaKeys size table queries).where_.eval value = some true ↔
      ∀ q ∈ queries, q.eval (fun leaf =>
        (rootConverted schemaKeys size table leaf).where_.eval value) = some true := by
  rw [statement, (connects_eval value).and, requestParts, List.map_map, List.forall_mem_map]
  refine forall₂_congr fun q _ => ?_
  rw [Function.comp_apply, converted, QueryTree.eval_bind]
  rfl

theorem scoped_statement
    {st : Statement L} (h : convertRequestToQuery schemaKeys size table queries = .ok st) :
    Scoped size { table, ancestors := [] } { joins := st.joins, where_ := st.where_ } := by
  rw [convertRequestToQuery, Lib.Results.bind_eq_ok_iff] at h
  obtain ⟨parts, hparts, h⟩ := h
  obtain rfl := (Except.ok.inj h).symm
  intro condition hcondition
  have hconnected :=
    connected_convertQueries connected_scoped (Or.inl rfl) queries hparts
  rcases Scoped.of_parts (by rw [QueryTree.leaves]) hconnected condition hcondition with
    has | has | ⟨j, hj, has⟩
  · exact Or.inl has
  · exact Or.inr (Or.inl has)
  · exact Or.inr (Or.inr ⟨j, mem_joinBuilder.mpr hj, has⟩)

end Requests

end Indexer
end Peerbit
