import Peerbit.Indexer.RowColumns
import Peerbit.Lib.Separators

/-!
# Names of tables, columns and indexes

The name of a table is made of the scope, the keys of the fields and the names of the
classes on the way to it, that of a column of the keys of the fields, and that of an
index of the names of its columns.  The parts are joined with one or two underscores;
but they may have underscores themselves, and other characters of a class name are
replaced by underscores.

So two names are the same exactly when their parts have the same pieces, cut at the
underscores (`namesApart_iff`).  Tables and indexes are created if they do not exist, so
that the second of two with one name is left out.
-/

namespace Peerbit
namespace Sqlite

open Lib.Separators

/-- `createIndexKey` -/
def createIndexKey (tableName : String) (fields : List String) : String :=
  tableName ++ "_index_" ++ "_".intercalate fields

/-! ### Pieces -/

/-- A name cut at its underscores. -/
def cut (name : String) : List (List Char) := name.toList.splitOn '_'

theorem cut_inj {s t : String} : cut s = cut t ↔ s = t :=
  splitOn_inj.trans String.toList_inj

/-- The pieces of names that are joined with one underscore. -/
def pieces (names : List String) : List (List Char) := names.flatMap cut

theorem cut_intercalate {names : List String} (hne : names ≠ []) :
    cut ("_".intercalate names) = pieces names := by
  unfold cut
  rw [String.toList_intercalate]
  refine (splitOn_intercalate_single (by simpa using hne)).trans ?_
  rw [List.flatMap_map]
  rfl

/-- The pieces of names that are joined with two underscores. -/
def doublePieces (names : List String) : List (List Char) :=
  doubled '_' (names.map String.toList)

theorem cut_intercalate_double (names : List String) :
    cut ("__".intercalate names) = doublePieces names := by
  unfold cut
  rw [String.toList_intercalate]
  exact splitOn_intercalate_double _

/-- The pieces of a field path in a column: the key comes after two underscores. -/
def columnPieces (path : List String) : List (List Char) :=
  if path.dropLast = [] then cut (path.getLastD "")
  else pieces path.dropLast ++ [] :: cut (path.getLastD "")

/-- The name of a column with its field path. -/
def columnName (path : List String) : String :=
  getInlineTableFieldName path.dropLast (path.getLastD "")

/-- An empty key is left out, and the last of the other keys takes its place. -/
def keptPath (path : List String) : List String :=
  if (path.getLastD "").isEmpty then path.dropLast else path

theorem cut_append_double (s t : String) : cut (s ++ "__" ++ t) = cut s ++ [] :: cut t := by
  unfold cut
  rw [String.toList_append, String.toList_append]
  exact splitOn_append_double s.toList t.toList

theorem inlineFieldName_concat {path : List String} (hne : path ≠ []) (key : String) :
    inlineFieldName (path ++ [key]) = "_".intercalate path ++ "__" ++ key := by
  unfold inlineFieldName
  rw [List.dropLast_concat, List.getLastD_concat]
  split
  · rfl
  · rename_i hshort
    rw [List.length_append, List.length_singleton] at hshort
    obtain ⟨first, rfl⟩ : ∃ first, path = [first] := by
      refine List.length_eq_one_iff.mp ?_
      have := List.length_pos_iff.mpr hne
      omega
    simp

theorem getInlineTableFieldName_eq (path : List String) (key : String) :
    getInlineTableFieldName path key = inlineFieldName (keptPath (path ++ [key])) := by
  unfold getInlineTableFieldName keptPath
  rw [List.getLastD_concat, List.dropLast_concat]
  split
  · rfl
  · cases path with
    | nil => rfl
    | cons first path => exact (inlineFieldName_concat (List.cons_ne_nil _ _) key).symm

theorem columnName_eq (path : List String) :
    columnName path = inlineFieldName (keptPath path) := by
  unfold columnName
  rw [getInlineTableFieldName_eq]
  rcases List.eq_nil_or_concat path with rfl | ⟨init, key, rfl⟩
  · rfl
  · rw [List.concat_eq_append, List.dropLast_concat, List.getLastD_concat]

theorem cut_inlineFieldName (path : List String) :
    cut (inlineFieldName path) = columnPieces path := by
  rcases List.eq_nil_or_concat path with rfl | ⟨init, key, rfl⟩
  · rfl
  · unfold columnPieces
    rw [List.concat_eq_append, List.dropLast_concat, List.getLastD_concat]
    split
    · rename_i hnil
      rw [hnil]
      rfl
    · rename_i hne
      rw [inlineFieldName_concat hne, cut_append_double, cut_intercalate hne]

/-! ### The tables of a schema -/

mutual

/-- The field keys and class names on the way to the tables of a field. -/
def FieldType.tablePaths (path : List String) : FieldType → List (List String)
  | .simple _ => []
  | .struct (.mk _ name fields) =>
      (path ++ [identifier name]) :: fieldTablePaths path fields
  | .poly _ dependencies => classTablePaths path dependencies

def Field.tablePaths (path : List String) : Field → List (List String)
  | .mk key .plain type => type.tablePaths (path ++ [key])
  | .mk key .option type => type.tablePaths (path ++ [key])
  | .mk key .vec (.simple _) => [path ++ [key] ++ [identifier wrappedName]]
  | .mk key .vec (.struct (.mk _ name fields)) =>
      let row := path ++ [key] ++ [identifier name]
      row :: fieldTablePaths row fields
  | .mk key .vec (.poly _ dependencies) => classTablePaths (path ++ [key]) dependencies
  | .mk key .vecOption type =>
      let row := path ++ [key] ++ [identifier wrappedName]
      row :: type.tablePaths (row ++ [FOREIGN_VALUE_PROPERTY])

def fieldTablePaths (path : List String) : List Field → List (List String)
  | [] => []
  | field :: fields => field.tablePaths path ++ fieldTablePaths path fields

def classTablePaths (path : List String) : List Ctor → List (List String)
  | [] => []
  | .mk _ name fields :: dependencies =>
      (path ++ [identifier name]) ::
          fieldTablePaths (path ++ [identifier name]) fields ++
        classTablePaths path dependencies

end

/-- The path of the generator, in which the name of a table stands for the way to it. -/
def Leads (path parts : List String) : Prop :=
  (path = [] ↔ parts = []) ∧ "__".intercalate path = "__".intercalate parts

namespace Leads

variable {path parts : List String}

theorem refl (path : List String) : Leads path path := ⟨Iff.rfl, rfl⟩

theorem key (h : Leads path parts) (key : String) : Leads (path ++ [key]) (parts ++ [key]) := by
  refine ⟨by simp, ?_⟩
  by_cases hnil : path = []
  · rw [hnil, h.1.mp hnil]
  · rw [String.intercalate_append_of_ne_nil hnil (by simp),
      String.intercalate_append_of_ne_nil (fun hparts => hnil (h.1.mpr hparts)) (by simp),
      h.2]

theorem getTableName (h : Leads path parts) (clazz : String) :
    Sqlite.getTableName path clazz = "__".intercalate (parts ++ [identifier clazz]) := by
  unfold Sqlite.getTableName
  by_cases hnil : path = []
  · rw [hnil, h.1.mp hnil]
    simp
  · rw [String.intercalate_append_of_ne_nil (fun hparts => hnil (h.1.mpr hparts)) (by simp),
      ← h.2]
    simp [hnil]

theorem row (h : Leads path parts) (clazz : String) :
    Leads [Sqlite.getTableName path clazz] (parts ++ [identifier clazz]) :=
  ⟨by simp, by rw [String.intercalate_singleton, h.getTableName clazz]⟩

end Leads

def SQLField.NamedByPath (field : SQLField) : Prop := field.name = columnName field.path

/-- Tables have the names of the paths, and their columns those of their field paths. -/
structure TablesNamed (tables : List Table) (paths : List (List String)) : Prop where
  names : (Table.allOf tables).map Table.name = paths.map ("__".intercalate ·)
  columns : ∀ table ∈ Table.allOf tables, ∀ field ∈ table.fields, field.NamedByPath

namespace TablesNamed

theorem nil : TablesNamed [] [] where
  names := rfl
  columns := by simp

theorem cons {table : Table} {tables : List Table} {parts : List String}
    {inner paths : List (List String)} (hname : table.name = "__".intercalate parts)
    (hcolumns : ∀ field ∈ table.fields, field.NamedByPath)
    (hchildren : TablesNamed table.children inner) (htables : TablesNamed tables paths) :
    TablesNamed (table :: tables) (parts :: inner ++ paths) where
  names := by
    rw [Table.allOf_cons, List.map_append, List.map_cons, hname, hchildren.names,
      htables.names, List.map_append, List.map_cons]
  columns := by
    intro t ht
    rw [Table.allOf_cons, List.cons_append] at ht
    rcases List.mem_cons.mp ht with rfl | ht
    · exact hcolumns
    · rcases List.mem_append.mp ht with ht | ht
      · exact hchildren.columns t ht
      · exact htables.columns t ht

theorem append {tables tables' : List Table} {paths paths' : List (List String)}
    (h : TablesNamed tables paths) (h' : TablesNamed tables' paths') :
    TablesNamed (tables ++ tables') (paths ++ paths') where
  names := by
    rw [Table.allOf_append, List.map_append, h.names, h'.names, List.map_append]
  columns := by
    intro t ht
    rw [Table.allOf_append] at ht
    rcases List.mem_append.mp ht with ht | ht
    · exact h.columns t ht
    · exact h'.columns t ht

end TablesNamed

/-- So are the columns and the tables of a field. -/
structure FieldsNamed (body : SQLFields) (paths : List (List String)) : Prop where
  fields : ∀ field ∈ body.fields, field.NamedByPath
  tables : TablesNamed body.dependencies paths

theorem FieldsNamed.append {a b : SQLFields} {paths paths' : List (List String)}
    (ha : FieldsNamed a paths) (hb : FieldsNamed b paths') :
    FieldsNamed (a.append b) (paths ++ paths') where
  fields := by
    intro field hfield
    rcases List.mem_append.mp hfield with hfield | hfield
    · exact ha.fields field hfield
    · exact hb.fields field hfield
  tables := ha.tables.append hb.tables

theorem namedByPath_simpleColumn (path : List String) (primary : Option String)
    (owner : Option Nat) (key : String) (type : SimpleType) :
    (simpleColumn path primary owner key type).NamedByPath := by
  unfold SQLField.NamedByPath columnName simpleColumn
  simp only
  rw [List.dropLast_concat, List.getLastD_concat]

theorem namedByPath_existColumn (path : List String) : (existColumn path).NamedByPath := by
  unfold SQLField.NamedByPath columnName existColumn
  simp only
  rw [List.dropLast_concat, List.getLastD_concat]

theorem namedByPath_addJoinFields (tableName primary : String) (sqlFields : List SQLField) :
    ∀ field ∈ (addJoinFields tableName primary sqlFields).fields, field.NamedByPath := by
  intro field hfield
  simp only [addJoinFields, List.mem_cons, List.not_mem_nil, or_false] at hfield
  rcases hfield with rfl | rfl
  · rfl
  · rfl

/-- The columns of a table below another are those of its join, its place in a vector
and its class. -/
theorem namedByPath_childTable (path : List String) {join : JoinFields}
    (hjoin : ∀ field ∈ join.fields, field.NamedByPath) (isVec isSimpleValue : Bool)
    (ctor : String) {body : SQLFields} (hbody : ∀ field ∈ body.fields, field.NamedByPath) :
    ∀ field ∈ (childTable path join isVec isSimpleValue ctor body).fields,
      field.NamedByPath := by
  intro field hfield
  rcases List.mem_append.mp hfield with hfield | hfield
  · rcases List.mem_append.mp hfield with hfield | hfield
    · exact hjoin field hfield
    · split at hfield
      · obtain rfl := List.mem_singleton.mp hfield
        rfl
      · cases hfield
  · exact hbody field hfield

mutual

theorem handleField_named {path parts : List String} (h : Leads path parts)
    (primary : Option String) {join : JoinFields}
    (hjoin : ∀ field ∈ join.fields, field.NamedByPath) (owner : Option Nat) (key : String)
    (isOptional : Bool) :
    (type : FieldType) →
    FieldsNamed (handleField path primary join owner key isOptional type)
      (type.tablePaths (parts ++ [key]))
  | .simple type =>
      { fields := by
          intro field hfield
          obtain rfl := List.mem_singleton.mp hfield
          exact namedByPath_simpleColumn path primary owner key type
        tables := .nil }
  | .struct (.mk id name fields) => by
      have hbody := inlineFields_named (h.key key) hjoin id isOptional fields
      have hcolumns : ∀ field ∈ (inlineTable (path ++ [key]) name isOptional
          (inlineFields (path ++ [key]) join id isOptional fields)).fields,
          field.NamedByPath := by
        intro field hfield
        rcases List.mem_append.mp hfield with hfield | hfield
        · exact hbody.fields field hfield
        · split at hfield
          · obtain rfl := List.mem_singleton.mp hfield
            exact namedByPath_existColumn _
          · cases hfield
      refine { fields := hcolumns, tables := ?_ }
      have htables := TablesNamed.cons ((h.key key).getTableName name) hcolumns
        hbody.tables .nil
      rwa [List.append_nil] at htables
  | .poly _ dependencies =>
      { fields := by simp [handleField]
        tables := childTables_named (h.key key) hjoin false dependencies }

theorem getSQLField_named {path parts : List String} (h : Leads path parts)
    (primary : Option String) {join : JoinFields}
    (hjoin : ∀ field ∈ join.fields, field.NamedByPath) (owner : Option Nat)
    (isOptional : Bool) :
    (field : Field) →
    FieldsNamed (getSQLField path primary join owner isOptional field)
      (field.tablePaths parts)
  | .mk key .plain type => handleField_named h primary hjoin owner key isOptional type
  | .mk key .option type => handleField_named h primary hjoin owner key true type
  | .mk key .vec (.simple type) => by
      generalize hbody : ({
        fields := [simpleColumn [getTableName (path ++ [key]) wrappedName]
          (some CHILD_TABLE_ID) none FOREIGN_VALUE_PROPERTY type]
        dependencies := [] } : SQLFields) = body
      have hfields : FieldsNamed body [] := by
        rw [← hbody]
        refine { fields := ?_, tables := .nil }
        intro field hfield
        obtain rfl := List.mem_singleton.mp hfield
        exact namedByPath_simpleColumn _ _ _ _ _
      rw [getSQLField, hbody]
      exact
        { fields := by simp
          tables := .cons ((h.key key).getTableName wrappedName)
            (namedByPath_childTable (path ++ [key]) hjoin true true wrappedName
              hfields.fields) hfields.tables .nil }
  | .mk key .vec (.struct (.mk id name fields)) => by
      have hbody := rowFields_named ((h.key key).row name) CHILD_TABLE_ID id [] fields
      refine { fields := by simp [getSQLField], tables := ?_ }
      have htables := TablesNamed.cons ((h.key key).getTableName name)
        (namedByPath_childTable (path ++ [key]) hjoin true false name hbody.fields)
        hbody.tables .nil
      rwa [List.append_nil] at htables
  | .mk key .vec (.poly _ dependencies) =>
      { fields := by simp [getSQLField]
        tables := childTables_named (h.key key) hjoin true dependencies }
  | .mk key .vecOption type => by
      have hbody := handleField_named ((h.key key).row wrappedName) (some CHILD_TABLE_ID)
        (namedByPath_addJoinFields (getTableName (path ++ [key]) wrappedName)
          CHILD_TABLE_ID []) none FOREIGN_VALUE_PROPERTY true type
      refine { fields := by simp [getSQLField], tables := ?_ }
      have htables := TablesNamed.cons ((h.key key).getTableName wrappedName)
        (namedByPath_childTable (path ++ [key]) hjoin true true wrappedName
          hbody.fields)
        hbody.tables .nil
      rwa [List.append_nil] at htables

theorem inlineFields_named {path parts : List String} (h : Leads path parts)
    {join : JoinFields} (hjoin : ∀ field ∈ join.fields, field.NamedByPath)
    (owner : Option Nat) (isOptional : Bool) :
    (fields : List Field) →
    FieldsNamed (inlineFields path join owner isOptional fields)
      (fieldTablePaths parts fields)
  | [] => { fields := by simp [inlineFields], tables := .nil }
  | field :: fields =>
      (getSQLField_named h none hjoin owner isOptional field).append
        (inlineFields_named h hjoin owner isOptional fields)

theorem rowFields_named {tableName : String} {parts : List String}
    (h : Leads [tableName] parts) (primary : String) (owner : Option Nat)
    (sqlFields : List SQLField) :
    (fields : List Field) →
    FieldsNamed (rowFields tableName primary owner sqlFields fields)
      (fieldTablePaths parts fields)
  | [] => { fields := by simp [rowFields], tables := .nil }
  | field :: fields =>
      (getSQLField_named h (some primary)
        (namedByPath_addJoinFields tableName primary sqlFields) owner false field).append
        (rowFields_named h primary owner _ fields)

theorem childTables_named {path parts : List String} (h : Leads path parts)
    {join : JoinFields} (hjoin : ∀ field ∈ join.fields, field.NamedByPath) (isVec : Bool) :
    (dependencies : List Ctor) →
    TablesNamed (childTables path join isVec dependencies)
      (classTablePaths parts dependencies)
  | [] => .nil
  | .mk id name fields :: dependencies => by
      have hbody := rowFields_named (h.row name) CHILD_TABLE_ID id [] fields
      exact .cons (h.getTableName name)
        (namedByPath_childTable path hjoin isVec false name hbody.fields)
        hbody.tables (childTables_named h hjoin isVec dependencies)

end

/-! ### Names of a schema -/

/-- The tables of the classes of documents. -/
def schemaTables (scope : List String) (primary : String) (classes : List Ctor) :
    List Table :=
  Table.allOf (classes.map (rootTable scope primary))

theorem rootTables_named (scope : List String) (primary : String) (classes : List Ctor) :
    TablesNamed (classes.map (rootTable scope primary)) (classTablePaths scope classes) := by
  induction classes with
  | nil => exact .nil
  | cons ctor classes ih =>
      obtain ⟨id, name, fields⟩ := ctor
      have hbody := rowFields_named ((Leads.refl scope).row name) primary id [] fields
      exact .cons ((Leads.refl scope).getTableName name) hbody.fields hbody.tables ih

/-- The columns that an index can have, in their order. -/
structure IndexColumns (table : Table) (columns : List String) : Prop where
  nonempty : columns ≠ []
  nodup : columns.Nodup
  columns : ∀ column ∈ columns, column ∈ table.fields.map SQLField.name

/-- Different tables have different names, different columns of a table have, and
different lists of columns of a table have. -/
structure NamesInjective (tables : List Table) : Prop where
  tableNames : (tables.map Table.name).Nodup
  columnNames : ∀ table ∈ tables, (table.fields.map SQLField.name).Nodup
  indexNames : ∀ table ∈ tables, ∀ columns columns', IndexColumns table columns →
    IndexColumns table columns' → columns ≠ columns' →
      createIndexKey table.name columns ≠ createIndexKey table.name columns'

/-- No two tables have paths with the same pieces, no two columns of a table have field
paths with the same pieces, and no two lists of columns of a table have the same
pieces. -/
structure PiecesDiffer (scope : List String) (classes : List Ctor) (tables : List Table) :
    Prop where
  tablePieces : ((classTablePaths scope classes).map doublePieces).Nodup
  fieldPieces : ∀ table ∈ tables,
    (table.fields.map (fun field => columnPieces (keptPath field.path))).Nodup
  listPieces : ∀ table ∈ tables, ∀ columns columns', IndexColumns table columns →
    IndexColumns table columns' → columns ≠ columns' → pieces columns ≠ pieces columns'

theorem createIndexKey_inj {tableName : String} {columns columns' : List String}
    (hne : columns ≠ []) (hne' : columns' ≠ []) :
    createIndexKey tableName columns = createIndexKey tableName columns' ↔
      pieces columns = pieces columns' := by
  unfold createIndexKey
  rw [String.append_right_inj, ← cut_inj, cut_intercalate hne, cut_intercalate hne']

theorem nodup_map_cut {names : List String} : (names.map cut).Nodup ↔ names.Nodup :=
  List.nodup_map_iff (fun _ _ h => cut_inj.mp h)

/-- The names of a schema are different exactly when the pieces of its names are. -/
theorem namesInjective_iff (scope : List String) (primary : String) (classes : List Ctor) :
    NamesInjective (schemaTables scope primary classes) ↔
      PiecesDiffer scope classes (schemaTables scope primary classes) := by
  have hnamed := rootTables_named scope primary classes
  have htables : ((schemaTables scope primary classes).map Table.name).map cut =
      (classTablePaths scope classes).map doublePieces := by
    rw [schemaTables, hnamed.names, List.map_map]
    exact List.map_congr_left (fun parts _ => cut_intercalate_double parts)
  have hfields : ∀ table ∈ schemaTables scope primary classes,
      (table.fields.map SQLField.name).map cut =
        table.fields.map (fun field => columnPieces (keptPath field.path)) := by
    intro table htable
    rw [List.map_map]
    refine List.map_congr_left (fun field hfield => ?_)
    have hname : field.name = columnName field.path :=
      hnamed.columns table htable field hfield
    rw [Function.comp_apply, hname, columnName_eq, cut_inlineFieldName]
  constructor
  · intro h
    refine { tablePieces := ?_, fieldPieces := ?_, listPieces := ?_ }
    · rw [← htables, nodup_map_cut]
      exact h.tableNames
    · intro table htable
      rw [← hfields table htable, nodup_map_cut]
      exact h.columnNames table htable
    · intro table htable columns columns' hcolumns hcolumns' hne hpieces
      exact h.indexNames table htable columns columns' hcolumns hcolumns' hne
        ((createIndexKey_inj hcolumns.nonempty hcolumns'.nonempty).mpr hpieces)
  · intro h
    refine { tableNames := ?_, columnNames := ?_, indexNames := ?_ }
    · rw [← nodup_map_cut, htables]
      exact h.tablePieces
    · intro table htable
      rw [← nodup_map_cut, hfields table htable]
      exact h.fieldPieces table htable
    · intro table htable columns columns' hcolumns hcolumns' hne hname
      exact h.listPieces table htable columns columns' hcolumns hcolumns' hne
        ((createIndexKey_inj hcolumns.nonempty hcolumns'.nonempty).mp hname)

/-- The key `x__y` of a vector, and the key `y` of a vector in the object `x`; the column
`a_b`, and the columns `a` and `b`. -/
def underscored : Ctor :=
  .mk (some 0) (getNameOfClass "Doc" (some (.number 0)))
    [.mk "id" .plain (.simple .string), .mk "a" .plain (.simple .string),
      .mk "b" .plain (.simple .string), .mk "a_b" .plain (.simple .string),
      .mk "x__y" .vec (.simple .string),
      .mk "x" .plain (.struct (.mk (some 1) (getNameOfClass "Inner" none)
        [.mk "y" .vec (.simple .string)]))]

theorem not_namesInjective_underscored :
    ¬ ∀ (scope : List String) (primary : String) (classes : List Ctor),
      (∃ tables, start scope primary classes = .ok tables) →
        NamesInjective (schemaTables scope primary classes) := by
  intro h
  have haccepted : start [] "id" [underscored] =
      .ok (schemaTables [] "id" [underscored]) := by
    rfl
  have hnames := (h [] "id" [underscored] ⟨_, haccepted⟩).tableNames
  exact absurd hnames (by decide)

end Sqlite
end Peerbit
