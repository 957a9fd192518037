import Peerbit.Indexer.RowObjects

/-!
# Fields of objects that are kept

By induction on the schema, every field of an object that is kept binds the
values of its columns, adds the rows of its objects, and is resolved from them.
-/

namespace Peerbit
namespace Sqlite

open Lib.RowTrees
open Lib.Results

/-! ### Simple fields -/

theorem SimpleType.Given.stores {type : SimpleType} {s : Scalar}
    (h : type.Given s) (path : List String) (primary : Option String)
    (owner : Option Nat) (key : String) :
    (simpleColumn path primary owner key type).Stores
      (convertToSQLType s type).sql := by
  have hinteger : "INTEGER" ≠ "BLOB" := by decide
  rcases h with rfl | h
  · trivial
  · cases type <;> obtain ⟨n, hn⟩ := h
    case bool =>
      subst hn
      exact hinteger
    case string =>
      subst hn
      exact ⟨(by decide : some SimpleType.string ≠ some .u64),
        (by decide : "TEXT" ≠ "BLOB")⟩
    case bytes =>
      subst hn
      exact ⟨(by decide : some SimpleType.bytes ≠ some .u64), rfl⟩
    all_goals
      obtain ⟨rfl, -⟩ := hn
      exact hinteger

section Fields

variable {tables : List Table} {place : Place} {obj : Value} {key : String}

theorem simple_sound (hplace : place.Of obj) (path : List String)
    (hpath : place.table.path = path) (primary : Option String)
    (owner : Option Nat) (isOptional : Bool) {type : SimpleType} {s : Scalar}
    (hvalue : obj.get key = .scalar s) (hgiven : type.Given s)
    (hkept : place.ReadsBack owner key type (obj.get key)) :
    BoundSound tables place
      { fields := [simpleColumn path primary owner key type], dependencies := [] }
      (fun db at_ => resolveValue db tables at_ owner key isOptional
        (.simple type) = .ok (obj.get key))
      { Bound.empty with
        values := [convertToSQLType (obj.get key).toScalar type] } := by
  have hcolumn : (simpleColumn path primary owner key type).valueIn place.obj =
      (convertToSQLType s type).sql := by
    rw [valueIn_simpleColumn, ← hpath, hplace.value, hvalue]
    rfl
  have hbound : (convertToSQLType (obj.get key).toScalar type) =
      convertToSQLType s type := by
    rw [hvalue]
    rfl
  refine { values := ?values, bindable := ?bindable, typed := ?typed,
           inserts := fun _ h => absurd h List.not_mem_nil,
           depth := fun _ => rfl, resolves := ?resolves }
  case values =>
    simp only [List.map_cons, List.map_nil, hcolumn, hbound]
  case bindable =>
    intro value h
    rw [List.mem_singleton.mp h, hbound]
    exact bindable_convertToSQLType hgiven
  case typed =>
    intro column h
    rw [List.mem_singleton.mp h, hcolumn]
    exact hgiven.stores path primary owner key
  case resolves =>
    intro calls call row at_ nodes _ hreading
    obtain ⟨column, hmem, hfind, hexist, htype, hat⟩ := hkept
    have hvalueIn : column.valueIn place.obj = (convertToSQLType s type).sql := by
      unfold SQLField.valueIn
      simp only [hexist, htype, hat, hvalue]
      rfl
    have hreads := hreading.seen.column hreading.sound
      (by rw [hreading.table]; exact hplace.row) (calls.map InsertCall.row)
      column (by rw [hreading.table]; exact hmem)
    rw [hreading.obj, hreading.table, hvalueIn] at hreads
    unfold resolveValue
    simp only [Place.resolve, hfind, ResolvePlace.column]
    rw [convertFromSQLType_of_reads hgiven hreads, hvalue]

/-! ### Inlined objects -/

theorem getTableFromField_struct (ctor : Ctor) {subTable : Table}
    (h : resolveTable tables (place.table.path ++ [key]) ctor.name =
      some subTable) :
    (getTableFromField tables place.table (.mk key .plain (.struct ctor))).head? =
      some subTable := by
  unfold getTableFromField
  simp only [Field.clazzNames, FieldType.clazzNames, Field.key,
    List.filterMap_cons, h]
  rfl

/-- How the existence column of an inlined object is read. -/
theorem existColumn_truthy {calls : List InsertCall} {call : InsertCall}
    {dependencies : List Table} {row : Row} {nodes : List (Node InsertCall)}
    (hplace : place.Of obj)
    (hreading : Reading tables place dependencies calls call row nodes)
    (hmem : existColumn (place.table.path ++ [key]) ∈ place.row.columns) :
    (row.get (calls.map InsertCall.row) (getTablePrefixedField place.row
        (existColumn (place.table.path ++ [key])).name false)).truthy =
      (place.kind.prefixed && !(obj.get key).isNull) := by
  have hvalue := valueIn_existColumn hplace.head key place.obj
  rw [hplace.value, if_neg (by rw [hplace.given]; exact Bool.false_ne_true)]
    at hvalue
  have hreads := hreading.seen.column hreading.sound
    (by rw [hreading.table]; exact hplace.row) (calls.map InsertCall.row)
    (existColumn (place.table.path ++ [key]))
    (by rw [hreading.table]; exact hmem)
  rw [hreading.obj, hreading.table, hvalue] at hreads
  have hseen := hreading.seen
  cases hprefixed : place.kind.prefixed with
  | true =>
      rw [hprefixed] at hreads
      cases hnull : (obj.get key).isNull with
      | true =>
          rw [hnull, if_pos rfl] at hreads
          rcases hreads with h | h
          · exact congrArg Scalar.truthy h
          · exact congrArg Scalar.truthy h
      | false =>
          rw [hnull, if_neg Bool.false_ne_true] at hreads
          rcases hreads with h | h
          · exact congrArg Scalar.truthy h
          · exact congrArg Scalar.truthy h
  | false =>
      rw [hprefixed] at hseen
      cases hseen
      rfl

theorem getTableFromValue_ctor {value : Value} {clazz : String} {table : Table}
    (hctor : value.ctor = some clazz)
    (h : resolveTable tables (place.table.path ++ [key]) clazz = some table)
    (fieldClazz : String) :
    getTableFromValue tables place.table key fieldClazz value = .ok table := by
  cases value with
  | object ctor properties =>
      obtain rfl : ctor = clazz := Option.some.inj hctor
      unfold getTableFromValue
      simp only [h]
  | scalar s => cases hctor
  | array items => cases hctor

theorem getTableFromValue_undefined {clazz : String} {table : Table}
    (h : resolveTable tables (place.table.path ++ [key]) clazz = some table) :
    getTableFromValue tables place.table key clazz .undefined = .ok table := by
  unfold getTableFromValue Value.undefined
  simp only [Scalar.isNull, if_true, h]

/-! An inlined object, and the table of its class. -/

variable {rowIds : RowIds} {join : JoinFields} {id : Option Nat} {name : String}
variable {fields : List Field} {primary : Option String} {owner : Option Nat}
variable {parentId : Option Scalar} {index : Option Nat}

/-- The table of a class that is inlined in a field of a place. -/
def Place.inlined (place : Place) (join : JoinFields) (key : String)
    (id : Option Nat) (name : String) (isOptional : Bool) (fields : List Field) :
    Table :=
  inlineTable (place.table.path ++ [key]) name isOptional
    (inlineFields (place.table.path ++ [key]) join id isOptional fields)

theorem resolveTable_inlined (hcreated : Created tables) {isOptional : Bool}
    (hhas : place.Has tables (handleField place.table.path primary join owner key
      isOptional (.struct (.mk id name fields)))) :
    resolveTable tables (place.table.path ++ [key]) name =
      some (place.inlined join key id name isOptional fields) := by
  refine resolveTable_of_mem hcreated.names (hhas.tables.subset ?_) rfl
  exact List.mem_cons_of_mem _ (Table.mem_allOf List.mem_cons_self)

/-- An optional inlined object that does not exist. -/
theorem absent_sound (hcreated : Created tables) (hplace : place.Of obj)
    (hhas : place.Has tables (handleField place.table.path primary join owner key
      true (.struct (.mk id name fields))))
    (hnull : obj.get key = .undefined) :
    ∃ bound, insertValue rowIds tables place.table obj parentId index key true
        (.struct (.mk id name fields)) = .ok bound ∧
      BoundSound tables place
        (handleField place.table.path primary join owner key true
          (.struct (.mk id name fields)))
        (fun db at_ => resolveValue db tables at_ owner key true
          (.struct (.mk id name fields)) = .ok (obj.get key)) bound := by
  have hfound := resolveTable_inlined hcreated hhas
  generalize hsub : place.inlined join key id name true fields = subTable
    at hfound
  have hfields : subTable.fields =
      (inlineFields (place.table.path ++ [key]) join id true fields).fields ++
        [existColumn (place.table.path ++ [key])] := by
    rw [← hsub]
    rfl
  have hinline : subTable.inline = true := by rw [← hsub]; rfl
  have hisNull : (obj.get key).isNull = true := by rw [hnull]; rfl
  have hout : (handleField place.table.path primary join owner key true
      (.struct (.mk id name fields))).fields = subTable.fields := by
    rw [← hsub]
    rfl
  have hinner : ∀ column ∈
      (inlineFields (place.table.path ++ [key]) join id true fields).fields,
      column.valueIn place.obj = .null := by
    refine inlineFields_null (head?_append hplace.head key) join id true ?_ fields
    rw [tail_append hplace.head, Value.at_append, hplace.value]
    exact hisNull
  have hexist : (existColumn (place.table.path ++ [key])).valueIn place.obj =
      .integer 0 := by
    rw [valueIn_existColumn hplace.head, hplace.value, hplace.given, hisNull]
    rfl
  refine ⟨{ Bound.empty with
      values := (subTable.fields.map (fun _ => Scalar.null)).dropLast ++
        [.number 0] }, ?_,
    { values := ?values, bindable := ?bindable, typed := ?typed,
      inserts := fun _ h => absurd h List.not_mem_nil,
      depth := fun _ => rfl, resolves := ?resolves }⟩
  · unfold insertValue
    simp only [hnull, getTableFromValue_undefined hfound, hinline,
      Bool.true_and]
    rfl
  case values =>
    simp only [hout, hfields, List.map_append, List.map_cons, List.map_nil,
      List.dropLast_concat, hexist, List.map_map]
    refine congrArg₂ _ (List.map_congr_left ?_) rfl
    intro column hcolumn
    exact (hinner column hcolumn).symm
  case bindable =>
    intro value hvalue
    rw [hfields] at hvalue
    simp only [List.map_append, List.map_cons, List.map_nil,
      List.dropLast_concat, List.mem_append, List.mem_map, List.mem_singleton]
      at hvalue
    rcases hvalue with ⟨_, -, rfl⟩ | rfl
    · rfl
    · rfl
  case typed =>
    intro column hcolumn
    rw [hout, hfields] at hcolumn
    rcases List.mem_append.mp hcolumn with hcolumn | hcolumn
    · rw [hinner column hcolumn]
      trivial
    · rw [List.mem_singleton.mp hcolumn, hexist]
      exact (by decide : "bool" ≠ "BLOB")
  case resolves =>
    intro calls call row path nodes _ hreading
    have hmem : existColumn (place.table.path ++ [key]) ∈ place.row.columns := by
      refine hhas.columns _ ?_
      rw [hout, hfields]
      exact List.mem_append_right _ List.mem_cons_self
    have hread := existColumn_truthy hplace hreading hmem
    unfold resolveValue
    simp only [Place.resolve, getTableFromField_struct (.mk id name
      fields) hfound, hfields, List.getLast?_concat, Option.map_some,
      Option.getD_some, hread, hisNull, hinline, Bool.not_true, Bool.and_false,
      Bool.not_false, Bool.and_self, if_true]
    rw [hnull]

/-! Fields that are not nested leave no callbacks to the insert. -/

theorem insertField_handled {table : Table} {field : Field} {bound : Bound}
    (h : insertField rowIds tables table obj parentId index field = .ok bound)
    (hnested : field.nested = false) : bound.handled = [] := by
  have hvalue : ∀ key isOptional type,
      (Field.mk key .plain type).nested = false →
      insertValue rowIds tables table obj parentId index key isOptional type =
        .ok bound → bound.handled = [] := by
    intro key isOptional type hnested h
    cases type with
    | simple type =>
        cases h
        rfl
    | struct ctor =>
        obtain ⟨id, name, fields⟩ := ctor
        unfold insertValue at h
        simp only at h
        split at h
        · cases h
        · split at h
          · cases h
            rfl
          · split at h
            · cases h
            · split at h
              · cases h
                rfl
              · cases h
    | poly name dependencies => cases hnested
  obtain ⟨key, wrapper, type⟩ := field
  cases wrapper with
  | plain => exact hvalue key false type hnested h
  | option => exact hvalue key true type (by cases type <;> first | rfl | cases hnested) h
  | vec => cases hnested
  | vecOption => cases hnested

theorem insertFields_handled {table : Table} {fields : List Field}
    {bound : Bound}
    (h : insertFields rowIds tables table obj parentId index fields = .ok bound)
    (hnested : ∀ field ∈ fields, field.nested = false) : bound.handled = [] := by
  induction fields generalizing bound with
  | nil =>
      cases h
      rfl
  | cons field fields ih =>
      unfold insertFields at h
      cases hfirst : insertField rowIds tables table obj parentId index field with
      | error error =>
          rw [hfirst] at h
          cases h
      | ok first =>
          cases hrest : insertFields rowIds tables table obj parentId index
              fields with
          | error error =>
              rw [hfirst, hrest] at h
              cases h
          | ok rest =>
              rw [hfirst, hrest] at h
              cases h
              change first.handled ++ rest.handled = []
              rw [insertField_handled hfirst (hnested field List.mem_cons_self),
                ih hrest fun f hf => hnested f (List.mem_cons_of_mem _ hf)]
              rfl

/-- The place of the fields of an inlined object. -/
def Place.within (place : Place) (table : Table) (isOptional : Bool) : Place :=
  { place with
    table
    depth := place.depth + 1
    isOptional := isOptional || place.isOptional }

/-- An inlined object. -/
theorem present_sound (hcreated : Created tables) (hplace : place.Of obj)
    {isOptional : Bool}
    (hhas : place.Has tables (handleField place.table.path primary join owner key
      isOptional (.struct (.mk id name fields))))
    (hvalue : (obj.get key).IsObject name fields)
    (hkind : place.kind = .document)
    (hdepth : 1 ≤ place.depth → ∀ field ∈ fields, field.nested = false)
    {bound : Bound}
    (hinsert : insertFields rowIds tables
      (place.inlined join key id name isOptional fields) (obj.get key) none index
        fields = .ok bound)
    (hbound : BoundSound tables
      (place.within (place.inlined join key id name isOptional fields) isOptional)
      (inlineFields (place.table.path ++ [key]) join id isOptional fields)
      (fun db at_ => resolveFields db tables at_ id fields =
        .ok (fields.map fun field =>
          (field.key, (obj.get key).get field.key))) bound) :
    ∃ bound, insertValue rowIds tables place.table obj none index key isOptional
        (.struct (.mk id name fields)) = .ok bound ∧
      BoundSound tables place
        (handleField place.table.path primary join owner key isOptional
          (.struct (.mk id name fields)))
        (fun db at_ => resolveValue db tables at_ owner key isOptional
          (.struct (.mk id name fields)) = .ok (obj.get key)) bound := by
  have hfound := resolveTable_inlined hcreated hhas
  generalize hsub : place.inlined join key id name isOptional fields = subTable
    at hfound hinsert hbound
  have hctor : (obj.get key).ctor = some name := by
    rw [hvalue]
    rfl
  have hgiven : (obj.get key).isNull = false := by
    rw [hvalue]
    rfl
  have hfields : subTable.fields =
      (inlineFields (place.table.path ++ [key]) join id isOptional
        fields).fields ++
        (if isOptional then [existColumn (place.table.path ++ [key])] else []) := by
    rw [← hsub]
    rfl
  have hinline : subTable.inline = true := by rw [← hsub]; rfl
  have hprimary : subTable.primary = none := by rw [← hsub]; rfl
  have hout : handleField place.table.path primary join owner key isOptional
      (.struct (.mk id name fields)) =
        { fields := subTable.fields, dependencies := [subTable] } := by
    rw [← hsub]
    rfl
  have hchildren : subTable.children =
      (inlineFields (place.table.path ++ [key]) join id isOptional
        fields).dependencies := by
    rw [← hsub]
    rfl
  have hsubset : ∀ table ∈ Table.allOf (inlineFields (place.table.path ++ [key])
      join id isOptional fields).dependencies,
      table ∈ Table.allOf [subTable] := by
    intro table htable
    rw [Table.allOf_cons, hchildren]
    exact List.mem_append_left _ (List.mem_cons_of_mem _ htable)
  have hexist : (existColumn (place.table.path ++ [key])).valueIn place.obj =
      .integer 1 := by
    rw [valueIn_existColumn hplace.head, hplace.value, hplace.given, hgiven]
    rfl
  have hnested : bound.nested = [] := hbound.depth (Nat.le_add_left 1 _)
  rw [hout] at hhas ⊢
  refine ⟨{ values := parentValues none index ++ bound.values ++
              (if isOptional then [.number 1] else [])
            nested := bound.handled, handled := [] }, ?_,
    { values := ?values, bindable := ?bindable, typed := ?typed,
      inserts := ?inserts, depth := ?depth, resolves := ?resolves }⟩
  · unfold insertValue
    simp only [getTableFromValue_ctor hctor hfound, hgiven, Bool.and_false,
      Bool.false_eq_true, if_false, hinsert, hnested, List.isEmpty_nil, if_true]
  case values =>
    have hinner := hbound.values
    change bound.values.map Scalar.sql =
      (inlineFields (place.table.path ++ [key]) join id isOptional
        fields).fields.map (fun column => column.valueIn place.obj) at hinner
    simp only [parentValues, List.nil_append, List.map_append, hinner, hfields]
    cases isOptional with
    | false => rfl
    | true =>
        simp only [if_true, List.map_cons, List.map_nil, hexist]
        rfl
  case bindable =>
    intro value hvalue
    simp only [parentValues, List.nil_append, List.mem_append] at hvalue
    rcases hvalue with hvalue | hvalue
    · exact hbound.bindable value hvalue
    · cases isOptional with
      | false => exact absurd hvalue List.not_mem_nil
      | true =>
          rw [List.mem_singleton.mp hvalue]
          rfl
  case typed =>
    intro column hcolumn
    simp only [hfields] at hcolumn
    rcases List.mem_append.mp hcolumn with hcolumn | hcolumn
    · exact hbound.typed column hcolumn
    · cases isOptional with
      | false => exact absurd hcolumn List.not_mem_nil
      | true =>
          rw [List.mem_singleton.mp hcolumn, hexist]
          exact (by decide : "bool" ≠ "BLOB")
  case inserts =>
    intro callback hcallback nodeId path position hid
    rw [List.append_nil] at hcallback
    obtain ⟨nodes, hnodes, hbelongs⟩ := hbound.inserts callback
      (List.mem_append_right _ hcallback) nodeId path position hid
    exact ⟨nodes, hnodes, fun node hnode => (hbelongs node hnode).mono hsubset⟩
  case depth =>
    intro h
    exact insertFields_handled hinsert (hdepth h)
  case resolves =>
    rintro calls call row path nodes ⟨nested, handled, hran, hnone, rfl⟩ hreading
    cases hnone
    have hinner := hbound.resolves calls call row path nested.flatten
      ⟨[], nested, by rw [hnested]; exact .nil, hran, rfl⟩
      { table := hreading.table, obj := hreading.obj, sound := hreading.sound,
        id := hreading.id, stored := hreading.stored, seen := hreading.seen,
        serves := fun table htable hchild => by
          have := hreading.serves table (hsubset table htable) hchild
          simpa using this
        served := fun node hnode =>
          hreading.served node (List.mem_append_left _ hnode) }
    have hexists : (isOptional &&
        !(row.get (calls.map InsertCall.row) (getTablePrefixedField place.row
          ((subTable.fields.getLast?.map SQLField.name).getD "")
          false)).truthy) = false := by
      cases isOptional with
      | false => rfl
      | true =>
          have hmem : existColumn (place.table.path ++ [key]) ∈
              place.row.columns := by
            refine hhas.columns _ ?_
            change _ ∈ subTable.fields
            rw [hfields]
            exact List.mem_append_right _ List.mem_cons_self
          rw [hfields, if_pos rfl, List.getLast?_concat, Option.map_some,
            Option.getD_some, existColumn_truthy hplace hreading hmem, hkind,
            hgiven]
          rfl
    unfold resolveValue
    simp only [Place.resolve, getTableFromField_struct (.mk id name
      fields) hfound, hinline, Bool.true_and, hexists, hprimary,
      Option.any_none, Bool.false_eq_true, if_false, if_true]
    have hplaced : (place.within subTable isOptional).resolve row =
        { rootTable := place.row, table := subTable, row
          tablePrefixed := place.kind.prefixed } := rfl
    rw [hplaced] at hinner
    rw [hinner]
    exact congrArg Except.ok hvalue.symm

/-! ### Tables of fields -/

theorem getTableFromField_single (field : Field) {clazz : String} {table : Table}
    (hclazz : field.clazzNames = [clazz])
    (h : resolveTable tables (place.table.path ++ [field.key]) clazz =
      some table) :
    getTableFromField tables place.table field = [table] := by
  unfold getTableFromField
  rw [hclazz, List.filterMap_cons, h, List.filterMap_nil]

theorem getWrappedTable_eq {table : Table}
    (h : resolveTable tables (place.table.path ++ [key])
      WRAPPED_SIMPLE_VALUE_VARIANT = some table) :
    getWrappedTable tables place.table key = .ok table := by
  unfold getWrappedTable
  rw [h]

/-- The tables of the dependencies of a class are found by their names. -/
theorem mem_childTables (hnames : (tables.map Table.name).Nodup)
    {path : List String} {isVec : Bool} {dependencies : List Ctor}
    (hmem : ∀ table ∈ childTables path join isVec dependencies, table ∈ tables)
    (table : Table) :
    table ∈ childTables path join isVec dependencies ↔
      ∃ dependency ∈ dependencies,
        resolveTable tables path dependency.name = some table := by
  induction dependencies with
  | nil => simp [childTables]
  | cons dependency dependencies ih =>
      obtain ⟨id, name, fields⟩ := dependency
      have hfirst := hmem _ List.mem_cons_self
      have hresolve := resolveTable_of_mem hnames hfirst
        (rfl : _ = getTableName path name)
      have hrest := ih fun t ht => hmem t (List.mem_cons_of_mem _ ht)
      unfold childTables
      rw [List.mem_cons, hrest, List.exists_mem_cons_iff]
      refine or_congr ?_ Iff.rfl
      change _ ↔ resolveTable tables path name = some table
      rw [hresolve]
      exact ⟨fun h => h ▸ rfl, fun h => (Option.some.inj h).symm⟩

theorem mem_getTableFromField (hnames : (tables.map Table.name).Nodup)
    {isVec : Bool} {clazz : Option String} {dependencies : List Ctor}
    (field : Field) (hkey : field.key = key)
    (hclazz : field.clazzNames =
      clazz.toList ++ dependencies.map Ctor.name)
    (hmem : ∀ table ∈ childTables (place.table.path ++ [key]) join isVec
      dependencies, table ∈ tables)
    (hfinds : FindsDependencies tables (place.table.path ++ [key]) clazz
      dependencies) (table : Table) :
    table ∈ getTableFromField tables place.table field ↔
      table ∈ childTables (place.table.path ++ [key]) join isVec
        dependencies := by
  rw [mem_childTables hnames hmem]
  unfold getTableFromField
  rw [hclazz, hkey, List.mem_filterMap]
  constructor
  · rintro ⟨name, hname, hresolve⟩
    rcases List.mem_append.mp hname with hname | hname
    · exact hfinds name (by simpa using hname) table hresolve
    · obtain ⟨dependency, hdependency, rfl⟩ := List.mem_map.mp hname
      exact ⟨dependency, hdependency, hresolve⟩
  · rintro ⟨dependency, hdependency, hresolve⟩
    exact ⟨dependency.name,
      List.mem_append_right _ (List.mem_map_of_mem hdependency), hresolve⟩

end Fields

end Sqlite
end Peerbit
