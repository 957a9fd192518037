import Peerbit.Indexer.RowRoundTrip

/-!
# Columns of rows

The row that an insert stores has the value of each column under its name.
-/

namespace Peerbit
namespace Sqlite

open Lib.RowTrees

/-! ### Tables -/

/-- An element is found by a name that no other element has. -/
theorem find?_of_nodup {α : Type} {l : List α} {f : α → String}
    (hnames : (l.map f).Nodup) {a : α} (h : a ∈ l) :
    l.find? (fun b => f b == f a) = some a := by
  induction l with
  | nil => exact absurd h List.not_mem_nil
  | cons first rest ih =>
      obtain ⟨hfirst, hrest⟩ := List.nodup_cons.mp hnames
      rw [List.find?_cons]
      rcases List.mem_cons.mp h with rfl | h
      · simp
      · have hne : (f first == f a) = false := by
          refine beq_false_of_ne ?_
          intro heq
          exact hfirst (heq ▸ List.mem_map_of_mem h)
        rw [hne]
        exact ih hrest h

theorem getTable_of_mem {tables : List Table}
    (hnames : (tables.map Table.name).Nodup) {table : Table}
    (h : table ∈ tables) : getTable tables table.name = some table :=
  find?_of_nodup hnames h

theorem eq_of_name_eq {tables : List Table}
    (hnames : (tables.map Table.name).Nodup) {s t : Table} (hs : s ∈ tables)
    (ht : t ∈ tables) (h : s.name = t.name) : s = t := by
  have hfound := getTable_of_mem hnames hs
  rw [h, getTable_of_mem hnames ht] at hfound
  exact (Option.some.inj hfound).symm

theorem resolveTable_of_mem {tables : List Table}
    (hnames : (tables.map Table.name).Nodup) {table : Table}
    (h : table ∈ tables) {path : List String} {clazz : String}
    (hname : table.name = getTableName path clazz) :
    resolveTable tables path clazz = some table := by
  unfold resolveTable
  rw [← hname, getTable_of_mem hnames h]
  rfl

theorem resolveWrapped_of_mem {tables : List Table}
    (hnames : (tables.map Table.name).Nodup) {table : Table}
    (h : table ∈ tables) {path : List String}
    (hname : table.name = getTableName path wrappedName)
    (hfinds : FindsWrapped tables path) :
    resolveTable tables path WRAPPED_SIMPLE_VALUE_VARIANT = some table := by
  unfold resolveTable
  rw [hfinds, ← hname, getTable_of_mem hnames h]
  rfl

@[simp]
theorem Table.allOf_nil : Table.allOf [] = [] :=
  rfl

theorem Table.all_eq (table : Table) :
    table.all = table :: Table.allOf table.children := by
  cases table
  rfl

theorem Table.allOf_cons (table : Table) (tables : List Table) :
    Table.allOf (table :: tables) =
      table :: Table.allOf table.children ++ Table.allOf tables := by
  rw [← Table.all_eq]
  rfl

theorem Table.allOf_append (s t : List Table) :
    Table.allOf (s ++ t) = Table.allOf s ++ Table.allOf t := by
  induction s with
  | nil => rfl
  | cons table s ih =>
      rw [List.cons_append, Table.allOf_cons, ih, Table.allOf_cons,
        List.append_assoc]

theorem Table.mem_allOf {table : Table} {tables : List Table}
    (h : table ∈ tables) : table ∈ Table.allOf tables := by
  induction tables with
  | nil => exact absurd h List.not_mem_nil
  | cons first rest ih =>
      rw [Table.allOf_cons]
      rcases List.mem_cons.mp h with rfl | h
      · exact List.mem_append_left _ List.mem_cons_self
      · exact List.mem_append_right _ (ih h)

theorem Table.all_sublist {table : Table} {tables : List Table}
    (h : table ∈ tables) : table.all.Sublist (Table.allOf tables) := by
  induction tables with
  | nil => exact absurd h List.not_mem_nil
  | cons first rest ih =>
      change table.all.Sublist (first.all ++ Table.allOf rest)
      rcases List.mem_cons.mp h with rfl | h
      · exact List.sublist_append_left _ _
      · exact (ih h).trans (List.sublist_append_right _ _)

/-- The columns of a row have different names. -/
def Table.NamesColumns (table : Table) : Prop :=
  (table.fields.map SQLField.name).Nodup

theorem namesColumns_of_createsTable {table : Table}
    (h : createsTable table = true) : table.NamesColumns := by
  have hnodup : (table.fields.map fun field => foldCase field.name).Nodup :=
    of_decide_eq_true h
  refine List.Nodup.of_map foldCase ?_
  rw [List.map_map]
  exact hnodup

/-- An index that starts has created its tables, and has prepared statements of
them. -/
theorem start_ok {scope : List String} {primary : String} {classes : List Ctor}
    {tables : List Table} (h : start scope primary classes = .ok tables) :
    tables = Table.allOf (classes.map (rootTable scope primary)) ∧
      (∀ table ∈ tables, table.inline = false → table.NamesColumns) ∧
        ∀ table ∈ tables, table.inline = false → preparesTable tables table = true := by
  rw [start] at h
  split at h
  · cases h
  · split at h
    · cases h
    · rename_i hcreates
      split at h
      · cases h
      · rename_i hprepares
        obtain rfl := Except.ok.inj h
        simp only [Bool.not_eq_true', Bool.not_eq_false] at hcreates hprepares
        have hcreated : ∀ table ∈ Table.allOf (classes.map (rootTable scope primary)),
            table.inline = false →
              table ∈ (Table.allOf (classes.map (rootTable scope primary))).filter
                (fun table => !table.inline) :=
          fun table htable hinline => List.mem_filter.mpr ⟨htable, by simp [hinline]⟩
        refine ⟨rfl, fun table htable hinline => ?_, fun table htable hinline => ?_⟩
        · exact namesColumns_of_createsTable
            (List.all_eq_true.mp hcreates table (hcreated table htable hinline))
        · exact List.all_eq_true.mp hprepares table (hcreated table htable hinline)

/-! ### Scalars -/

/-- An instance has no other null than `undefined`. -/
def SimpleType.Given (type : SimpleType) (s : Scalar) : Prop :=
  s = .undefined ∨ type.Holds s

theorem bindable_convertToSQLType {type : SimpleType} {s : Scalar}
    (h : type.Given s) : (convertToSQLType s type).bindable = true := by
  rcases h with rfl | h
  · rfl
  · cases type <;> obtain ⟨n, hn⟩ := h
    case bool => subst hn; rfl
    case string => subst hn; rfl
    case bytes => subst hn; rfl
    all_goals
      obtain ⟨rfl, -⟩ := hn
      rfl

/-- What a value of a column can look like when it is read. -/
def SqlValue.Reads : SqlValue → Scalar → Prop
  | .null, s => s.isNull = true
  | .integer n, s => s = .number n ∨ s = .bigint n
  | .text t, s => s = .string t
  | .blob b, s => s = .bytes b

theorem SqlValue.reads_read (value : SqlValue) : value.Reads value.read := by
  cases value with
  | null => rfl
  | integer n => exact .inr rfl
  | text t => rfl
  | blob b => rfl

/-- A simple value is read back. -/
theorem convertFromSQLType_of_reads {type : SimpleType} {s t : Scalar}
    (h : type.Given s) (hreads : (convertToSQLType s type).sql.Reads t) :
    convertFromSQLType t type = .ok s := by
  rcases h with rfl | h
  · have hnull : t.isNull = true := hreads
    cases t <;> cases type <;> simp_all [Scalar.isNull, convertFromSQLType,
      nullAsUndefined]
  · cases type <;> obtain ⟨n, hn⟩ := h
    case bool =>
      subst hn
      cases n <;> rcases hreads with rfl | rfl <;> rfl
    case string =>
      subst hn
      obtain rfl := hreads
      rfl
    case bytes =>
      subst hn
      obtain rfl := hreads
      rfl
    case u64 =>
      obtain ⟨rfl, -⟩ := hn
      rcases hreads with rfl | rfl <;>
        simp [convertFromSQLType, u64ToI64, i64ToU64]
    all_goals
      obtain ⟨rfl, -⟩ := hn
      rcases hreads with rfl | rfl <;> rfl

/-- A 64 bit integer is bound as one that SQLite has. -/
theorem u64ToI64_range {n : Int} (hmin : 0 ≤ n) (hmax : n < 2 ^ 64) :
    -2 ^ 63 ≤ u64ToI64 n ∧ u64ToI64 n < 2 ^ 63 := by
  unfold u64ToI64
  omega

/-! ### Cells -/

theorem find?_zip {fields : List SQLField}
    (hnames : (fields.map SQLField.name).Nodup) {values : List SqlValue}
    {cell : SQLField × SqlValue} (h : cell ∈ fields.zip values) :
    (fields.zip values).find? (fun c => c.1.name == cell.1.name) = some cell := by
  refine find?_of_nodup (f := fun c => c.1.name) ?_ h
  have hstarts : ((fields.zip values).map Prod.fst).Sublist fields := by
    rw [List.zip_eq_zip_take_min, List.map_fst_zip (by simp)]
    exact List.take_sublist _ _
  have hsub := (hstarts.map SQLField.name).nodup hnames
  rwa [List.map_map] at hsub

/-- The cell of a column that has a value. -/
theorem InsertCall.cell_of_mem {call : InsertCall}
    (hnames : call.table.NamesColumns) {cell : SQLField × SqlValue}
    (h : cell ∈ call.table.fields.zip (call.values.map Scalar.sql)) :
    call.row.cell cell.1.name =
      some (if some cell.1.name = call.table.primary ∧ cell.2 = .null then
        call.id.sql else cell.2) := by
  have hfind := find?_zip hnames h
  unfold InsertCall.row DbRow.cell
  simp only
  rw [List.find?_map]
  have hsame : ((fun c : SQLField × SqlValue => c.1.name == cell.1.name) ∘
      fun c : SQLField × SqlValue =>
        if some c.1.name = call.table.primary ∧ c.2 = .null then
          (c.1, call.id.sql)
        else c) = fun c => c.1.name == cell.1.name := by
    funext c
    simp only [Function.comp]
    split <;> rfl
  rw [hsame, hfind]
  simp only [Option.map_some]
  split <;> rfl

/-- What is known of a row that an insert binds. -/
structure InsertCall.Sound (tables : List Table) (call : InsertCall) : Prop where
  order : call.InColumnOrder
  mem : call.table ∈ tables
  id : call.row.id = call.id.sql
  cell : ∀ column ∈ call.table.columns,
    call.row.cell column.name = some (column.valueIn call.obj)

/-- The values that a column of its type holds. -/
def SQLField.Stores (column : SQLField) : SqlValue → Prop
  | .null => True
  | .integer _ => column.type ≠ "BLOB"
  | .text _ => column.unwrappedType ≠ some .u64 ∧ column.type ≠ "BLOB"
  | .blob _ => column.unwrappedType ≠ some .u64 ∧ column.type = "BLOB"

/-- What is known of a row that belongs to another. -/
structure InsertCall.Child (call : InsertCall) : Prop where
  primary : call.table.primary = some CHILD_TABLE_ID
  names : call.table.NamesColumns
  id : ∃ n, call.id = .bigint n
  typed : ∀ column ∈ call.table.columns, column.Stores (column.valueIn call.obj)
  join : ∀ column ∈ call.table.fields, column ∈ call.table.columns ∨
    column.name = PARENT_TABLE_ID ∨
      (column.unwrappedType = none ∧ column.type ≠ "BLOB" ∧
        ∃ n, call.row.cell column.name = some (.integer n))
  apart : ∀ column ∈ call.table.columns, column.name ≠ PARENT_TABLE_ID
  idCell : call.row.cell CHILD_TABLE_ID = some call.id.sql
  parentCell : ∀ parentId, call.parentId = some parentId →
    call.row.cell PARENT_TABLE_ID = some parentId.sql
  indexCell : ∀ index : Nat, call.index = some index →
    call.row.cell ARRAY_INDEX_COLUMN = some (.integer index)

section Child

variable {rowIds : RowIds} {path : List String} {join : JoinFields}
variable {isVec isSimpleValue : Bool} {ctor : String} {body : SQLFields}
variable {parentId : Scalar} {index : Option Nat} {place : List (Nat × Nat)}
variable {values : List Scalar} {obj : Value}

/-- The call that inserts a row that belongs to another. -/
def childCall (rowIds : RowIds) (table : Table) (obj : Value)
    (parentId : Scalar) (index : Option Nat) (place : List (Nat × Nat))
    (values : List Scalar) : InsertCall where
  table
  values := parentValues (some parentId) index ++ values
  obj
  parentId := some parentId
  index
  id := insertFn rowIds table (parentValues (some parentId) index ++ values) place

theorem parentValues_some (h : parentId.isNull = false) :
    parentValues (some parentId) index =
      [.undefined, parentId] ++ index.toList.map (fun i => Scalar.number i) := by
  unfold parentValues
  simp only [h, Bool.false_eq_true, if_false]

/-- The columns that a row of another table begins with. -/
structure JoinFields.Parent (join : JoinFields) : Prop where
  fields : ∃ first second, join.fields = [first, second] ∧
    first.name = CHILD_TABLE_ID ∧ first.unwrappedType = none ∧
      first.type = "INTEGER" ∧ second.name = PARENT_TABLE_ID

theorem addJoinFields_parent (tableName primary : String)
    (sqlFields : List SQLField) :
    (addJoinFields tableName primary sqlFields).Parent :=
  ⟨_, _, rfl, rfl, rfl, rfl, rfl⟩

theorem childTable_columns (h : join.Parent) :
    (childTable path join isVec isSimpleValue ctor body).columns =
      body.fields := by
  obtain ⟨first, second, hfields, -⟩ := h.fields
  unfold Table.columns Table.joinCount childTable
  simp only [hfields]
  cases isVec <;> rfl

theorem insertFn_child (h : join.Parent) (hparent : parentId.isNull = false) :
    insertFn rowIds (childTable path join isVec isSimpleValue ctor body)
        (parentValues (some parentId) index ++ values) place =
      .bigint (rowIds (getTableName path ctor) place) := by
  obtain ⟨first, second, hfields, hfirst, -⟩ := h.fields
  unfold insertFn childTable
  rw [parentValues_some hparent]
  simp only [Option.bind_some, hfields, List.cons_append, List.map_cons,
    List.zip_cons_cons, List.lookup_cons, hfirst, beq_self_eq_true,
    Scalar.isNull, if_true]

/-- The columns of the body are neither the id of the row nor that of the other row. -/
theorem childTable_names_ne (h : join.Parent)
    (hnames : (childTable path join isVec isSimpleValue ctor body).NamesColumns)
    {column : SQLField} (hcolumn : column ∈ body.fields) :
    column.name ≠ CHILD_TABLE_ID ∧ column.name ≠ PARENT_TABLE_ID := by
  obtain ⟨first, second, hfields, hfirst, -, -, hsecond⟩ := h.fields
  have hnodup : (((join.fields ++ (if isVec then [arrayIndexField] else [])) ++
      body.fields).map SQLField.name).Nodup := hnames
  rw [hfields] at hnodup
  simp only [List.cons_append, List.nil_append, List.map_cons, List.nodup_cons] at hnodup
  have hname := List.mem_map_of_mem (f := SQLField.name)
    (List.mem_append_right (if isVec then [arrayIndexField] else []) hcolumn)
  constructor
  · intro heq
    refine hnodup.1 (List.mem_cons_of_mem _ ?_)
    rwa [hfirst, ← heq]
  · intro heq
    refine hnodup.2.1 ?_
    rwa [hsecond, ← heq]

/-- A statement gets as many values as its table has columns. -/
theorem childCall_runs (h : join.Parent) (hparent : parentId.isNull = false)
    (hbind : parentId.bindable = true) (hindex : index.isSome = isVec)
    (hlength : values.length = body.fields.length)
    (hbindable : ∀ value ∈ values, value.bindable = true) :
    (childCall rowIds (childTable path join isVec isSimpleValue ctor body) obj
      parentId index place values).runs = true := by
  obtain ⟨first, second, hfields, -⟩ := h.fields
  have hvalues : (childCall rowIds (childTable path join isVec isSimpleValue ctor body) obj
      parentId index place values).values =
        [.undefined, parentId] ++ index.toList.map (fun i => Scalar.number i) ++ values := by
    rw [← parentValues_some hparent]
    rfl
  have hcolumns : (childTable path join isVec isSimpleValue ctor body).fields =
      [first, second] ++ (if isVec then [arrayIndexField] else []) ++ body.fields := by
    rw [← hfields]
    rfl
  unfold InsertCall.runs
  rw [Bool.and_eq_true, beq_iff_eq, List.all_eq_true, hvalues]
  constructor
  · rw [childCall, hcolumns]
    simp only [List.length_append, List.length_map, hlength]
    cases isVec <;> cases index <;> simp_all
  · intro value hvalue
    simp only [List.mem_append, List.mem_cons, List.not_mem_nil, or_false,
      List.mem_map] at hvalue
    rcases hvalue with ((rfl | rfl) | ⟨i, -, rfl⟩) | hvalue
    · rfl
    · exact hbind
    · rfl
    · exact hbindable value hvalue

/-- The row of an object of a vector or a polymorphic field. -/
theorem childCall_sound {tables : List Table} (h : join.Parent)
    (hmem : childTable path join isVec isSimpleValue ctor body ∈ tables)
    (hnames : (childTable path join isVec isSimpleValue ctor
      body).NamesColumns)
    (hparent : parentId.isNull = false) (hbind : parentId.bindable = true)
    (hindex : index.isSome = isVec)
    (hvalues : values.map Scalar.sql =
      body.fields.map (fun column => column.valueIn obj))
    (hbindable : ∀ value ∈ values, value.bindable = true)
    (htyped : ∀ column ∈ body.fields, column.Stores (column.valueIn obj)) :
    (childCall rowIds (childTable path join isVec isSimpleValue ctor body) obj
        parentId index place values).Sound tables ∧
      (childCall rowIds (childTable path join isVec isSimpleValue ctor body) obj
        parentId index place values).Child := by
  generalize hcall : childCall rowIds
    (childTable path join isVec isSimpleValue ctor body) obj parentId index
    place values = call
  have htable : call.table =
      childTable path join isVec isSimpleValue ctor body := by rw [← hcall]; rfl
  have hobj : call.obj = obj := by rw [← hcall]; rfl
  have hcallParent : call.parentId = some parentId := by rw [← hcall]; rfl
  have hcallIndex : call.index = index := by rw [← hcall]; rfl
  have hcallValues : call.values =
      [.undefined, parentId] ++ index.toList.map (fun i => Scalar.number i) ++
        values := by
    rw [← hcall, ← parentValues_some hparent]
    rfl
  have hid : call.id = .bigint (rowIds (getTableName path ctor) place) := by
    rw [← hcall]
    exact insertFn_child h hparent
  have hcolumns : call.table.columns = body.fields := by
    rw [htable, childTable_columns h]
  have hcallNames : call.table.NamesColumns := htable ▸ hnames
  have hprimary : call.table.primary = some CHILD_TABLE_ID := by
    rw [htable]
    rfl
  obtain ⟨first, second, hfields, hfirst, hunwrapped, htype, hsecond⟩ := h.fields
  have hlength : values.length = body.fields.length := by
    simpa using congrArg List.length hvalues
  have hcallFields : call.table.fields =
      [first, second] ++ (if isVec then [arrayIndexField] else []) ++
        body.fields := by
    rw [htable, ← hfields]
    rfl
  have hsql : call.values.map Scalar.sql =
      [.null, parentId.sql] ++
        index.toList.map (fun i => SqlValue.integer i) ++
        values.map Scalar.sql := by
    rw [hcallValues]
    simp [Scalar.sql, Function.comp_def]
  have hmemId : (first, SqlValue.null) ∈
      call.table.fields.zip (call.values.map Scalar.sql) := by
    rw [hcallFields, hsql]
    exact List.mem_cons_self
  have hmemParent : (second, parentId.sql) ∈
      call.table.fields.zip (call.values.map Scalar.sql) := by
    rw [hcallFields, hsql]
    exact List.mem_cons_of_mem _ List.mem_cons_self
  have hidCell : call.row.cell CHILD_TABLE_ID = some call.id.sql := by
    have hcell := InsertCall.cell_of_mem hcallNames hmemId
    simp only [hfirst, hprimary, and_self, if_true] at hcell
    exact hcell
  have hcolumn : ∀ column ∈ body.fields,
      column.name ≠ CHILD_TABLE_ID ∧ column.name ≠ PARENT_TABLE_ID :=
    fun column hmem => childTable_names_ne h hnames hmem
  have hindexCell : ∀ i : Nat, call.index = some i →
      call.row.cell ARRAY_INDEX_COLUMN = some (.integer i) := by
    intro i hi
    rw [hcallIndex] at hi
    subst hi
    cases hindex
    have hmemIndex : (arrayIndexField, SqlValue.integer i) ∈
        call.table.fields.zip (call.values.map Scalar.sql) := by
      rw [hcallFields, hsql]
      exact List.mem_cons_of_mem _ (List.mem_cons_of_mem _ List.mem_cons_self)
    have hcell := InsertCall.cell_of_mem hcallNames hmemIndex
    simp only [hprimary] at hcell
    refine hcell.trans ?_
    rw [if_neg]
    rintro ⟨heq, -⟩
    exact absurd (Option.some.inj heq) (by decide)
  refine ⟨{ order := ⟨?runs, ?order⟩, mem := htable ▸ hmem, id := ?id,
            cell := ?cell },
          { primary := hprimary, names := hcallNames, id := ⟨_, hid⟩,
            typed := ?typed, join := ?join, apart := ?apart,
            idCell := hidCell,
            parentCell := ?parentCell, indexCell := hindexCell }⟩
  case runs => exact hcall ▸ childCall_runs h hparent hbind hindex hlength hbindable
  case order =>
    rw [hsql, hcallParent, hcallIndex, hcolumns, hobj, hvalues,
      parentValues_some hparent]
    simp [Scalar.sql, Function.comp_def]
  case id =>
    unfold DbRow.id
    change (call.table.primary.bind call.row.cell).getD .null = _
    rw [hprimary, Option.bind_some, hidCell]
    rfl
  case cell =>
    intro column hmemColumn
    rw [hcolumns] at hmemColumn
    have hzip : (column, column.valueIn obj) ∈
        call.table.fields.zip (call.values.map Scalar.sql) := by
      rw [hcallFields, hsql, hvalues]
      rw [List.zip_append (by cases isVec <;> cases index <;> simp_all)]
      refine List.mem_append_right _ ?_
      rw [← List.map_prod_left_eq_zip]
      exact List.mem_map.mpr ⟨column, hmemColumn, rfl⟩
    rw [InsertCall.cell_of_mem hcallNames hzip, hobj, if_neg]
    rintro ⟨heq, -⟩
    rw [hprimary] at heq
    exact (hcolumn column hmemColumn).1 (Option.some.inj heq)
  case typed =>
    rw [hcolumns, hobj]
    exact htyped
  case apart =>
    rw [hcolumns]
    exact fun column h => (hcolumn column h).2
  case join =>
    intro column hmemColumn
    rw [hcallFields] at hmemColumn
    simp only [List.mem_append, List.mem_cons, List.not_mem_nil, or_false]
      at hmemColumn
    rcases hmemColumn with ((rfl | rfl) | hmemIndex) | hmemColumn
    · refine .inr (.inr ⟨hunwrapped, by rw [htype]; decide,
        rowIds (getTableName path ctor) place, ?_⟩)
      rw [hfirst, hidCell, hid]
      rfl
    · exact .inr (.inl hsecond)
    · cases isVec with
      | false => exact absurd hmemIndex List.not_mem_nil
      | true =>
          obtain rfl := List.mem_singleton.mp hmemIndex
          obtain ⟨i, rfl⟩ := Option.isSome_iff_exists.mp hindex
          exact .inr (.inr ⟨rfl, by decide, i, hindexCell i hcallIndex⟩)
    · exact .inl (hcolumns ▸ hmemColumn)
  case parentCell =>
    intro p hp
    obtain rfl := Option.some.inj (hcallParent.symm.trans hp)
    have hcell := InsertCall.cell_of_mem hcallNames hmemParent
    simp only [hsecond, hprimary] at hcell
    rw [hcell, if_neg]
    rintro ⟨heq, -⟩
    exact absurd (Option.some.inj heq) (by decide)

end Child

end Sqlite
end Peerbit
