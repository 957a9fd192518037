import Peerbit.Indexer.RowInsert

/-!
# Reading a document

The row of a document is read together with the rows of its polymorphic fields,
whose columns have the name of their table as a prefix, and with the rows of its
vectors as JSON.  The items of a vector inside an item are read with a
statement of their own.
-/

namespace Peerbit
namespace Sqlite

open Lib.RowTrees

/-! ### Stored rows -/

structure DbRow where
  table : Table
  cells : List (SQLField × SqlValue)

abbrev Db : Type := List DbRow

def DbRow.cell (row : DbRow) (column : String) : Option SqlValue :=
  (row.cells.find? (fun cell => cell.1.name == column)).map Prod.snd

def DbRow.id (row : DbRow) : SqlValue :=
  (row.table.primary.bind row.cell).getD .null

/-- A statement is run with one value for each column. -/
def InsertCall.runs (call : InsertCall) : Bool :=
  call.values.length == call.table.fields.length &&
    call.values.all Scalar.bindable

/-- A primary key that is null is given by SQLite. -/
def InsertCall.row (call : InsertCall) : DbRow where
  table := call.table
  cells :=
    (call.table.fields.zip (call.values.map Scalar.sql)).map fun cell =>
      if some cell.1.name = call.table.primary ∧ cell.2 = .null then
        (cell.1, call.id.sql)
      else cell

/-- The rows that some inserts store. -/
def store (calls : List InsertCall) : Except RowError Db :=
  if calls.all InsertCall.runs then .ok (calls.map InsertCall.row)
  else .error .parameterCount

/-- `select * from table where __parent_id = ?` -/
def selectChildren (db : Db) (table : String) (parentId : SqlValue) : Db :=
  db.filter fun row =>
    row.table.name == table &&
      decide (row.cell PARENT_TABLE_ID = some parentId)

/-! ### Rows as JavaScript sees them -/

/-- A row of a select with its joined rows, or an object whose properties are
columns of one table. -/
inductive Row where
  | joined (row : DbRow)
  | element (properties : List (String × Scalar))

/-- A column with or without the name of its table. -/
structure RowKey where
  table : Option String
  column : String

def getTablePrefixedField (table : Table) (key : String) (skipPrefix : Bool) :
    RowKey where
  table := if skipPrefix then none else some table.name
  column := getInlineTableFieldName table.path.tail key

/-- `fromTablePrefixedValues[key]`.  Another table than the one of the row is
joined to it by the parent id. -/
def Row.get (db : Db) : Row → RowKey → Scalar
  | .joined row, { table := some table, column } =>
      let source :=
        if table = row.table.name then some row
        else (selectChildren db table row.id).head?
      ((source.bind (fun row => row.cell column)).map SqlValue.read).getD
        .undefined
  | .element properties, { table := none, column } =>
      (properties.lookup column).getD .undefined
  | _, _ => .undefined

/-- `json_object` of a row: 64 bit integers are texts and bytes are
hexadecimal. -/
def jsonValue (field : SQLField) (value : SqlValue) : Scalar :=
  if field.unwrappedType = some .u64 then
    match value with
    | .integer n => .string n.repr
    | _ => .null
  else if field.type = "BLOB" then
    match value with
    | .blob b => .string (String.ofList (hex b))
    | _ => .string ""
  else
    match value with
    | .integer n => .number n
    | .text s => .string s
    | _ => .null

def DbRow.jsonObject (row : DbRow) : List (String × Scalar) :=
  (row.cells.filter (fun cell => cell.1.name != PARENT_TABLE_ID)).map
    fun cell => (cell.1.name, jsonValue cell.1 cell.2)

/-- A row of a statement that selects from one table. -/
def DbRow.object (row : DbRow) : List (String × Scalar) :=
  row.cells.map fun cell => (cell.1.name, cell.2.read)

/-- The rows of a vector that come with a row. -/
def Row.array (db : Db) (table : String) :
    Row → Option (List (List (String × Scalar)))
  | .joined row =>
      some ((selectChildren db table row.id).map DbRow.jsonObject)
  | .element _ => none

/-- The row of a joined table, for the fields of its class. -/
def Row.descend (db : Db) (table : Table) : Row → Row
  | .joined row =>
      match selectChildren db table.name row.id with
      | child :: _ => .joined child
      | [] => .joined row
  | .element properties => .element properties

/-! ### Resolving -/

/-- A property of an item of a JSON array, with 64 bit integers and bytes
converted back. -/
def convertProperty (fields : List SQLField) (property : String × Scalar) :
    Except RowError (String × Scalar) :=
  match fields.find? (fun field => field.name == property.1) with
  | none => .ok property
  | some field =>
      let converted :=
        if field.unwrappedType = some .u64 then bigInt property.2
        else if field.type = "BLOB" then fromHexString property.2
        else .ok property.2
      match converted with
      | .ok value => .ok (property.1, value)
      | .error error => .error error

/-- The rows of a table of a vector. -/
def resolveArray (db : Db) (row : Row) (rootTable subTable : Table)
    (tablePrefixed : Bool) : Except RowError (List (List (String × Scalar))) :=
  match row.array db subTable.name with
  | some arr =>
      (arr.filter (fun item =>
        !((item.lookup (subTable.primary.getD "")).getD .undefined).isNull)).mapM
        fun item => item.mapM (convertProperty subTable.fields)
  | none =>
      let parentId := row.get db
        (getTablePrefixedField rootTable (rootTable.primary.getD "")
          (!tablePrefixed))
      .ok ((selectChildren db subTable.name parentId.sql).map DbRow.object)

/-- `resolvedArr[index] = value` -/
def setIndex (arr : List Value) (index : Scalar) (value : Value) : List Value :=
  match index with
  | .number n | .bigint n =>
      if n < 0 then arr
      else
        (arr ++ List.replicate (n.toNat + 1 - arr.length) Value.undefined).set
          n.toNat value
  | _ => arr

/-- The items that the rows of one table are. -/
def resolveRows (resolve : Row → Except RowError Value) :
    List (List (String × Scalar)) → List Value → Except RowError (List Value)
  | [], resolvedArr => .ok resolvedArr
  | element :: arr, resolvedArr =>
      match resolve (.element element) with
      | .error error => .error error
      | .ok value =>
          resolveRows resolve arr
            (setIndex resolvedArr
              ((element.lookup ARRAY_INDEX_COLUMN).getD .undefined) value)

/-- The items of a vector from the rows of its tables. -/
def resolveItems (db : Db) (row : Row) (rootTable : Table)
    (tablePrefixed : Bool)
    (resolve : Table → Row → Except RowError Value) :
    List Table → List Value → Except RowError Value
  | [], resolvedArr => .ok (.array resolvedArr)
  | subTable :: subTables, resolvedArr =>
      match resolveArray db row rootTable subTable tablePrefixed with
      | .error error => .error error
      | .ok arr =>
          match resolveRows (resolve subTable) arr resolvedArr with
          | .error error => .error error
          | .ok resolvedArr =>
              resolveItems db row rootTable tablePrefixed resolve subTables
                resolvedArr

section Resolve

variable (db : Db) (tables : List Table)

/-- `rootTable` is the table of the row, and `table` the one of the object. -/
structure ResolvePlace where
  rootTable : Table
  table : Table
  row : Row
  tablePrefixed : Bool

/-- The items of a vector are read without prefix. -/
def ResolvePlace.item (subTable : Table) (row : Row) : ResolvePlace where
  rootTable := subTable
  table := subTable
  row
  tablePrefixed := false

def ResolvePlace.column (place : ResolvePlace) (table : Table) (key : String) :
    Scalar :=
  place.row.get db (getTablePrefixedField table key (!place.tablePrefixed))

mutual

/-- A field that is not a vector. -/
def resolveValue (place : ResolvePlace) (owner : Option Nat) (key : String)
    (isOptional : Bool) : FieldType → Except RowError Value
  | .simple type =>
      let referencedField := place.rootTable.fields.find?
        (fun field => field.from_ == some { ctor := owner, key })
      let fieldValue :=
        match referencedField with
        | some field => place.column db place.rootTable field.name
        | none => .undefined
      match convertFromSQLType fieldValue type with
      | .ok value => .ok (.scalar value)
      | .error error => .error error
  | .struct (.mk id name fields) =>
      match (getTableFromField tables place.table
          (.mk key .plain (.struct (.mk id name fields)))).head? with
      | none => .error .subTableNotFound
      | some subTable =>
          let isNull := !(place.row.get db
            (getTablePrefixedField place.rootTable
              ((subTable.fields.getLast?.map SQLField.name).getD "")
              false)).truthy
          if subTable.inline && isOptional && isNull then .ok .undefined
          else
            let missing := subTable.primary.any fun primary =>
              (place.column db subTable primary).isNull
            if missing then .ok .undefined
            else
              match resolveFields
                  { place with
                    rootTable :=
                      if subTable.inline then place.rootTable else subTable
                    table := subTable } id fields with
              | .error error => .error error
              | .ok properties => .ok (.object name properties)
  | .poly name dependencies =>
      let subTables := getTableFromField tables place.table
        (.mk key .plain (.poly name dependencies))
      let subTable :=
        if 1 < subTables.length then
          subTables.find? fun table =>
            !(place.column db table (table.primary.getD "")).isNull
        else subTables.head?
      match subTable with
      | none => .error .subTableNotFound
      | some subTable =>
          let missing := subTable.primary.any fun primary =>
            (place.column db subTable primary).isNull
          if missing then .ok .undefined
          else
            resolveDependency
              { place with
                rootTable := subTable
                table := subTable
                row := place.row.descend db subTable } dependencies

/-- An object of the class of the table. -/
def resolveDependency (place : ResolvePlace) :
    List Ctor → Except RowError Value
  | [] => .error .classNameNotFound
  | .mk id name fields :: dependencies =>
      if name = place.table.ctor then
        match resolveFields place id fields with
        | .error error => .error error
        | .ok properties => .ok (.object name properties)
      else resolveDependency place dependencies

def resolveField (place : ResolvePlace) (owner : Option Nat) :
    Field → Except RowError Value
  | .mk key .plain type => resolveValue place owner key false type
  | .mk key .option type => resolveValue place owner key true type
  | .mk key .vec (.simple type) =>
      resolveItems db place.row place.rootTable place.tablePrefixed
        (fun subTable row =>
          resolveValue (.item subTable row) none FOREIGN_VALUE_PROPERTY false
            (.simple type))
        (getTableFromField tables place.table (.mk key .vec (.simple type))) []
  | .mk key .vec (.struct (.mk id name fields)) =>
      resolveItems db place.row place.rootTable place.tablePrefixed
        (fun subTable row =>
          match resolveFields (.item subTable row) id fields with
          | .error error => .error error
          | .ok properties => .ok (.object name properties))
        (getTableFromField tables place.table
          (.mk key .vec (.struct (.mk id name fields)))) []
  | .mk key .vec (.poly name dependencies) =>
      resolveItems db place.row place.rootTable place.tablePrefixed
        (fun subTable row =>
          resolveDependency (.item subTable row) dependencies)
        (getTableFromField tables place.table
          (.mk key .vec (.poly name dependencies))) []
  | .mk key .vecOption type =>
      resolveItems db place.row place.rootTable place.tablePrefixed
        (fun subTable row =>
          resolveValue (.item subTable row) none FOREIGN_VALUE_PROPERTY true
            type)
        (getTableFromField tables place.table (.mk key .vecOption type)) []

def resolveFields (place : ResolvePlace) (owner : Option Nat) :
    List Field → Except RowError (List (String × Value))
  | [] => .ok []
  | field :: fields =>
      match resolveField place owner field with
      | .error error => .error error
      | .ok value =>
          match resolveFields place owner fields with
          | .error error => .error error
          | .ok properties => .ok ((field.key, value) :: properties)

end

end Resolve

end Sqlite
end Peerbit
