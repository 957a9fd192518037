import Peerbit.Indexer.RowResolve

/-!
# Round trips of rows

A document makes a round trip when the rows that its insert binds have one value
for each column, in the order of the columns, and what is resolved from these
rows is the document.

The round trip fails in these places, which `Kept` leaves out.

* An inlined object that is in an optional one has an existence column, also
  when it is not optional itself, and only an optional object binds a value for
  it.
* An inlined object in a row that belongs to another binds the parent id again.
* An inlined object in an inlined object hands the callbacks of its vectors and
  polymorphic fields to the insert of an inlined object, which throws.
* A field is read from the first column that comes from it, so that of two
  inlined objects of one class the second reads the columns of the first.
* A polymorphic field without value of a class with several dependencies throws.
* A polymorphic field in an item of a vector reads the columns of the item.
* In a JSON array a missing 64 bit integer throws, and missing bytes are read as
  an empty array.
-/

namespace Peerbit
namespace Sqlite

open Lib.RowTrees

/-! ### Instances -/

def Value.ctor : Value → Option String
  | .object ctor _ => some ctor
  | _ => none

/-- An object of a class has the fields of its schema. -/
def Value.IsObject (value : Value) (name : String) (fields : List Field) :
    Prop :=
  value = .object name (fields.map fun field => (field.key, value.get field.key))

def SimpleType.Holds : SimpleType → Scalar → Prop
  | .u8, s => ∃ n : Int, s = .number n ∧ 0 ≤ n ∧ n < 2 ^ 8
  | .u16, s => ∃ n : Int, s = .number n ∧ 0 ≤ n ∧ n < 2 ^ 16
  | .u32, s => ∃ n : Int, s = .number n ∧ 0 ≤ n ∧ n < 2 ^ 32
  | .u64, s => ∃ n : Int, s = .bigint n ∧ 0 ≤ n ∧ n < 2 ^ 64
  | .bool, s => ∃ b, s = .boolean b
  | .string, s => ∃ t, s = .string t
  | .bytes, s => ∃ b, s = .bytes b

mutual

def FieldType.Holds : FieldType → Value → Prop
  | .simple type, value => ∃ s, value = .scalar s ∧ type.Holds s
  | .struct (.mk _ name fields), value =>
      value.IsObject name fields ∧ FieldsHold fields value
  | .poly _ dependencies, value => DependencyHolds dependencies value

/-- An object of one of the classes. -/
def DependencyHolds : List Ctor → Value → Prop
  | [], _ => False
  | .mk _ name fields :: dependencies, value =>
      if value.ctor = some name then
        value.IsObject name fields ∧ FieldsHold fields value
      else DependencyHolds dependencies value

def Field.Holds : Field → Value → Prop
  | .mk _ .plain type, value => type.Holds value
  | .mk _ .option type, value => value = .undefined ∨ type.Holds value
  | .mk _ .vec type, value =>
      ∃ items, value = .array items ∧ ∀ item ∈ items, type.Holds item
  | .mk _ .vecOption type, value =>
      ∃ items, value = .array items ∧
        ∀ item ∈ items, item = .undefined ∨ type.Holds item

def FieldsHold : List Field → Value → Prop
  | [], _ => True
  | field :: fields, obj =>
      field.Holds (obj.get field.key) ∧ FieldsHold fields obj

end

/-- An instance of a class. -/
def Ctor.Holds (ctor : Ctor) (value : Value) : Prop :=
  value.IsObject ctor.name ctor.fields ∧ FieldsHold ctor.fields value

/-! ### The values of columns -/

/-- The value at a path of keys. -/
def Value.at (value : Value) (path : List String) : Value :=
  path.foldl Value.get value

/-- What a column of the row of an object is for. -/
def SQLField.valueIn (column : SQLField) (obj : Value) : SqlValue :=
  match column.describesExistenceOfAnother with
  | some _ =>
      if (obj.at column.path.dropLast.dropLast).isNull then .null
      else if (obj.at column.path.dropLast).isNull then .integer 0
      else .integer 1
  | none =>
      match column.unwrappedType with
      | some type => (convertToSQLType (obj.at column.path).toScalar type).sql
      | none => .null

/-- The columns before the ones of the object. -/
def Table.joinCount (table : Table) : Nat :=
  (if table.references.isSome then 2 else 0) +
    if table.referencedInArray then 1 else 0

/-- The columns of the object of a row. -/
def Table.columns (table : Table) : List SQLField :=
  table.fields.drop table.joinCount

/-- One value for each column, in the order of the columns. -/
def InsertCall.InColumnOrder (call : InsertCall) : Prop :=
  call.runs = true ∧
    call.values.map Scalar.sql =
      (parentValues call.parentId call.index).map Scalar.sql ++
        call.table.columns.map (fun column => column.valueIn call.obj)

/-- How a row is read: the row of the document, a row that is joined to it, a
JSON object, or a row of a statement of its own. -/
inductive RowKind where
  | document
  | joined
  | json
  | selected
deriving DecidableEq

def RowKind.prefixed : RowKind → Bool
  | .document | .joined => true
  | .json | .selected => false

/-- The rows of the vectors of a row. -/
def RowKind.item (kind : RowKind) : RowKind :=
  if kind.prefixed then .json else .selected

/-- Where a field is: in the row of `obj`, and in an object whose table is
`table`, which is inlined `depth` times.  `isOptional` tells that its class was
generated for an optional field. -/
structure Place where
  row : Table
  obj : Value
  table : Table
  kind : RowKind
  depth : Nat
  isOptional : Bool

def Place.ofRow (table : Table) (obj : Value) (kind : RowKind) : Place where
  row := table
  obj
  table
  kind
  depth := 0
  isOptional := false

/-- The first column that comes from a field holds its value. -/
def Place.ReadsBack (place : Place) (owner : Option Nat) (key : String)
    (type : SimpleType) (value : Value) : Prop :=
  ∃ column ∈ place.row.columns,
    place.row.fields.find?
        (fun field => field.from_ == some { ctor := owner, key }) =
      some column ∧
    column.describesExistenceOfAnother = none ∧
    column.unwrappedType = some type ∧ place.obj.at column.path = value

/-- A JSON object has its 64 bit integers and its bytes. -/
def JsonComplete (table : Table) (obj : Value) (kind : RowKind) : Prop :=
  kind = .json → ∀ column ∈ table.columns,
    column.unwrappedType = some .u64 ∨ column.type = "BLOB" →
      column.valueIn obj ≠ .null

def Field.nested : Field → Bool
  | .mk _ .vec _ | .mk _ .vecOption _ => true
  | .mk _ _ (.poly _ _) => true
  | _ => false

section Kept

variable (tables : List Table)

/-- The tables that are found for a polymorphic field are the ones of the
dependencies. -/
def FindsDependencies (path : List String) (name : Option String)
    (dependencies : List Ctor) : Prop :=
  ∀ clazz ∈ name, ∀ table, resolveTable tables path clazz = some table →
    ∃ dependency ∈ dependencies,
      resolveTable tables path dependency.name = some table

/-- No table has the name that a vector of simple values looks up first. -/
def FindsWrapped (path : List String) : Prop :=
  getTable tables (getTableName path WRAPPED_SIMPLE_VALUE_VARIANT) = none

mutual

def FieldType.Kept (place : Place) (owner : Option Nat) (key : String)
    (isOptional : Bool) : FieldType → Value → Prop
  | .simple type, value => place.ReadsBack owner key type value
  | .struct (.mk id name fields), value =>
      value.isNull = false →
        place.kind = .document ∧
        (place.isOptional = true → isOptional = true) ∧
        (1 ≤ place.depth → ∀ field ∈ fields, field.nested = false) ∧
        ∀ table ∈ resolveTable tables (place.table.path ++ [key]) name,
          FieldsKept
            { place with
              table
              depth := place.depth + 1
              isOptional := isOptional || place.isOptional } id fields value
  | .poly name dependencies, value =>
      place.kind.prefixed = true ∧
      FindsDependencies tables (place.table.path ++ [key]) name dependencies ∧
      (value.isNull = true →
        (getTableFromField tables place.table
          (.mk key .plain (.poly name dependencies))).length = 1) ∧
      (value.isNull = false →
        DependencyKept (place.table.path ++ [key]) .joined dependencies value)

/-- The row of an object of one of the classes. -/
def DependencyKept (path : List String) (kind : RowKind) :
    List Ctor → Value → Prop
  | [], _ => True
  | .mk id name fields :: dependencies, value =>
      if value.ctor = some name then
        ∀ table ∈ resolveTable tables path name,
          JsonComplete table value kind ∧
            FieldsKept (.ofRow table value kind) id fields value
      else DependencyKept path kind dependencies value

def Field.Kept (place : Place) (owner : Option Nat) : Field → Value → Prop
  | .mk key .plain type, value => type.Kept place owner key false value
  | .mk key .option type, value => type.Kept place owner key true value
  | .mk key .vec (.simple type), value =>
      FindsWrapped tables (place.table.path ++ [key]) ∧
      ∀ items, value = .array items → ∀ item ∈ items,
        ∀ table ∈ resolveTable tables (place.table.path ++ [key])
            WRAPPED_SIMPLE_VALUE_VARIANT,
          JsonComplete table (simpleNested item) place.kind.item ∧
            FieldType.Kept
              (.ofRow table (simpleNested item) place.kind.item) none
              FOREIGN_VALUE_PROPERTY false (.simple type) item
  | .mk key .vec (.struct (.mk id name fields)), value =>
      ∀ items, value = .array items → ∀ item ∈ items,
        ∀ table ∈ resolveTable tables (place.table.path ++ [key]) name,
          JsonComplete table item place.kind.item ∧
            FieldsKept (.ofRow table item place.kind.item) id fields item
  | .mk key .vec (.poly name dependencies), value =>
      FindsDependencies tables (place.table.path ++ [key]) name dependencies ∧
      ∀ items, value = .array items → ∀ item ∈ items,
        DependencyKept (place.table.path ++ [key]) place.kind.item dependencies
          item
  | .mk key .vecOption type, value =>
      FindsWrapped tables (place.table.path ++ [key]) ∧
      ∀ items, value = .array items → ∀ item ∈ items,
        ∀ table ∈ resolveTable tables (place.table.path ++ [key])
            WRAPPED_SIMPLE_VALUE_VARIANT,
          JsonComplete table (simpleNested item) place.kind.item ∧
            type.Kept (.ofRow table (simpleNested item) place.kind.item) none
              FOREIGN_VALUE_PROPERTY true item

def FieldsKept (place : Place) (owner : Option Nat) :
    List Field → Value → Prop
  | [], _ => True
  | field :: fields, obj =>
      field.Kept place owner (obj.get field.key) ∧
        FieldsKept place owner fields obj

end

end Kept

/-- Tables are found by their names, and SQLite creates each of them. -/
structure NamesApart (tables : List Table) : Prop where
  found : (tables.map Table.name).Nodup
  created : ((tables.filter (fun table => !table.inline)).map
    (fun table => foldCase table.name)).Nodup

/-- A document that has an id, and whose fields avoid the places where the round
trip fails. -/
structure Kept (scope : List String) (primary : String) (tables : List Table)
    (ctor : Ctor) (obj : Value) : Prop where
  apart : NamesApart tables
  hasId : ∃ column ∈ (rootTable scope primary ctor).columns,
    column.name = primary ∧ column.valueIn obj ≠ .null
  fields : FieldsKept tables
    (.ofRow (rootTable scope primary ctor) obj .document) ctor.id ctor.fields obj

end Sqlite
end Peerbit
