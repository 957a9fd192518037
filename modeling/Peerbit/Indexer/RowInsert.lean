import Peerbit.Indexer.RowSchema
import Peerbit.Lib.RowTrees

/-!
# Inserting a document

An insert binds the values of the row of an object, and then inserts the rows of
its vectors and polymorphic fields with the id of this row.  An inlined object
adds its values to the ones of the object that it is a field of.
-/

namespace Peerbit
namespace Sqlite

open Lib.RowTrees

/-- A value of JavaScript. -/
inductive Value where
  | scalar (s : Scalar)
  | object (ctor : String) (properties : List (String × Value))
  | array (items : List Value)

def Value.undefined : Value := .scalar .undefined

/-- `obj[key]` -/
def Value.get : Value → String → Value
  | .object _ properties, key => (properties.lookup key).getD .undefined
  | _, _ => .undefined

def Value.isNull : Value → Bool
  | .scalar s => s.isNull
  | _ => false

/-- The value of a simple field. -/
def Value.toScalar : Value → Scalar
  | .scalar s => s
  | _ => .undefined

/-! ### Looking up tables -/

/-- A class, or the name of the class that is made for simple values. -/
def resolveTable (tables : List Table) (path : List String) (clazz : String) :
    Option Table :=
  (getTable tables (getTableName path clazz)).or
    (getTable tables (getTableName path wrappedName))

/-- The names of the classes that a field can hold. -/
def FieldType.clazzNames : FieldType → List String
  | .simple _ => [WRAPPED_SIMPLE_VALUE_VARIANT]
  | .struct ctor => [ctor.name]
  | .poly name dependencies => name.toList ++ dependencies.map Ctor.name

def Field.clazzNames : Field → List String
  | .mk _ .vecOption _ => [WRAPPED_SIMPLE_VALUE_VARIANT]
  | .mk _ _ type => type.clazzNames

def getTableFromField (tables : List Table) (parentTable : Table)
    (field : Field) : List Table :=
  field.clazzNames.filterMap
    (resolveTable tables (parentTable.path ++ [field.key]))

/-- The table of the class of an object, and for null the one of the field. -/
def getTableFromValue (tables : List Table) (parentTable : Table)
    (key clazz : String) (value : Value) : Except RowError Table :=
  let resolve (clazz : String) :=
    match resolveTable tables (parentTable.path ++ [key]) clazz with
    | some table => .ok table
    | none => .error .tableNotFound
  match value with
  | .object ctor _ => resolve ctor
  | .scalar s => if s.isNull then resolve clazz else .error .classNameNotFound
  | .array _ => .error .classNameNotFound

/-- The table of the values of a vector that are not objects. -/
def getWrappedTable (tables : List Table) (parentTable : Table)
    (key : String) : Except RowError Table :=
  match resolveTable tables (parentTable.path ++ [key])
      WRAPPED_SIMPLE_VALUE_VARIANT with
  | some table => .ok table
  | none => .error .tableNotFound

/-! ### Binding -/

/-- The arguments of a call of `insertFn`, and of the `insert` that makes it.
`id` is what it returns. -/
structure InsertCall where
  table : Table
  values : List Scalar
  obj : Value
  parentId : Option Scalar
  index : Option Nat
  id : Scalar

/-- What inserts the rows of a vector or a polymorphic field, given the id and
the place of the row that they belong to. -/
abbrev NestedCallback : Type :=
  Scalar → List (Nat × Nat) → Nat → Except RowError (List (Node InsertCall))

/-- The values of the fields of an object.  `handled` are the callbacks that go
to the `handleNestedCallback` of the insert, `nested` the ones that inlined
objects have pushed to its own callbacks. -/
structure Bound where
  values : List Scalar
  nested : List NestedCallback
  handled : List NestedCallback

def Bound.empty : Bound := { values := [], nested := [], handled := [] }

def Bound.append (a b : Bound) : Bound :=
  { values := a.values ++ b.values
    nested := a.nested ++ b.nested
    handled := a.handled ++ b.handled }

def parentValues (parentId : Option Scalar) (index : Option Nat) : List Scalar :=
  match parentId with
  | none => []
  | some parentId =>
      if parentId.isNull then []
      else
        [.undefined, parentId] ++
          index.toList.map (fun index => Scalar.number index)

/-- The ids that SQLite gives to the rows of a table. -/
abbrev RowIds : Type := String → List (Nat × Nat) → Int

/-- The primary key: `values[table.primaryIndex]`, and what the statement
returns when that is null or when the key is in an inlined object. -/
def insertFn (rowIds : RowIds) (table : Table) (values : List Scalar)
    (place : List (Nat × Nat)) : Scalar :=
  let primary := table.primary.bind fun primary =>
    ((table.fields.map SQLField.name).zip values).lookup primary
  match primary with
  | some preId =>
      if preId.isNull then .bigint (rowIds table.name place) else preId
  | none => .bigint (rowIds table.name place)

/-- `SimpleNested` -/
def simpleNested (value : Value) : Value :=
  .object wrappedName [(FOREIGN_VALUE_PROPERTY, value)]

/-- One insert for each item of an array, and for an object one without
index. -/
def handleNested (value : Value) (isVec optional : Bool)
    (handleElement :
      Value → Option Nat → List (Nat × Nat) → Except RowError (Node InsertCall))
    (place : List (Nat × Nat)) (position : Nat) :
    Except RowError (List (Node InsertCall)) :=
  match value with
  | .array items =>
      items.zipIdx.mapM fun item =>
        handleElement item.1 (some item.2) (place ++ [(position, item.2)])
  | value =>
      if isVec then .error .expectedArray
      else if value.isNull then
        if optional then .ok [] else .error .expectedObject
      else
        match handleElement value none (place ++ [(position, 0)]) with
        | .ok node => .ok [node]
        | .error error => .error error

/-- The end of an insert into a table that is not inlined. -/
def insertRow (rowIds : RowIds) (table : Table) (obj : Value)
    (parentId : Option Scalar) (index : Option Nat) (place : List (Nat × Nat))
    (bound : Bound) : Except RowError (Node InsertCall) :=
  let values := parentValues parentId index ++ bound.values
  let thisId := insertFn rowIds table values place
  match (bound.nested ++ bound.handled).zipIdx.mapM
      (fun callback => callback.1 thisId place callback.2) with
  | .ok children =>
      .ok (.node { table, values, obj, parentId, index, id := thisId }
        children.flatten)
  | .error error => .error error

section Insert

variable (rowIds : RowIds) (tables : List Table)

mutual

/-- A field that is not a vector. -/
def insertValue (table : Table) (obj : Value) (parentId : Option Scalar)
    (index : Option Nat) (key : String) (isOptional : Bool) :
    FieldType → Except RowError Bound
  | .simple type =>
      .ok { Bound.empty with
        values := [convertToSQLType (obj.get key).toScalar type] }
  | .struct (.mk _ name fields) =>
      let value := obj.get key
      match getTableFromValue tables table key name value with
      | .error error => .error error
      | .ok subTable =>
          if subTable.inline && value.isNull then
            -- the last column tells that the object does not exist
            .ok { Bound.empty with
              values :=
                (subTable.fields.map (fun _ => Scalar.null)).dropLast ++
                  [.number 0] }
          else
            match insertFields subTable value parentId index fields with
            | .error error => .error error
            | .ok bound =>
                if bound.nested.isEmpty then
                  .ok
                    { values :=
                        parentValues parentId index ++ bound.values ++
                          (if isOptional then [.number 1] else [])
                      nested := bound.handled
                      handled := [] }
                else .error .unexpected
  | .poly name dependencies =>
      .ok { Bound.empty with
        handled :=
          [fun id => handleNested (obj.get key) false isOptional
            fun item index place =>
            match getTableFromValue tables table key
                ((FieldType.poly name dependencies).clazzNames.headD "") item with
            | .error error => .error error
            | .ok subTable =>
                insertDependency subTable item id index place dependencies] }

/-- An object of one of the classes. -/
def insertDependency (subTable : Table) (item : Value) (parentId : Scalar)
    (index : Option Nat) (place : List (Nat × Nat)) :
    List Ctor → Except RowError (Node InsertCall)
  | [] => .error .classNameNotFound
  | .mk _ name fields :: dependencies =>
      if name = subTable.ctor then
        match insertFields subTable item (some parentId) index fields with
        | .error error => .error error
        | .ok bound =>
            insertRow rowIds subTable item (some parentId) index place bound
      else insertDependency subTable item parentId index place dependencies

def insertField (table : Table) (obj : Value) (parentId : Option Scalar)
    (index : Option Nat) : Field → Except RowError Bound
  | .mk key .plain type => insertValue table obj parentId index key false type
  | .mk key .option type => insertValue table obj parentId index key true type
  | .mk key .vec (.simple type) =>
      .ok { Bound.empty with
        handled :=
          [fun id => handleNested (obj.get key) true false
            fun item index place =>
            match getWrappedTable tables table key with
            | .error error => .error error
            | .ok subTable =>
                match insertValue subTable (simpleNested item) (some id) index
                    FOREIGN_VALUE_PROPERTY false (.simple type) with
                | .error error => .error error
                | .ok bound =>
                    insertRow rowIds subTable (simpleNested item) (some id) index
                      place bound] }
  | .mk key .vec (.struct (.mk _ name fields)) =>
      .ok { Bound.empty with
        handled :=
          [fun id => handleNested (obj.get key) true false
            fun item index place =>
            match getTableFromValue tables table key name item with
            | .error error => .error error
            | .ok subTable =>
                match insertFields subTable item (some id) index fields with
                | .error error => .error error
                | .ok bound =>
                    insertRow rowIds subTable item (some id) index place bound] }
  | .mk key .vec (.poly name dependencies) =>
      .ok { Bound.empty with
        handled :=
          [fun id => handleNested (obj.get key) true false
            fun item index place =>
            match getTableFromValue tables table key
                ((FieldType.poly name dependencies).clazzNames.headD "") item with
            | .error error => .error error
            | .ok subTable =>
                insertDependency subTable item id index place dependencies] }
  | .mk key .vecOption type =>
      .ok { Bound.empty with
        handled :=
          [fun id => handleNested (obj.get key) true false
            fun item index place =>
            match getWrappedTable tables table key with
            | .error error => .error error
            | .ok subTable =>
                match insertValue subTable (simpleNested item) (some id) index
                    FOREIGN_VALUE_PROPERTY true type with
                | .error error => .error error
                | .ok bound =>
                    insertRow rowIds subTable (simpleNested item) (some id) index
                      place bound] }

def insertFields (table : Table) (obj : Value) (parentId : Option Scalar)
    (index : Option Nat) : List Field → Except RowError Bound
  | [] => .ok .empty
  | field :: fields =>
      match insertField table obj parentId index field with
      | .error error => .error error
      | .ok bound =>
          match insertFields table obj parentId index fields with
          | .error error => .error error
          | .ok rest => .ok (bound.append rest)

end

/-- `put`: the rows of a document, as a tree. -/
def put (scope : List String) (classOfValue : Ctor) (value : Value) :
    Except RowError (Node InsertCall) :=
  match resolveTable tables scope classOfValue.name with
  | none => .error .tableNotFound
  | some table =>
      match insertFields rowIds tables table value none none
          classOfValue.fields with
      | .error error => .error error
      | .ok bound => insertRow rowIds table value none none [] bound

end Insert

end Sqlite
end Peerbit
