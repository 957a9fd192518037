import Peerbit.Indexer.RowValues

/-!
# Tables of a document class

A class without dependencies is inlined: its columns are in the row that it is a
field of.  Vectors and polymorphic fields have tables of their own, whose rows
name the row that they belong to.

The schema of a class is a tree: the generator does not end on a class that is
part of itself.  It refuses `vec(vec(T))`, `option(vec(T))` and
`option(option(T))`, so a field type is a simple type or a class, which may be
optional, a vector, or a vector of options.
-/

namespace Peerbit
namespace Sqlite

/-- `T`, `option(T)`, `vec(T)` and `vec(option(T))`. -/
inductive Wrapper where
  | plain
  | option
  | vec
  | vecOption
deriving DecidableEq

mutual

inductive FieldType where
  | simple (type : SimpleType)
  /-- a class without dependencies -/
  | struct (ctor : Ctor)
  /-- a class with its dependencies; `name` is its own name when it has a
  schema -/
  | poly (name : Option String) (dependencies : List Ctor)

/-- `id` is the identity of the class, and `name` its `getNameOfClass`. -/
inductive Ctor where
  | mk (id : Option Nat) (name : String) (fields : List Field)

inductive Field where
  | mk (key : String) (wrapper : Wrapper) (type : FieldType)

end

def Ctor.id : Ctor → Option Nat
  | .mk id _ _ => id

def Ctor.name : Ctor → String
  | .mk _ name _ => name

def Ctor.fields : Ctor → List Field
  | .mk _ _ fields => fields

def Field.key : Field → String
  | .mk key _ _ => key

/-- A field object of a schema. -/
structure FieldRef where
  ctor : Option Nat
  key : String
deriving DecidableEq

structure SQLField where
  name : String
  key : String
  type : String
  isPrimary : Bool
  from_ : Option FieldRef
  unwrappedType : Option SimpleType
  path : List String
  describesExistenceOfAnother : Option String
deriving DecidableEq

/-- `primary` is none for `false`.  `references` is the table and the column of
the foreign key. -/
structure Table where
  name : String
  ctor : String
  parentPath : List String
  path : List String
  primary : Option String
  fields : List SQLField
  children : List Table
  inline : Bool
  referencedInArray : Bool
  isSimpleValue : Bool
  references : Option (String × String)

/-! ### Names -/

def CHILD_TABLE_ID : String := "__id"

def ARRAY_INDEX_COLUMN : String := "__index"

def PARENT_TABLE_ID : String := "__parent_id"

def FOREIGN_VALUE_PROPERTY : String := "value"

def WRAPPED_SIMPLE_VALUE_VARIANT : String := "wrapped"

/-- The name of the class that is made for values that are not objects. -/
def wrappedName : String := "v_wrapped"

def getInlineObjectExistColumnName : String := "_exist"

/-- The variant of a class: a text, a number, or the numbers of a class and of those
that it extends. -/
inductive Variant where
  | text (variant : String)
  | number (variant : Nat)
  | numbers (variant : List Nat)
deriving DecidableEq

def getNameOfVariant : Variant → String
  | .text variant => "v_" ++ variant
  | .number variant => "v_" ++ toString variant
  | .numbers variant => "v_[" ++ ",".intercalate (variant.map toString) ++ "]"

/-- The name of a class with its variant, if it has one. -/
def getNameOfClass (ctorName : String) (variant : Option Variant) : String :=
  match variant with
  | none => "class_" ++ ctorName
  | some variant => getNameOfVariant variant

/-- What replaces a character of a name: an underscore for every code unit, unless an
identifier of SQL can have it. -/
def identifierChars (c : Char) : List Char :=
  if c.isAlphanum || c == '_' then [c]
  else if c.toNat < 65536 then ['_']
  else ['_', '_']

def identifier (name : String) : String :=
  String.ofList (name.toList.flatMap identifierChars)

/-- Without the name that is kept on a class: the generator gives the name of one. -/
def getTableName (path : List String) (clazz : String) : String :=
  (if path.isEmpty then "" else "__".intercalate path ++ "__") ++ identifier clazz

/-- `getInlineTableFieldName` for a path whose last element is the key. -/
def inlineFieldName (path : List String) : String :=
  if 2 < path.length then "_".intercalate path.dropLast ++ "__" ++ path.getLastD ""
  else "__".intercalate path

/-- An empty key is as good as none. -/
def getInlineTableFieldName (path : List String) (key : String) : String :=
  if key.isEmpty then inlineFieldName path
  else if path.isEmpty then key
  else "_".intercalate path ++ "__" ++ key

/-! ### Columns -/

/-- The columns and the tables of a field. -/
structure SQLFields where
  fields : List SQLField
  dependencies : List Table

def SQLFields.append (a b : SQLFields) : SQLFields :=
  { fields := a.fields ++ b.fields
    dependencies := a.dependencies ++ b.dependencies }

/-- What `addJoinFields` adds to the tables of a field. -/
structure JoinFields where
  fields : List SQLField
  references : String × String

/-- The primary field is looked up among the columns that are there when a
table is generated. -/
def addJoinFields (tableName : String) (primary : String)
    (sqlFields : List SQLField) : JoinFields :=
  let parentPrimaryField := sqlFields.find? (fun field => field.name == primary)
  { fields :=
      [{ name := CHILD_TABLE_ID
         key := CHILD_TABLE_ID
         type := "INTEGER"
         isPrimary := true
         from_ := none
         unwrappedType := none
         path := [CHILD_TABLE_ID]
         describesExistenceOfAnother := none },
       { name := PARENT_TABLE_ID
         key := PARENT_TABLE_ID
         type := (parentPrimaryField.map SQLField.type).getD "INTEGER"
         isPrimary := false
         from_ := parentPrimaryField.bind SQLField.from_
         unwrappedType := parentPrimaryField.bind SQLField.unwrappedType
         path := [PARENT_TABLE_ID]
         describesExistenceOfAnother := none }]
    references :=
      (tableName, (parentPrimaryField.map SQLField.key).getD CHILD_TABLE_ID) }

def arrayIndexField : SQLField where
  name := ARRAY_INDEX_COLUMN
  key := ARRAY_INDEX_COLUMN
  type := "INTEGER"
  isPrimary := false
  from_ := none
  unwrappedType := none
  path := [ARRAY_INDEX_COLUMN]
  describesExistenceOfAnother := none

/-- The column of a simple field. -/
def simpleColumn (path : List String) (primary : Option String)
    (owner : Option Nat) (key : String) (type : SimpleType) : SQLField :=
  let keyString := getInlineTableFieldName path.tail key
  { name := keyString
    key
    type := toSQLType type
    isPrimary := decide (primary = some keyString)
    from_ := some { ctor := owner, key }
    unwrappedType := some type
    path := path.tail ++ [key]
    describesExistenceOfAnother := none }

/-- The column that tells whether an inlined object exists. -/
def existColumn (path : List String) : SQLField where
  name := getInlineTableFieldName path.tail getInlineObjectExistColumnName
  key := getInlineObjectExistColumnName
  type := "bool"
  isPrimary := false
  from_ := none
  unwrappedType := none
  path := path.tail ++ [getInlineObjectExistColumnName]
  describesExistenceOfAnother := path.getLast?

/-- A table whose rows belong to rows of another. -/
def childTable (path : List String) (join : JoinFields) (isVec : Bool)
    (isSimpleValue : Bool) (ctor : String) (body : SQLFields) : Table where
  name := getTableName path ctor
  ctor
  parentPath := path
  path := [getTableName path ctor]
  primary := some CHILD_TABLE_ID
  fields :=
    join.fields ++ (if isVec then [arrayIndexField] else []) ++ body.fields
  children := body.dependencies
  inline := false
  referencedInArray := isVec
  isSimpleValue
  references := some join.references

/-- The table of an inlined class. -/
def inlineTable (path : List String) (ctor : String) (isOptional : Bool)
    (body : SQLFields) : Table where
  name := getTableName path ctor
  ctor
  parentPath := path
  path
  primary := none
  fields := body.fields ++ (if isOptional then [existColumn path] else [])
  children := body.dependencies
  inline := true
  referencedInArray := false
  isSimpleValue := false
  references := none

mutual

/-- `handleField` -/
def handleField (path : List String) (primary : Option String)
    (join : JoinFields) (owner : Option Nat) (key : String)
    (isOptional : Bool) : FieldType → SQLFields
  | .simple type =>
      { fields := [simpleColumn path primary owner key type], dependencies := [] }
  | .struct (.mk id name fields) =>
      let table := inlineTable (path ++ [key]) name isOptional
        (inlineFields (path ++ [key]) join id isOptional fields)
      { fields := table.fields, dependencies := [table] }
  | .poly _ dependencies =>
      { fields := []
        dependencies := childTables (path ++ [key]) join false dependencies }

/-- The columns and tables of one field. -/
def getSQLField (path : List String) (primary : Option String)
    (join : JoinFields) (owner : Option Nat) (isOptional : Bool) :
    Field → SQLFields
  | .mk key .plain type =>
      handleField path primary join owner key isOptional type
  | .mk key .option type => handleField path primary join owner key true type
  | .mk key .vec (.simple type) =>
      let name := getTableName (path ++ [key]) wrappedName
      { fields := []
        dependencies :=
          [childTable (path ++ [key]) join true true wrappedName
            { fields :=
                [simpleColumn [name] (some CHILD_TABLE_ID) none
                  FOREIGN_VALUE_PROPERTY type]
              dependencies := [] }] }
  | .mk key .vec (.struct (.mk id name fields)) =>
      { fields := []
        dependencies :=
          [childTable (path ++ [key]) join true false name
            (rowFields (getTableName (path ++ [key]) name) CHILD_TABLE_ID id []
              fields)] }
  | .mk key .vec (.poly _ dependencies) =>
      { fields := []
        dependencies := childTables (path ++ [key]) join true dependencies }
  | .mk key .vecOption type =>
      let name := getTableName (path ++ [key]) wrappedName
      { fields := []
        dependencies :=
          [childTable (path ++ [key]) join true true wrappedName
            (handleField [name] (some CHILD_TABLE_ID)
              (addJoinFields name CHILD_TABLE_ID []) none FOREIGN_VALUE_PROPERTY
              true type)] }

/-- The fields of an inlined class.  The columns of the row are the ones before
its field. -/
def inlineFields (path : List String) (join : JoinFields)
    (owner : Option Nat) (isOptional : Bool) : List Field → SQLFields
  | [] => { fields := [], dependencies := [] }
  | field :: fields =>
      (getSQLField path none join owner isOptional field).append
        (inlineFields path join owner isOptional fields)

/-- The fields of a class whose objects have rows, after the columns
`sqlFields`. -/
def rowFields (tableName primary : String) (owner : Option Nat)
    (sqlFields : List SQLField) : List Field → SQLFields
  | [] => { fields := [], dependencies := [] }
  | field :: fields =>
      let first := getSQLField [tableName] (some primary)
        (addJoinFields tableName primary sqlFields) owner false field
      first.append
        (rowFields tableName primary owner (sqlFields ++ first.fields) fields)

/-- The tables of the dependencies of a class. -/
def childTables (path : List String) (join : JoinFields) (isVec : Bool) :
    List Ctor → List Table
  | [] => []
  | .mk id name fields :: dependencies =>
      childTable path join isVec false name
          (rowFields (getTableName path name) CHILD_TABLE_ID id [] fields) ::
        childTables path join isVec dependencies

end

/-! ### The tables of an index -/

/-- The table of a class of documents. -/
def rootTable (scope : List String) (primary : String) : Ctor → Table
  | .mk id name fields =>
      let tableName := getTableName scope name
      let body := rowFields tableName primary id [] fields
      { name := tableName
        ctor := name
        parentPath := scope
        path := [tableName]
        primary := some primary
        fields := body.fields
        children := body.dependencies
        inline := false
        referencedInArray := false
        isSimpleValue := false
        references := none }

mutual

/-- A table and the ones below it. -/
def Table.all : Table → List Table
  | table@(.mk _ _ _ _ _ _ children _ _ _ _) => table :: Table.allOf children

def Table.allOf : List Table → List Table
  | [] => []
  | table :: tables => table.all ++ Table.allOf tables

end

def getTable (tables : List Table) (name : String) : Option Table :=
  tables.find? (fun table => table.name == name)

/-- SQL does not tell names apart by case. -/
def foldCase (name : String) : List Char :=
  name.toList.map Char.toLower

/-- SQLite creates a table whose columns have different names. -/
def createsTable (table : Table) : Bool :=
  decide (table.fields.map (fun field => foldCase field.name)).Nodup

/-- SQLite prepares statements of a table whose foreign key refers to a primary
key. -/
def preparesTable (tables : List Table) (table : Table) : Bool :=
  match table.references with
  | none => true
  | some (parent, column) =>
      match getTable tables parent with
      | none => false
      | some parent =>
          parent.fields.any
            (fun field => field.isPrimary && field.name == column)

inductive StartError where
  | primaryKeyNotFound
  | duplicateColumn
  | foreignKeyMismatch
deriving DecidableEq

/-- The tables of the classes of documents, or why the index does not start.
Inlined tables are not created. -/
def start (scope : List String) (primary : String) (classes : List Ctor) :
    Except StartError (List Table) :=
  let roots := classes.map (rootTable scope primary)
  let tables := Table.allOf roots
  if !roots.all (fun root =>
      root.fields.any (fun field => field.name == primary)) then
    .error .primaryKeyNotFound
  else if !(tables.filter (fun table => !table.inline)).all createsTable then
    .error .duplicateColumn
  else if !(tables.filter (fun table => !table.inline)).all
      (preparesTable tables) then
    .error .foreignKeyMismatch
  else .ok tables

end Sqlite
end Peerbit
