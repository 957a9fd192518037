import Peerbit.Indexer.RowColumns

/-!
# Columns of fields

What is generated for the fields of an object, and the values that its columns
have when the object does not exist.
-/

namespace Peerbit
namespace Sqlite

/-! ### The columns of fields -/

def SQLFields.concat (outs : List SQLFields) : SQLFields where
  fields := outs.flatMap SQLFields.fields
  dependencies := outs.flatMap SQLFields.dependencies

/-- What is generated for each of some fields. -/
abbrev Outs (path : List String) (owner : Option Nat) (isOptional : Bool) :
    List Field → List SQLFields → Prop :=
  List.Forall₂ fun field out => ∃ primary join, JoinFields.Parent join ∧
    out = getSQLField path primary join owner isOptional field

theorem inlineFields_outs (path : List String) {join : JoinFields}
    (h : join.Parent) (owner : Option Nat) (isOptional : Bool)
    (fields : List Field) :
    ∃ outs, Outs path owner isOptional fields outs ∧
      inlineFields path join owner isOptional fields = .concat outs := by
  induction fields with
  | nil => exact ⟨[], .nil, rfl⟩
  | cons field fields ih =>
      obtain ⟨outs, houts, heq⟩ := ih
      refine ⟨_ :: outs, .cons ⟨none, join, h, rfl⟩ houts, ?_⟩
      unfold inlineFields
      rw [heq]
      rfl

theorem rowFields_outs (tableName primary : String) (owner : Option Nat)
    (sqlFields : List SQLField) (fields : List Field) :
    ∃ outs, Outs [tableName] owner false fields outs ∧
      rowFields tableName primary owner sqlFields fields = .concat outs := by
  induction fields generalizing sqlFields with
  | nil => exact ⟨[], .nil, rfl⟩
  | cons field fields ih =>
      obtain ⟨outs, houts, heq⟩ := ih (sqlFields ++
        (getSQLField [tableName] (some primary)
          (addJoinFields tableName primary sqlFields) owner false field).fields)
      refine ⟨_ :: outs, .cons ⟨some primary, _, addJoinFields_parent tableName
        primary sqlFields, rfl⟩ houts, ?_⟩
      unfold rowFields
      simp only [heq]
      rfl

/-! ### Values of columns -/

theorem Value.at_append (value : Value) (path : List String) (key : String) :
    value.at (path ++ [key]) = (value.at path).get key := by
  simp [Value.at]

theorem Value.get_of_isNull {value : Value} (h : value.isNull = true)
    (key : String) : value.get key = .undefined := by
  cases value with
  | scalar s => rfl
  | object ctor properties => cases h
  | array items => rfl

theorem tail_append {path : List String} {name : String}
    (h : path.head? = some name) (key : String) :
    (path ++ [key]).tail = path.tail ++ [key] := by
  cases path with
  | nil => cases h
  | cons first path => rfl

theorem head?_append {path : List String} {name : String}
    (h : path.head? = some name) (key : String) :
    (path ++ [key]).head? = some name := by
  cases path with
  | nil => cases h
  | cons first path => exact h

theorem valueIn_simpleColumn (path : List String) (primary : Option String)
    (owner : Option Nat) (key : String) (type : SimpleType) (obj : Value) :
    (simpleColumn path primary owner key type).valueIn obj =
      (convertToSQLType ((obj.at path.tail).get key).toScalar type).sql := by
  unfold SQLField.valueIn simpleColumn
  simp only [Value.at_append]

theorem valueIn_existColumn {path : List String} {name : String}
    (h : path.head? = some name) (key : String) (obj : Value) :
    (existColumn (path ++ [key])).valueIn obj =
      if (obj.at path.tail).isNull then .null
      else if ((obj.at path.tail).get key).isNull then .integer 0
      else .integer 1 := by
  unfold SQLField.valueIn existColumn
  simp only [tail_append h, List.getLast?_append, List.getLast?_singleton,
    Option.some_or, List.dropLast_concat, Value.at_append]

mutual

/-- The columns of a field of an object that does not exist are null. -/
theorem handleField_null {path : List String} {name : String}
    (hpath : path.head? = some name) (primary : Option String)
    (join : JoinFields) (owner : Option Nat) (key : String) (isOptional : Bool)
    {obj : Value} (hnull : (obj.at path.tail).isNull = true) :
    (type : FieldType) → ∀ column ∈
      (handleField path primary join owner key isOptional type).fields,
      column.valueIn obj = .null
  | .simple type, column, h => by
      obtain rfl := List.mem_singleton.mp h
      rw [valueIn_simpleColumn, Value.get_of_isNull hnull]
      rfl
  | .struct (.mk id name' fields), column, h => by
      have hinner : (obj.at (path ++ [key]).tail).isNull = true := by
        rw [tail_append hpath, Value.at_append, Value.get_of_isNull hnull]
        rfl
      rcases List.mem_append.mp h with h | h
      · exact inlineFields_null (head?_append hpath key) join id isOptional
          hinner fields column h
      · cases isOptional with
        | false => exact absurd h List.not_mem_nil
        | true =>
            obtain rfl := List.mem_singleton.mp h
            rw [valueIn_existColumn hpath, if_pos hnull]
  | .poly _ _, column, h => absurd h List.not_mem_nil

theorem getSQLField_null {path : List String} {name : String}
    (hpath : path.head? = some name) (primary : Option String)
    (join : JoinFields) (owner : Option Nat) (isOptional : Bool) {obj : Value}
    (hnull : (obj.at path.tail).isNull = true) :
    (field : Field) → ∀ column ∈
      (getSQLField path primary join owner isOptional field).fields,
      column.valueIn obj = .null
  | .mk key .plain type, column, h =>
      handleField_null hpath primary join owner key isOptional hnull type column
        h
  | .mk key .option type, column, h =>
      handleField_null hpath primary join owner key true hnull type column h
  | .mk _ .vec (.simple _), _, h => absurd h List.not_mem_nil
  | .mk _ .vec (.struct (.mk _ _ _)), _, h => absurd h List.not_mem_nil
  | .mk _ .vec (.poly _ _), _, h => absurd h List.not_mem_nil
  | .mk _ .vecOption _, _, h => absurd h List.not_mem_nil

theorem inlineFields_null {path : List String} {name : String}
    (hpath : path.head? = some name) (join : JoinFields) (owner : Option Nat)
    (isOptional : Bool) {obj : Value}
    (hnull : (obj.at path.tail).isNull = true) :
    (fields : List Field) → ∀ column ∈
      (inlineFields path join owner isOptional fields).fields,
      column.valueIn obj = .null
  | [], column, h => absurd h List.not_mem_nil
  | field :: fields, column, h => by
      rcases List.mem_append.mp h with h | h
      · exact getSQLField_null hpath none join owner isOptional hnull field
          column h
      · exact inlineFields_null hpath join owner isOptional hnull fields column h

end

end Sqlite
end Peerbit
