import Mathlib.Data.List.Basic

/-!
# Queries and documents

A query is a tree of `And`, `Or` and `Not` over queries of one field each.
`And` and `Or` have at least one operand.  What a comparison asks of a scalar is
left open.
-/

namespace Peerbit
namespace Indexer

universe u v

inductive StateFieldQuery (L : Type u) where
  | isNull (key : List String)
  | compare (key : List String) (comparison : L)
deriving Repr, DecidableEq

def StateFieldQuery.key {L : Type u} : StateFieldQuery L → List String
  | .isNull key => key
  | .compare key _ => key

inductive Query (L : Type u) where
  | field (query : StateFieldQuery L)
  | and (query : Query L) (rest : List (Query L))
  | or (query : Query L) (rest : List (Query L))
  | not (query : Query L)

/-- A value of a document: null or undefined, a scalar, or an object. -/
inductive Value (S : Type v) where
  | null
  | scalar (value : S)
  | object (fields : String → Value S)

/-- A property of null is read. -/
structure TypeError where
  reading : String
deriving Repr, DecidableEq

section Values

variable {S : Type v}

/-- The value at the end of a key path. -/
def Value.resolve : Value S → List String → Except TypeError (Value S)
  | value, [] => .ok value
  | .null, key :: _ => .error ⟨key⟩
  | .scalar _, _ :: path => Value.null.resolve path
  | .object fields, key :: path => (fields key).resolve path

/-- What the row of a document holds in the column of a key path.  The columns
of an object that is null are null. -/
def Value.column : Value S → List String → Option S
  | .scalar value, [] => some value
  | .object fields, key :: path => (fields key).column path
  | _, _ => none

/-- The key path is of a scalar field: it leads to a scalar or to null, or there
is null on the way. -/
def Value.ScalarAt : Value S → List String → Prop
  | .null, _ => True
  | .scalar _, [] => True
  | .scalar _, _ :: _ => False
  | .object _, [] => False
  | .object fields, key :: path => (fields key).ScalarAt path

/-- There is null on the way, before the end. -/
def Value.cut : Value S → List String → Bool
  | _, [] => false
  | .null, _ :: _ => true
  | .scalar _, _ :: _ => false
  | .object fields, key :: path => (fields key).cut path

theorem Value.column_of_cut (doc : Value S) (key : List String)
    (hcut : doc.cut key = true) : doc.column key = none := by
  induction key generalizing doc with
  | nil => simp [Value.cut] at hcut
  | cons k path ih =>
      cases doc with
      | null => rfl
      | scalar value => rfl
      | object fields => exact ih (fields k) hcut

/-- A scalar field is null, or its path is cut, or it has a value. -/
theorem Value.resolve_cases (doc : Value S) (key : List String)
    (hscalar : doc.ScalarAt key) :
    (doc.cut key = true ∧ doc.column key = none ∧
        ∃ e, doc.resolve key = .error e) ∨
      (doc.cut key = false ∧ doc.column key = none ∧
        doc.resolve key = .ok .null) ∨
      ∃ value, doc.cut key = false ∧ doc.column key = some value ∧
        doc.resolve key = .ok (.scalar value) := by
  induction key generalizing doc with
  | nil =>
      cases doc with
      | null => exact .inr (.inl ⟨rfl, rfl, rfl⟩)
      | scalar value => exact .inr (.inr ⟨value, rfl, rfl, rfl⟩)
      | object fields => exact hscalar.elim
  | cons k path ih =>
      cases doc with
      | null => exact .inl ⟨rfl, rfl, _, rfl⟩
      | scalar value => exact hscalar.elim
      | object fields => exact ih (fields k) hscalar

end Values

section Trees

variable {L : Type u}

/-- Induction over trees, with a hypothesis for every operand. -/
theorem Query.operandInduction {motive : Query L → Prop}
    (field : ∀ f, motive (.field f))
    (and : ∀ query rest, (∀ q ∈ query :: rest, motive q) →
      motive (.and query rest))
    (or : ∀ query rest, (∀ q ∈ query :: rest, motive q) →
      motive (.or query rest))
    (not : ∀ query, motive query → motive (.not query)) (q : Query L) :
    motive q :=
  q.rec (motive_1 := motive) (motive_2 := fun qs => ∀ q ∈ qs, motive q)
    field
    (fun query rest hquery hrest =>
      and query rest (List.forall_mem_cons.mpr ⟨hquery, hrest⟩))
    (fun query rest hquery hrest =>
      or query rest (List.forall_mem_cons.mpr ⟨hquery, hrest⟩))
    not
    (fun _ hq => nomatch hq)
    (fun _ _ hquery hrest => List.forall_mem_cons.mpr ⟨hquery, hrest⟩)

/-- A query of one field occurs in a tree. -/
inductive Query.HasField (f : StateFieldQuery L) : Query L → Prop
  | field : HasField f (.field f)
  | and {query : Query L} {rest : List (Query L)} {q : Query L}
      (hmem : q ∈ query :: rest) (hfield : HasField f q) :
      HasField f (.and query rest)
  | or {query : Query L} {rest : List (Query L)} {q : Query L}
      (hmem : q ∈ query :: rest) (hfield : HasField f q) :
      HasField f (.or query rest)
  | not {query : Query L} (hfield : HasField f query) : HasField f (.not query)

/-- One tree is another with the operands of `And` and `Or` in other orders. -/
inductive Query.Reordered : Query L → Query L → Prop
  | refl (q : Query L) : Reordered q q
  | trans {q r s : Query L} (hqr : Reordered q r) (hrs : Reordered r s) :
      Reordered q s
  | and {query query' : Query L} {rest rest' : List (Query L)}
      (hperm : (query :: rest).Perm (query' :: rest')) :
      Reordered (.and query rest) (.and query' rest')
  | or {query query' : Query L} {rest rest' : List (Query L)}
      (hperm : (query :: rest).Perm (query' :: rest')) :
      Reordered (.or query rest) (.or query' rest')
  | andOperand {query query' : Query L} {rest : List (Query L)}
      (hquery : Reordered query query') :
      Reordered (.and query rest) (.and query' rest)
  | orOperand {query query' : Query L} {rest : List (Query L)}
      (hquery : Reordered query query') :
      Reordered (.or query rest) (.or query' rest)
  | not {query query' : Query L} (hquery : Reordered query query') :
      Reordered (.not query) (.not query')

/-- The key paths of a tree are of scalar fields. -/
def Query.OnScalars {S : Type v} (doc : Value S) (q : Query L) : Prop :=
  ∀ f, q.HasField f → doc.ScalarAt f.key

end Trees

end Indexer
end Peerbit
