import Peerbit.Indexer.Query
import Peerbit.Lib.Kleene

/-!
# Where clauses

A query becomes a condition on the columns of a row.  A comparison with a column
that is null is unknown.
-/

namespace Peerbit
namespace Indexer

universe u v

inductive Where (L : Type u) where
  | compare (column : List String) (comparison : L)
  | isNull (column : List String)
  | and (left right : Where L)
  | or (left right : Where L)
  | not (where_ : Where L)
deriving Repr, DecidableEq

section Conversion

variable {L : Type u}

def convertStateFieldQuery : StateFieldQuery L → Where L
  | .isNull key => .isNull key
  | .compare key comparison => .compare key comparison

mutual

def convertQueryToSQLQuery : Query L → Where L
  | .field f => convertStateFieldQuery f
  | .and query rest => whereAnd (convertQueryToSQLQuery query) rest
  | .or query rest => whereOr (convertQueryToSQLQuery query) rest
  | .not query => .not (convertQueryToSQLQuery query)

/-- `whereBuilder` after the other operands of an `And`. -/
def whereAnd (whereBuilder : Where L) : List (Query L) → Where L
  | [] => whereBuilder
  | query :: rest =>
      whereAnd (.and whereBuilder (convertQueryToSQLQuery query)) rest

/-- `whereBuilder` after the other operands of an `Or`. -/
def whereOr (whereBuilder : Where L) : List (Query L) → Where L
  | [] => whereBuilder
  | query :: rest =>
      whereOr (.or whereBuilder (convertQueryToSQLQuery query)) rest

end

/-- The condition of a search request; there is none if nothing is queried. -/
def convertSearchRequestToQuery : List (Query L) → Option (Where L)
  | [] => none
  | [query] => some (convertQueryToSQLQuery query)
  | query :: rest => some (convertQueryToSQLQuery (.and query rest))

end Conversion

/-! ### Evaluation -/

section Evaluation

variable {L : Type u} {S : Type v} (compares : L → S → Bool)
  (row : List String → Option S)

def Where.eval : Where L → Option Bool
  | .compare column comparison => (row column).map (compares comparison)
  | .isNull column => some (row column).isNone
  | .and left right => Lib.Kleene.and3 left.eval right.eval
  | .or left right => Lib.Kleene.or3 left.eval right.eval
  | .not where_ => Lib.Kleene.not3 where_.eval

/-- Whether the row of a document is selected. -/
def sqlSelects (query : List (Query L)) : Bool :=
  match convertSearchRequestToQuery query with
  | none => true
  | some where_ => where_.eval compares row == some true

theorem eval_whereAnd (whereBuilder : Where L) (rest : List (Query L)) :
    (whereAnd whereBuilder rest).eval compares row =
      Lib.Kleene.fold Lib.Kleene.and3 (whereBuilder.eval compares row)
        (rest.map (fun q => (convertQueryToSQLQuery q).eval compares row)) := by
  induction rest generalizing whereBuilder with
  | nil => simp only [whereAnd, List.map_nil, Lib.Kleene.fold, List.foldl_nil]
  | cons query rest ih =>
      rw [whereAnd, ih, List.map_cons]
      rfl

theorem eval_whereOr (whereBuilder : Where L) (rest : List (Query L)) :
    (whereOr whereBuilder rest).eval compares row =
      Lib.Kleene.fold Lib.Kleene.or3 (whereBuilder.eval compares row)
        (rest.map (fun q => (convertQueryToSQLQuery q).eval compares row)) := by
  induction rest generalizing whereBuilder with
  | nil => simp only [whereOr, List.map_nil, Lib.Kleene.fold, List.foldl_nil]
  | cons query rest ih =>
      rw [whereOr, ih, List.map_cons]
      rfl

theorem eval_and_eq_true (query : Query L) (rest : List (Query L)) :
    (convertQueryToSQLQuery (.and query rest)).eval compares row = some true ↔
      ∀ q ∈ query :: rest,
        (convertQueryToSQLQuery q).eval compares row = some true := by
  rw [convertQueryToSQLQuery, eval_whereAnd, Lib.Kleene.fold_and3_eq_true]
  simp

theorem eval_and_eq_false (query : Query L) (rest : List (Query L)) :
    (convertQueryToSQLQuery (.and query rest)).eval compares row = some false ↔
      ∃ q ∈ query :: rest,
        (convertQueryToSQLQuery q).eval compares row = some false := by
  rw [convertQueryToSQLQuery, eval_whereAnd, Lib.Kleene.fold_and3_eq_false]
  simp

theorem eval_or_eq_true (query : Query L) (rest : List (Query L)) :
    (convertQueryToSQLQuery (.or query rest)).eval compares row = some true ↔
      ∃ q ∈ query :: rest,
        (convertQueryToSQLQuery q).eval compares row = some true := by
  rw [convertQueryToSQLQuery, eval_whereOr, Lib.Kleene.fold_or3_eq_true]
  simp

theorem eval_or_eq_false (query : Query L) (rest : List (Query L)) :
    (convertQueryToSQLQuery (.or query rest)).eval compares row = some false ↔
      ∀ q ∈ query :: rest,
        (convertQueryToSQLQuery q).eval compares row = some false := by
  rw [convertQueryToSQLQuery, eval_whereOr, Lib.Kleene.fold_or3_eq_false]
  simp

/-- The query has a result that follows from the fields that are known. -/
inductive Query.Sure : Query L → Bool → Prop
  | field {f : StateFieldQuery L} {b : Bool}
      (hvalue : (convertStateFieldQuery f).eval compares row = some b) :
      Sure (.field f) b
  | allTrue {query : Query L} {rest : List (Query L)}
      (hall : ∀ q ∈ query :: rest, Sure q true) : Sure (.and query rest) true
  | someFalse {query q : Query L} {rest : List (Query L)}
      (hmem : q ∈ query :: rest) (hfalse : Sure q false) :
      Sure (.and query rest) false
  | someTrue {query q : Query L} {rest : List (Query L)}
      (hmem : q ∈ query :: rest) (htrue : Sure q true) :
      Sure (.or query rest) true
  | allFalse {query : Query L} {rest : List (Query L)}
      (hall : ∀ q ∈ query :: rest, Sure q false) : Sure (.or query rest) false
  | not {query : Query L} {b : Bool} (hquery : Sure query (!b)) :
      Sure (.not query) b

/-- A where clause gives what is sure of the query. -/
theorem eval_convert_eq_some (q : Query L) (b : Bool) :
    (convertQueryToSQLQuery q).eval compares row = some b ↔
      q.Sure compares row b := by
  induction q using Query.operandInduction generalizing b with
  | field f =>
      rw [convertQueryToSQLQuery]
      constructor
      · exact .field
      · rintro ⟨hvalue⟩
        exact hvalue
  | and query rest ih =>
      cases b with
      | true =>
          rw [eval_and_eq_true]
          constructor
          · intro hall
            exact .allTrue (fun q hq => (ih q hq true).mp (hall q hq))
          · intro hsure
            cases hsure with
            | allTrue hall => exact fun q hq => (ih q hq true).mpr (hall q hq)
      | false =>
          rw [eval_and_eq_false]
          constructor
          · rintro ⟨q, hq, hfalse⟩
            exact .someFalse hq ((ih q hq false).mp hfalse)
          · intro hsure
            cases hsure with
            | someFalse hq hfalse => exact ⟨_, hq, (ih _ hq false).mpr hfalse⟩
  | or query rest ih =>
      cases b with
      | true =>
          rw [eval_or_eq_true]
          constructor
          · rintro ⟨q, hq, htrue⟩
            exact .someTrue hq ((ih q hq true).mp htrue)
          · intro hsure
            cases hsure with
            | someTrue hq htrue => exact ⟨_, hq, (ih _ hq true).mpr htrue⟩
      | false =>
          rw [eval_or_eq_false]
          constructor
          · intro hall
            exact .allFalse (fun q hq => (ih q hq false).mp (hall q hq))
          · intro hsure
            cases hsure with
            | allFalse hall => exact fun q hq => (ih q hq false).mpr (hall q hq)
  | not query ih =>
      rw [convertQueryToSQLQuery, Where.eval, Lib.Kleene.not3_eq_some, ih]
      constructor
      · exact .not
      · intro hsure
        cases hsure with
        | not hquery => exact hquery

end Evaluation

end Indexer
end Peerbit
