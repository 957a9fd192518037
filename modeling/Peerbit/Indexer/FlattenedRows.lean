import Peerbit.Indexer.JoinedRows

/-!
# Rows of a flattened query

A query with an `Or` becomes several statements.  A document satisfies the query
exactly when it satisfies one of them (`exists_part_of_matches`, `matches_of_part`), and
when it satisfies the query with one choice of rows only, it satisfies each of them with
one at most (`oneChoice_part`).
-/

namespace Peerbit
namespace Indexer

open Sqlite Lib.LeftJoins

section Built

variable {L : Type}

/-- `And`, `Or` and `Nested` have operands. -/
inductive QueryTree.Built : QueryTree (QueryLeaf L) → Prop
  | state (query : StateFieldQuery L) : Built (.field (.state query))
  | nested {path : List String} {queries : List (QueryTree (QueryLeaf L))}
      (hne : queries ≠ []) (hbuilt : ∀ q ∈ queries, Built q) :
      Built (.field (.nested path queries))
  | and {queries : List (QueryTree (QueryLeaf L))}
      (hne : queries ≠ []) (hbuilt : ∀ q ∈ queries, Built q) : Built (.and queries)
  | or {queries : List (QueryTree (QueryLeaf L))}
      (hne : queries ≠ []) (hbuilt : ∀ q ∈ queries, Built q) : Built (.or queries)
  | not {query : QueryTree (QueryLeaf L)} (hbuilt : Built query) : Built (.not query)

variable (L) in
/-- The conditions of a request, as their constructors build them. -/
structure Request where
  query : List (QueryTree (QueryLeaf L))
  built : ∀ q ∈ query, q.Built

def Request.props (request : Request L) : SearchProps (QueryLeaf L) Unit where
  query := request.query
  sort := none

theorem Request.conjunct_built (request : Request L) {q : QueryTree (QueryLeaf L)}
    (h : Conjunct request.query q) : q.Built := by
  induction h with
  | mem hmem => exact request.built _ hmem
  | operand _ hmem ih =>
      cases ih with
      | and _ hbuilt => exact hbuilt _ hmem

theorem Request.conjunct_ne (request : Request L) (q : QueryTree (QueryLeaf L))
    (h : Conjunct request.props.query q) : q ≠ .or [] := by
  rintro rfl
  have hbuilt := request.conjunct_built h
  cases hbuilt with
  | or hne _ => exact hne rfl

theorem flatten_ne_nil {M σ : Type} (props : SearchProps M σ) : flatten props ≠ [] := by
  rw [flatten]
  split
  · simp
  · dsimp only
    split
    · simp
    · rename_i hlength
      simp only [Ne, List.map_eq_nil_iff]
      rintro hnil
      simp [hnil] at hlength

end Built

/-! ### Statements of a flattened request -/

section Flattened

variable {L V : Type} {schemaKeys : Table → List String} {size : Nat}
variable {table : Table} {rows : String → List (Row V)}
variable {compares : L → SQLField → Option V → Option Bool}
variable {request : Request L} {st st' : Statement L} {p : SearchProps (QueryLeaf L) Unit}

/-- A part of the request converts when the request does. -/
theorem exists_converted_of_mem_flatten
    (h : convertRequestToQuery schemaKeys size table request.query = .ok st)
    (hp : p ∈ flatten request.props) :
    convertRequestToQuery schemaKeys size table p.query =
      .ok (statement schemaKeys size table p.query) := by
  refine convertRequestToQuery_iff.mpr ⟨fun leaf hleaf => ?_, rfl⟩
  exact (convertRequestToQuery_iff.mp h).1 leaf (flatten_leaves hp hleaf)

section Part

variable (h : convertRequestToQuery schemaKeys size table request.query = .ok st)
variable (hp : p ∈ flatten request.props)
variable (h' : convertRequestToQuery schemaKeys size table p.query = .ok st')
include h hp h'

theorem joins_of_mem_flatten {j : Join} (hj : j ∈ st'.joins) : j ∈ st.joins := by
  obtain rfl := (convertRequestToQuery_iff.mp h).2
  obtain rfl := (convertRequestToQuery_iff.mp h').2
  obtain ⟨leaf, hleaf, hj⟩ := mem_statement_joins.mp hj
  exact mem_statement_joins.mpr ⟨leaf, flatten_leaves hp hleaf, hj⟩

theorem leaves_of_mem_flatten {condition : Condition L}
    (hcondition : condition ∈ st'.where_.leaves) : condition ∈ st.where_.leaves := by
  obtain rfl := (convertRequestToQuery_iff.mp h).2
  obtain rfl := (convertRequestToQuery_iff.mp h').2
  obtain ⟨leaf, hleaf, hcondition⟩ := mem_statement_leaves.mp hcondition
  exact mem_statement_leaves.mpr ⟨leaf, flatten_leaves hp hleaf, hcondition⟩

/-- A part finds its names where the request finds them. -/
theorem prepares_of_mem_flatten (hprepares : st.prepares [scopeOf table] = true) :
    st'.prepares [scopeOf table] = true := by
  obtain ⟨hparents, hnames, hconditions⟩ := prepares_iff.mp hprepares
  refine prepares_iff.mpr ⟨fun j hj => hparents j (joins_of_mem_flatten h hp h' hj), ?_, ?_⟩
  · have hnodup : st'.joins.Nodup := by
      obtain rfl := (convertRequestToQuery_iff.mp h').2
      exact nodup_joinBuilder _
    refine hnodup.map_on ?_
    intro j hj k hk hname
    exact List.inj_on_of_nodup_map hnames (joins_of_mem_flatten h hp h' hj)
      (joins_of_mem_flatten h hp h' hk) hname
  · intro condition hcondition
    rcases hconditions condition (leaves_of_mem_flatten h hp h' hcondition) with
      hroot | ⟨name, -, has⟩
    · exact Or.inl hroot
    · rcases scoped_statement h' condition hcondition with hroot | hnested | ⟨j, hj, hquery⟩
      · rw [has] at hroot
        cases hroot
      · rw [has] at hnested
        cases hnested
      · exact Or.inr ⟨j.table, List.mem_map_of_mem hj, hquery⟩

end Part

/-- The request holds of joined rows exactly when one of its parts does. -/
theorem holds_flatten
    (h : convertRequestToQuery schemaKeys size table request.query = .ok st) (env : Env V) :
    st.holds compares env = true ↔
      ∃ p ∈ flatten request.props,
        (statement schemaKeys size table p.query).holds compares env = true := by
  obtain rfl := (convertRequestToQuery_iff.mp h).2
  have hflatten := flatten_holds (connects_eval (fun leaf =>
    (rootConverted schemaKeys size table leaf).where_.eval (Condition.eval compares env)))
    request.conjunct_ne
  simp only [Statement.holds, beq_iff_eq, statement_eval]
  exact hflatten

/-! A choice of rows for the request is one for its parts, and a choice for a part can be
extended to the request. -/

variable [DecidableEq V]

section Choices

variable (h : convertRequestToQuery schemaKeys size table request.query = .ok st)
variable (hp : p ∈ flatten request.props)
variable (h' : convertRequestToQuery schemaKeys size table p.query = .ok st')
variable (hprepares : st.prepares [scopeOf table] = true)
include h hp h'

theorem queryJoins_of_mem_flatten {j : LeftJoin Identifier (Row V)}
    (hj : j ∈ queryJoins rows st') : j ∈ queryJoins rows st := by
  obtain ⟨j, hmem, rfl⟩ := List.mem_map.mp hj
  exact List.mem_map_of_mem (joins_of_mem_flatten h hp h' hmem)

include hprepares

theorem holds_chosen_part (env : Env V) (choice : Identifier → Nat) :
    st'.holds compares (chosen choice (queryJoins rows st') env) =
      st'.holds compares (chosen choice (queryJoins rows st) env) := by
  have hprepares' := prepares_of_mem_flatten h hp h' hprepares
  refine holds_congr fun condition hcondition => ?_
  rcases (prepares_iff.mp hprepares').2.2 condition hcondition with
    ⟨name, -, has⟩ | ⟨name, hname, has⟩
  · rw [has, chosen_of_not_mem (table_not_mem_queryJoins _),
      chosen_of_not_mem (table_not_mem_queryJoins _)]
  · have hjoined : Identifier.query name ∈ (queryJoins rows st').map LeftJoin.as :=
      query_mem_queryJoins.mpr hname
    obtain ⟨j, hj, hjoin⟩ := List.mem_map.mp hjoined
    rw [has, ← hjoin,
      (steady_queryJoins hprepares' env).chosen_of_mem (nodup_queryJoins hprepares') hj,
      (steady_queryJoins hprepares env).chosen_of_mem (nodup_queryJoins hprepares)
        (queryJoins_of_mem_flatten h hp h' hj)]

/-- Other tables do not matter for a part. -/
theorem exists_satisfied_of_part
    {env : Env V} {choice : Identifier → Nat}
    (hsatisfied : Satisfied rows compares st' env choice) :
    ∃ choice', Satisfied rows compares st env choice' ∧
      ∀ j ∈ st'.joins, choice' (.query j.table) = choice (.query j.table) := by
  let choice' : Identifier → Nat := fun a =>
    if a ∈ (queryJoins rows st').map LeftJoin.as then choice a else 0
  have hagree : ∀ j ∈ queryJoins rows st', choice' j.as = choice j.as := fun j hj =>
    if_pos (List.mem_map_of_mem hj)
  refine ⟨choice', ⟨?_, ?_⟩, fun j hj => hagree _ (List.mem_map_of_mem hj)⟩
  · intro j hj
    by_cases hmem : j.as ∈ (queryJoins rows st').map LeftJoin.as
    · obtain ⟨k, hk, has⟩ := List.mem_map.mp hmem
      have hinj := List.inj_on_of_nodup_map (nodup_queryJoins hprepares)
        (queryJoins_of_mem_flatten h hp h' hk) hj has
      subst hinj
      rw [hagree k hk]
      exact hsatisfied.1 k hk
    · have hzero : choice' j.as = 0 := if_neg hmem
      rw [hzero]
      exact List.length_pos_of_ne_nil (j.candidates_ne_nil env)
  · rw [holds_flatten h]
    refine ⟨p, hp, ?_⟩
    obtain rfl := (convertRequestToQuery_iff.mp h').2
    rw [← holds_chosen_part h hp h' hprepares, chosen_congr hagree]
    exact hsatisfied.2

theorem oneChoice_part {row : Row V} (hone : OneChoice rows compares table st row) :
    OneChoice rows compares table st' row := by
  intro choice choice' hchoice hchoice' j hj
  obtain ⟨whole, hwhole, hagree⟩ := exists_satisfied_of_part h hp h' hprepares hchoice
  obtain ⟨whole', hwhole', hagree'⟩ := exists_satisfied_of_part h hp h' hprepares hchoice'
  rw [← hagree j hj, ← hagree' j hj]
  exact hone whole whole' hwhole hwhole' j (joins_of_mem_flatten h hp h' hj)

theorem matches_of_part {row : Row V} (hmatches : Matches rows compares table st' row) :
    Matches rows compares table st row := by
  obtain ⟨choice, hchoice⟩ := hmatches
  obtain ⟨whole, hwhole, -⟩ := exists_satisfied_of_part h hp h' hprepares hchoice
  exact ⟨whole, hwhole⟩

end Choices

theorem exists_part_of_matches
    (h : convertRequestToQuery schemaKeys size table request.query = .ok st)
    (hprepares : st.prepares [scopeOf table] = true) {row : Row V}
    (hmatches : Matches rows compares table st row) :
    ∃ p ∈ flatten request.props,
      Matches rows compares table (statement schemaKeys size table p.query) row := by
  obtain ⟨choice, hvalid, hholds⟩ := hmatches
  obtain ⟨p, hp, hpart⟩ := (holds_flatten h _).mp hholds
  have h' := exists_converted_of_mem_flatten h hp
  refine ⟨p, hp, choice, fun j hj => ?_, ?_⟩
  · exact hvalid j (queryJoins_of_mem_flatten h hp h' hj)
  · rw [holds_chosen_part h hp h' hprepares]
    exact hpart

end Flattened

end Indexer
end Peerbit
