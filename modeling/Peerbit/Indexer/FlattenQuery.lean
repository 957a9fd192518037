import Mathlib.Data.List.Basic
import Peerbit.Indexer.WhereClause

/-!
# Flattened queries

A search request whose conditions contain one `Or` becomes one statement for each of its
operands, and the statements are combined by a union.  `flattenQuery` takes the `And`s
among the conditions apart to find the `Or`; when it finds two, or a large one, it leaves
the request as it is.

Each row that the request selects is selected by one of the statements, and no other row
is (`flattened_equivalent`).  An `Or` without operands would be lost, but there is none:
its constructor refuses it.
-/

namespace Peerbit
namespace Indexer

universe u v

/-! ### Trees of queries -/

/-- A query as it may be read from bytes: its connectives have any number of operands. -/
inductive QueryTree (L : Type u) where
  | field (query : L)
  | and (queries : List (QueryTree L))
  | or (queries : List (QueryTree L))
  | not (query : QueryTree L)

section Trees

variable {L : Type u}

mutual

/-- Whether truth values of the leaves satisfy a query. -/
def QueryTree.satisfies (value : L → Bool) : QueryTree L → Bool
  | .field query => value query
  | .and queries => satisfiesAll value queries
  | .or queries => satisfiesAny value queries
  | .not query => !query.satisfies value

def satisfiesAll (value : L → Bool) : List (QueryTree L) → Bool
  | [] => true
  | query :: rest => query.satisfies value && satisfiesAll value rest

def satisfiesAny (value : L → Bool) : List (QueryTree L) → Bool
  | [] => false
  | query :: rest => query.satisfies value || satisfiesAny value rest

end

mutual

/-- What a query gives on a row, where a leaf may be unknown. -/
def QueryTree.eval (leaf : L → Option Bool) : QueryTree L → Option Bool
  | .field query => leaf query
  | .and queries => evalAnd leaf queries
  | .or queries => evalOr leaf queries
  | .not query => Lib.Kleene.not3 (query.eval leaf)

def evalAnd (leaf : L → Option Bool) : List (QueryTree L) → Option Bool
  | [] => some true
  | query :: rest => Lib.Kleene.and3 (query.eval leaf) (evalAnd leaf rest)

def evalOr (leaf : L → Option Bool) : List (QueryTree L) → Option Bool
  | [] => some false
  | query :: rest => Lib.Kleene.or3 (query.eval leaf) (evalOr leaf rest)

end

mutual

/-- What a query has at the ends of its connectives. -/
def QueryTree.leaves : QueryTree L → List L
  | .field query => [query]
  | .and queries => leavesOf queries
  | .or queries => leavesOf queries
  | .not query => query.leaves

def leavesOf : List (QueryTree L) → List L
  | [] => []
  | query :: rest => query.leaves ++ leavesOf rest

end

theorem leavesOf_eq_flatMap (queries : List (QueryTree L)) :
    leavesOf queries = queries.flatMap QueryTree.leaves := by
  induction queries with
  | nil => rfl
  | cons query rest ih => rw [leavesOf, ih, List.flatMap_cons]

/-- Induction over trees, with a hypothesis for every operand. -/
theorem QueryTree.operandInduction {motive : QueryTree L → Prop}
    (field : ∀ query, motive (.field query))
    (and : ∀ queries, (∀ q ∈ queries, motive q) → motive (.and queries))
    (or : ∀ queries, (∀ q ∈ queries, motive q) → motive (.or queries))
    (not : ∀ query, motive query → motive (.not query)) (q : QueryTree L) :
    motive q :=
  q.rec (motive_1 := motive) (motive_2 := fun queries => ∀ q ∈ queries, motive q)
    field and or not (fun _ hq => nomatch hq)
    (fun _ _ hquery hrest => List.forall_mem_cons.mpr ⟨hquery, hrest⟩)

/-- A property of queries for which `And` and `Or` mean what they say. -/
structure Connects (holds : QueryTree L → Prop) : Prop where
  and : ∀ queries, holds (.and queries) ↔ ∀ q ∈ queries, holds q
  or : ∀ queries, holds (.or queries) ↔ ∃ q ∈ queries, holds q

theorem connects_satisfies (value : L → Bool) :
    Connects (fun q : QueryTree L => q.satisfies value = true) where
  and := by
    intro queries
    rw [QueryTree.satisfies]
    induction queries with
    | nil => simp [satisfiesAll]
    | cons q rest ih => rw [satisfiesAll, Bool.and_eq_true, ih, List.forall_mem_cons]
  or := by
    intro queries
    rw [QueryTree.satisfies]
    induction queries with
    | nil => simp [satisfiesAny]
    | cons q rest ih => rw [satisfiesAny, Bool.or_eq_true, ih, List.exists_mem_cons_iff]

theorem connects_eval (leaf : L → Option Bool) :
    Connects (fun q : QueryTree L => q.eval leaf = some true) where
  and := by
    intro queries
    rw [QueryTree.eval]
    induction queries with
    | nil => simp [evalAnd]
    | cons q rest ih => rw [evalAnd, Lib.Kleene.and3_eq_true, ih, List.forall_mem_cons]
  or := by
    intro queries
    rw [QueryTree.eval]
    induction queries with
    | nil => simp [evalOr]
    | cons q rest ih => rw [evalOr, Lib.Kleene.or3_eq_true, ih, List.exists_mem_cons_iff]

end Trees

/-! ### The function -/

structure SearchProps (L : Type u) (σ : Type v) where
  query : List (QueryTree L)
  sort : Option σ

section Flatten

variable {L : Type u} {σ : Type v}

theorem sizeOf_append_lt (stack queries : List (QueryTree L)) :
    sizeOf (stack ++ queries) < sizeOf (QueryTree.and queries :: stack) := by
  have happend : sizeOf (stack ++ queries) + 1 = sizeOf stack + sizeOf queries := by
    induction stack with
    | nil =>
        rw [List.nil_append, List.nil.sizeOf_spec]
        omega
    | cons q stack ih =>
        rw [List.cons_append, List.cons.sizeOf_spec, List.cons.sizeOf_spec]
        omega
  rw [List.cons.sizeOf_spec, QueryTree.and.sizeOf_spec]
  omega

/-- The loop over the stack, which grows at its end.  It gives the operands of the `Or`,
if one is found, and the other conditions; there is no result when a second one is
found. -/
def collectOrs : List (QueryTree L) → Option (List (QueryTree L)) → List (QueryTree L) →
    Option (Option (List (QueryTree L)) × List (QueryTree L))
  | [], ors, ands => some (ors, ands)
  | .or queries :: stack, none, ands => collectOrs stack (some queries) ands
  -- multiple ORs are not supported
  | .or _ :: _, some _, _ => none
  | .and queries :: stack, ors, ands => collectOrs (stack ++ queries) ors ands
  | .field query :: stack, ors, ands => collectOrs stack ors (ands ++ [.field query])
  | .not query :: stack, ors, ands => collectOrs stack ors (ands ++ [.not query])
termination_by stack => sizeOf stack
decreasing_by
  all_goals first
    | exact sizeOf_append_lt _ _
    | simp only [List.cons.sizeOf_spec]; omega

def maxFlatten : Nat := 4

/-- `flattenQuery` for a request. -/
def flatten (props : SearchProps L σ) : List (SearchProps L σ) :=
  match collectOrs props.query none [] with
  | none => [props]
  | some (found, ands) =>
      let ors := found.getD []
      if ors.length = 0 ∨ ors.length ≥ maxFlatten then
        [{ query := if ors.length = 0 then ands else props.query, sort := props.sort }]
      else
        ors.map (fun or => { query := ands ++ [or], sort := props.sort })

/-- `flattenQuery`. -/
def flattenQuery : Option (SearchProps L σ) → List (Option (SearchProps L σ))
  | none => [none]
  | some props => (flatten props).map some

/-- A query of the list, or an operand of such a query that is an `And`. -/
inductive Conjunct (queries : List (QueryTree L)) : QueryTree L → Prop
  | mem {q : QueryTree L} (hmem : q ∈ queries) : Conjunct queries q
  | operand {q : QueryTree L} {operands : List (QueryTree L)}
      (hand : Conjunct queries (.and operands)) (hmem : q ∈ operands) : Conjunct queries q

/-- The request has this meaning: all its conditions hold. -/
def AllHold (holds : QueryTree L → Prop) (props : SearchProps L σ) : Prop :=
  ∀ q ∈ props.query, holds q

/-! ### What it keeps -/

variable {holds : QueryTree L → Prop} {stack ands ands' : List (QueryTree L)}
variable {ors found : Option (List (QueryTree L))}

/-- The loop keeps what the conditions mean together. -/
theorem collectOrs_holds (hconnects : Connects holds)
    (h : collectOrs stack ors ands = some (found, ands')) :
    ((∀ q ∈ stack, holds q) ∧ (∀ o, ors = some o → ∃ q ∈ o, holds q) ∧
        ∀ q ∈ ands, holds q) ↔
      (∀ o, found = some o → ∃ q ∈ o, holds q) ∧ ∀ q ∈ ands', holds q := by
  induction stack, ors, ands using collectOrs.induct with
  | case1 ors ands =>
      rw [collectOrs] at h
      obtain ⟨rfl, rfl⟩ := Prod.mk.inj (Option.some.inj h)
      simp
  | case2 queries stack ands ih =>
      rw [collectOrs] at h
      rw [← ih h, List.forall_mem_cons, hconnects.or]
      simp [and_assoc, and_left_comm]
  | case3 queries stack o ands =>
      rw [collectOrs] at h
      cases h
  | case4 queries stack ors ands ih =>
      rw [collectOrs] at h
      rw [← ih h, List.forall_mem_cons, hconnects.and, List.forall_mem_append]
      simp [and_assoc, and_left_comm]
  | case5 query stack ors ands ih =>
      rw [collectOrs] at h
      rw [← ih h, List.forall_mem_cons, List.forall_mem_append]
      simp [and_assoc, and_left_comm, and_comm]
  | case6 query stack ors ands ih =>
      rw [collectOrs] at h
      rw [← ih h, List.forall_mem_cons, List.forall_mem_append]
      simp [and_assoc, and_left_comm, and_comm]

theorem Conjunct.mono {queries queries' : List (QueryTree L)} {q : QueryTree L}
    (h : Conjunct queries q) (hsub : ∀ q ∈ queries, Conjunct queries' q) :
    Conjunct queries' q := by
  induction h with
  | mem hmem => exact hsub _ hmem
  | operand _ hmem ih => exact .operand ih hmem

theorem Conjunct.cons {q : QueryTree L} (h : Conjunct stack q) (first : QueryTree L) :
    Conjunct (first :: stack) q :=
  h.mono (fun _ hmem => .mem (List.mem_cons_of_mem _ hmem))

theorem Conjunct.of_append {q : QueryTree L} {queries : List (QueryTree L)}
    (h : Conjunct (stack ++ queries) q) : Conjunct (.and queries :: stack) q := by
  refine h.mono ?_
  intro q hq
  rcases List.mem_append.mp hq with hq | hq
  · exact .mem (List.mem_cons_of_mem _ hq)
  · exact .operand (.mem List.mem_cons_self) hq

/-- The `Or` that is found has operands. -/
theorem collectOrs_ne_nil (hconjuncts : ∀ q, Conjunct stack q → q ≠ .or [])
    (hors : ors ≠ some []) (h : collectOrs stack ors ands = some (found, ands')) :
    found ≠ some [] := by
  induction stack, ors, ands using collectOrs.induct with
  | case1 ors ands =>
      rw [collectOrs] at h
      obtain ⟨rfl, -⟩ := Prod.mk.inj (Option.some.inj h)
      exact hors
  | case2 queries stack ands ih =>
      rw [collectOrs] at h
      refine ih (fun q hq => hconjuncts q (hq.cons _)) ?_ h
      intro hnil
      exact hconjuncts (.or queries) (.mem List.mem_cons_self)
        (congrArg QueryTree.or (Option.some.inj hnil))
  | case3 queries stack o ands =>
      rw [collectOrs] at h
      cases h
  | case4 queries stack ors ands ih =>
      rw [collectOrs] at h
      exact ih (fun q hq => hconjuncts q hq.of_append) hors h
  | case5 query stack ors ands ih =>
      rw [collectOrs] at h
      exact ih (fun q hq => hconjuncts q (hq.cons _)) hors h
  | case6 query stack ors ands ih =>
      rw [collectOrs] at h
      exact ih (fun q hq => hconjuncts q (hq.cons _)) hors h

/-- All conditions hold exactly when those of one of the statements do. -/
theorem flatten_holds (hconnects : Connects holds) {props : SearchProps L σ}
    (hconjuncts : ∀ q, Conjunct props.query q → q ≠ .or []) :
    AllHold holds props ↔ ∃ p ∈ flatten props, AllHold holds p := by
  unfold flatten
  cases hcollect : collectOrs props.query none [] with
  | none => simp
  | some collected =>
      obtain ⟨found, ands⟩ := collected
      have hmeaning : AllHold holds props ↔
          (∀ o, found = some o → ∃ q ∈ o, holds q) ∧ ∀ q ∈ ands, holds q := by
        rw [← collectOrs_holds hconnects hcollect]
        simp [AllHold]
      have hnone : (none : Option (List (QueryTree L))) ≠ some [] := nofun
      have hfound := collectOrs_ne_nil hconjuncts hnone hcollect
      dsimp only
      cases found with
      | none =>
          rw [hmeaning]
          simp [AllHold]
      | some o =>
          have hlength : o.length ≠ 0 :=
            fun hzero => hfound (congrArg some (List.length_eq_zero_iff.mp hzero))
          rw [Option.getD_some]
          by_cases hlarge : o.length ≥ maxFlatten
          · rw [if_pos (Or.inr hlarge), if_neg hlength]
            simp [AllHold]
          · have hsmall : ¬ (o.length = 0 ∨ o.length ≥ maxFlatten) :=
              fun h => h.elim hlength hlarge
            rw [if_neg hsmall, hmeaning]
            simp only [List.mem_map, exists_exists_and_eq_and, AllHold,
              List.forall_mem_append, List.forall_mem_singleton, Option.some.injEq,
              forall_eq']
            constructor
            · rintro ⟨⟨q, hq, hholds⟩, hands⟩
              exact ⟨q, hq, hands, hholds⟩
            · rintro ⟨q, hq, hands, hholds⟩
              exact ⟨⟨q, hq, hholds⟩, hands⟩

/-- A leaf is a leaf of one of the conditions. -/
def HasLeaf (queries : List (QueryTree L)) (leaf : L) : Prop :=
  ∃ q ∈ queries, leaf ∈ q.leaves

theorem hasLeaf_cons {q : QueryTree L} {queries : List (QueryTree L)} {leaf : L} :
    HasLeaf (q :: queries) leaf ↔ leaf ∈ q.leaves ∨ HasLeaf queries leaf := by
  simp [HasLeaf]

theorem hasLeaf_append {queries queries' : List (QueryTree L)} {leaf : L} :
    HasLeaf (queries ++ queries') leaf ↔ HasLeaf queries leaf ∨ HasLeaf queries' leaf := by
  simp [HasLeaf, or_and_right, exists_or]

theorem mem_leaves_operands {queries : List (QueryTree L)} {leaf : L} :
    leaf ∈ leavesOf queries ↔ HasLeaf queries leaf := by
  rw [leavesOf_eq_flatMap, List.mem_flatMap]
  rfl

/-- A query that the loop keeps as it is. -/
theorem hasLeaf_kept {query : QueryTree L} {queries ors ands : List (QueryTree L)} {leaf : L}
    (h : HasLeaf queries leaf ∨ HasLeaf ors leaf ∨ HasLeaf (ands ++ [query]) leaf) :
    HasLeaf (query :: queries) leaf ∨ HasLeaf ors leaf ∨ HasLeaf ands leaf := by
  rw [hasLeaf_append, hasLeaf_cons] at h
  rw [hasLeaf_cons]
  rcases h with hqueries | hors | hands | hquery | ⟨q, hq, -⟩
  · exact Or.inl (Or.inr hqueries)
  · exact Or.inr (Or.inl hors)
  · exact Or.inr (Or.inr hands)
  · exact Or.inl (Or.inl hquery)
  · cases hq

/-- The loop keeps the leaves. -/
theorem collectOrs_leaves {leaf : L} (h : collectOrs stack ors ands = some (found, ands'))
    (hleaf : HasLeaf (found.getD []) leaf ∨ HasLeaf ands' leaf) :
    HasLeaf stack leaf ∨ HasLeaf (ors.getD []) leaf ∨ HasLeaf ands leaf := by
  induction stack, ors, ands using collectOrs.induct with
  | case1 ors ands =>
      rw [collectOrs] at h
      obtain ⟨rfl, rfl⟩ := Prod.mk.inj (Option.some.inj h)
      exact Or.inr hleaf
  | case2 queries stack ands ih =>
      rw [collectOrs] at h
      rw [hasLeaf_cons, QueryTree.leaves, mem_leaves_operands]
      rcases ih h with hstack | hqueries | hands
      · exact Or.inl (Or.inr hstack)
      · exact Or.inl (Or.inl hqueries)
      · exact Or.inr (Or.inr hands)
  | case3 queries stack o ands =>
      rw [collectOrs] at h
      cases h
  | case4 queries stack ors ands ih =>
      rw [collectOrs] at h
      rw [hasLeaf_cons, QueryTree.leaves, mem_leaves_operands]
      have hstack := ih h
      rw [hasLeaf_append] at hstack
      exact hstack.imp_left Or.symm
  | case5 query stack ors ands ih =>
      rw [collectOrs] at h
      exact hasLeaf_kept (ih h)
  | case6 query stack ors ands ih =>
      rw [collectOrs] at h
      exact hasLeaf_kept (ih h)

/-- The leaves of a statement are leaves of the request. -/
theorem flatten_leaves {props p : SearchProps L σ} (hp : p ∈ flatten props) {leaf : L}
    (hleaf : HasLeaf p.query leaf) : HasLeaf props.query leaf := by
  unfold flatten at hp
  cases hcollect : collectOrs props.query none [] with
  | none =>
      rw [hcollect, List.mem_singleton] at hp
      exact hp ▸ hleaf
  | some collected =>
      obtain ⟨found, ands⟩ := collected
      have hkept : HasLeaf (found.getD []) leaf ∨ HasLeaf ands leaf →
          HasLeaf props.query leaf := by
        intro hmem
        rcases collectOrs_leaves hcollect hmem with hstack | ⟨q, hq, -⟩ | ⟨q, hq, -⟩
        · exact hstack
        · cases hq
        · cases hq
      rw [hcollect] at hp
      dsimp only at hp
      split at hp
      · rw [List.mem_singleton] at hp
        subst hp
        dsimp only at hleaf
        split at hleaf
        · exact hkept (Or.inr hleaf)
        · exact hleaf
      · obtain ⟨or, hor, rfl⟩ := List.mem_map.mp hp
        rw [hasLeaf_append, hasLeaf_cons] at hleaf
        rcases hleaf with hands | hq | ⟨q, hq, -⟩
        · exact hkept (Or.inr hands)
        · exact hkept (Or.inl ⟨or, hor, hq⟩)
        · cases hq

/-- Truth values of the leaves satisfy a request exactly when they satisfy one of its
statements, and so the statements together select the rows that the request selects. -/
theorem flattened_equivalent {props : SearchProps L σ}
    (hconjuncts : ∀ q, Conjunct props.query q → q ≠ .or []) :
    (∀ value : L → Bool,
      AllHold (fun q => q.satisfies value = true) props ↔
        ∃ p ∈ flatten props, AllHold (fun q => q.satisfies value = true) p) ∧
    ∀ leaf : L → Option Bool,
      AllHold (fun q => q.eval leaf = some true) props ↔
        ∃ p ∈ flatten props, AllHold (fun q => q.eval leaf = some true) p :=
  ⟨fun value => flatten_holds (connects_satisfies value) hconjuncts,
    fun leaf => flatten_holds (connects_eval leaf) hconjuncts⟩

end Flatten

/-! ### Where clauses of the statements -/

section Clauses

variable {L : Type u} {S : Type v} {compares : L → S → Bool} {row : List String → Option S}

mutual

/-- A query that was built with operands for all its connectives. -/
def Query.tree : Query L → QueryTree (StateFieldQuery L)
  | .field f => .field f
  | .and query rest => .and (query.tree :: treesOf rest)
  | .or query rest => .or (query.tree :: treesOf rest)
  | .not query => .not query.tree

def treesOf : List (Query L) → List (QueryTree (StateFieldQuery L))
  | [] => []
  | query :: rest => query.tree :: treesOf rest

end

theorem treesOf_eq_map (queries : List (Query L)) :
    treesOf queries = queries.map Query.tree := by
  induction queries with
  | nil => rfl
  | cons query rest ih => rw [treesOf, ih, List.map_cons]

theorem evalAnd_eq_false (leaf : L → Option Bool) (queries : List (QueryTree L)) :
    evalAnd leaf queries = some false ↔ ∃ q ∈ queries, q.eval leaf = some false := by
  induction queries with
  | nil => simp [evalAnd]
  | cons q rest ih => rw [evalAnd, Lib.Kleene.and3_eq_false, ih, List.exists_mem_cons_iff]

theorem evalOr_eq_false (leaf : L → Option Bool) (queries : List (QueryTree L)) :
    evalOr leaf queries = some false ↔ ∀ q ∈ queries, q.eval leaf = some false := by
  induction queries with
  | nil => simp [evalOr]
  | cons q rest ih => rw [evalOr, Lib.Kleene.or3_eq_false, ih, List.forall_mem_cons]

/-- What a tree gives on a row is what the where clause gives. -/
theorem eval_tree (q : Query L) :
    q.tree.eval (fun f => (convertStateFieldQuery f).eval compares row) =
      (convertQueryToSQLQuery q).eval compares row := by
  induction q using Query.operandInduction with
  | field f => rw [Query.tree, QueryTree.eval, convertQueryToSQLQuery]
  | and query rest ih =>
      rw [Query.tree, treesOf_eq_map, ← List.map_cons]
      refine Option.ext fun b => ?_
      cases b with
      | true =>
          rw [(connects_eval _).and, eval_and_eq_true, List.forall_mem_map]
          exact forall₂_congr fun q hq => by rw [ih q hq]
      | false =>
          rw [QueryTree.eval, evalAnd_eq_false, eval_and_eq_false]
          simp only [List.mem_map, exists_exists_and_eq_and]
          exact exists_congr fun q => and_congr_right fun hq => by rw [ih q hq]
  | or query rest ih =>
      rw [Query.tree, treesOf_eq_map, ← List.map_cons]
      refine Option.ext fun b => ?_
      cases b with
      | true =>
          rw [(connects_eval _).or, eval_or_eq_true]
          simp only [List.mem_map, exists_exists_and_eq_and]
          exact exists_congr fun q => and_congr_right fun hq => by rw [ih q hq]
      | false =>
          rw [QueryTree.eval, evalOr_eq_false, eval_or_eq_false, List.forall_mem_map]
          exact forall₂_congr fun q hq => by rw [ih q hq]
  | not query ih =>
      rw [Query.tree, QueryTree.eval, ih, convertQueryToSQLQuery, Where.eval]

theorem sqlSelects_eq_true (queries : List (Query L)) :
    sqlSelects compares row queries = true ↔
      ∀ q ∈ queries, (convertQueryToSQLQuery q).eval compares row = some true := by
  unfold sqlSelects convertSearchRequestToQuery
  match queries with
  | [] => simp
  | [query] => simp
  | query :: second :: rest =>
      dsimp only
      rw [beq_iff_eq, eval_and_eq_true]

/-- The conditions of a request that was built, taken apart, are such queries too. -/
theorem Conjunct.exists_tree {queries : List (Query L)} {q : QueryTree (StateFieldQuery L)}
    (h : Conjunct (queries.map Query.tree) q) : ∃ query : Query L, query.tree = q := by
  induction h with
  | mem hmem =>
      obtain ⟨query, -, rfl⟩ := List.mem_map.mp hmem
      exact ⟨query, rfl⟩
  | operand hand hmem ih =>
      obtain ⟨query, hquery⟩ := ih
      cases query with
      | and first rest =>
          rw [Query.tree, treesOf_eq_map, ← List.map_cons] at hquery
          obtain rfl := QueryTree.and.inj hquery
          obtain ⟨query, -, rfl⟩ := List.mem_map.mp hmem
          exact ⟨query, rfl⟩
      | field f => cases hquery
      | or first rest => cases hquery
      | not query => cases hquery

/-- The document whose row this is is selected by the request exactly when one of the
statements selects it. -/
theorem sqlSelects_flatten {σ : Type} (queries : List (Query L)) (sort : Option σ) :
    sqlSelects compares row queries = true ↔
      ∃ p ∈ flatten { query := queries.map Query.tree, sort := sort },
        AllHold (fun q => q.eval (fun f => (convertStateFieldQuery f).eval compares row) =
          some true) p := by
  have hconjuncts : ∀ q, Conjunct (queries.map Query.tree) q → q ≠ .or [] := by
    rintro q hq rfl
    obtain ⟨query, hquery⟩ := hq.exists_tree
    cases query with
    | or first rest =>
        rw [Query.tree] at hquery
        exact List.cons_ne_nil _ _ (QueryTree.or.inj hquery)
    | field f => cases hquery
    | and first rest => cases hquery
    | not query => cases hquery
  rw [← flatten_holds (connects_eval _) hconjuncts, sqlSelects_eq_true, AllHold,
    List.forall_mem_map]
  exact forall₂_congr fun q _ => by rw [eval_tree]

end Clauses

namespace OneOr

/-- An `Or` in an `And`, an `And` without operands, and a leaf. -/
def props : SearchProps Nat Unit where
  query := [.and [.or [.field 0, .field 1], .and []], .field 2]
  sort := none

theorem conjunct_props {q : QueryTree Nat} (h : Conjunct props.query q) :
    q = .and [.or [.field 0, .field 1], .and []] ∨ q = .field 2 ∨
      q = .or [.field 0, .field 1] ∨ q = .and [] := by
  induction h with
  | mem hmem =>
      simp only [props, List.mem_cons, List.not_mem_nil, or_false] at hmem
      exact hmem.imp_right .inl
  | operand hand hmem ih =>
      simp only [QueryTree.and.injEq, reduceCtorEq, false_or] at ih
      rcases ih with rfl | rfl
      · simp only [List.mem_cons, List.not_mem_nil, or_false] at hmem
        exact .inr (.inr hmem)
      · cases hmem

theorem flattened_equivalent_props :
    AllHold (fun q => q.satisfies (fun n => decide (n ≠ 0)) = true) props ↔
      ∃ p ∈ flatten props,
        AllHold (fun q => q.satisfies (fun n => decide (n ≠ 0)) = true) p := by
  refine (flattened_equivalent ?_).1 _
  rintro q hq rfl
  rcases conjunct_props hq with h | h | h | h <;> cases h

end OneOr

namespace EmptyOr

/-- Without operands nothing satisfies an `Or`, but its only statement has no
conditions. -/
theorem not_equivalent :
    ¬ ∀ value : Nat → Bool,
      AllHold (fun q => q.satisfies value = true)
          ({ query := [.or []], sort := none } : SearchProps Nat Unit) ↔
        ∃ p ∈ flatten ({ query := [.or []], sort := none } : SearchProps Nat Unit),
          AllHold (fun q => q.satisfies value = true) p := by
  intro hequivalent
  have hall := (hequivalent (fun _ => true)).mpr
    ⟨{ query := [], sort := none }, by simp [flatten, collectOrs], by simp [AllHold]⟩
  exact absurd (hall (.or []) List.mem_cons_self) (by simp [QueryTree.satisfies, satisfiesAny])

end EmptyOr

end Indexer
end Peerbit
