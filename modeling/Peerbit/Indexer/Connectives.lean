import Peerbit.Indexer.HashmapIndex
import Peerbit.Indexer.WhereClause

/-!
# Connectives in two engines

A hashmap index stops at the first operand that is undefined; a where clause
looks at all operands.  What the index knows, the where clause knows too, so the
engines differ on what the index leaves undefined.
-/

namespace Peerbit
namespace Indexer

universe u v w

/-- A hashmap index and an SQL engine, whose comparisons of values agree. -/
structure Engines (L : Type u) (S : Type v) (K : Type w) where
  index : HashmapIndex L S K
  sqlCompares : L → S → Bool
  agree : ∀ comparison value,
    index.compares comparison value = sqlCompares comparison value

/-- A field is compared and is null, or its path is cut. -/
def StateFieldQuery.unknown {L : Type u} {S : Type v} (doc : Value S) :
    StateFieldQuery L → Bool
  | .isNull key => doc.cut key
  | .compare key _ => (doc.column key).isNone

theorem StateFieldQuery.unknown_of_cut {L : Type u} {S : Type v}
    {doc : Value S} (f : StateFieldQuery L) (hcut : doc.cut f.key = true) :
    f.unknown doc = true := by
  cases f with
  | isNull key => exact hcut
  | compare key comparison =>
      exact congrArg Option.isNone (doc.column_of_cut key hcut)

section Unknown

variable {L : Type u} {S : Type v} (compares : L → S → Bool) (doc : Value S)

mutual

/-- Whether a query holds when no comparison with null does. -/
def Query.holds : Query L → Bool
  | .field f =>
      (convertStateFieldQuery f).eval compares doc.column == some true
  | .and query rest => query.holds && allHold rest
  | .or query rest => query.holds || anyHolds rest
  | .not query => !query.holds

def allHold : List (Query L) → Bool
  | [] => true
  | query :: rest => query.holds && allHold rest

def anyHolds : List (Query L) → Bool
  | [] => false
  | query :: rest => query.holds || anyHolds rest

end

mutual

/-- The first query of an unknown field, in the order of the operands and up to
those that decide. -/
def Query.firstUnknown : Query L → Option (StateFieldQuery L)
  | .field f => if f.unknown doc then some f else none
  | .and query rest =>
      query.firstUnknown.or
        (if query.holds compares doc then firstUnknownAnd rest else none)
  | .or query rest =>
      query.firstUnknown.or
        (if query.holds compares doc then none else firstUnknownOr rest)
  | .not query => query.firstUnknown

def firstUnknownAnd : List (Query L) → Option (StateFieldQuery L)
  | [] => none
  | query :: rest =>
      query.firstUnknown.or
        (if query.holds compares doc then firstUnknownAnd rest else none)

def firstUnknownOr : List (Query L) → Option (StateFieldQuery L)
  | [] => none
  | query :: rest =>
      query.firstUnknown.or
        (if query.holds compares doc then none else firstUnknownOr rest)

end

/-- A result is that of the first unknown field, or else known. -/
def Reads (ret : Except TypeError (Option Bool))
    (first : Option (StateFieldQuery L)) (holds : Bool) : Prop :=
  match first with
  | none => ret = .ok (some holds)
  | some f =>
      f.unknown doc = true ∧ ret = handleFieldQuery compares doc f

variable {compares doc}

theorem handleFieldQuery_known {f : StateFieldQuery L}
    (hscalar : doc.ScalarAt f.key) (hknown : f.unknown doc = false) :
    ∃ b, handleFieldQuery compares doc f = .ok (some b) ∧
      (convertStateFieldQuery f).eval compares doc.column = some b := by
  unfold handleFieldQuery
  rcases doc.resolve_cases f.key hscalar with
    ⟨hcut, hcolumn, _, _⟩ | ⟨_, hcolumn, hresolve⟩ | ⟨value, _, hcolumn, hresolve⟩
  · cases f with
    | isNull key => exact nomatch hknown.symm.trans hcut
    | compare key comparison =>
        exact nomatch hknown.symm.trans (congrArg Option.isNone hcolumn)
  · rw [hresolve]
    cases f with
    | isNull key =>
        exact ⟨true, rfl, congrArg (some ∘ Option.isNone) hcolumn⟩
    | compare key comparison =>
        exact nomatch hknown.symm.trans (congrArg Option.isNone hcolumn)
  · rw [hresolve]
    cases f with
    | isNull key =>
        exact ⟨false, rfl, congrArg (some ∘ Option.isNone) hcolumn⟩
    | compare key comparison =>
        exact ⟨_, rfl, congrArg (Option.map (compares comparison)) hcolumn⟩

theorem handleFieldQuery_unknown {f : StateFieldQuery L}
    (hscalar : doc.ScalarAt f.key) (hunknown : f.unknown doc = true) :
    (doc.cut f.key = true ∧ ∃ e, handleFieldQuery compares doc f = .error e) ∨
      (doc.cut f.key = false ∧ handleFieldQuery compares doc f = .ok none) := by
  unfold handleFieldQuery
  rcases doc.resolve_cases f.key hscalar with
    ⟨hcut, _, e, hresolve⟩ | ⟨hcut, _, hresolve⟩ | ⟨value, hcut, hcolumn, _⟩
  · rw [hresolve]
    exact .inl ⟨hcut, e, rfl⟩
  · rw [hresolve]
    cases f with
    | isNull key => exact nomatch hunknown.symm.trans hcut
    | compare key comparison => exact .inr ⟨hcut, rfl⟩
  · cases f with
    | isNull key => exact nomatch hunknown.symm.trans hcut
    | compare key comparison =>
        exact nomatch hunknown.symm.trans (congrArg Option.isNone hcolumn)

/-- What passes on errors and unknown results passes on the result of an unknown
field. -/
theorem passes_unknown (g : Except TypeError (Option Bool) → Except TypeError (Option Bool))
    {f : StateFieldQuery L} (hscalar : doc.ScalarAt f.key) (hunknown : f.unknown doc = true)
    (herror : ∀ e, g (.error e) = .error e) (hnone : g (.ok none) = .ok none) :
    g (handleFieldQuery compares doc f) = handleFieldQuery compares doc f := by
  rcases handleFieldQuery_unknown hscalar hunknown with
    ⟨_, e, he⟩ | ⟨_, hunknown⟩
  · rw [he, herror]
  · rw [hunknown, hnone]

theorem Reads.andNext {ret rest : Except TypeError (Option Bool)}
    {first firstRest : Option (StateFieldQuery L)} {b bRest : Bool}
    (hfield : ∀ f, first = some f → doc.ScalarAt f.key)
    (hret : Reads compares doc ret first b)
    (hrest : Reads compares doc rest firstRest bRest) :
    Reads compares doc (andNext ret rest)
      (first.or (if b then firstRest else none)) (b && bRest) := by
  cases first with
  | none =>
      obtain rfl : ret = .ok (some b) := hret
      cases b with
      | false => rfl
      | true => exact hrest
  | some f =>
      obtain ⟨hunknown, rfl⟩ := hret
      exact ⟨hunknown, passes_unknown (Indexer.andNext · rest) (hfield f rfl) hunknown
        (fun _ => rfl) rfl⟩

theorem Reads.orNext {ret rest : Except TypeError (Option Bool)}
    {first firstRest : Option (StateFieldQuery L)} {b bRest : Bool}
    (hfield : ∀ f, first = some f → doc.ScalarAt f.key)
    (hret : Reads compares doc ret first b)
    (hrest : Reads compares doc rest firstRest bRest) :
    Reads compares doc (orNext ret rest)
      (first.or (if b then none else firstRest)) (b || bRest) := by
  cases first with
  | none =>
      obtain rfl : ret = .ok (some b) := hret
      cases b with
      | false => exact hrest
      | true => rfl
  | some f =>
      obtain ⟨hunknown, rfl⟩ := hret
      exact ⟨hunknown, passes_unknown (Indexer.orNext · rest) (hfield f rfl) hunknown
        (fun _ => rfl) rfl⟩

theorem Reads.not {ret : Except TypeError (Option Bool)}
    {first : Option (StateFieldQuery L)} {b : Bool}
    (hfield : ∀ f, first = some f → doc.ScalarAt f.key)
    (hret : Reads compares doc ret first b) :
    Reads compares doc (ret.map Lib.Kleene.not3) first (!b) := by
  cases first with
  | none =>
      obtain rfl : ret = .ok (some b) := hret
      rfl
  | some f =>
      obtain ⟨hunknown, rfl⟩ := hret
      exact ⟨hunknown, passes_unknown (Except.map Lib.Kleene.not3) (hfield f rfl) hunknown
        (fun _ => rfl) rfl⟩

theorem mem_firstUnknownAnd (qs : List (Query L)) {f : StateFieldQuery L}
    (hfirst : firstUnknownAnd compares doc qs = some f) :
    ∃ q ∈ qs, q.firstUnknown compares doc = some f := by
  induction qs with
  | nil => exact nomatch hfirst
  | cons query rest ih =>
      rcases Option.or_eq_some_iff.mp hfirst with hquery | ⟨_, hrest⟩
      · exact ⟨query, List.mem_cons_self, hquery⟩
      · obtain ⟨q, hq, hf⟩ := ih (Option.ite_none_right_eq_some.mp hrest).2
        exact ⟨q, List.mem_cons_of_mem query hq, hf⟩

theorem mem_firstUnknownOr (qs : List (Query L)) {f : StateFieldQuery L}
    (hfirst : firstUnknownOr compares doc qs = some f) :
    ∃ q ∈ qs, q.firstUnknown compares doc = some f := by
  induction qs with
  | nil => exact nomatch hfirst
  | cons query rest ih =>
      rcases Option.or_eq_some_iff.mp hfirst with hquery | ⟨_, hrest⟩
      · exact ⟨query, List.mem_cons_self, hquery⟩
      · obtain ⟨q, hq, hf⟩ := ih (Option.ite_none_left_eq_some.mp hrest).2
        exact ⟨q, List.mem_cons_of_mem query hq, hf⟩

/-- The first unknown field occurs in the query. -/
theorem Query.hasField_of_firstUnknown {q : Query L} {f : StateFieldQuery L}
    (hfirst : q.firstUnknown compares doc = some f) : q.HasField f := by
  induction q using Query.operandInduction with
  | field g =>
      obtain ⟨_, hg⟩ := Option.ite_none_right_eq_some.mp hfirst
      exact Option.some.inj hg ▸ .field
  | and query rest ih =>
      obtain ⟨q, hq, hf⟩ :=
        mem_firstUnknownAnd (query :: rest) hfirst
      exact .and hq (ih q hq hf)
  | or query rest ih =>
      obtain ⟨q, hq, hf⟩ :=
        mem_firstUnknownOr (query :: rest) hfirst
      exact .or hq (ih q hq hf)
  | not query ih => exact .not (ih hfirst)

theorem reads_handleAnd {qs : List (Query L)}
    (hscalars : ∀ q ∈ qs, q.OnScalars doc)
    (hreads : ∀ q ∈ qs, Reads compares doc (handleQueryObject compares doc q)
      (q.firstUnknown compares doc) (q.holds compares doc)) :
    Reads compares doc (handleAnd compares doc qs)
      (firstUnknownAnd compares doc qs) (allHold compares doc qs) := by
  induction qs with
  | nil => rfl
  | cons query rest ih =>
      rw [List.forall_mem_cons] at hscalars hreads
      exact .andNext (fun f hf => hscalars.1 f (query.hasField_of_firstUnknown hf))
        hreads.1 (ih hscalars.2 hreads.2)

theorem reads_handleOr {qs : List (Query L)}
    (hscalars : ∀ q ∈ qs, q.OnScalars doc)
    (hreads : ∀ q ∈ qs, Reads compares doc (handleQueryObject compares doc q)
      (q.firstUnknown compares doc) (q.holds compares doc)) :
    Reads compares doc (handleOr compares doc qs)
      (firstUnknownOr compares doc qs) (anyHolds compares doc qs) := by
  induction qs with
  | nil => rfl
  | cons query rest ih =>
      rw [List.forall_mem_cons] at hscalars hreads
      exact .orNext (fun f hf => hscalars.1 f (query.hasField_of_firstUnknown hf))
        hreads.1 (ih hscalars.2 hreads.2)

/-- The index gives what it finds at the first unknown field, or else whether
the query holds. -/
theorem reads_handleQueryObject {q : Query L} (hscalars : q.OnScalars doc) :
    Reads compares doc (handleQueryObject compares doc q)
      (q.firstUnknown compares doc) (q.holds compares doc) := by
  induction q using Query.operandInduction with
  | field f =>
      rw [handleQueryObject, Query.firstUnknown, Query.holds]
      cases hunknown : f.unknown doc with
      | true => exact ⟨hunknown, rfl⟩
      | false =>
          obtain ⟨b, hb, heval⟩ :=
            handleFieldQuery_known
              (hscalars f .field) hunknown
          rw [hb, heval]
          cases b with
          | true => rfl
          | false => rfl
  | and query rest ih =>
      have hoperands : ∀ q ∈ query :: rest, q.OnScalars doc :=
        fun q hq f hf => hscalars f (.and hq hf)
      exact reads_handleAnd hoperands
        (fun q hq => ih q hq (hoperands q hq))
  | or query rest ih =>
      have hoperands : ∀ q ∈ query :: rest, q.OnScalars doc :=
        fun q hq f hf => hscalars f (.or hq hf)
      exact reads_handleOr hoperands
        (fun q hq => ih q hq (hoperands q hq))
  | not query ih =>
      have hquery : query.OnScalars doc := fun f hf => hscalars f (.not hf)
      exact (ih hquery).not
        (fun f hf => hquery f (query.hasField_of_firstUnknown hf))

theorem sure_firstUnknownAnd {qs : List (Query L)}
    (hsure : ∀ q ∈ qs, q.firstUnknown compares doc = none →
      q.Sure compares doc.column (q.holds compares doc))
    (hnone : firstUnknownAnd compares doc qs = none) :
    (allHold compares doc qs = true ∧
        ∀ q ∈ qs, q.Sure compares doc.column true) ∨
      (allHold compares doc qs = false ∧
        ∃ q ∈ qs, q.Sure compares doc.column false) := by
  induction qs with
  | nil => exact .inl ⟨rfl, fun _ hq => nomatch hq⟩
  | cons query rest ih =>
      rw [List.forall_mem_cons] at hsure
      rw [firstUnknownAnd, Option.or_eq_none_iff] at hnone
      have hquery := hsure.1 hnone.1
      rw [allHold]
      cases hholds : query.holds compares doc with
      | false =>
          rw [hholds] at hquery
          exact .inr ⟨rfl, query, List.mem_cons_self, hquery⟩
      | true =>
          rw [hholds] at hquery
          rw [hholds, if_pos rfl] at hnone
          rcases ih hsure.2 hnone.2 with ⟨hall, hrest⟩ | ⟨hall, q, hq, hfalse⟩
          · exact .inl ⟨hall, List.forall_mem_cons.mpr ⟨hquery, hrest⟩⟩
          · exact .inr ⟨hall, q, List.mem_cons_of_mem query hq, hfalse⟩

theorem sure_firstUnknownOr {qs : List (Query L)}
    (hsure : ∀ q ∈ qs, q.firstUnknown compares doc = none →
      q.Sure compares doc.column (q.holds compares doc))
    (hnone : firstUnknownOr compares doc qs = none) :
    (anyHolds compares doc qs = true ∧
        ∃ q ∈ qs, q.Sure compares doc.column true) ∨
      (anyHolds compares doc qs = false ∧
        ∀ q ∈ qs, q.Sure compares doc.column false) := by
  induction qs with
  | nil => exact .inr ⟨rfl, fun _ hq => nomatch hq⟩
  | cons query rest ih =>
      rw [List.forall_mem_cons] at hsure
      rw [firstUnknownOr, Option.or_eq_none_iff] at hnone
      have hquery := hsure.1 hnone.1
      rw [anyHolds]
      cases hholds : query.holds compares doc with
      | true =>
          rw [hholds] at hquery
          exact .inl ⟨rfl, query, List.mem_cons_self, hquery⟩
      | false =>
          rw [hholds] at hquery
          rw [hholds, if_neg Bool.false_ne_true] at hnone
          rcases ih hsure.2 hnone.2 with ⟨hany, q, hq, htrue⟩ | ⟨hany, hrest⟩
          · exact .inl ⟨hany, q, List.mem_cons_of_mem query hq, htrue⟩
          · exact .inr ⟨hany, List.forall_mem_cons.mpr ⟨hquery, hrest⟩⟩

/-- The first unknown field is unknown. -/
theorem unknown_of_firstUnknown {q : Query L} {f : StateFieldQuery L}
    (hfirst : q.firstUnknown compares doc = some f) : f.unknown doc = true := by
  induction q using Query.operandInduction with
  | field g =>
      obtain ⟨hunknown, hg⟩ := Option.ite_none_right_eq_some.mp hfirst
      exact Option.some.inj hg ▸ hunknown
  | and query rest ih =>
      obtain ⟨q, hq, hf⟩ :=
        mem_firstUnknownAnd (query :: rest) hfirst
      exact ih q hq hf
  | or query rest ih =>
      obtain ⟨q, hq, hf⟩ :=
        mem_firstUnknownOr (query :: rest) hfirst
      exact ih q hq hf
  | not query ih => exact ih hfirst

/-- When no unknown field is come to, whether the query holds is sure. -/
theorem sure_of_firstUnknown {q : Query L} (hscalars : q.OnScalars doc)
    (hnone : q.firstUnknown compares doc = none) :
    q.Sure compares doc.column (q.holds compares doc) := by
  induction q using Query.operandInduction with
  | field f =>
      have hknown : f.unknown doc = false := by
        cases hunknown : f.unknown doc with
        | false => rfl
        | true =>
            rw [Query.firstUnknown, if_pos hunknown] at hnone
            exact nomatch hnone
      obtain ⟨b, _, heval⟩ :=
        handleFieldQuery_known
          (hscalars f .field) hknown
      rw [Query.holds, heval]
      cases b with
      | true => exact .field heval
      | false => exact .field heval
  | and query rest ih =>
      have hoperands : ∀ q ∈ query :: rest,
          q.firstUnknown compares doc = none →
          q.Sure compares doc.column (q.holds compares doc) :=
        fun q hq => ih q hq (fun f hf => hscalars f (.and hq hf))
      rcases sure_firstUnknownAnd hoperands hnone with
        ⟨hall, hsure⟩ | ⟨hall, q, hq, hsure⟩
      · exact (show (Query.and query rest).holds compares doc = true from hall) ▸
          .allTrue hsure
      · exact (show (Query.and query rest).holds compares doc = false from hall) ▸
          .someFalse hq hsure
  | or query rest ih =>
      have hoperands : ∀ q ∈ query :: rest,
          q.firstUnknown compares doc = none →
          q.Sure compares doc.column (q.holds compares doc) :=
        fun q hq => ih q hq (fun f hf => hscalars f (.or hq hf))
      rcases sure_firstUnknownOr hoperands hnone with
        ⟨hany, q, hq, hsure⟩ | ⟨hany, hsure⟩
      · exact (show (Query.or query rest).holds compares doc = true from hany) ▸
          .someTrue hq hsure
      · exact (show (Query.or query rest).holds compares doc = false from hany) ▸
          .allFalse hsure
  | not query ih =>
      have hquery := ih (fun f hf => hscalars f (.not hf)) hnone
      rw [Query.holds]
      exact .not (by rwa [Bool.not_not])

/-- A query with an unknown field can be put in an order in which this field is
come to first. -/
theorem exists_reordered_firstUnknown {q : Query L} {f : StateFieldQuery L}
    (hfield : q.HasField f) (hunknown : f.unknown doc = true) :
    ∃ r, q.Reordered r ∧ r.firstUnknown compares doc = some f := by
  induction hfield with
  | field => exact ⟨_, .refl _, if_pos hunknown⟩
  | and hmem _ ih =>
      obtain ⟨r, hr, hfirst⟩ := ih
      obtain ⟨before, after, heq⟩ := List.append_of_mem hmem
      refine ⟨.and r (before ++ after), .trans
        (.and (heq ▸ List.perm_middle)) (.andOperand hr), ?_⟩
      rw [Query.firstUnknown, hfirst, Option.some_or]
  | or hmem _ ih =>
      obtain ⟨r, hr, hfirst⟩ := ih
      obtain ⟨before, after, heq⟩ := List.append_of_mem hmem
      refine ⟨.or r (before ++ after), .trans
        (.or (heq ▸ List.perm_middle)) (.orOperand hr), ?_⟩
      rw [Query.firstUnknown, hfirst, Option.some_or]
  | not _ ih =>
      obtain ⟨r, hr, hfirst⟩ := ih
      exact ⟨.not r, .not hr, hfirst⟩

end Unknown

/-! ### Reordering -/

section Reordering

variable {L : Type u} {S : Type v}

theorem Query.Reordered.symm {q r : Query L} (h : q.Reordered r) :
    r.Reordered q := by
  induction h with
  | refl q => exact .refl q
  | trans _ _ ihqr ihrs => exact .trans ihrs ihqr
  | and hperm => exact .and hperm.symm
  | or hperm => exact .or hperm.symm
  | andOperand _ ih => exact .andOperand ih
  | orOperand _ ih => exact .orOperand ih
  | not _ ih => exact .not ih

theorem Query.Reordered.hasField {q r : Query L} (h : q.Reordered r)
    {f : StateFieldQuery L} (hfield : q.HasField f) : r.HasField f := by
  induction h with
  | refl q => exact hfield
  | trans _ _ ihqr ihrs => exact ihrs (ihqr hfield)
  | and hperm =>
      cases hfield with
      | and hmem hf => exact .and (hperm.mem_iff.mp hmem) hf
  | or hperm =>
      cases hfield with
      | or hmem hf => exact .or (hperm.mem_iff.mp hmem) hf
  | andOperand _ ih =>
      cases hfield with
      | and hmem hf =>
          rcases List.mem_cons.mp hmem with rfl | hrest
          · exact .and List.mem_cons_self (ih hf)
          · exact .and (List.mem_cons_of_mem _ hrest) hf
  | orOperand _ ih =>
      cases hfield with
      | or hmem hf =>
          rcases List.mem_cons.mp hmem with rfl | hrest
          · exact .or List.mem_cons_self (ih hf)
          · exact .or (List.mem_cons_of_mem _ hrest) hf
  | not _ ih =>
      cases hfield with
      | not hf => exact .not (ih hf)

theorem Query.Reordered.sure {q r : Query L} (h : q.Reordered r)
    {compares : L → S → Bool} {row : List String → Option S} {b : Bool}
    (hsure : q.Sure compares row b) : r.Sure compares row b := by
  induction h generalizing b with
  | refl q => exact hsure
  | trans _ _ ihqr ihrs => exact ihrs (ihqr hsure)
  | and hperm =>
      cases hsure with
      | allTrue hall => exact .allTrue (fun q hq => hall q (hperm.mem_iff.mpr hq))
      | someFalse hmem hfalse => exact .someFalse (hperm.mem_iff.mp hmem) hfalse
  | or hperm =>
      cases hsure with
      | someTrue hmem htrue => exact .someTrue (hperm.mem_iff.mp hmem) htrue
      | allFalse hall =>
          exact .allFalse (fun q hq => hall q (hperm.mem_iff.mpr hq))
  | andOperand _ ih =>
      cases hsure with
      | allTrue hall =>
          rw [List.forall_mem_cons] at hall
          exact .allTrue (List.forall_mem_cons.mpr ⟨ih hall.1, hall.2⟩)
      | someFalse hmem hfalse =>
          rcases List.mem_cons.mp hmem with rfl | hrest
          · exact .someFalse List.mem_cons_self (ih hfalse)
          · exact .someFalse (List.mem_cons_of_mem _ hrest) hfalse
  | orOperand _ ih =>
      cases hsure with
      | someTrue hmem htrue =>
          rcases List.mem_cons.mp hmem with rfl | hrest
          · exact .someTrue List.mem_cons_self (ih htrue)
          · exact .someTrue (List.mem_cons_of_mem _ hrest) htrue
      | allFalse hall =>
          rw [List.forall_mem_cons] at hall
          exact .allFalse (List.forall_mem_cons.mpr ⟨ih hall.1, hall.2⟩)
  | not _ ih =>
      cases hsure with
      | not hquery => exact .not (ih hquery)

theorem Query.Reordered.onScalars {q r : Query L} (h : q.Reordered r)
    {doc : Value S} (hscalars : q.OnScalars doc) : r.OnScalars doc :=
  fun f hf => hscalars f (h.symm.hasField hf)

end Reordering

/-! ### Agreement -/

section Agreement

variable {L : Type u} {S : Type v} {K : Type w} [DecidableEq K]
  (E : Engines L S K) (id : K) (doc : Value S)

/-- The index selects the document exactly when the where clause does. -/
def Engines.Agree (q : Query L) : Prop :=
  E.index.selects [q] id doc = .ok (sqlSelects E.sqlCompares doc.column [q])

/-- No unknown field is come to, or it is a comparison with null and it is not
sure that the query holds. -/
def Engines.KnownInOrder (q : Query L) : Prop :=
  ∀ f, q.firstUnknown E.index.compares doc = some f →
    doc.cut f.key = false ∧ ¬ q.Sure E.index.compares doc.column true

/-- No path is cut, and there is no comparison with null or it is not sure that
the query holds. -/
def Engines.KnownInAnyOrder (q : Query L) : Prop :=
  (∀ f, q.HasField f → doc.cut f.key = false) ∧
    ((∀ f, q.HasField f → f.unknown doc = false) ∨
      ¬ q.Sure E.index.compares doc.column true)

variable {E id doc}

theorem andNext_true (ret : Except TypeError (Option Bool)) :
    andNext ret (.ok (some true)) = ret := by
  rcases ret with _ | (_ | (_ | _)) <;> rfl

/-- Looking up an id selects what the comparison does. -/
theorem HashmapIndex.selects_singleton {index : HashmapIndex L S K}
    {q : Query L} (hstored : index.StoredAt id doc)
    (hscalars : q.OnScalars doc) :
    index.selects [q] id doc =
      (handleQueryObject index.compares doc q).map
        (fun ret => ret == some true) := by
  unfold HashmapIndex.selects
  cases hqueried : index.queriedId [q] with
  | none =>
      show (andNext (handleQueryObject index.compares doc q)
        (.ok (some true))).map _ = _
      rw [andNext_true]
  | some queried =>
      cases q with
      | and query rest => exact nomatch hqueried
      | or query rest => exact nomatch hqueried
      | not query => exact nomatch hqueried
      | field f =>
          cases f with
          | isNull key => exact nomatch hqueried
          | compare key comparison =>
              obtain ⟨rfl, hid⟩ := Option.ite_none_right_eq_some.mp hqueried
              obtain ⟨value, hcolumn, hcompares⟩ := hstored comparison queried hid
              have hknown :
                  (StateFieldQuery.compare index.indexBy comparison).unknown
                    doc = false :=
                congrArg Option.isNone hcolumn
              obtain ⟨b, hb, heval⟩ :=
                handleFieldQuery_known
                  (hscalars _ .field) hknown
              have hvalue : some (index.compares comparison value) = some b :=
                (congrArg (Option.map (index.compares comparison))
                  hcolumn).symm.trans heval
              rw [handleQueryObject, hb, ← Option.some.inj hvalue, hcompares]
              show Except.ok (id == queried) =
                Except.ok (some (id == queried) == some true)
              cases id == queried with
              | true => rfl
              | false => rfl

omit [DecidableEq K] in
theorem Engines.sqlSelects_singleton (E : Engines L S K) (doc : Value S)
    (q : Query L) :
    sqlSelects E.sqlCompares doc.column [q] = true ↔
      q.Sure E.index.compares doc.column true := by
  have hcompares : E.index.compares = E.sqlCompares := funext₂ E.agree
  rw [← eval_convert_eq_some, hcompares]
  exact beq_iff_eq

theorem Engines.agree_iff {q : Query L} (hstored : E.index.StoredAt id doc)
    (hscalars : q.OnScalars doc) :
    E.Agree id doc q ↔ E.KnownInOrder doc q := by
  have hreads : Reads E.index.compares doc _ _ _ :=
    reads_handleQueryObject hscalars
  have hsql := E.sqlSelects_singleton doc q
  unfold Engines.Agree Engines.KnownInOrder
  rw [HashmapIndex.selects_singleton hstored hscalars]
  cases hfirst : q.firstUnknown E.index.compares doc with
  | none =>
      refine iff_of_true ?_ (fun f hf => nomatch hf)
      have hsure := sure_of_firstUnknown hscalars hfirst
      rw [hfirst] at hreads
      rw [show handleQueryObject E.index.compares doc q = _ from hreads]
      cases hholds : q.holds E.index.compares doc with
      | true =>
          rw [hholds] at hsure
          exact congrArg Except.ok (hsql.mpr hsure).symm
      | false =>
          rw [hholds] at hsure
          have hfalse := (eval_convert_eq_some _ _ q false).mpr hsure
          refine congrArg Except.ok (Bool.eq_false_iff.mpr (fun htrue => ?_)).symm
          have htrue' := (eval_convert_eq_some _ _ q true).mpr (hsql.mp htrue)
          exact nomatch hfalse.symm.trans htrue'
  | some f =>
      rw [hfirst] at hreads
      obtain ⟨hunknown, hret⟩ := hreads
      rw [hret]
      rcases handleFieldQuery_unknown
          (hscalars f (q.hasField_of_firstUnknown hfirst)) hunknown with
        ⟨hcut, e, he⟩ | ⟨hcut, hnone⟩
      · rw [he]
        refine iff_of_false (fun h => nomatch h) (fun h => ?_)
        exact nomatch hcut.symm.trans (h f rfl).1
      · rw [hnone]
        constructor
        · intro hagree g hg
          obtain rfl := Option.some.inj hg
          refine ⟨hcut, fun hsure => ?_⟩
          exact nomatch (Except.ok.inj hagree).trans (hsql.mpr hsure)
        · intro h
          refine congrArg Except.ok (Bool.eq_false_iff.mpr (fun htrue => ?_)).symm
          exact (h f rfl).2 (hsql.mp htrue)

omit [DecidableEq K] in
theorem Engines.knownInAnyOrder_iff {q : Query L} :
    (∀ r, q.Reordered r → E.KnownInOrder doc r) ↔ E.KnownInAnyOrder doc q := by
  constructor
  · intro h
    have hunknown : ∀ f, q.HasField f → f.unknown doc = true →
        doc.cut f.key = false ∧ ¬ q.Sure E.index.compares doc.column true := by
      intro f hf hunknown
      obtain ⟨r, hr, hfirst⟩ := exists_reordered_firstUnknown hf hunknown
      obtain ⟨hcut, hsure⟩ := h r hr f hfirst
      exact ⟨hcut, fun hq => hsure (hr.sure hq)⟩
    refine ⟨fun f hf => ?_, ?_⟩
    · cases hcut : doc.cut f.key with
      | false => rfl
      | true =>
          obtain ⟨huncut, _⟩ := hunknown f hf (f.unknown_of_cut hcut)
          exact nomatch hcut.symm.trans huncut
    · by_cases hall : ∀ f, q.HasField f → f.unknown doc = false
      · exact .inl hall
      · push Not at hall
        obtain ⟨f, hf, hunknown'⟩ := hall
        exact .inr (hunknown f hf (eq_true_of_ne_false hunknown')).2
  · rintro ⟨hcut, hall⟩ r hr f hfirst
    have hf := hr.symm.hasField (r.hasField_of_firstUnknown hfirst)
    refine ⟨hcut f hf, fun hsure => ?_⟩
    rcases hall with hknown | hunsure
    · exact nomatch (unknown_of_firstUnknown hfirst).symm.trans (hknown f hf)
    · exact hunsure (hr.symm.sure hsure)

/-- The engines agree on a query exactly when going over its operands comes to
no unknown field that matters, and in every order of the operands exactly when
there is none. -/
theorem Engines.connectives_agree_iff (q : Query L)
    (hstored : E.index.StoredAt id doc) (hscalars : q.OnScalars doc) :
    (E.Agree id doc q ↔ E.KnownInOrder doc q) ∧
      ((∀ r, q.Reordered r → E.Agree id doc r) ↔ E.KnownInAnyOrder doc q) := by
  refine ⟨Engines.agree_iff hstored hscalars, ?_⟩
  rw [← Engines.knownInAnyOrder_iff]
  exact forall₂_congr
    (fun r hr => Engines.agree_iff hstored (hr.onScalars hscalars))

end Agreement

/-! ### An operand that is null -/

namespace NullOperand

/-- Numbers that are compared with each other. -/
def engines : Engines Nat Nat Nat where
  index :=
    { indexBy := ["id"], compares := fun comparison value => value == comparison
      toId := some }
  sqlCompares comparison value := value == comparison
  agree _ _ := rfl

def doc : Value Nat :=
  .object (fun key =>
    if key = "id" then .scalar 7 else if key = "b" then .scalar 1 else .null)

def a : Query Nat := .field (.compare ["a"] 1)

def b : Query Nat := .field (.compare ["b"] 1)

/-- The null of the first operand hides the second one. -/
theorem not_agree :
    ¬ engines.Agree 7 doc (.or a [b]) ∧ engines.Agree 7 doc (.or b [a]) := by
  refine ⟨fun h => ?_, rfl⟩
  exact nomatch Except.ok.inj h

theorem storedAt : engines.index.StoredAt 7 doc := by
  intro comparison queried hid
  obtain rfl := Option.some.inj hid
  exact ⟨7, rfl, rfl⟩

theorem onScalars : (Query.or b [a]).OnScalars doc := by
  intro f hf
  cases hf with
  | or hmem hf =>
      rcases List.mem_cons.mp hmem with rfl | hmem
      · cases hf with
        | field => exact trivial
      · obtain rfl := List.mem_singleton.mp hmem
        cases hf with
        | field => exact trivial

/-- In this order the operand that is null is not looked at, in another it is. -/
theorem agree_inOrder :
    engines.Agree 7 doc (.or b [a]) ∧
      ¬ ∀ r, (Query.or b [a]).Reordered r → engines.Agree 7 doc r := by
  obtain ⟨horder, hany⟩ :=
    engines.connectives_agree_iff (.or b [a]) storedAt onScalars
  refine ⟨horder.mpr (fun f hf => nomatch hf), fun hall => ?_⟩
  obtain ⟨_, hknown | hunsure⟩ := hany.mp hall
  · exact nomatch hknown (.compare ["a"] 1)
      (.or (List.mem_cons_of_mem b List.mem_cons_self) .field)
  · exact hunsure (.someTrue List.mem_cons_self (.field rfl))

end NullOperand

end Indexer
end Peerbit
