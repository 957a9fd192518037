import Mathlib.Data.List.Nodup
import Peerbit.Indexer.Query
import Peerbit.Lib.Kleene

/-!
# Queries in a hashmap index

A field that is null makes a comparison undefined, and a key path through null
throws.  `And` and `Or` go over their operands in order.  A document is selected
when the result is true.
-/

namespace Peerbit
namespace Indexer

universe u v w

section Evaluation

variable {L : Type u} {S : Type v} (compares : L → S → Bool) (doc : Value S)

/-- `undefined` is none. -/
def handleFieldQuery (f : StateFieldQuery L) : Except TypeError (Option Bool) :=
  match doc.resolve f.key with
  | .error e => .error e
  | .ok value =>
      match f, value with
      | .isNull _, .null => .ok (some true)
      | .isNull _, _ => .ok (some false)
      | .compare _ _, .null => .ok none
      | .compare _ comparison, .scalar value =>
          .ok (some (compares comparison value))
      | .compare _ _, .object _ => .ok (some false)

/-- What an operand of an `And` gives, and otherwise the ones after it. -/
def andNext (ret rest : Except TypeError (Option Bool)) :
    Except TypeError (Option Bool) :=
  match ret with
  | .ok (some true) => rest
  | ret => ret

/-- What an operand of an `Or` gives, and otherwise the ones after it. -/
def orNext (ret rest : Except TypeError (Option Bool)) :
    Except TypeError (Option Bool) :=
  match ret with
  | .ok (some false) => rest
  | ret => ret

mutual

def handleQueryObject : Query L → Except TypeError (Option Bool)
  | .field f => handleFieldQuery compares doc f
  | .and query rest => andNext (handleQueryObject query) (handleAnd rest)
  | .or query rest => orNext (handleQueryObject query) (handleOr rest)
  | .not query => (handleQueryObject query).map Lib.Kleene.not3

def handleAnd : List (Query L) → Except TypeError (Option Bool)
  | [] => .ok (some true)
  | query :: rest => andNext (handleQueryObject query) (handleAnd rest)

def handleOr : List (Query L) → Except TypeError (Option Bool)
  | [] => .ok (some false)
  | query :: rest => orNext (handleQueryObject query) (handleOr rest)

end

end Evaluation

/-! ### The documents that are selected -/

section Index

variable {L : Type u} {S : Type v} {K : Type w}

/-- A hashmap index: the path of the field that documents are indexed by, the
comparisons, and the id that a comparison of this field looks up, if it is a
byte match or an exact match of strings. -/
structure HashmapIndex (L : Type u) (S : Type v) (K : Type w) where
  indexBy : List String
  compares : L → S → Bool
  toId : L → Option K

variable [DecidableEq K] (index : HashmapIndex L S K)

/-- The id that is looked up when this is all that is queried. -/
def HashmapIndex.queriedId : List (Query L) → Option K
  | [.field (.compare key comparison)] =>
      if key = index.indexBy then index.toId comparison else none
  | _ => none

/-- Whether a document under an id is selected. -/
def HashmapIndex.selects (query : List (Query L)) (id : K) (doc : Value S) :
    Except TypeError Bool :=
  match index.queriedId query with
  | some queried => .ok (id == queried)
  | none => (handleAnd index.compares doc query).map (fun ret => ret == some true)

def queryDocuments {D : Type w} (filter : D → Except TypeError Bool) :
    List D → Except TypeError (List D)
  | [] => .ok []
  | doc :: docs =>
      match filter doc with
      | .error e => .error e
      | .ok kept =>
          (queryDocuments filter docs).map
            (fun results => if kept then doc :: results else results)

def HashmapIndex.queryAll (docs : List (K × Value S)) (query : List (Query L)) :
    Except TypeError (List (K × Value S)) :=
  match index.queriedId query with
  | some queried => .ok (docs.find? (fun d => d.1 == queried)).toList
  | none => queryDocuments (fun d => index.selects query d.1 d.2) docs

/-- The document is under the id in its index field: looking up an id finds it
when the comparison does. -/
def HashmapIndex.StoredAt (id : K) (doc : Value S) : Prop :=
  ∀ comparison queried, index.toId comparison = some queried →
    ∃ value, doc.column index.indexBy = some value ∧
      index.compares comparison value = (id == queried)

omit [DecidableEq K] in
theorem mem_queryDocuments {D : Type w} {filter : D → Except TypeError Bool}
    {docs results : List D} (hresults : queryDocuments filter docs = .ok results)
    (d : D) : d ∈ results ↔ d ∈ docs ∧ filter d = .ok true := by
  induction docs generalizing results with
  | nil =>
      obtain rfl := Except.ok.inj hresults
      simp
  | cons e docs ih =>
      rw [queryDocuments] at hresults
      cases hfilter : filter e with
      | error err => exact nomatch hfilter ▸ hresults
      | ok kept =>
          rw [hfilter] at hresults
          cases hrest : queryDocuments filter docs with
          | error err => exact nomatch hrest ▸ hresults
          | ok rest =>
              rw [hrest] at hresults
              obtain rfl := Except.ok.inj hresults
              have hmem := ih hrest
              cases kept with
              | true =>
                  show d ∈ e :: rest ↔ _
                  rw [List.mem_cons, List.mem_cons, hmem]
                  constructor
                  · rintro (rfl | ⟨hd, hkept⟩)
                    · exact ⟨.inl rfl, hfilter⟩
                    · exact ⟨.inr hd, hkept⟩
                  · rintro ⟨rfl | hd, hkept⟩
                    · exact .inl rfl
                    · exact .inr ⟨hd, hkept⟩
              | false =>
                  show d ∈ rest ↔ _
                  rw [List.mem_cons, hmem]
                  constructor
                  · rintro ⟨hd, hkept⟩
                    exact ⟨.inr hd, hkept⟩
                  · rintro ⟨rfl | hd, hkept⟩
                    · exact nomatch hfilter.symm.trans hkept
                    · exact ⟨hd, hkept⟩

/-- In an index without equal ids, a document is returned when it is selected. -/
theorem HashmapIndex.mem_queryAll {docs : List (K × Value S)}
    {query : List (Query L)} {results : List (K × Value S)}
    (hids : (docs.map Prod.fst).Nodup)
    (hresults : index.queryAll docs query = .ok results) (d : K × Value S)
    (hd : d ∈ docs) :
    d ∈ results ↔ index.selects query d.1 d.2 = .ok true := by
  unfold HashmapIndex.queryAll at hresults
  cases hqueried : index.queriedId query with
  | some queried =>
      rw [hqueried] at hresults
      obtain rfl := Except.ok.inj hresults
      simp only [HashmapIndex.selects, hqueried, Option.mem_toList,
        Except.ok.injEq, beq_iff_eq]
      constructor
      · intro hfind
        simpa using List.find?_some hfind
      · intro hid
        have hsome : (docs.find? (fun d => d.1 == queried)).isSome :=
          List.find?_isSome.mpr ⟨d, hd, by simpa using hid⟩
        obtain ⟨e, he⟩ := Option.isSome_iff_exists.mp hsome
        have hkey : e.1 = d.1 := by
          rw [hid]
          simpa using List.find?_some he
        rw [he, List.inj_on_of_nodup_map hids (List.mem_of_find?_eq_some he) hd
          hkey]
  | none =>
      rw [hqueried] at hresults
      exact (mem_queryDocuments hresults d).trans (and_iff_right hd)

end Index

end Indexer
end Peerbit
