import Peerbit.DString.StringIndex
import Peerbit.Lib.Occurrences

/-!
# Searching a string

A query of a string store has a value, and an option that lower-cases the value
and the content before the search.  The search then lower-cases the content once
more, whatever the option is, and looks for the value from one past its last hit
until there is none.

An empty value is found everywhere, also past the end, so its search never ends.
A value is searched in the lower-cased content also where the option is off.
-/

namespace Peerbit
namespace DString

open Lib

/-- `String.prototype.toLowerCase`. -/
structure LowerCase where
  toLowerCase : CodeUnits → CodeUnits
  toLowerCase_toLowerCase : ∀ s, toLowerCase (toLowerCase s) = toLowerCase s
  toLowerCase_eq_nil : ∀ s, toLowerCase s = [] ↔ s = []

structure RangeMetadata where
  offset : Nat
  length : Nat
deriving Repr, DecidableEq

structure StringMatch where
  value : CodeUnits
  exactMatch : Bool
deriving Repr, DecidableEq

inductive SearchResult where
  | NoAccess
  | StringResult (string : CodeUnits) (metadatas : Option (List RangeMetadata))
deriving Repr, DecidableEq

section Search

variable (lower : LowerCase)

def StringMatch.preprocess (query : StringMatch) (string : CodeUnits) : CodeUnits :=
  if query.exactMatch then lower.toLowerCase string else string

/-- The `while` loop of `findAllOccurrences`; none if it is still running. -/
def occurrencesLoop (str substr : CodeUnits) :
    Nat → Option Nat → List Nat → Option (List Nat)
  | _, none, result => some result
  | 0, some _, _ => none
  | fuel + 1, some idx, result =>
      occurrencesLoop str substr fuel (indexOf str substr (idx + 1)) (result ++ [idx])

def findAllOccurrences (fuel : Nat) (str substr : CodeUnits) : Option (List Nat) :=
  let str := lower.toLowerCase str
  occurrencesLoop str substr fuel (indexOf str substr 0) []

/-- The ranges of one query. -/
def occurrenceRanges (fuel : Nat) (content : CodeUnits) (query : StringMatch) :
    Option (List RangeMetadata) :=
  (findAllOccurrences lower fuel (query.preprocess lower content)
    (query.preprocess lower query.value)).map
    (fun occurrences => occurrences.map (⟨·, query.value.length⟩))

/-- The answer to a search request; no answer where nothing is found. -/
def queryHandler {κ : Type} (canRead : Option (κ → Bool)) (fuel : Nat)
    (content : CodeUnits) (queries : List StringMatch) (sender : κ) :
    Option (Option SearchResult) :=
  if canRead.any (fun canRead => !canRead sender) then
    some (some .NoAccess)
  else if queries.length = 0 then
    some (some (.StringResult content none))
  else
    (queries.mapM (occurrenceRanges lower fuel content)).map (fun ranges =>
      if ranges.flatten.length = 0 then
        none
      else
        some (.StringResult content (some ranges.flatten)))

end Search

/-! ### The loop -/

section Loop

variable {str substr : CodeUnits}

/-- The loop adds all offsets from its position on. -/
theorem occurrencesLoop_offsetsFrom (hsubstr : substr ≠ []) :
    ∀ (fuel position : Nat) (result : List Nat),
      (offsetsFrom str substr position).length ≤ fuel →
      occurrencesLoop str substr fuel (offsetsFrom str substr position).head? result =
        some (result ++ offsetsFrom str substr position) := by
  intro fuel
  induction fuel with
  | zero =>
      intro position result hfuel
      have hnil := List.eq_nil_of_length_eq_zero (Nat.le_zero.mp hfuel)
      simp [hnil, occurrencesLoop]
  | succ fuel ih =>
      intro position result hfuel
      cases hhead : (offsetsFrom str substr position).head? with
      | none =>
          have hnil := List.head?_eq_none_iff.mp hhead
          simp [hnil, occurrencesLoop]
      | some idx =>
          have hcons := offsetsFrom_eq_cons hhead
          rw [hcons, List.length_cons] at hfuel
          have hnext : indexOf str substr (idx + 1) =
              (offsetsFrom str substr (idx + 1)).head? :=
            indexOf_of_le (lt_of_head?_offsetsFrom hsubstr hhead)
          rw [occurrencesLoop, hnext, ih _ _ (Nat.le_of_succ_le_succ hfuel), hcons,
            List.append_assoc, List.singleton_append]

/-- The search for the empty value does not end. -/
theorem occurrencesLoop_nil (fuel position : Nat) (result : List Nat) :
    occurrencesLoop str [] fuel (indexOf str [] position) result = none := by
  induction fuel generalizing position result with
  | zero =>
      obtain ⟨idx, hidx⟩ := indexOf_nil str position
      rw [hidx, occurrencesLoop]
  | succ fuel ih =>
      obtain ⟨idx, hidx⟩ := indexOf_nil str position
      rw [hidx, occurrencesLoop]
      exact ih _ _

end Loop

section Terminates

variable {lower : LowerCase}

theorem findAllOccurrences_nil (fuel : Nat) (str : CodeUnits) :
    findAllOccurrences lower fuel str [] = none :=
  occurrencesLoop_nil fuel 0 []

/-- The search for another value ends, with its offsets in the lower-cased
string. -/
theorem findAllOccurrences_of_le {substr : CodeUnits} (hsubstr : substr ≠ [])
    (str : CodeUnits) {fuel : Nat} (hfuel : (lower.toLowerCase str).length + 1 ≤ fuel) :
    findAllOccurrences lower fuel str substr =
      some (offsets (lower.toLowerCase str) substr) := by
  have hlength : (offsetsFrom (lower.toLowerCase str) substr 0).length ≤ fuel := by
    refine Nat.le_trans ?_ hfuel
    rw [offsetsFrom_zero, offsets]
    exact Nat.le_trans (List.length_filter_le _ _) (Nat.le_of_eq List.length_range)
  have hloop := occurrencesLoop_offsetsFrom hsubstr fuel 0 [] hlength
  rw [List.nil_append, offsetsFrom_zero] at hloop
  have hfirst : indexOf (lower.toLowerCase str) substr 0 =
      (offsetsFrom (lower.toLowerCase str) substr 0).head? :=
    indexOf_of_le (Nat.zero_le _)
  rw [offsetsFrom_zero] at hfirst
  rw [← hfirst] at hloop
  exact hloop

/-- The search ends exactly for a value that is not empty. -/
theorem findAllOccurrences_ends_iff (str substr : CodeUnits) :
    (∃ fuel, (findAllOccurrences lower fuel str substr).isSome) ↔ substr ≠ [] := by
  constructor
  · rintro ⟨fuel, hfuel⟩ rfl
    rw [findAllOccurrences_nil] at hfuel
    exact Bool.false_ne_true hfuel
  · intro hsubstr
    refine ⟨(lower.toLowerCase str).length + 1, ?_⟩
    rw [findAllOccurrences_of_le hsubstr str le_rfl]
    rfl

end Terminates

/-! ### All queries -/

section Queries

variable (lower : LowerCase)

/-- The ranges where the preprocessed value occurs in the preprocessed content. -/
def matchRanges (content : CodeUnits) (query : StringMatch) : List RangeMetadata :=
  (offsets (query.preprocess lower content) (query.preprocess lower query.value)).map
    (⟨·, query.value.length⟩)

/-- The search of a query ends, with exactly these ranges. -/
def FindsMatches (content : CodeUnits) (query : StringMatch) : Prop :=
  ∃ n, ∀ fuel, n ≤ fuel →
    occurrenceRanges lower fuel content query = some (matchRanges lower content query)

/-- The searches of all queries end, each with exactly its ranges. -/
def FindsAll (content : CodeUnits) (queries : List StringMatch) : Prop :=
  ∃ n, ∀ fuel, n ≤ fuel →
    queries.mapM (occurrenceRanges lower fuel content) =
      some (queries.map (matchRanges lower content))

/-- A value that is not empty.  Without the option, lower-casing the content
neither makes an occurrence of it nor breaks one. -/
def Searchable (content : CodeUnits) (query : StringMatch) : Prop :=
  query.value ≠ [] ∧
    (query.exactMatch = false →
      ∀ i, occursAt (lower.toLowerCase content) query.value i =
        occursAt content query.value i)

variable {lower} {content : CodeUnits} {query : StringMatch}

theorem preprocess_eq_nil {string : CodeUnits} :
    query.preprocess lower string = [] ↔ string = [] := by
  unfold StringMatch.preprocess
  split
  · exact lower.toLowerCase_eq_nil string
  · exact Iff.rfl

/-- The option lower-cases the content for good. -/
theorem toLowerCase_preprocess (string : CodeUnits) :
    lower.toLowerCase (query.preprocess lower string) = lower.toLowerCase string := by
  unfold StringMatch.preprocess
  split
  · exact lower.toLowerCase_toLowerCase string
  · rfl

theorem findsMatches_iff_offsets (hvalue : query.value ≠ []) :
    FindsMatches lower content query ↔
      offsets (lower.toLowerCase content) (query.preprocess lower query.value) =
        offsets (query.preprocess lower content)
          (query.preprocess lower query.value) := by
  have hsubstr : query.preprocess lower query.value ≠ [] :=
    fun hnil => hvalue (preprocess_eq_nil.mp hnil)
  have hfound : ∀ fuel, (lower.toLowerCase content).length + 1 ≤ fuel →
      findAllOccurrences lower fuel (query.preprocess lower content)
        (query.preprocess lower query.value) =
      some (offsets (lower.toLowerCase content)
        (query.preprocess lower query.value)) := by
    intro fuel hfuel
    have hlower : lower.toLowerCase (query.preprocess lower content) =
        lower.toLowerCase content := toLowerCase_preprocess content
    rw [← hlower] at hfuel ⊢
    exact findAllOccurrences_of_le hsubstr _ hfuel
  have hinj : Function.Injective (RangeMetadata.mk · query.value.length) :=
    fun i j hij => congrArg RangeMetadata.offset hij
  unfold FindsMatches occurrenceRanges matchRanges
  constructor
  · rintro ⟨n, hn⟩
    have hmax := hn _ (Nat.le_max_left n ((lower.toLowerCase content).length + 1))
    rw [hfound _ (Nat.le_max_right _ _), Option.map_some] at hmax
    exact hinj.list_map (Option.some.inj hmax)
  · intro heq
    refine ⟨(lower.toLowerCase content).length + 1, fun fuel hfuel => ?_⟩
    rw [hfound fuel hfuel, heq, Option.map_some]

theorem not_findsMatches_nil (hvalue : query.value = []) :
    ¬ FindsMatches lower content query := by
  rintro ⟨n, hn⟩
  have hrun := hn n le_rfl
  rw [occurrenceRanges, preprocess_eq_nil.mpr hvalue, findAllOccurrences_nil] at hrun
  exact absurd hrun.symm (Option.some_ne_none _)

/-- One query finds its matches exactly if it is searchable. -/
theorem findsMatches_iff : FindsMatches lower content query ↔
    Searchable lower content query := by
  by_cases hvalue : query.value = []
  · constructor
    · exact fun h => (not_findsMatches_nil hvalue h).elim
    · exact fun h => (h.1 hvalue).elim
  · rw [findsMatches_iff_offsets hvalue]
    unfold Searchable StringMatch.preprocess
    cases query.exactMatch with
    | true => simp [hvalue]
    | false => simp [hvalue, offsets_eq_iff hvalue]

/-- The searches of the handler are those of its queries. -/
theorem findsAll_cons {queries : List StringMatch} :
    FindsAll lower content (query :: queries) ↔
      FindsMatches lower content query ∧ FindsAll lower content queries := by
  have hcons : ∀ fuel, (query :: queries).mapM (occurrenceRanges lower fuel content) =
      some ((query :: queries).map (matchRanges lower content)) ↔
      occurrenceRanges lower fuel content query =
          some (matchRanges lower content query) ∧
        queries.mapM (occurrenceRanges lower fuel content) =
          some (queries.map (matchRanges lower content)) := by
    intro fuel
    rw [List.mapM_cons, List.map_cons]
    cases occurrenceRanges lower fuel content query with
    | none => simp
    | some ranges =>
        cases queries.mapM (occurrenceRanges lower fuel content) <;> simp
  constructor
  · rintro ⟨n, hn⟩
    exact ⟨⟨n, fun fuel hfuel => ((hcons fuel).mp (hn fuel hfuel)).1⟩,
      ⟨n, fun fuel hfuel => ((hcons fuel).mp (hn fuel hfuel)).2⟩⟩
  · rintro ⟨⟨n, hn⟩, ⟨m, hm⟩⟩
    exact ⟨max n m, fun fuel hfuel =>
      (hcons fuel).mpr ⟨hn fuel (by omega), hm fuel (by omega)⟩⟩

theorem findsAll_iff_forall {queries : List StringMatch} :
    FindsAll lower content queries ↔
      ∀ query ∈ queries, FindsMatches lower content query := by
  induction queries with
  | nil =>
      constructor
      · simp
      · exact fun _ => ⟨0, fun _ _ => rfl⟩
  | cons query queries ih =>
      rw [findsAll_cons, ih, List.forall_mem_cons]

/-- Every list of queries is searched to its end, with the offsets of all values,
exactly if each query is searchable. -/
theorem findsAll_iff (lower : LowerCase) (content : CodeUnits)
    (queries : List StringMatch) :
    FindsAll lower content queries ↔
      ∀ query ∈ queries, Searchable lower content query :=
  findsAll_iff_forall.trans (forall₂_congr (fun _ _ => findsMatches_iff))

/-- The handler answers searchable queries with the ranges of all their matches. -/
theorem queryHandler_of_searchable {κ : Type} {canRead : Option (κ → Bool)} {sender : κ}
    {queries : List StringMatch} (hread : canRead.all (· sender)) (hne : queries ≠ [])
    (h : ∀ query ∈ queries, Searchable lower content query) :
    ∃ n, ∀ fuel, n ≤ fuel →
      queryHandler lower canRead fuel content queries sender =
        some (if queries.flatMap (matchRanges lower content) = [] then none
          else some (.StringResult content
            (some (queries.flatMap (matchRanges lower content))))) := by
  obtain ⟨n, hn⟩ : FindsAll lower content queries :=
    findsAll_iff_forall.mpr (fun query hquery => findsMatches_iff.mpr (h query hquery))
  refine ⟨n, fun fuel hfuel => ?_⟩
  have hallowed : canRead.any (fun canRead => !canRead sender) = false := by
    cases canRead with
    | none => rfl
    | some canRead => simpa using hread
  unfold queryHandler
  rw [if_neg (by simp [hallowed]), if_neg (by simpa using hne), hn fuel hfuel,
    Option.map_some, ← List.flatMap_def]
  simp only [List.length_eq_zero_iff]

end Queries

/-! ### Capital letters -/

namespace Letters

/-- Lower case of ASCII. -/
def toLower (c : UInt16) : UInt16 :=
  if 65 ≤ c ∧ c ≤ 90 then c + 32 else c

theorem toLower_toLower (c : UInt16) : toLower (toLower c) = toLower c := by
  unfold toLower
  grind

def ascii : LowerCase where
  toLowerCase := List.map toLower
  toLowerCase_toLowerCase s := by
    rw [List.map_map]
    exact List.map_congr_left (fun c _ => toLower_toLower c)
  toLowerCase_eq_nil s := List.map_eq_nil_iff

/-- The string `A`. -/
def capital : CodeUnits := [65]

/-- The letter itself is not found in its string; a search for nothing does not
end. -/
theorem not_findsAll_capital :
    ¬ FindsAll ascii capital [StringMatch.mk capital false] ∧
      ¬ FindsAll ascii capital [StringMatch.mk [] true] := by
  constructor
  · rintro ⟨n, hn⟩
    have hnone : [StringMatch.mk capital false].mapM
        (occurrenceRanges ascii n capital) = some [[]] := by
      cases n <;> rfl
    rw [hn n le_rfl] at hnone
    exact absurd hnone (by decide)
  · intro h
    exact not_findsMatches_nil rfl (findsAll_cons.mp h).1

end Letters

end DString
end Peerbit
