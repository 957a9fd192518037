import Peerbit.Indexer.SQLiteIndex

/-!
# Counting and iterating

The statement that counts documents counts joined rows, so a document counts once for
each choice of rows of the joined tables with which it satisfies the query.

Counting and iterating agree on the documents that match exactly when each of them does
so with one choice only, SQLite finds the names of the statements, and the documents of
a class that lacks a field of the query satisfy no part of it (`countAgrees_iff`).
-/

namespace Peerbit
namespace Indexer

open Sqlite Lib.LeftJoins

section Index

variable {L V : Type} [DecidableEq V]
variable {compares : L → SQLField → Option V → Option Bool}
variable {jsonGroupArray : List (List (SQLField × Option V)) → Option V}
variable {ix : SQLiteIndex V} {request : Request L} {shape : Option Shape}

/-! ### Counting -/

/-- How many joined rows satisfy the conditions. -/
def SQLiteIndex.countRows (ix : SQLiteIndex V)
    (compares : L → SQLField → Option V → Option Bool) (t : Table × Statement L) : Nat :=
  ((ix.rows t.1.name).flatMap (ix.joined t.1 t.2)).countP (t.2.holds compares)

theorem SQLiteIndex.countTable_of_ok {table : Table} {st : Statement L}
    (h : ix.convert table request.query = .ok st) :
    ix.countTable compares request table =
      if st.prepares [scopeOf table] then .ok (ix.countRows compares (table, st))
      else .error .refused := by
  rw [SQLiteIndex.countTable, h]
  rfl

theorem SQLiteIndex.countTable_of_error {table : Table} {e : SqlError}
    (h : ix.convert table request.query = .error e) :
    ix.countTable compares request table = .error e := by
  rw [SQLiteIndex.countTable, h]
  rfl

theorem SQLiteIndex.filterMap_countTable
    (hprepares : ∀ t ∈ ix.known request, t.2.prepares [scopeOf t.1] = true) :
    (ix.roots.map (ix.countTable compares request)).filterMap resultOf =
      (ix.known request).map (ix.countRows compares) := by
  rw [SQLiteIndex.known, List.filterMap_map, List.map_filterMap]
  refine List.filterMap_congr fun table htable => ?_
  rw [Function.comp_apply]
  cases hconvert : ix.convert table request.query with
  | error e =>
      rw [SQLiteIndex.countTable_of_error hconvert]
      rfl
  | ok st =>
      have hknown := hprepares (table, st) (SQLiteIndex.mem_known.mpr ⟨htable, hconvert⟩)
      rw [SQLiteIndex.countTable_of_ok hconvert, if_pos hknown]
      rfl

/-- There is a number when other tables of documents lack a field and the statements find
their names. -/
theorem SQLiteIndex.count_eq_ok_iff {n : Nat} :
    ix.count compares request = .ok n ↔
      (∀ table ∈ ix.roots, ∀ e, ix.convert table request.query = .error e →
          e.isMissingField = true) ∧
        (∀ t ∈ ix.known request, t.2.prepares [scopeOf t.1] = true) ∧
          ix.known request ≠ [] ∧
            n = ((ix.known request).map (ix.countRows compares)).sum := by
  rw [SQLiteIndex.count, Lib.Results.bind_eq_ok_iff]
  simp only [collect_eq_ok_iff]
  constructor
  · rintro ⟨counts, ⟨herrors, rfl, hne⟩, hn⟩
    have hprepares : ∀ t ∈ ix.known request, t.2.prepares [scopeOf t.1] = true := by
      rintro ⟨table, st⟩ ht
      obtain ⟨htable, hconvert⟩ := SQLiteIndex.mem_known.mp ht
      by_contra hnot
      have hrefused : ix.countTable compares request table = .error .refused := by
        rw [SQLiteIndex.countTable_of_ok hconvert, if_neg hnot]
      have hmissing := herrors .refused (hrefused ▸ List.mem_map_of_mem htable)
      cases hmissing
    rw [SQLiteIndex.filterMap_countTable hprepares] at hne hn
    refine ⟨fun table htable e he => herrors e ?_, hprepares, ?_, (Except.ok.inj hn).symm⟩
    · have herror : ix.countTable compares request table = .error e :=
        SQLiteIndex.countTable_of_error he
      exact herror ▸ List.mem_map_of_mem htable
    · exact fun hnil => hne (by rw [hnil, List.map_nil])
  · rintro ⟨hmissing, hprepares, hne, rfl⟩
    refine ⟨_, ⟨?_, (SQLiteIndex.filterMap_countTable hprepares).symm, ?_⟩, rfl⟩
    · intro e he
      obtain ⟨table, htable, he⟩ := List.mem_map.mp he
      cases hconvert : ix.convert table request.query with
      | error e' =>
          rw [SQLiteIndex.countTable_of_error hconvert] at he
          obtain rfl := Except.error.inj he
          exact hmissing table htable _ hconvert
      | ok st =>
          have hknown := hprepares (table, st) (SQLiteIndex.mem_known.mpr ⟨htable, hconvert⟩)
          rw [SQLiteIndex.countTable_of_ok hconvert, if_pos hknown] at he
          cases he
    · exact fun hnil => hne (List.map_eq_nil_iff.mp hnil)

/-- The documents of the tables that have the fields of the query. -/
def SQLiteIndex.knownRows (ix : SQLiteIndex V) (request : Request L) :
    List ((Table × Statement L) × Row V) :=
  (ix.known request).flatMap (fun t => (ix.rows t.1.name).map (fun row => (t, row)))

theorem sum_countRows (ts : List (Table × Statement L)) :
    (ts.map (ix.countRows compares)).sum =
      ((ts.flatMap (fun t => (ix.rows t.1.name).map (fun row => (t, row)))).map (fun x =>
        (ix.joined x.1.1 x.1.2 x.2).countP (x.1.2.holds compares))).sum := by
  induction ts with
  | nil => rfl
  | cons t ts ih =>
      rw [List.map_cons, List.sum_cons, ih, List.flatMap_cons, List.map_append, List.sum_append,
        SQLiteIndex.countRows, List.countP_flatMap, List.map_map]
      rfl

open Classical in
theorem length_matching_eq_countP :
    (ix.matching compares request).length =
      (ix.knownRows request).countP (fun x =>
        decide (Matches ix.rows compares x.1.1 x.1.2 x.2)) := by
  rw [SQLiteIndex.matching, SQLiteIndex.knownRows, List.length_flatMap, List.countP_flatMap]
  congr 1
  refine List.map_congr_left fun t _ => ?_
  rw [List.length_map, Function.comp_apply, List.countP_map, List.countP_eq_length_filter]
  rfl

/-- The count is right when documents match with one choice of rows. -/
theorem sum_countRows_eq_iff
    (hprepares : ∀ t ∈ ix.known request, t.2.prepares [scopeOf t.1] = true) :
    ((ix.known request).map (ix.countRows compares)).sum =
        (ix.matching compares request).length ↔
      ∀ t ∈ ix.known request, ∀ row ∈ ix.rows t.1.name,
        OneChoice ix.rows compares t.1 t.2 row := by
  classical
  have hroot : ∀ (table : Table) (row : Row V),
      startEnv table row (.table table.name) = some row :=
    fun table row => Function.update_self _ _ _
  have hmem : ∀ x, x ∈ ix.knownRows request ↔
      x.1 ∈ ix.known request ∧ x.2 ∈ ix.rows x.1.1.name := by
    rintro ⟨t, row⟩
    simp [SQLiteIndex.knownRows]
  rw [sum_countRows, length_matching_eq_countP, ← SQLiteIndex.knownRows, sum_eq_countP_iff]
  · constructor
    · intro hle t ht row hrow
      exact (countP_le_one_iff_oneChoice (hprepares t ht) (hroot t.1 row)).mp
        (hle (t, row) ((hmem _).mpr ⟨ht, hrow⟩))
    · intro hone x hx
      obtain ⟨ht, hrow⟩ := (hmem x).mp hx
      exact (countP_le_one_iff_oneChoice (hprepares x.1 ht) (hroot x.1.1 x.2)).mpr
        (hone x.1 ht x.2 hrow)
  · intro x hx
    rw [decide_eq_true_eq]
    exact countP_pos_iff_matches (hprepares x.1 ((hmem x).mp hx).1) (hroot x.1.1 x.2)

/-! ### Iterating -/

theorem mem_selectsOf {table : Table} {selected : Selected}
    {result : Except SqlError (Select L)} :
    result ∈ ix.selectsOf request table selected ↔
      ∃ p ∈ flatten request.props,
        (∃ e, ix.convert table p.query = .error e ∧ result = .error e) ∨
          ∃ statement, ix.convert table p.query = .ok statement ∧
            result = .ok { table, selected, statement } := by
  rw [SQLiteIndex.selectsOf, List.mem_map]
  refine exists_congr fun p => and_congr_right fun _ => ?_
  cases ix.convert table p.query with
  | error e =>
      constructor
      · rintro rfl
        exact Or.inl ⟨e, rfl, rfl⟩
      · rintro (⟨_, ⟨⟩, rfl⟩ | ⟨_, ⟨⟩, -⟩)
        rfl
  | ok statement =>
      constructor
      · rintro rfl
        exact Or.inr ⟨statement, rfl, rfl⟩
      · rintro (⟨_, ⟨⟩, -⟩ | ⟨_, ⟨⟩, rfl⟩)
        rfl

/-- What there is to know of the statements that are combined. -/
structure SQLiteIndex.Combined (ix : SQLiteIndex V) (request : Request L)
    (shape : Option Shape) (selects : List (Select L)) : Prop where
  shapes : ∀ table ∈ ix.roots, ∃ selected, selectAllFieldsFromTable table shape = .ok selected
  errors : ∀ table ∈ ix.roots, ∀ p ∈ flatten request.props, ∀ e,
    ix.convert table p.query = .error e → e.isMissingField = true
  mem : ∀ select, select ∈ selects ↔
    select.table ∈ ix.roots ∧
      selectAllFieldsFromTable select.table shape = .ok select.selected ∧
        ∃ p ∈ flatten request.props, ix.convert select.table p.query = .ok select.statement

theorem SQLiteIndex.collect_combined
    {selecteds : List Selected}
    (hselecteds : ix.roots.mapM (fun table => selectAllFieldsFromTable table shape) =
      .ok selecteds)
    {selects : List (Select L)} :
    collect ((ix.roots.zip selecteds).flatMap (fun t => ix.selectsOf request t.1 t.2)) =
        .ok selects ↔
      (∀ table ∈ ix.roots, ∀ p ∈ flatten request.props, ∀ e,
          ix.convert table p.query = .error e → e.isMissingField = true) ∧
        selects = ((ix.roots.zip selecteds).flatMap (fun t =>
          ix.selectsOf request t.1 t.2)).filterMap resultOf ∧ selects ≠ [] := by
  have hall := Lib.Results.mapM_eq_ok_iff.mp hselecteds
  rw [collect_eq_ok_iff]
  refine and_congr_left fun _ => ?_
  constructor
  · intro herrors table htable p hp e he
    obtain ⟨selected, hzip⟩ := Lib.Results.exists_mem_zip hall htable
    exact herrors e (List.mem_flatMap.mpr
      ⟨(table, selected), hzip, mem_selectsOf.mpr ⟨p, hp, Or.inl ⟨e, he, rfl⟩⟩⟩)
  · intro herrors e he
    obtain ⟨⟨table, selected⟩, hzip, he⟩ := List.mem_flatMap.mp he
    obtain ⟨p, hp, ⟨e', he', heq⟩ | ⟨statement, -, heq⟩⟩ := mem_selectsOf.mp he
    · cases heq
      exact herrors table (List.of_mem_zip hzip).1 p hp e he'
    · cases heq

theorem SQLiteIndex.combined_of_ok {selects : List (Select L)}
    (h : ix.convertSearchRequestToQuery request shape = .ok selects) :
    ix.Combined request shape selects := by
  rw [SQLiteIndex.convertSearchRequestToQuery, Lib.Results.bind_eq_ok_iff] at h
  obtain ⟨selecteds, hselecteds, h⟩ := h
  obtain ⟨herrors, rfl, -⟩ := (SQLiteIndex.collect_combined hselecteds).mp h
  have hall := Lib.Results.mapM_eq_ok_iff.mp hselecteds
  have hzip : ∀ {table selected}, (table, selected) ∈ ix.roots.zip selecteds →
      selectAllFieldsFromTable table shape = .ok selected :=
    fun h => (List.forall₂_iff_zip.mp hall).2 h
  refine ⟨?_, herrors, fun select => ?_⟩
  · intro table htable
    obtain ⟨selected, -, hselected⟩ := (Lib.Results.exists_of_forall₂ hall).1 table htable
    exact ⟨selected, hselected⟩
  · simp only [List.mem_filterMap, List.mem_flatMap]
    constructor
    · rintro ⟨result, ⟨⟨table, selected⟩, hmem, hresult⟩, hselect⟩
      obtain ⟨p, hp, ⟨e, -, rfl⟩ | ⟨statement, hconvert, rfl⟩⟩ := mem_selectsOf.mp hresult
      · cases hselect
      · obtain rfl := Option.some.inj hselect
        exact ⟨(List.of_mem_zip hmem).1, hzip hmem, p, hp, hconvert⟩
    · rintro ⟨htable, hselected, p, hp, hconvert⟩
      obtain ⟨selected, hmem⟩ := Lib.Results.exists_mem_zip hall htable
      have hsame := (hzip hmem).symm.trans hselected
      obtain rfl := Except.ok.inj hsame
      exact ⟨.ok select, ⟨(select.table, select.selected), hmem,
        mem_selectsOf.mpr ⟨p, hp, Or.inr ⟨select.statement, hconvert, rfl⟩⟩⟩, rfl⟩

/-- There are statements when the tables that lack a field are skipped, and one does
not. -/
theorem SQLiteIndex.exists_combined
    (hshapes : ∀ table ∈ ix.roots, ∃ selected,
      selectAllFieldsFromTable table shape = .ok selected)
    (herrors : ∀ table ∈ ix.roots, ∀ p ∈ flatten request.props, ∀ e,
      ix.convert table p.query = .error e → e.isMissingField = true)
    (hsome : ∃ table ∈ ix.roots, ∃ p ∈ flatten request.props, ∃ statement,
      ix.convert table p.query = .ok statement) :
    ∃ selects, ix.convertSearchRequestToQuery request shape = .ok selects := by
  obtain ⟨selecteds, hselecteds, hall⟩ := Lib.Results.mapM_ok
    (P := fun table selected => selectAllFieldsFromTable table shape = .ok selected)
    (fun table htable => (hshapes table htable).imp fun selected h => ⟨h, h⟩)
  refine ⟨((ix.roots.zip selecteds).flatMap (fun t =>
    ix.selectsOf request t.1 t.2)).filterMap resultOf, ?_⟩
  rw [SQLiteIndex.convertSearchRequestToQuery, Lib.Results.bind_eq_ok_iff]
  refine ⟨selecteds, hselecteds,
    (SQLiteIndex.collect_combined hselecteds).mpr ⟨herrors, rfl, ?_⟩⟩
  obtain ⟨table, htable, p, hp, statement, hconvert⟩ := hsome
  obtain ⟨selected, hzip⟩ := Lib.Results.exists_mem_zip hall htable
  refine List.ne_nil_of_mem (a := { table, selected, statement }) (List.mem_filterMap.mpr
    ⟨.ok { table, selected, statement }, List.mem_flatMap.mpr
      ⟨(table, selected), hzip, mem_selectsOf.mpr ⟨p, hp, ?_⟩⟩, rfl⟩)
  exact Or.inr ⟨statement, hconvert, rfl⟩

theorem mem_union {selects : List (Select L)} {r : Output V} :
    r ∈ ix.union compares jsonGroupArray selects ↔
      ∃ select ∈ selects, r ∈ ix.rowsOf compares jsonGroupArray select := by
  match selects with
  | [] => simp [SQLiteIndex.union]
  | [select] => simp [SQLiteIndex.union]
  | select :: select' :: rest => simp [SQLiteIndex.union]

/-- A statement returns rows when it selects something. -/
theorem exists_mem_rowsOf_iff {select : Select L} :
    (∃ r, r ∈ ix.rowsOf compares jsonGroupArray select) ↔ ix.Selects compares select := by
  have hnil : ix.rowsOf compares jsonGroupArray select = [] ↔
      (ix.rows select.table.name).flatMap
        (documentRows ix.rows compares select.table select.selected select.statement) = [] := by
    rw [SQLiteIndex.rowsOf, selectRows]
    split
    · rw [List.map_eq_nil_iff, List.dedup_eq_nil, List.map_eq_nil_iff]
    · rw [List.map_eq_nil_iff]
  rw [List.flatMap_eq_nil_iff] at hnil
  rw [SQLiteIndex.Selects]
  constructor
  · rintro ⟨r, hr⟩
    by_contra hnone
    refine List.ne_nil_of_mem hr (hnil.mpr fun row hrow => ?_)
    by_contra hne
    exact hnone ⟨row, hrow, hne⟩
  · rintro ⟨row, hrow, hne⟩
    exact List.exists_mem_of_ne_nil _ fun h => hne (hnil.mp h row hrow)

theorem table_of_mem_rowsOf {select : Select L} {r : Output V}
    (h : r ∈ ix.rowsOf compares jsonGroupArray select) : r.table = select.table.name := by
  rw [SQLiteIndex.rowsOf, selectRows] at h
  split at h
  · obtain ⟨key, -, rfl⟩ := List.mem_map.mp h
    rfl
  · obtain ⟨env, -, rfl⟩ := List.mem_map.mp h
    rfl

/-- A statement of a table that has the fields of the query. -/
theorem SQLiteIndex.Combined.unrepeated
    {selects : List (Select L)} (hcombined : ix.Combined request shape selects)
    (hknown : ∀ t ∈ ix.known request, t.2.prepares [scopeOf t.1] = true ∧
      ∀ row ∈ ix.rows t.1.name, OneChoice ix.rows compares t.1 t.2 row)
    {select : Select L} (hselect : select ∈ selects) {st : Statement L}
    (hst : ix.convert select.table request.query = .ok st) :
    Unrepeated ix.rows compares select.table select.selected select.statement := by
  obtain ⟨htable, hselected, p, hp, hconvert⟩ := (hcombined.mem select).mp hselect
  obtain ⟨hprepares, hone⟩ := hknown (select.table, st)
    (SQLiteIndex.mem_known.mpr ⟨htable, hst⟩)
  exact
    { apart := SQLiteIndex.apart htable hselected
      prepares := prepares_of_mem_flatten hst hp hconvert hprepares
      keys := ix.keys select.table htable
      one := fun row hrow => oneChoice_part hst hp hconvert hprepares (hone row hrow)
      single := fun hgroup j hj e =>
        SQLiteIndex.single_selectJoins htable hselected hgroup hj e }

theorem selectedOutput_document {table : Table} {selected : Selected}
    (hapart : Apart table selected) (row : Row V) :
    (selectedOutput jsonGroupArray ix.rows table selected row).document =
      documentOf table row := by
  obtain ⟨e, rest, hrows⟩ := List.exists_cons_of_ne_nil
    (joinAll_ne_nil (selectJoins ix.rows selected) (startEnv table row))
  have hroot := root_of_mem_joinAll hapart (hrows ▸ List.mem_cons_self :
    e ∈ joinAll (selectJoins ix.rows selected) (startEnv table row))
  rw [Output.document, documentOf, selectedOutput, outputOf, hrows]
  simp [keyOf, hroot]

theorem mem_matching {document : String × Option V} :
    document ∈ ix.matching compares request ↔
      ∃ t ∈ ix.known request, ∃ row ∈ ix.rows t.1.name,
        Matches ix.rows compares t.1 t.2 row ∧ documentOf t.1 row = document := by
  rw [SQLiteIndex.matching, List.mem_flatMap]
  simp only [List.mem_map, List.mem_filter, decide_eq_true_eq, and_assoc]

theorem documentOf_inj {table table' : Table} (htable : table ∈ ix.roots)
    (htable' : table' ∈ ix.roots) {row row' : Row V} (hrow : row ∈ ix.rows table.name)
    (hrow' : row' ∈ ix.rows table'.name) (h : documentOf table row = documentOf table' row') :
    table = table' ∧ row = row' := by
  obtain ⟨hname, hkey⟩ := Prod.mk.inj h
  obtain rfl := SQLiteIndex.root_inj htable htable' hname
  exact ⟨rfl, List.inj_on_of_nodup_map (ix.keys table htable) hrow hrow' hkey⟩

omit [DecidableEq V] in
theorem map_fst_sublist {α β : Type} (f : α → Option β) (l : List α) :
    ((l.filterMap (fun a => (f a).map (fun b => (a, b)))).map Prod.fst).Sublist l := by
  induction l with
  | nil => exact List.Sublist.refl _
  | cons a l ih =>
      rw [List.filterMap_cons]
      cases f a with
      | none => exact ih.cons a
      | some b => exact ih.cons_cons a

theorem nodup_matching : (ix.matching compares request).Nodup := by
  rw [SQLiteIndex.matching, List.nodup_flatMap]
  have hroots : ∀ t ∈ ix.known request, t.1 ∈ ix.roots :=
    fun t ht => (SQLiteIndex.mem_known.mp ht).1
  constructor
  · intro t ht
    have hkeys := ix.keys t.1 (hroots t ht)
    refine List.Nodup.map_on ?_ (hkeys.of_map.filter _)
    intro row hrow row' hrow' h
    exact (documentOf_inj (hroots t ht) (hroots t ht) (List.mem_filter.mp hrow).1
      (List.mem_filter.mp hrow').1 h).2
  · have hnodup : ((ix.known request).map Prod.fst).Nodup := by
      have hsublist : ((ix.known request).map Prod.fst).Sublist ix.roots :=
        map_fst_sublist _ _
      exact ((ix.names.sublist ((sublist_allOf _).map _)).of_map).sublist hsublist
    refine (List.pairwise_map.mp hnodup).imp_of_mem ?_
    intro t t' ht ht' hne document hmem hmem'
    obtain ⟨row, hrow, rfl⟩ := List.mem_map.mp hmem
    obtain ⟨row', hrow', h⟩ := List.mem_map.mp hmem'
    exact hne (documentOf_inj (hroots t ht) (hroots t' ht') (List.mem_filter.mp hrow).1
      (List.mem_filter.mp hrow').1 h.symm).1

section Combined

variable {selects : List (Select L)}
variable (h : ix.OneChoiceEach compares request shape)
variable (hcombined : ix.Combined request shape selects)
include h hcombined

/-- The statements find their names, and those of tables that lack a field return
nothing. -/
theorem SQLiteIndex.OneChoiceEach.select_cases
    {select : Select L} (hselect : select ∈ selects) :
    select.prepares = true ∧
      ((∃ st, ix.convert select.table request.query = .ok st) ∨
        ¬ ix.Selects compares select) := by
  obtain ⟨htable, hselected, p, hp, hconvert⟩ := (hcombined.mem select).mp hselect
  cases hwhole : ix.convert select.table request.query with
  | ok st =>
      refine ⟨?_, Or.inl ⟨st, rfl⟩⟩
      have hprepares := (hcombined.unrepeated h.known hselect hwhole).prepares
      have hdocuments := ix.documents select.table htable
      rw [Select.prepares, inScope_selected hdocuments.1 hdocuments.2 hselected, Bool.true_and]
      exact prepares_mono (List.cons_subset_cons _ (List.nil_subset _)) hprepares
  | error e =>
      have hpart := (h.unknown select.table htable e hwhole).2 select.selected hselected p hp
      rw [hconvert] at hpart
      exact ⟨hpart.1, Or.inr hpart.2⟩

/-- A row that is returned is what is selected of a document that matches. -/
theorem SQLiteIndex.OneChoiceEach.exists_of_mem_rowsOf
    {select : Select L} (hselect : select ∈ selects) {r : Output V}
    (hr : r ∈ ix.rowsOf compares jsonGroupArray select) :
    ∃ st, (select.table, st) ∈ ix.known request ∧
      ∃ row ∈ ix.rows select.table.name, Matches ix.rows compares select.table st row ∧
        r = selectedOutput jsonGroupArray ix.rows select.table select.selected row := by
  obtain ⟨htable, hselected, p, hp, hconvert⟩ := (hcombined.mem select).mp hselect
  rcases (h.select_cases hcombined hselect).2 with ⟨st, hst⟩ | hnone
  · have hmem := SQLiteIndex.mem_known.mpr (⟨htable, hst⟩ :
      (select.table, st).1 ∈ ix.roots ∧ _)
    obtain ⟨row, hrow, hmatches, hr⟩ :=
      (hcombined.unrepeated h.known hselect hst).mem_selectRows.mp hr
    exact ⟨st, hmem, row, hrow,
      matches_of_part hst hp hconvert (h.known _ hmem).1 hmatches, hr⟩
  · exact absurd (exists_mem_rowsOf_iff.mp ⟨r, hr⟩) hnone

theorem SQLiteIndex.OneChoiceEach.nodup_union :
    (ix.union compares jsonGroupArray selects).Nodup := by
  match selects, hcombined with
  | [], _ => exact List.nodup_dedup _
  | [select], hcombined =>
      rw [SQLiteIndex.union]
      rcases (h.select_cases hcombined List.mem_cons_self).2 with ⟨st, hst⟩ | hnone
      · exact (hcombined.unrepeated h.known List.mem_cons_self hst).nodup_selectRows.of_map
      · have hnil : ix.rowsOf compares jsonGroupArray select = [] :=
          List.eq_nil_iff_forall_not_mem.mpr fun r hr =>
            hnone (exists_mem_rowsOf_iff.mp ⟨r, hr⟩)
        rw [hnil]
        exact List.nodup_nil
  | select :: select' :: rest, _ => exact List.nodup_dedup _

/-- The rows are of different documents. -/
theorem SQLiteIndex.OneChoiceEach.nodup_documents :
    ((ix.union compares jsonGroupArray selects).map Output.document).Nodup := by
  refine (h.nodup_union hcombined).map_on ?_
  intro r hr r' hr' hsame
  obtain ⟨select, hselect, hr⟩ := mem_union.mp hr
  obtain ⟨select', hselect', hr'⟩ := mem_union.mp hr'
  obtain ⟨htable, hselected, -⟩ := (hcombined.mem select).mp hselect
  obtain ⟨htable', hselected', -⟩ := (hcombined.mem select').mp hselect'
  obtain ⟨st, -, row, hrow, -, rfl⟩ := h.exists_of_mem_rowsOf hcombined hselect hr
  obtain ⟨st', -, row', hrow', -, rfl⟩ := h.exists_of_mem_rowsOf hcombined hselect' hr'
  rw [selectedOutput_document (SQLiteIndex.apart htable hselected),
    selectedOutput_document (SQLiteIndex.apart htable' hselected')] at hsame
  obtain ⟨heq, rfl⟩ := documentOf_inj htable htable' hrow hrow' hsame
  rw [← heq] at hselected' ⊢
  rw [Except.ok.inj (hselected.symm.trans hselected')]

theorem SQLiteIndex.OneChoiceEach.mem_documents {document : String × Option V} :
    document ∈ (ix.union compares jsonGroupArray selects).map Output.document ↔
      document ∈ ix.matching compares request := by
  rw [List.mem_map, mem_matching]
  constructor
  · rintro ⟨r, hr, rfl⟩
    obtain ⟨select, hselect, hr⟩ := mem_union.mp hr
    obtain ⟨htable, hselected, -⟩ := (hcombined.mem select).mp hselect
    obtain ⟨st, hst, row, hrow, hmatches, rfl⟩ := h.exists_of_mem_rowsOf hcombined hselect hr
    exact ⟨(select.table, st), hst, row, hrow, hmatches,
      (selectedOutput_document (SQLiteIndex.apart htable hselected) row).symm⟩
  · rintro ⟨⟨table, st⟩, ht, row, hrow, hmatches, rfl⟩
    obtain ⟨htable, hst⟩ := SQLiteIndex.mem_known.mp ht
    obtain ⟨selected, hselected⟩ := hcombined.shapes table htable
    obtain ⟨p, hp, hpart⟩ := exists_part_of_matches hst (h.known _ ht).1 hmatches
    have hconvert := exists_converted_of_mem_flatten hst hp
    let select : Select L :=
      { table
        selected
        statement := statement ix.schemaKeys (Table.allOf ix.roots).length table p.query }
    have hselect : select ∈ selects :=
      (hcombined.mem select).mpr ⟨htable, hselected, p, hp, hconvert⟩
    refine ⟨selectedOutput jsonGroupArray ix.rows table selected row, ?_,
      selectedOutput_document (SQLiteIndex.apart htable hselected) row⟩
    refine mem_union.mpr ⟨select, hselect, ?_⟩
    exact (hcombined.unrepeated h.known hselect hst).mem_selectRows.mpr
      ⟨row, hrow, hpart, rfl⟩

end Combined

theorem SQLiteIndex.OneChoiceEach.countAgrees
    (h : ix.OneChoiceEach compares request shape) :
    ix.CountAgrees compares jsonGroupArray request shape := by
  have hmissing : ∀ table ∈ ix.roots, ∀ e, ix.convert table request.query = .error e →
      e.isMissingField = true := fun table htable e he => (h.unknown table htable e he).1
  have herrors : ∀ table ∈ ix.roots, ∀ p ∈ flatten request.props, ∀ e,
      ix.convert table p.query = .error e → e.isMissingField = true := by
    intro table htable p hp e he
    cases hwhole : ix.convert table request.query with
    | ok st =>
        have hconvert := exists_converted_of_mem_flatten hwhole hp
        cases he.symm.trans hconvert
    | error e' =>
        obtain ⟨selected, hselected⟩ := h.shapes table htable
        have hpart := (h.unknown table htable e' hwhole).2 selected hselected p hp
        rwa [he] at hpart
  have hsome : ∃ table ∈ ix.roots, ∃ p ∈ flatten request.props, ∃ statement,
      ix.convert table p.query = .ok statement := by
    obtain ⟨t, ht⟩ := List.exists_mem_of_ne_nil _ h.some_known
    obtain ⟨p, hp⟩ := List.exists_mem_of_ne_nil _ (flatten_ne_nil request.props)
    obtain ⟨htable, hst⟩ := SQLiteIndex.mem_known.mp ht
    exact ⟨t.1, htable, p, hp, _, exists_converted_of_mem_flatten hst hp⟩
  obtain ⟨selects, hselects⟩ := SQLiteIndex.exists_combined h.shapes herrors hsome
  have hcombined := SQLiteIndex.combined_of_ok hselects
  refine ⟨ix.union compares jsonGroupArray selects, ?_, ?_, ?_⟩
  · rw [SQLiteIndex.iterate, Lib.Results.bind_eq_ok_iff]
    refine ⟨selects, hselects, if_pos (List.all_eq_true.mpr fun select hselect => ?_)⟩
    exact (h.select_cases hcombined hselect).1
  · exact (List.perm_ext_iff_of_nodup (h.nodup_documents hcombined) nodup_matching).mpr
      fun document => h.mem_documents hcombined
  · refine SQLiteIndex.count_eq_ok_iff.mpr
      ⟨hmissing, fun t ht => (h.known t ht).1, h.some_known, ?_⟩
    exact ((sum_countRows_eq_iff fun t ht => (h.known t ht).1).mpr
      fun t ht => (h.known t ht).2).symm

/-- Iterating and counting agree on the documents that match exactly when these match
with one choice of rows. -/
theorem countAgrees_iff :
    ix.CountAgrees compares jsonGroupArray request shape ↔
      ix.OneChoiceEach compares request shape := by
  refine ⟨?_, SQLiteIndex.OneChoiceEach.countAgrees⟩
  rintro ⟨rows, hiterate, hperm, hcount⟩
  obtain ⟨hmissing, hprepares, hne, hlength⟩ := SQLiteIndex.count_eq_ok_iff.mp hcount
  have hone := (sum_countRows_eq_iff hprepares).mp hlength.symm
  rw [SQLiteIndex.iterate, Lib.Results.bind_eq_ok_iff] at hiterate
  obtain ⟨selects, hselects, hrows⟩ := hiterate
  split at hrows
  · rename_i hall
    obtain rfl := Except.ok.inj hrows
    have hcombined := SQLiteIndex.combined_of_ok hselects
    refine ⟨hcombined.shapes, hne, fun t ht => ⟨hprepares t ht, hone t ht⟩, ?_⟩
    intro table htable e he
    refine ⟨hmissing table htable e he, fun selected hselected p hp => ?_⟩
    cases hconvert : ix.convert table p.query with
    | error e' => exact hcombined.errors table htable p hp e' hconvert
    | ok statement =>
        have hselect : { table, selected, statement } ∈ selects :=
          (hcombined.mem _).mpr ⟨htable, hselected, p, hp, hconvert⟩
        refine ⟨List.all_eq_true.mp hall _ hselect, fun hsome => ?_⟩
        obtain ⟨r, hr⟩ := exists_mem_rowsOf_iff.mpr hsome
        have hdocument := hperm.subset (List.mem_map_of_mem
          (mem_union.mpr ⟨_, hselect, hr⟩))
        obtain ⟨t, ht, row, -, -, heq⟩ := mem_matching.mp hdocument
        obtain ⟨htable', hst⟩ := SQLiteIndex.mem_known.mp ht
        have hname : t.1.name = table.name :=
          (Prod.mk.inj heq).1.trans (table_of_mem_rowsOf hr)
        rw [SQLiteIndex.root_inj htable' htable hname, he] at hst
        cases hst
  · cases hrows

end Index

namespace TaggedPost

/-- A post with tags. -/
def post : Ctor :=
  .mk (some 0) "Post" [.mk "id" .plain (.simple .string), .mk "tags" .vec (.simple .string)]

def postTable : Table := rootTable [] "id" post

def tagsTable : String := "Post__tags__v_wrapped"

def postRow : Row String := fun column => if column = "id" then some "hello" else none

def tagRow (id tag : String) : Row String := fun column =>
  if column = CHILD_TABLE_ID then some id
  else if column = PARENT_TABLE_ID then some "hello"
  else if column = FOREIGN_VALUE_PROPERTY then some tag
  else none

def rows (tags : List (Row String)) (name : String) : List (Row String) :=
  if name = "Post" then [postRow] else if name = tagsTable then tags else []

def keys (table : Table) : List String :=
  if table.name = "Post" then ["id", "tags"] else [FOREIGN_VALUE_PROPERTY]

def index (tags : List (Row String)) : SQLiteIndex String where
  roots := [postTable]
  schemaKeys := keys
  rows := rows tags
  names := by decide
  documents := by decide
  keys := by
    intro table htable
    obtain rfl := List.mem_singleton.mp htable
    exact List.nodup_singleton _
  single := by
    intro root hroot table htable hinline harray
    obtain rfl := List.mem_singleton.mp hroot
    have harrays : ∀ table ∈ Table.allOf postTable.children,
        table.referencedInArray = true := by decide
    rw [harrays table htable] at harray
    cases harray

/-- The posts that have a tag "new". -/
def request : Request String where
  query := [.field (.state (.compare ["tags"] "new"))]
  built := by
    intro q hq
    obtain rfl := List.mem_singleton.mp hq
    exact .state _

def compares (comparison : String) (_ : SQLField) (value : Option String) : Option Bool :=
  value.map (fun value => value == comparison)


/-- The column of the tags. -/
def tagColumn : SQLField := simpleColumn [tagsTable] (some CHILD_TABLE_ID) none
  FOREIGN_VALUE_PROPERTY .string

/-- The table of the tags. -/
def tagTable : Table :=
  childTable ["Post", "tags"] (addJoinFields "Post" "id" postTable.fields) true true wrappedName
    { fields := [tagColumn], dependencies := [] }

theorem postTable_children : postTable.children = [tagTable] := rfl

def tagJoin : Join where
  table := tagsTable
  primary := some CHILD_TABLE_ID
  parent := some ("Post", some "id")

theorem convert_value :
    convertStateField keys [] 0 { table := tagTable, ancestors := [postTable] }
        (some (.query tagsTable)) [tagsTable] (.compare ["value"] "new") =
      .ok { joins := [], where_ := .field (.compare (.query tagsTable) tagColumn "new") } := by
  rw [convertStateField]
  rfl

theorem sizeOf_tagTable : sizeOf tagTable < sizeOf postTable :=
  sizeOf_child (postTable_children ▸ List.mem_singleton_self _)

theorem resolve_tags :
    resolveTableToQuery keys { table := postTable, ancestors := [] } ["tags"] =
      .ok { queryKey := "value"
            foreignTables := [.below tagTable postTable [] sizeOf_tagTable]
            joins := [tagJoin] } :=
  rfl

theorem convert_tags :
    convertStateField keys [] 0 { table := postTable, ancestors := [] } none []
        (.compare ["tags"] "new") =
      .ok { joins := [tagJoin]
            where_ := .or [.field (.compare (.query tagsTable) tagColumn "new")] } := by
  have hnone : postTable.fields.find? (fun field => field.name == inlineFieldName ["tags"]) =
      none := rfl
  rw [convertStateField]
  dsimp only [StateFieldQuery.key, List.drop, List.nil_append]
  rw [hnone]
  exact Lib.Results.bind_eq_ok_iff.mpr ⟨_, resolve_tags, Lib.Results.bind_eq_ok_iff.mpr
    ⟨_, Lib.Results.mapM_eq_ok_iff.mpr (.cons convert_value .nil), rfl⟩⟩

def tagStatement : Statement String where
  joins := [tagJoin]
  where_ := .and [.or [.field (.compare (.query tagsTable) tagColumn "new")]]

theorem convert_request (tags : List (Row String)) :
    (index tags).convert postTable request.query = .ok tagStatement := by
  rw [SQLiteIndex.convert, convertRequestToQuery, request, convertQueries, convertQuery,
    convertLeaf,
    show (index tags).schemaKeys = keys from rfl, convert_tags]
  rfl

theorem known_eq (tags : List (Row String)) :
    (index tags).known request = [(postTable, tagStatement)] := by
  rw [SQLiteIndex.known, show (index tags).roots = [postTable] from rfl, List.filterMap_cons,
    convert_request]
  rfl

/-- Two tags "new" are counted twice. -/
theorem count_two :
    (index [tagRow "1" "new", tagRow "2" "new"]).count compares request = .ok 2 := by
  refine SQLiteIndex.count_eq_ok_iff.mpr ⟨?_, ?_, ?_, ?_⟩
  · intro table htable e he
    obtain rfl := List.mem_singleton.mp htable
    rw [convert_request] at he
    cases he
  · rw [known_eq, List.forall_mem_singleton]
    decide
  · rw [known_eq]
    exact List.cons_ne_nil _ _
  · rw [known_eq]
    decide

/-- There is one post. -/
theorem length_matching_le_one (tags : List (Row String)) :
    ((index tags).matching compares request).length ≤ 1 := by
  rw [length_matching_eq_countP]
  refine le_trans List.countP_le_length ?_
  rw [SQLiteIndex.knownRows, known_eq]
  exact Nat.le_refl 1

theorem not_countAgrees :
    ¬ (index [tagRow "1" "new", tagRow "2" "new"]).CountAgrees compares (fun _ => none)
      request none := by
  rintro ⟨rows, -, -, hcount⟩
  rw [count_two] at hcount
  have hle := length_matching_le_one [tagRow "1" "new", tagRow "2" "new"]
  rw [← Except.ok.inj hcount] at hle
  omega

theorem select_post :
    ∃ selected, selectAllFieldsFromTable postTable none = .ok selected := by
  have htags : ∃ selected, selectAll [({ table := tagTable, ancestors := [postTable] }, none)] =
      .ok selected := by
    rw [selectAll]
    exact ⟨_, Lib.Results.bind_eq_ok_iff.mpr ⟨_, rfl, Lib.Results.bind_eq_ok_iff.mpr
      ⟨_, selectAll.eq_1, rfl⟩⟩⟩
  obtain ⟨selected, htags⟩ := htags
  have hpost : selectAll [({ table := postTable, ancestors := [] }, none)] =
      .ok (Selected.append
        { resolvers :=
            [.column "Post" (simpleColumn ["Post"] (some "id") (some 0) "id" .string)]
          joins := []
          groupByParentId := false } selected) := by
    rw [selectAll]
    exact Lib.Results.bind_eq_ok_iff.mpr ⟨_, rfl, Lib.Results.bind_eq_ok_iff.mpr
      ⟨_, htags, rfl⟩⟩
  exact ⟨_, Lib.Results.bind_eq_ok_iff.mpr ⟨_, hpost, rfl⟩⟩

theorem countAgrees_one :
    (index [tagRow "1" "new", tagRow "2" "old"]).CountAgrees compares (fun _ => none)
      request none := by
  refine countAgrees_iff.mpr
    { shapes := ?_
      some_known := ?_
      known := ?_
      unknown := ?_ }
  · intro table htable
    obtain rfl := List.mem_singleton.mp htable
    exact select_post
  · rw [known_eq]
    exact List.cons_ne_nil _ _
  · rw [known_eq, List.forall_mem_singleton]
    have hprepares : tagStatement.prepares [scopeOf postTable] = true := by decide
    refine ⟨hprepares, fun row hrow => ?_⟩
    obtain rfl := List.mem_singleton.mp hrow
    have hroot : startEnv postTable postRow (.table postTable.name) = some postRow :=
      Function.update_self _ _ _
    rw [← countP_le_one_iff_oneChoice hprepares hroot]
    decide
  · intro table htable e he
    obtain rfl := List.mem_singleton.mp htable
    rw [convert_request] at he
    cases he

end TaggedPost

end Indexer
end Peerbit
