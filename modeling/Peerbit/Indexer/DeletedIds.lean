import Peerbit.Indexer.DeletedRows

/-!
# Ids that are deleted

Iterating converts the key of a document back to the type of its field before it makes
an id of it, and `del` makes an id of the key as it is stored.  A `u64` is stored with
an offset, and a smaller integer is read as a `bigint` by some drivers.

The ids that `del` returns are those that were iterated, and none of them is left, exactly
when the matching documents have no such keys, and the other tables of documents have
nothing to do with the query (`reportsDeleted_iff`).
-/

namespace Peerbit
namespace Indexer

open Sqlite Lib.LeftJoins

/-! ### Ids -/

inductive IdKey where
  | stringKey (key : String)
  | uint8ArrayKey (key : List UInt8)
  | integerKey (key : Int)
  | largeIntegerKey (key : Int)
deriving DecidableEq

def toId : Scalar → Except SqlError IdKey
  | .string key => .ok (.stringKey key)
  | .number key => .ok (.integerKey key)
  | .bigint key =>
      if key ≤ 18446744073709551615 ∧ 0 ≤ key then .ok (.largeIntegerKey key)
      else .error .unexpected
  | .bytes key => .ok (.uint8ArrayKey key)
  | _ => .error .unexpected

section Reading

variable (asNumber : Int → Bool)

/-- A value of a row, where the driver hands out some integers as a `number` and the
others as a `bigint`. -/
def readBy : SqlValue → Scalar
  | .integer n => if asNumber n then .number n else .bigint n
  | value => value.read

/-- The type of `primaryField`. -/
def primaryType (table : Table) : Option SimpleType :=
  (table.fields.find? SQLField.isPrimary).bind SQLField.unwrappedType

/-- The id of a document that is iterated. -/
def iteratedId (table : Table) (value : Option SqlValue) : Except SqlError IdKey :=
  match primaryType table with
  | none => .error .unexpected
  | some type =>
      match convertFromSQLType (readBy asNumber (value.getD .null)) type with
      | .error _ => .error .unexpected
      | .ok id => toId id

/-- The id of a document that is deleted. -/
def deletedId (_ : Table) (value : Option SqlValue) : Except SqlError IdKey :=
  toId (readBy asNumber (value.getD .null))

/-- The id of a row that is returned: its table is the one whose key is not null. -/
def SQLiteIndex.resultId (ix : SQLiteIndex SqlValue) (r : Output SqlValue) :
    Except SqlError IdKey :=
  match r.id, ix.roots.find? (fun table => table.name == r.table) with
  | some value, some table => iteratedId asNumber table (some value)
  | _, _ => .error .unexpected

end Reading

section Index

variable {L : Type} (asNumber : Int → Bool)
variable (compares : L → SQLField → Option SqlValue → Option Bool)
variable (jsonGroupArray : List (List (SQLField × Option SqlValue)) → Option SqlValue)
variable (request : Request L) (shape : Option Shape)

/-- The ids that are iterated. -/
def SQLiteIndex.iterateIds (ix : SQLiteIndex SqlValue) : Except SqlError (List IdKey) := do
  let rows ← ix.iterate compares jsonGroupArray request shape
  rows.mapM (ix.resultId asNumber)

/-- The keys of the documents are ids, stored with the type of their field. -/
def SQLiteIndex.HasIds (ix : SQLiteIndex SqlValue) : Prop :=
  ∀ table ∈ ix.roots, ∃ type, primaryType table = some type ∧ type ≠ .bool ∧
    ∀ row ∈ ix.rows table.name, ∃ id, type.Holds id ∧
      primaryOf table row = some (convertToSQLType id type).sql

/-- An index whose id field has a type that is supported. -/
structure KeyedIndex extends SQLiteIndex SqlValue where
  linked : ∀ root ∈ roots, Linked root
  ids : toSQLiteIndex.HasIds

/-- The ids that are returned by `del` are those that are iterated before, and none of
them is iterated after. -/
def KeyedIndex.ReportsDeleted (ix : KeyedIndex) (before : List IdKey) : Prop :=
  ∃ ids, (ix.del compares (deletedId asNumber) request).2 = .ok ids ∧
    (∀ id, id ∈ ids ↔ id ∈ before) ∧
      ∃ after, (ix.del compares (deletedId asNumber) request).1.iterateIds asNumber compares
          jsonGroupArray request shape = .ok after ∧
        ∀ id ∈ after, id ∉ ids

/-- The id that is made of a key as it is stored is that of the field. -/
def KeepsId : SimpleType → SqlValue → Prop
  | .u64, _ => False
  | _, .integer n => asNumber n = true
  | _, _ => True

/-- Some table of documents has the fields of the query, and SQLite finds the names of
the statements that delete.  The documents that match have keys that are ids as they are
stored, and none of the other tables is iterated. -/
structure KeyedIndex.DeletesMatching (ix : KeyedIndex) : Prop where
  missing : ∀ table ∈ ix.roots, ∀ e, ix.convert table request.query = .error e →
    e.isMissingField = true
  some_known : ix.known request ≠ []
  accepted : ∀ t ∈ ix.known request, ix.preparesDelete t.1 t.2 = true
  ids : ∀ t ∈ ix.known request, ∀ row ∈ ix.rows t.1.name, Matches ix.rows compares t.1 t.2 row →
    ∀ type ∈ primaryType t.1, ∀ value ∈ primaryOf t.1 row, KeepsId asNumber type value
  unknown : ∀ table ∈ ix.roots, ∀ e, ix.convert table request.query = .error e →
    ∀ selected, selectAllFieldsFromTable table shape = .ok selected →
      ∀ p ∈ flatten request.props, ∀ statement, ix.convert table p.query = .ok statement →
        ¬ ix.Selects compares { table, selected, statement }

end Index

/-! ### Keys that are read -/

section Keys

variable {asNumber : Int → Bool} {table : Table} {type : SimpleType} {id : Scalar}
variable {value : SqlValue} {n : Int}

theorem reads_readBy (value : SqlValue) : value.Reads (readBy asNumber value) := by
  cases value with
  | integer n =>
      rw [readBy]
      split
      · exact Or.inl rfl
      · exact Or.inr rfl
  | null => rfl
  | text s => rfl
  | blob b => rfl

/-- The id of a document is that of its field. -/
theorem iteratedId_of_holds (htype : primaryType table = some type) (hid : type.Holds id) :
    iteratedId asNumber table (some (convertToSQLType id type).sql) = toId id := by
  rw [iteratedId, htype, Option.getD_some]
  dsimp only
  rw [convertFromSQLType_of_reads (Or.inr hid) (reads_readBy _)]

/-- A `number` is stored as it is. -/
theorem sql_of_number (hid : type.Holds (.number n)) :
    (convertToSQLType (.number n) type).sql = .integer n := by
  cases type <;> obtain ⟨m, hm⟩ := hid
  case u64 => cases hm.1
  case bool => cases hm
  all_goals rfl

theorem exists_toId (hid : type.Holds id) (hbool : type ≠ .bool) : ∃ key, toId id = .ok key := by
  cases type <;> obtain ⟨n, hn⟩ := hid
  case bool => exact absurd rfl hbool
  case string =>
    subst hn
    exact ⟨_, rfl⟩
  case bytes =>
    subst hn
    exact ⟨_, rfl⟩
  case u64 =>
    obtain ⟨rfl, hmin, hmax⟩ := hn
    exact ⟨.largeIntegerKey n, if_pos ⟨by omega, hmin⟩⟩
  all_goals
    obtain ⟨rfl, -⟩ := hn
    exact ⟨_, rfl⟩

/-- A key that is an id as it is stored. -/
theorem deletedId_of_keeps
    (hid : type.Holds id) (hbool : type ≠ .bool)
    (hkeeps : KeepsId asNumber type (convertToSQLType id type).sql) :
    deletedId asNumber table (some (convertToSQLType id type).sql) = toId id := by
  cases type <;> obtain ⟨n, hn⟩ := hid
  case bool => exact absurd rfl hbool
  case u64 => cases hkeeps
  case string =>
    subst hn
    rfl
  case bytes =>
    subst hn
    rfl
  all_goals
    obtain ⟨rfl, -⟩ := hn
    rw [deletedId, Option.getD_some]
    exact congrArg toId (if_pos hkeeps)

/-- Which keys are deleted as ids that are integers. -/
theorem deletedId_integer_cases
    {key : IdKey} (h : deletedId asNumber table (some (.integer n)) = .ok key) :
    (asNumber n = true ∧ key = .integerKey n) ∨
      asNumber n = false ∧ key = .largeIntegerKey n := by
  rw [deletedId, Option.getD_some, readBy] at h
  cases hnumber : asNumber n with
  | true =>
      rw [hnumber] at h
      exact Or.inl ⟨rfl, (Except.ok.inj h).symm⟩
  | false =>
      rw [hnumber, if_neg Bool.false_ne_true, toId] at h
      split at h
      · exact Or.inr ⟨rfl, (Except.ok.inj h).symm⟩
      · cases h

/-- The other keys are not integers. -/
theorem exists_integer_of_deletedId
    {key : IdKey} (h : deletedId asNumber table (some value) = .ok key)
    (hkey : key = .integerKey n ∨ key = .largeIntegerKey n) : ∃ m, value = .integer m := by
  cases value with
  | integer m => exact ⟨m, rfl⟩
  | null => cases h
  | text s =>
      obtain rfl := Except.ok.inj h
      rcases hkey with heq | heq <;> cases heq
  | blob b =>
      obtain rfl := Except.ok.inj h
      rcases hkey with heq | heq <;> cases heq

theorem number_of_deletedId
    (h : deletedId asNumber table (some value) = .ok (.integerKey n)) :
    value = .integer n ∧ asNumber n = true := by
  obtain ⟨m, rfl⟩ := exists_integer_of_deletedId h (Or.inl rfl)
  rcases deletedId_integer_cases h with ⟨hnumber, heq⟩ | ⟨-, heq⟩
  · obtain rfl := IdKey.integerKey.inj heq
    exact ⟨rfl, hnumber⟩
  · cases heq

theorem bigint_of_deletedId
    (h : deletedId asNumber table (some value) = .ok (.largeIntegerKey n)) :
    value = .integer n ∧ asNumber n = false := by
  obtain ⟨m, rfl⟩ := exists_integer_of_deletedId h (Or.inr rfl)
  rcases deletedId_integer_cases h with ⟨-, heq⟩ | ⟨hnumber, heq⟩
  · cases heq
  · obtain rfl := IdKey.largeIntegerKey.inj heq
    exact ⟨rfl, hnumber⟩

end Keys

/-! ### Documents that are iterated -/

section Iterated

variable {L V : Type} [DecidableEq V] {ix ix' : SQLiteIndex V}
variable {compares : L → SQLField → Option V → Option Bool}
variable {jsonGroupArray : List (List (SQLField × Option V)) → Option V}
variable {request : Request L} {shape : Option Shape} {table : Table} {row : Row V}

/-- A document that is in what some statement returns. -/
def SQLiteIndex.Iterates (ix : SQLiteIndex V)
    (compares : L → SQLField → Option V → Option Bool) (request : Request L)
    (shape : Option Shape) (table : Table) (row : Row V) : Prop :=
  table ∈ ix.roots ∧ row ∈ ix.rows table.name ∧
    ∃ selected, selectAllFieldsFromTable table shape = .ok selected ∧
      ∃ p ∈ flatten request.props, ∃ statement, ix.convert table p.query = .ok statement ∧
        documentRows ix.rows compares table selected statement row ≠ []

variable (jsonGroupArray) in
omit [DecidableEq V] in
theorem id_outputOf (selected : Selected) {group : List (Env V)} {key : Option V}
    (hne : group ≠ []) (hkeys : ∀ e ∈ group, keyOf table e = key) :
    (outputOf jsonGroupArray table selected group).id = key := by
  obtain ⟨first, rest, rfl⟩ := List.exists_cons_of_ne_nil hne
  exact hkeys first List.mem_cons_self

/-- The documents of the rows that a statement returns. -/
theorem exists_mem_rowsOf_document_iff
    {select : Select L} (hapart : Apart select.table select.selected)
    {document : String × Option V} :
    (∃ r ∈ ix.rowsOf compares jsonGroupArray select, r.document = document) ↔
      ∃ row ∈ ix.rows select.table.name,
        documentRows ix.rows compares select.table select.selected select.statement row ≠ [] ∧
          documentOf select.table row = document := by
  rw [SQLiteIndex.rowsOf, selectRows]
  split
  · -- the group of a joined row is that of its document
    have hdocument : ∀ row ∈ ix.rows select.table.name, ∀ e ∈ documentRows ix.rows compares
        select.table select.selected select.statement row,
        (outputOf jsonGroupArray select.table select.selected
          (((ix.rows select.table.name).flatMap (documentRows ix.rows compares select.table
            select.selected select.statement)).filter (fun env =>
              decide (keyOf select.table env = keyOf select.table e)))).document =
          documentOf select.table row := by
      intro row hrow e he
      have hkey := keyOf_of_mem_documentRows hapart he
      refine Prod.ext rfl ((id_outputOf jsonGroupArray select.selected
        (List.ne_nil_of_mem (a := e) ?_) fun e' he' => ?_).trans hkey)
      · exact List.mem_filter.mpr
          ⟨List.mem_flatMap.mpr ⟨row, hrow, he⟩, decide_eq_true rfl⟩
      · exact of_decide_eq_true (List.mem_filter.mp he').2
    simp only [List.mem_map, List.mem_dedup, List.mem_flatMap, exists_exists_and_eq_and]
    constructor
    · rintro ⟨e, ⟨row, hrow, he⟩, rfl⟩
      exact ⟨row, hrow, List.ne_nil_of_mem he, (hdocument row hrow e he).symm⟩
    · rintro ⟨row, hrow, hne, rfl⟩
      obtain ⟨e, he⟩ := List.exists_mem_of_ne_nil _ hne
      exact ⟨e, ⟨row, hrow, he⟩, hdocument row hrow e he⟩
  · simp only [List.mem_map, List.mem_flatMap, exists_exists_and_eq_and]
    constructor
    · rintro ⟨e, ⟨row, hrow, he⟩, rfl⟩
      refine ⟨row, hrow, List.ne_nil_of_mem he, Prod.ext rfl ?_⟩
      exact (keyOf_of_mem_documentRows hapart he).symm
    · rintro ⟨row, hrow, hne, rfl⟩
      obtain ⟨e, he⟩ := List.exists_mem_of_ne_nil _ hne
      exact ⟨e, ⟨row, hrow, he⟩, Prod.ext rfl (keyOf_of_mem_documentRows hapart he)⟩

/-- The documents that are iterated. -/
theorem exists_mem_iterate_iff
    {rows : List (Output V)} (h : ix.iterate compares jsonGroupArray request shape = .ok rows)
    {document : String × Option V} :
    (∃ r ∈ rows, r.document = document) ↔
      ∃ table row, ix.Iterates compares request shape table row ∧
        documentOf table row = document := by
  rw [SQLiteIndex.iterate, Lib.Results.bind_eq_ok_iff] at h
  obtain ⟨selects, hselects, h⟩ := h
  split at h
  · obtain rfl := Except.ok.inj h
    have hcombined := SQLiteIndex.combined_of_ok hselects
    constructor
    · rintro ⟨r, hr, hdocument⟩
      obtain ⟨select, hselect, hr⟩ := mem_union.mp hr
      obtain ⟨htable, hselected, p, hp, hconvert⟩ := (hcombined.mem select).mp hselect
      obtain ⟨row, hrow, hne, heq⟩ := (exists_mem_rowsOf_document_iff
        (ix.apart htable hselected)).mp ⟨r, hr, hdocument⟩
      exact ⟨select.table, row,
        ⟨htable, hrow, select.selected, hselected, p, hp, select.statement, hconvert, hne⟩, heq⟩
    · rintro ⟨table, row, ⟨htable, hrow, selected, hselected, p, hp, statement, hconvert, hne⟩, heq⟩
      let select : Select L := { table, selected, statement }
      have hselect : select ∈ selects :=
        (hcombined.mem select).mpr ⟨htable, hselected, p, hp, hconvert⟩
      obtain ⟨r, hr, hdocument⟩ := (exists_mem_rowsOf_document_iff
        (ix.apart htable hselected : Apart select.table select.selected)).mpr
          ⟨row, hrow, hne, heq⟩
      exact ⟨r, mem_union.mpr ⟨select, hselect, hr⟩, hdocument⟩
  · cases h

theorem documentRows_ne_nil
    {selected : Selected} {st : Statement L} (hapart : Apart table selected)
    (hprepares : st.prepares [scopeOf table] = true)
    (hmatches : Matches ix.rows compares table st row) :
    documentRows ix.rows compares table selected st row ≠ [] := by
  obtain ⟨e, he⟩ := List.exists_mem_of_ne_nil _
    (joinAll_ne_nil (selectJoins ix.rows selected) (startEnv table row))
  have hpos := (countP_pos_iff_matches hprepares (root_of_mem_joinAll hapart he)).mpr hmatches
  obtain ⟨e', he', hholds⟩ := List.countP_pos_iff.mp hpos
  rw [documentRows_eq]
  exact List.ne_nil_of_mem (List.mem_flatMap.mpr ⟨e, he, List.mem_filter.mpr ⟨he', hholds⟩⟩)

/-- Of a table that has the fields of the query, the documents that satisfy the
conditions are iterated. -/
theorem iterates_iff_selects
    (hshape : ∃ selected, selectAllFieldsFromTable table shape = .ok selected)
    (htable : table ∈ ix.roots) {st : Statement L}
    (hconvert : ix.convert table request.query = .ok st)
    (hprepares : st.prepares [scopeOf table] = true) :
    ix.Iterates compares request shape table row ↔
      row ∈ ix.rows table.name ∧ ix.selects compares table st row = true := by
  rw [selects_iff_matches hprepares]
  constructor
  · rintro ⟨-, hrow, selected, hselected, p, hp, statement, hpart, hne⟩
    refine ⟨hrow, ?_⟩
    by_contra hmatches
    refine hne (documentRows_eq_nil (ix.apart htable hselected)
      (prepares_of_mem_flatten hconvert hp hpart hprepares) fun hpart' => ?_)
    exact hmatches (matches_of_part hconvert hp hpart hprepares hpart')
  · rintro ⟨hrow, hmatches⟩
    obtain ⟨selected, hselected⟩ := hshape
    obtain ⟨p, hp, hpart⟩ := exists_part_of_matches hconvert hprepares hmatches
    have hconvert' := exists_converted_of_mem_flatten hconvert hp
    exact ⟨htable, hrow, selected, hselected, p, hp, _, hconvert',
      documentRows_ne_nil (ix.apart htable hselected)
        (prepares_of_mem_flatten hconvert hp hconvert' hprepares) hpart⟩

/-- What is wanted is there, when something is iterated. -/
theorem exists_selected_of_iterate
    {rows : List (Output V)} (h : ix.iterate compares jsonGroupArray request shape = .ok rows)
    (htable : table ∈ ix.roots) :
    ∃ selected, selectAllFieldsFromTable table shape = .ok selected := by
  rw [SQLiteIndex.iterate, Lib.Results.bind_eq_ok_iff] at h
  obtain ⟨selects, hselects, -⟩ := h
  exact (SQLiteIndex.combined_of_ok hselects).shapes table htable

theorem leftJoin_congr
    {rows rows' : String → List (Row V)} {j : Join} (as : String → Identifier)
    (h : rows' j.table = rows j.table) : j.leftJoin rows' as = j.leftJoin rows as := by
  simp only [Join.leftJoin, h]

section Left

variable (h : Less ix ix')
include h

/-- Rows do not matter for the statements. -/
theorem Less.exists_iterate
    {rows : List (Output V)} (hok : ix.iterate compares jsonGroupArray request shape = .ok rows) :
    ∃ rows', ix'.iterate compares jsonGroupArray request shape = .ok rows' := by
  have hsame : ix'.convertSearchRequestToQuery request shape =
      ix.convertSearchRequestToQuery request shape := by
    have hselects : ∀ table selected, ix'.selectsOf request table selected =
        ix.selectsOf request table selected := by
      intro table selected
      rw [SQLiteIndex.selectsOf, SQLiteIndex.selectsOf]
      simp only [h.convert]
    rw [SQLiteIndex.convertSearchRequestToQuery, SQLiteIndex.convertSearchRequestToQuery, h.roots]
    simp only [hselects]
  rw [SQLiteIndex.iterate, Lib.Results.bind_eq_ok_iff] at hok
  obtain ⟨selects, hselects, hok⟩ := hok
  split at hok
  · rename_i hall
    refine ⟨ix'.union compares jsonGroupArray selects, ?_⟩
    rw [SQLiteIndex.iterate, Lib.Results.bind_eq_ok_iff]
    exact ⟨selects, hsame.trans hselects, if_pos hall⟩
  · cases hok

/-- What is joined where no document is missing. -/
theorem Less.documentRows
    (htable : table ∈ ix.roots) (hrows : ix'.rows table.name = ix.rows table.name)
    {selected : Selected} (hselected : selectAllFieldsFromTable table shape = .ok selected)
    {queries : List (QueryTree (QueryLeaf L))} {st : Statement L}
    (hconvert : ix.convert table queries = .ok st) :
    documentRows ix'.rows compares table selected st row =
      documentRows ix.rows compares table selected st row := by
  have hbelow := h.below table htable hrows
  have hselects : selectJoins ix'.rows selected = selectJoins ix.rows selected := by
    refine List.map_congr_left fun j hj => leftJoin_congr _ ?_
    obtain ⟨child, hchild, hname, -⟩ :=
      single_of_selected (ix.documents table htable).2 hselected hj
    rw [← hname]
    exact hbelow child (Table.all_eq table ▸ List.mem_cons_of_mem _ hchild)
  have hqueries : queryJoins ix'.rows st = queryJoins ix.rows st := by
    refine List.map_congr_left fun j hj => leftJoin_congr _ ?_
    obtain ⟨t, ht, -, rfl⟩ := below_statement hconvert j hj
    exact hbelow t.table ht.mem_all
  rw [Indexer.documentRows, Indexer.documentRows, hselects, hqueries]

/-- What is iterated of a table where no document is missing. -/
theorem Less.iterates_iff
    (htable : table ∈ ix.roots) (hrows : ix'.rows table.name = ix.rows table.name) :
    ix'.Iterates compares request shape table row ↔
      ix.Iterates compares request shape table row := by
  rw [SQLiteIndex.Iterates, SQLiteIndex.Iterates, h.roots, hrows]
  simp only [h.convert]
  refine and_congr_right fun _ => and_congr_right fun _ => exists_congr fun selected =>
    and_congr_right fun hselected => exists_congr fun p => and_congr_right fun _ =>
      exists_congr fun st => and_congr_right fun hconvert => ?_
  rw [h.documentRows htable hrows hselected hconvert]

end Left

end Iterated

/-! ### Ids that are iterated, and ids that are deleted -/

section Ids

variable {L : Type} {ix ix' : SQLiteIndex SqlValue} {asNumber : Int → Bool}
variable {compares : L → SQLField → Option SqlValue → Option Bool}
variable {jsonGroupArray : List (List (SQLField × Option SqlValue)) → Option SqlValue}
variable {request : Request L} {shape : Option Shape} {table : Table} {row : Row SqlValue}
variable {before : List IdKey} {key : IdKey}

theorem not_missing_of_toId {value : Scalar} {e : SqlError} (h : toId value = .error e) :
    e.isMissingField = false := by
  cases value with
  | bigint n =>
      rw [toId] at h
      split at h
      · cases h
      · obtain rfl := Except.error.inj h
        rfl
  | undefined | null | boolean b =>
      obtain rfl := Except.error.inj h
      rfl
  | number n => cases h
  | string s => cases h
  | bytes b => cases h

theorem Less.hasIds (h : Less ix ix') (hids : ix.HasIds) : ix'.HasIds := by
  intro table htable
  rw [h.roots] at htable
  obtain ⟨type, htype, hbool, hrows⟩ := hids table htable
  exact ⟨type, htype, hbool, fun row hrow => hrows row ((h.rows table htable).subset hrow)⟩

section HasIds

variable (hids : ix.HasIds)
include hids

theorem resultId_of_document
    (htable : table ∈ ix.roots) (hrow : row ∈ ix.rows table.name) {r : Output SqlValue}
    (hr : r.document = documentOf table row) :
    ix.resultId asNumber r = iteratedId asNumber table (primaryOf table row) := by
  obtain ⟨type, -, -, hrows⟩ := hids table htable
  obtain ⟨id, -, hprimary⟩ := hrows row hrow
  obtain ⟨hname, hid⟩ := Prod.mk.inj hr
  have hroots : (ix.roots.map Table.name).Nodup := ix.names.sublist ((sublist_allOf _).map _)
  rw [SQLiteIndex.resultId, hid, hprimary, hname, find?_of_nodup hroots htable]

variable (asNumber) in
theorem SQLiteIndex.HasIds.exists_iteratedId
    (htable : table ∈ ix.roots) (hrow : row ∈ ix.rows table.name) :
    ∃ key, iteratedId asNumber table (primaryOf table row) = .ok key := by
  obtain ⟨type, htype, hbool, hrows⟩ := hids table htable
  obtain ⟨id, hid, hprimary⟩ := hrows row hrow
  rw [hprimary, iteratedId_of_holds htype hid]
  exact exists_toId hid hbool

/-- The ids that are iterated are those of the documents. -/
theorem mem_iterateIds
    (h : ix.iterateIds asNumber compares jsonGroupArray request shape = .ok before) :
    key ∈ before ↔ ∃ table row, ix.Iterates compares request shape table row ∧
      iteratedId asNumber table (primaryOf table row) = .ok key := by
  rw [SQLiteIndex.iterateIds, Lib.Results.bind_eq_ok_iff] at h
  obtain ⟨rows, hrows, hmap⟩ := h
  rw [Lib.Results.mem_of_mapM hmap]
  constructor
  · rintro ⟨r, hr, hkey⟩
    obtain ⟨table, row, hiterates, hdocument⟩ :=
      (exists_mem_iterate_iff hrows).mp ⟨r, hr, rfl⟩
    rw [resultId_of_document hids hiterates.1 hiterates.2.1 hdocument.symm] at hkey
    exact ⟨table, row, hiterates, hkey⟩
  · rintro ⟨table, row, hiterates, hkey⟩
    obtain ⟨r, hr, hdocument⟩ :=
      (exists_mem_iterate_iff hrows).mpr ⟨table, row, hiterates, rfl⟩
    rw [← resultId_of_document hids hiterates.1 hiterates.2.1 hdocument] at hkey
    exact ⟨r, hr, hkey⟩

variable (asNumber) in
theorem SQLiteIndex.HasIds.exists_iterateIds
    {rows : List (Output SqlValue)}
    (hrows : ix.iterate compares jsonGroupArray request shape = .ok rows) :
    ∃ after, ix.iterateIds asNumber compares jsonGroupArray request shape = .ok after := by
  have hall : ∀ r ∈ rows, ∃ key, ix.resultId asNumber r = .ok key := by
    intro r hr
    obtain ⟨table, row, hiterates, hdocument⟩ :=
      (exists_mem_iterate_iff hrows).mp ⟨r, hr, rfl⟩
    rw [resultId_of_document hids hiterates.1 hiterates.2.1 hdocument.symm]
    exact hids.exists_iteratedId asNumber hiterates.1 hiterates.2.1
  obtain ⟨after, hafter⟩ := Lib.Results.exists_mapM_iff.mpr hall
  exact ⟨after, Lib.Results.bind_eq_ok_iff.mpr ⟨rows, hrows, hafter⟩⟩

/-- A document is deleted when it satisfies the conditions. -/
theorem mem_deletedRows (htable : table ∈ ix.roots) {st : Statement L} :
    row ∈ ix.deletedRows compares table st ↔
      row ∈ ix.rows table.name ∧ ix.selects compares table st row = true := by
  rw [SQLiteIndex.deletedRows, List.mem_filter]
  refine and_congr_right fun hrow => ?_
  obtain ⟨type, -, -, hrows⟩ := hids table htable
  obtain ⟨id, -, hprimary⟩ := hrows row hrow
  rw [SQLiteIndex.deletes, List.any_eq_true]
  constructor
  · rintro ⟨other, hother, hboth⟩
    rw [Bool.and_eq_true] at hboth
    have hkey : primaryOf table other = primaryOf table row := by
      have hequal := hboth.2
      rw [hprimary] at hequal ⊢
      cases hvalue : primaryOf table other with
      | none =>
          rw [hvalue] at hequal
          cases hequal
      | some value =>
          rw [hvalue] at hequal
          rw [eq_of_beq hequal]
    obtain rfl := List.inj_on_of_nodup_map (ix.keys table htable) hother hrow hkey
    exact hboth.1
  · intro hselects
    refine ⟨row, hrow, ?_⟩
    rw [hselects, hprimary, Bool.true_and]
    exact beq_self_eq_true _

end HasIds

/-! ### What is deleted and what is left -/

section Reports

variable {ix : KeyedIndex} {rows : List (Output SqlValue)} {ids : List IdKey}

theorem not_missing_of_deletedId
    (table : Table) (value : Option SqlValue) (e : SqlError)
    (h : deletedId asNumber table value = .error e) : e.isMissingField = false :=
  not_missing_of_toId h

section Matching

variable (h : ix.DeletesMatching asNumber compares request shape)
variable (hrows : ix.iterate compares jsonGroupArray request shape = .ok rows)
include h

theorem KeyedIndex.DeletesMatching.prepares
    {t : Table × Statement L} (ht : t ∈ ix.known request) :
    t.2.prepares [scopeOf t.1] = true :=
  (Bool.and_eq_true_iff.mp (h.accepted t ht)).1

/-- The ids of the documents that match are the same, however they are made. -/
theorem KeyedIndex.DeletesMatching.deletedId_eq
    {t : Table × Statement L} (ht : t ∈ ix.known request)
    (hrow : row ∈ ix.deletedRows compares t.1 t.2) :
    deletedId asNumber t.1 (primaryOf t.1 row) = iteratedId asNumber t.1 (primaryOf t.1 row) := by
  obtain ⟨htable, -⟩ := SQLiteIndex.mem_known.mp ht
  obtain ⟨hrow, hselects⟩ := (mem_deletedRows ix.ids htable).mp hrow
  obtain ⟨type, htype, hbool, htyped⟩ := ix.ids t.1 htable
  obtain ⟨id, hid, hprimary⟩ := htyped row hrow
  have hkeeps := h.ids t ht row hrow ((selects_iff_matches (h.prepares ht)).mp hselects) type
    htype _ hprimary
  rw [hprimary, deletedId_of_keeps hid hbool hkeeps, iteratedId_of_holds htype hid]

include hrows

/-- The documents that are iterated are those that are deleted. -/
theorem KeyedIndex.DeletesMatching.iterates_iff :
    ix.Iterates compares request shape table row ↔
      ∃ st, (table, st) ∈ ix.known request ∧ row ∈ ix.deletedRows compares table st := by
  constructor
  · intro hiterates
    have htable := hiterates.1
    cases hconvert : ix.convert table request.query with
    | error e =>
        obtain ⟨-, hrow, selected, hselected, p, hp, st, hst, hne⟩ := hiterates
        exact absurd ⟨row, hrow, hne⟩ (h.unknown table htable e hconvert selected hselected p hp
          st hst)
    | ok st =>
        have hknown := SQLiteIndex.mem_known.mpr
          (⟨htable, hconvert⟩ : (table, st).1 ∈ ix.roots ∧ _)
        refine ⟨st, hknown, (mem_deletedRows ix.ids htable).mpr ?_⟩
        exact (iterates_iff_selects (exists_selected_of_iterate hrows htable) htable hconvert
          (h.prepares hknown)).mp hiterates
  · rintro ⟨st, hknown, hrow⟩
    obtain ⟨htable, hconvert⟩ := SQLiteIndex.mem_known.mp hknown
    exact (iterates_iff_selects (exists_selected_of_iterate hrows htable) htable hconvert
      (h.prepares hknown)).mpr ((mem_deletedRows ix.ids htable).mp hrow)

/-- Nothing is iterated of what is left. -/
theorem KeyedIndex.DeletesMatching.not_iterates
    (hok : (ix.del compares (deletedId asNumber) request).2 = .ok ids) :
    ¬ (ix.del compares (deletedId asNumber) request).1.Iterates compares request shape
      table row := by
  obtain ⟨hless, hleft⟩ := del_rows ix.linked hok
  intro hiterates
  have htable : table ∈ ix.roots := hless.roots ▸ hiterates.1
  have hrow := hiterates.2.1
  cases hconvert : ix.convert table request.query with
  | error e =>
      have hsame := hleft table htable
      rw [deleteFrom_of_error hconvert] at hsame
      obtain ⟨st, hknown, -⟩ := (h.iterates_iff hrows).mp
        ((hless.iterates_iff htable hsame).mp hiterates)
      rw [(SQLiteIndex.mem_known.mp hknown).2] at hconvert
      cases hconvert
  | ok st =>
      have hknown := SQLiteIndex.mem_known.mpr
        (⟨htable, hconvert⟩ : (table, st).1 ∈ ix.roots ∧ _)
      have hprepares := h.prepares hknown
      have hselects := ((iterates_iff_selects (exists_selected_of_iterate hrows htable)
        hiterates.1 ((hless.convert _ _).trans hconvert) hprepares).mp hiterates).2
      rw [hless.selects htable hrow (below_statement hconvert) hprepares] at hselects
      have hfiltered := hleft table htable
      rw [deleteFrom_of_ok hconvert, if_pos (h.accepted _ hknown),
        rows_deleteRows ix.linked htable] at hfiltered
      rw [hfiltered, List.mem_filter, Bool.not_eq_true'] at hrow
      have hdeleted := (mem_deletedRows ix.ids htable).mpr ⟨hrow.1, hselects⟩
      rw [SQLiteIndex.deletedRows, List.mem_filter, hrow.2] at hdeleted
      cases hdeleted.2

end Matching

/-- The ids that are returned are those that were iterated, and nothing is iterated
after. -/
theorem KeyedIndex.DeletesMatching.reportsDeleted
    (h : ix.DeletesMatching asNumber compares request shape)
    (hbefore : ix.iterateIds asNumber compares jsonGroupArray request shape = .ok before) :
    ix.ReportsDeleted asNumber compares jsonGroupArray request shape before := by
  obtain ⟨rows, hrows, -⟩ := Lib.Results.bind_eq_ok_iff.mp hbefore
  have hreturned : ∀ t ∈ ix.known request, ∃ ids,
      ix.returned compares (deletedId asNumber) t = .ok ids := by
    intro t ht
    refine Lib.Results.exists_mapM_iff.mpr fun row hrow => ?_
    obtain ⟨htable, -⟩ := SQLiteIndex.mem_known.mp ht
    rw [h.deletedId_eq ht hrow]
    exact ix.ids.exists_iteratedId asNumber htable ((mem_deletedRows ix.ids htable).mp hrow).1
  obtain ⟨idss, hidss⟩ := Lib.Results.exists_mapM_iff.mpr hreturned
  have hok := (del_eq_ok_iff not_missing_of_deletedId ix.linked).mpr
    ⟨h.missing, h.accepted, h.some_known, idss, hidss, rfl⟩
  obtain ⟨hless, -⟩ := del_rows ix.linked hok
  obtain ⟨rows', hrows'⟩ := hless.exists_iterate hrows
  have hids' := hless.hasIds ix.ids
  obtain ⟨after, hafter⟩ := hids'.exists_iterateIds asNumber hrows'
  refine ⟨idss.flatten, hok, fun key => ?_, after, hafter, fun key hkey => ?_⟩
  · rw [mem_flatten_returned hidss, mem_iterateIds ix.ids hbefore]
    constructor
    · rintro ⟨t, ht, row, hrow, hkey⟩
      rw [h.deletedId_eq ht hrow] at hkey
      exact ⟨t.1, row, (h.iterates_iff hrows).mpr ⟨t.2, ht, hrow⟩, hkey⟩
    · rintro ⟨table, row, hiterates, hkey⟩
      obtain ⟨st, ht, hrow⟩ := (h.iterates_iff hrows).mp hiterates
      exact ⟨(table, st), ht, row, hrow, (h.deletedId_eq ht hrow).trans hkey⟩
  · obtain ⟨table, row, hiterates, -⟩ := (mem_iterateIds hids' hafter).mp hkey
    exact absurd hiterates (h.not_iterates hrows hok)

/-! ### What the ids tell -/

section Told

variable {idss : List (List IdKey)}
variable (hbefore : ix.iterateIds asNumber compares jsonGroupArray request shape = .ok before)
variable (haccepted : ∀ t ∈ ix.known request, ix.preparesDelete t.1 t.2 = true)
variable (hidss : (ix.known request).mapM (ix.returned compares (deletedId asNumber)) = .ok idss)
variable (hsame : ∀ key, key ∈ idss.flatten ↔ key ∈ before)
include hbefore haccepted hidss hsame

/-- The id of a document that is iterated is one that is deleted. -/
theorem exists_deleted_of_iterates
    (hiterates : ix.Iterates compares request shape table row)
    (hkey : iteratedId asNumber table (primaryOf table row) = .ok key) :
    ∃ table' row', ix.Iterates compares request shape table' row' ∧
      (∃ st, (table', st) ∈ ix.known request ∧ row' ∈ ix.deletedRows compares table' st) ∧
        deletedId asNumber table' (primaryOf table' row') = .ok key := by
  have hmem := (hsame key).mpr ((mem_iterateIds ix.ids hbefore).mpr ⟨_, _, hiterates, hkey⟩)
  obtain ⟨⟨table', st⟩, ht, row', hrow', hkey'⟩ := (mem_flatten_returned hidss).mp hmem
  obtain ⟨htable, hconvert⟩ := SQLiteIndex.mem_known.mp ht
  obtain ⟨rows, hrows, -⟩ := Lib.Results.bind_eq_ok_iff.mp hbefore
  refine ⟨table', row', ?_, ⟨st, ht, hrow'⟩, hkey'⟩
  exact (iterates_iff_selects (exists_selected_of_iterate hrows htable) htable hconvert
    (Bool.and_eq_true_iff.mp (haccepted _ ht)).1).mpr ((mem_deletedRows ix.ids htable).mp hrow')

/-- Smaller integers are read as a `number`. -/
theorem asNumber_of_iterates
    (hiterates : ix.Iterates compares request shape table row) {n : Int} {type : SimpleType}
    (htype : primaryType table = some type) (hid : type.Holds (.number n))
    (hprimary : primaryOf table row = some (.integer n)) : asNumber n = true := by
  have hkey : iteratedId asNumber table (primaryOf table row) = .ok (.integerKey n) := by
    rw [hprimary, ← sql_of_number hid, iteratedId_of_holds htype hid]
    rfl
  obtain ⟨table', row', hiterates', -, hkey'⟩ :=
    exists_deleted_of_iterates hbefore haccepted hidss hsame hiterates hkey
  obtain ⟨type', -, -, htyped⟩ := ix.ids table' hiterates'.1
  obtain ⟨id', -, hprimary'⟩ := htyped row' hiterates'.2.1
  rw [hprimary'] at hkey'
  exact (number_of_deletedId hkey').2

/-- With a `u64`, the id that is iterated is the key, as it is stored, of another `u64`. -/
theorem exists_greater_of_iterates
    (hiterates : ix.Iterates compares request shape table row)
    (htype : primaryType table = some .u64) {n : Int} (hid : SimpleType.u64.Holds (.bigint n))
    (hprimary : primaryOf table row = some (.integer (u64ToI64 n))) :
    ∃ table' row' n', ix.Iterates compares request shape table' row' ∧
      primaryType table' = some .u64 ∧ SimpleType.u64.Holds (.bigint n') ∧
        primaryOf table' row' = some (.integer (u64ToI64 n')) ∧ u64ToI64 n' = n := by
  have hkey : iteratedId asNumber table (primaryOf table row) = .ok (.largeIntegerKey n) := by
    have hstored : (convertToSQLType (.bigint n) .u64).sql = .integer (u64ToI64 n) := rfl
    obtain ⟨m, heq, hmin, hmax⟩ := hid
    obtain rfl := Scalar.bigint.inj heq
    rw [hprimary, ← hstored, iteratedId_of_holds htype ⟨n, rfl, hmin, hmax⟩]
    exact if_pos ⟨by omega, hmin⟩
  obtain ⟨table', row', hiterates', -, hkey'⟩ :=
    exists_deleted_of_iterates hbefore haccepted hidss hsame hiterates hkey
  obtain ⟨type', htype', hbool', htyped⟩ := ix.ids table' hiterates'.1
  obtain ⟨id', hid', hprimary'⟩ := htyped row' hiterates'.2.1
  rw [hprimary'] at hkey'
  obtain ⟨hvalue, hnumber⟩ := bigint_of_deletedId hkey'
  -- a smaller integer would be read as a `number`
  have hsmall : ∀ m, id' = .number m → False := by
    rintro m rfl
    have hstored := sql_of_number hid'
    rw [hstored] at hvalue hprimary'
    obtain rfl := SqlValue.integer.inj hvalue
    rw [asNumber_of_iterates hbefore haccepted hidss hsame hiterates' htype' hid' hprimary']
      at hnumber
    cases hnumber
  cases type' <;> obtain ⟨m, hm⟩ := hid'
  case bool => exact absurd rfl hbool'
  case string =>
    subst hm
    cases hvalue
  case bytes =>
    subst hm
    cases hvalue
  case u64 =>
    obtain ⟨rfl, hbounds⟩ := hm
    exact ⟨table', row', m, hiterates', htype', ⟨m, rfl, hbounds⟩, hprimary',
      SqlValue.integer.inj hvalue⟩
  all_goals exact (hsmall m hm.1).elim

/-- No `u64` is iterated: it would be greater than all. -/
theorem not_iterates_u64
    (hiterates : ix.Iterates compares request shape table row) :
    primaryType table ≠ some .u64 := by
  intro htype
  obtain ⟨type, htype', -, htyped⟩ := ix.ids table hiterates.1
  obtain rfl := Option.some.inj (htype'.symm.trans htype)
  obtain ⟨id, ⟨n, rfl, hmin, hmax⟩, hprimary⟩ := htyped row hiterates.2.1
  obtain ⟨table₁, row₁, n₁, hiterates₁, htype₁, hid₁, hprimary₁, heq₁⟩ :=
    exists_greater_of_iterates hbefore haccepted hidss hsame hiterates htype ⟨n, rfl, hmin, hmax⟩
      hprimary
  obtain ⟨-, -, n₂, -, -, ⟨m, hm, -, hmax₂⟩, -, heq₂⟩ :=
    exists_greater_of_iterates hbefore haccepted hidss hsame hiterates₁ htype₁ hid₁ hprimary₁
  obtain rfl := Scalar.bigint.inj hm
  rw [u64ToI64] at heq₁ heq₂
  omega

end Told

theorem KeyedIndex.ReportsDeleted.deletesMatching
    (h : ix.ReportsDeleted asNumber compares jsonGroupArray request shape before)
    (hbefore : ix.iterateIds asNumber compares jsonGroupArray request shape = .ok before) :
    ix.DeletesMatching asNumber compares request shape := by
  obtain ⟨ids, hok, hsame, after, hafter, hnone⟩ := h
  obtain ⟨hmissing, haccepted, hsome, idss, hidss, rfl⟩ :=
    (del_eq_ok_iff not_missing_of_deletedId ix.linked).mp hok
  obtain ⟨hless, hleft⟩ := del_rows ix.linked hok
  obtain ⟨rows, hrows, -⟩ := Lib.Results.bind_eq_ok_iff.mp hbefore
  refine ⟨hmissing, hsome, haccepted, ?_, ?_⟩
  · intro t ht row hrow hmatches type htype value hvalue
    obtain ⟨htable, hconvert⟩ := SQLiteIndex.mem_known.mp ht
    have hprepares := (Bool.and_eq_true_iff.mp (haccepted t ht)).1
    have hiterates := (iterates_iff_selects (exists_selected_of_iterate hrows htable) htable
      hconvert hprepares).mpr ⟨hrow, (selects_iff_matches hprepares).mpr hmatches⟩
    have hu64 := not_iterates_u64 hbefore haccepted hidss hsame hiterates
    obtain ⟨type', htype', hbool, htyped⟩ := ix.ids t.1 htable
    obtain rfl := Option.some.inj (htype'.symm.trans htype)
    obtain ⟨id, hid, hprimary⟩ := htyped row hrow
    obtain rfl := Option.some.inj (hvalue.symm.trans hprimary)
    have hnumber : ∀ n, id = .number n → asNumber n = true := by
      rintro n rfl
      rw [sql_of_number hid] at hprimary
      exact asNumber_of_iterates hbefore haccepted hidss hsame hiterates htype' hid hprimary
    cases type' <;> obtain ⟨n, hn⟩ := hid
    case bool => exact absurd rfl hbool
    case u64 => exact absurd htype' hu64
    case string =>
      subst hn
      trivial
    case bytes =>
      subst hn
      trivial
    all_goals
      obtain ⟨rfl, -⟩ := hn
      exact hnumber n rfl
  · rintro table htable e hconvert selected hselected p hp st hst ⟨row, hrow, hne⟩
    have hiterates : ix.Iterates compares request shape table row :=
      ⟨htable, hrow, selected, hselected, p, hp, st, hst, hne⟩
    have hunchanged := hleft table htable
    rw [deleteFrom_of_error hconvert] at hunchanged
    obtain ⟨key, hkey⟩ := ix.ids.exists_iteratedId asNumber htable hrow
    have hkeyBefore := (mem_iterateIds ix.ids hbefore).mpr ⟨table, row, hiterates, hkey⟩
    have hkeyAfter := (mem_iterateIds (hless.hasIds ix.ids) hafter).mpr
      ⟨table, row, (hless.iterates_iff htable hunchanged).mpr hiterates, hkey⟩
    exact hnone key hkeyAfter ((hsame key).mpr hkeyBefore)

/-- What `del` returns is what was iterated, and none of it is left, exactly when the
documents that match have keys that are ids as they are stored. -/
theorem reportsDeleted_iff
    (hbefore : ix.iterateIds asNumber compares jsonGroupArray request shape = .ok before) :
    ix.ReportsDeleted asNumber compares jsonGroupArray request shape before ↔
      ix.DeletesMatching asNumber compares request shape :=
  ⟨fun h => h.deletesMatching hbefore, fun h => h.reportsDeleted hbefore⟩

end Reports

end Ids

namespace NumberedPost

/-- A post that has nothing but its id. -/
def post (type : SimpleType) : Ctor := .mk (some 0) "Post" [.mk "id" .plain (.simple type)]

def postTable (type : SimpleType) : Table := rootTable [] "id" (post type)

def postRow (key : SqlValue) : Row SqlValue := fun column =>
  if column = "id" then some key else none

theorem linked_post (type : SimpleType) : Linked (postTable type) := by
  have hstart : start [] "id" [post type] = .ok [postTable type] := rfl
  exact linked_of_start hstart (List.nodup_singleton _) (List.mem_singleton.mpr rfl)

/-- The index of one post. -/
def index (type : SimpleType) (id : Scalar) (hid : type.Holds id) (hbool : type ≠ .bool) :
    KeyedIndex where
  roots := [postTable type]
  schemaKeys := fun _ => ["id"]
  rows := fun name => if name = "Post" then [postRow (convertToSQLType id type).sql] else []
  names := List.nodup_singleton _
  documents := by
    intro table htable
    obtain rfl := List.mem_singleton.mp htable
    exact ⟨rfl, rfl⟩
  keys := by
    intro table htable
    obtain rfl := List.mem_singleton.mp htable
    exact List.nodup_singleton _
  single := by
    intro root hroot table htable
    obtain rfl := List.mem_singleton.mp hroot
    cases htable
  linked := by
    intro root hroot
    obtain rfl := List.mem_singleton.mp hroot
    exact linked_post type
  ids := by
    intro table htable
    obtain rfl := List.mem_singleton.mp htable
    refine ⟨type, rfl, hbool, fun row hrow => ⟨id, hid, ?_⟩⟩
    obtain rfl := List.mem_singleton.mp hrow
    rfl

/-- All posts. -/
def request : Request String where
  query := []
  built := fun _ hq => absurd hq List.not_mem_nil

def compares (_ : String) (_ : SQLField) (_ : Option SqlValue) : Option Bool := none

/-- The driver hands out every integer as a `bigint`. -/
def safeIntegers (_ : Int) : Bool := false

def statement : Statement String := { joins := [], where_ := .and [] }

def selected (type : SimpleType) : Selected where
  resolvers := [.column "Post" (simpleColumn ["Post"] (some "id") (some 0) "id" type)]
  joins := []
  groupByParentId := false

theorem select_eq (type : SimpleType) :
    selectAllFieldsFromTable (postTable type) none = .ok (selected type) := by
  have hpost : selectAll [({ table := postTable type, ancestors := [] }, none)] =
      .ok (selected type) := by
    rw [selectAll]
    exact Lib.Results.bind_eq_ok_iff.mpr ⟨_, rfl, Lib.Results.bind_eq_ok_iff.mpr
      ⟨_, selectAll.eq_1, rfl⟩⟩
  exact Lib.Results.bind_eq_ok_iff.mpr ⟨_, hpost, rfl⟩

section Post

variable {type : SimpleType} {id : Scalar} {hid : type.Holds id} {hbool : type ≠ .bool}

theorem selects_eq : (index type id hid hbool).convertSearchRequestToQuery request none =
    .ok [{ table := postTable type, selected := selected type, statement := statement }] := by
  have hflatten : flatten request.props = [request.props] := by
    simp [flatten, collectOrs, request, Request.props]
  have hselects : (index type id hid hbool).selectsOf request (postTable type)
      (selected type) =
      [.ok { table := postTable type, selected := selected type
             statement := statement }] := by
    rw [SQLiteIndex.selectsOf, hflatten]
    rfl
  refine Lib.Results.bind_eq_ok_iff.mpr
    ⟨_, Lib.Results.mapM_eq_ok_iff.mpr (.cons (select_eq type) .nil), ?_⟩
  show collect ((index type id hid hbool).selectsOf request (postTable type)
    (selected type) ++ []) = _
  rw [hselects]
  rfl

end Post

theorem holds_five : SimpleType.u64.Holds (.bigint 5) :=
  ⟨5, rfl, by decide, by decide⟩

theorem holds_hello : SimpleType.string.Holds (.string "hello") := ⟨"hello", rfl⟩

/-- A post with the number five. -/
def five : KeyedIndex := index .u64 (.bigint 5) holds_five (by decide)

/-- A post with a text. -/
def hello : KeyedIndex := index .string (.string "hello") holds_hello (by decide)

theorem iterateIds_five :
    five.iterateIds safeIntegers compares (fun _ => none) request none =
      .ok [.largeIntegerKey 5] := by
  rw [SQLiteIndex.iterateIds, SQLiteIndex.iterate, five, selects_eq]
  rfl

theorem iterateIds_hello :
    hello.iterateIds safeIntegers compares (fun _ => none) request none =
      .ok [.stringKey "hello"] := by
  rw [SQLiteIndex.iterateIds, SQLiteIndex.iterate, hello, selects_eq]
  rfl

/-- The post is iterated and deleted, but no id is made of its key as it is stored. -/
theorem not_reportsDeleted_five :
    ¬ ∀ before, five.iterateIds safeIntegers compares (fun _ => none) request none =
        .ok before →
      five.ReportsDeleted safeIntegers compares (fun _ => none) request none before := by
  intro h
  obtain ⟨ids, hok, -⟩ := h _ iterateIds_five
  have herror : (five.del compares (deletedId safeIntegers) request).2 =
      .error .unexpected := rfl
  rw [herror] at hok
  cases hok

theorem reportsDeleted_hello :
    hello.ReportsDeleted safeIntegers compares (fun _ => none) request none
      [.stringKey "hello"] := by
  have hconvert : hello.convert (postTable .string) request.query = .ok statement := rfl
  have hroot : ∀ table ∈ hello.roots, table = postTable .string :=
    fun _ htable => List.mem_singleton.mp htable
  have hknown : ∀ t ∈ hello.known request, t = (postTable .string, statement) :=
    fun _ ht => List.mem_singleton.mp ht
  refine (reportsDeleted_iff iterateIds_hello).mpr ⟨?_, ?_, ?_, ?_, ?_⟩
  · intro table htable e he
    rw [hroot table htable, hconvert] at he
    cases he
  · exact List.cons_ne_nil (postTable .string, statement) []
  · intro t ht
    rw [hknown t ht]
    rfl
  · intro t ht row hrow _ type htype value hvalue
    rw [hknown t ht] at hrow htype hvalue
    obtain rfl := List.mem_singleton.mp hrow
    obtain rfl := Option.some.inj htype
    obtain rfl := Option.some.inj hvalue
    trivial
  · intro table htable e he
    rw [hroot table htable, hconvert] at he
    cases he

end NumberedPost

end Indexer
end Peerbit
