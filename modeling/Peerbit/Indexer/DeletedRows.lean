import Peerbit.Indexer.CountRows
import Peerbit.Indexer.LinkedTables

/-!
# Rows that are deleted

`del` runs a statement for each table of documents that has the fields of the query.  A
statement deletes the documents whose key is among those that satisfy the conditions,
and SQLite deletes the rows that refer to them.

Deleting documents leaves the others with all their rows (`less_remove`), so what one
statement deletes does not depend on those before it (`del_ok_iff`).
-/

namespace Peerbit
namespace Indexer

open Sqlite Lib.LeftJoins

section Removal

variable {V : Type} [DecidableEq V]

/-- Whether SQLite removes a row: it is deleted, or it refers to a row that is removed
and is deleted with that one.  A chain of references has as many rows as there are
tables at most. -/
def SQLiteIndex.gone (ix : SQLiteIndex V) (deleted : String → Row V → Bool) :
    Nat → String → Row V → Bool
  | 0, name, row => deleted name row
  | depth + 1, name, row =>
      deleted name row ||
        (Table.allOf ix.roots).any (fun table =>
          table.name == name &&
            table.references.any (fun r =>
              (ix.rows r.1).any (fun parent =>
                ix.gone deleted depth r.1 parent &&
                  sqlEqual (parent r.2) (row PARENT_TABLE_ID))))

/-- An index without the rows that are deleted. -/
def SQLiteIndex.remove (ix : SQLiteIndex V) (deleted : String → Row V → Bool) :
    SQLiteIndex V where
  roots := ix.roots
  schemaKeys := ix.schemaKeys
  rows := fun name => (ix.rows name).filter (fun row =>
    !ix.gone deleted (Table.allOf ix.roots).length name row)
  names := ix.names
  documents := ix.documents
  keys := fun table htable => (ix.keys table htable).sublist (List.filter_sublist.map _)
  single := fun root hroot table htable hinline harray =>
    (ix.single root hroot table htable hinline harray).sublist List.filter_sublist

end Removal

/-! ### The statements -/

section Deletion

variable {L V K : Type} [DecidableEq V]
variable (compares : L → SQLField → Option V → Option Bool)
variable (idOf : Table → Option V → Except SqlError K)
variable (request : Request L)

/-- Whether a document satisfies the conditions with some joined rows. -/
def SQLiteIndex.selects (ix : SQLiteIndex V) (table : Table) (st : Statement L) (row : Row V) :
    Bool :=
  (ix.joined table st row).any (st.holds compares)

/-- Whether the key of a document is among those that are selected. -/
def SQLiteIndex.deletes (ix : SQLiteIndex V) (table : Table) (st : Statement L) (row : Row V) :
    Bool :=
  (ix.rows table.name).any (fun other =>
    ix.selects compares table st other &&
      sqlEqual (primaryOf table row) (primaryOf table other))

/-- The name of the primary key is of no column of a table that is joined. -/
def SQLiteIndex.ownsPrimary (ix : SQLiteIndex V) (table : Table) (st : Statement L) : Bool :=
  st.joins.all (fun j =>
    (getTable (Table.allOf ix.roots) j.table).all (fun joined =>
      joined.fields.all (fun field =>
        some (foldCase field.name) != table.primary.map foldCase)))

/-- Whether SQLite finds the names of `convertDeleteRequestToQuery`. -/
def SQLiteIndex.preparesDelete (ix : SQLiteIndex V) (table : Table) (st : Statement L) : Bool :=
  st.prepares [scopeOf table] && ix.ownsPrimary table st

/-- What `convertDeleteRequestToQuery` returns. -/
def SQLiteIndex.deletedRows (ix : SQLiteIndex V) (table : Table) (st : Statement L) :
    List (Row V) :=
  (ix.rows table.name).filter (ix.deletes compares table st)

/-- The index after the statement. -/
def SQLiteIndex.deleteRows (ix : SQLiteIndex V) (table : Table) (st : Statement L) :
    SQLiteIndex V :=
  ix.remove (fun name row => name == table.name && ix.deletes compares table st row)

/-- The body of the loop of `del`: the index after it, and the ids or what is thrown. -/
def SQLiteIndex.deleteFrom (ix : SQLiteIndex V) (table : Table) :
    SQLiteIndex V × Except SqlError (List K) :=
  match ix.convert table request.query with
  | .error e => (ix, .error e)
  | .ok st =>
      if ix.preparesDelete table st then
        (ix.deleteRows compares table st,
          (ix.deletedRows compares table st).mapM (fun row => idOf table (primaryOf table row)))
      else (ix, .error .refused)

/-- The loop of `del`. -/
def delTables (ret : List K) (once : Bool) (lastError : Option SqlError) :
    List Table → SQLiteIndex V → SQLiteIndex V × Except SqlError (List K)
  | [], ix => (ix, if once then .ok ret else .error (lastError.getD .unexpected))
  | table :: tables, ix =>
      match (ix.deleteFrom compares idOf request table).2 with
      | .ok ids =>
          delTables (ret ++ ids) true lastError tables
            (ix.deleteFrom compares idOf request table).1
      | .error e =>
          if e.isMissingField then
            delTables ret once (some e) tables (ix.deleteFrom compares idOf request table).1
          else ((ix.deleteFrom compares idOf request table).1, .error e)

/-- `del` -/
def SQLiteIndex.del (ix : SQLiteIndex V) : SQLiteIndex V × Except SqlError (List K) :=
  delTables compares idOf request [] false none ix.roots ix

end Deletion

/-! ### What is left -/

section Less

variable {V : Type} [DecidableEq V] {ix ix' ix'' : SQLiteIndex V}

/-- Documents are missing, and the others have all their rows.  Where no document of a
table is missing, no row below it is. -/
structure Less (ix ix' : SQLiteIndex V) : Prop where
  roots : ix'.roots = ix.roots
  schemaKeys : ix'.schemaKeys = ix.schemaKeys
  rows : ∀ table ∈ ix.roots, (ix'.rows table.name).Sublist (ix.rows table.name)
  joined : ∀ table ∈ ix.roots, ∀ row ∈ ix'.rows table.name, ∀ j, Below table j →
    j.parent = some (scopeOf table) →
      (ix'.rows j.table).filter (fun r =>
          sqlEqual (primaryOf table row) (r PARENT_TABLE_ID)) =
        (ix.rows j.table).filter (fun r => sqlEqual (primaryOf table row) (r PARENT_TABLE_ID))
  below : ∀ table ∈ ix.roots, ix'.rows table.name = ix.rows table.name →
    ∀ child ∈ table.all, ix'.rows child.name = ix.rows child.name

theorem Less.refl (ix : SQLiteIndex V) : Less ix ix where
  roots := rfl
  schemaKeys := rfl
  rows := fun _ _ => List.Sublist.refl _
  joined := fun _ _ _ _ _ _ _ => rfl
  below := fun _ _ _ _ _ => rfl

theorem Less.trans (h : Less ix ix') (h' : Less ix' ix'') : Less ix ix'' where
  roots := h'.roots.trans h.roots
  schemaKeys := h'.schemaKeys.trans h.schemaKeys
  rows := fun table htable => (h'.rows table (h.roots ▸ htable)).trans (h.rows table htable)
  joined := fun table htable row hrow j hj hparent =>
    (h'.joined table (h.roots ▸ htable) row hrow j hj hparent).trans
      (h.joined table htable row ((h'.rows table (h.roots ▸ htable)).subset hrow) j hj hparent)
  below := by
    intro table htable heq child hchild
    have hsub := h.rows table htable
    have hsub' := h'.rows table (h.roots ▸ htable)
    have hsame : ix'.rows table.name = ix.rows table.name :=
      hsub.antisymm (heq ▸ hsub')
    have hsame' : ix''.rows table.name = ix'.rows table.name := heq.trans hsame.symm
    exact (h'.below table (h.roots ▸ htable) hsame' child hchild).trans
      (h.below table htable hsame child hchild)

omit ix ix' ix'' in
theorem eq_of_sqlEqual {x y z : Option V} (h : sqlEqual x z = true) (h' : sqlEqual y z = true) :
    x = y := by
  cases x <;> cases y <;> cases z <;> simp_all [sqlEqual]

section Removed

variable {deleted : String → Row V → Bool}

/-- A row that is removed is deleted, or it refers to one that is removed. -/
theorem gone_cases
    {depth : Nat} {name : String} {row : Row V} (h : ix.gone deleted depth name row = true) :
    deleted name row = true ∨
      ∃ table ∈ Table.allOf ix.roots, table.name = name ∧
        ∃ r, table.references = some r ∧ ∃ parent ∈ ix.rows r.1,
          (∃ depth' < depth, ix.gone deleted depth' r.1 parent = true) ∧
            sqlEqual (parent r.2) (row PARENT_TABLE_ID) = true := by
  cases depth with
  | zero => exact Or.inl h
  | succ depth =>
      rw [SQLiteIndex.gone, Bool.or_eq_true] at h
      refine h.imp_right fun hany => ?_
      obtain ⟨table, htable, hany⟩ := List.any_eq_true.mp hany
      rw [Bool.and_eq_true, beq_iff_eq, Option.any_eq_true] at hany
      obtain ⟨hname, r, hr, hany⟩ := hany
      obtain ⟨parent, hparent, hboth⟩ := List.any_eq_true.mp hany
      rw [Bool.and_eq_true] at hboth
      exact ⟨table, htable, hname, r, hr, parent, hparent,
        ⟨depth, Nat.lt_succ_self depth, hboth.1⟩, hboth.2⟩

theorem gone_of_deleted {depth : Nat} {name : String} {row : Row V}
    (h : deleted name row = true) : ix.gone deleted depth name row = true := by
  cases depth with
  | zero => exact h
  | succ depth => rw [SQLiteIndex.gone, h, Bool.true_or]

variable (hlinked : ∀ root ∈ ix.roots, Linked root)
variable (hdeleted : ∀ name row, deleted name row = true → ∃ root ∈ ix.roots, root.name = name)
include hlinked

/-- Documents are not deleted with other rows. -/
theorem gone_root {root : Table} (hroot : root ∈ ix.roots) (depth : Nat) (row : Row V) :
    ix.gone deleted depth root.name row = deleted root.name row := by
  refine Bool.eq_iff_iff.mpr ⟨fun h => ?_, gone_of_deleted⟩
  rcases gone_cases h with h | ⟨table, htable, hname, r, hr, -⟩
  · exact h
  · obtain rfl := eq_of_name_eq ix.names htable (Table.mem_allOf hroot) hname
    rw [(hlinked table hroot).references_root] at hr
    cases hr

include hdeleted

/-- No other row is deleted itself. -/
theorem eq_root_of_deleted
    {root table : Table} (hroot : root ∈ ix.roots) (htable : table ∈ root.all) {row : Row V}
    (h : deleted table.name row = true) : table = root := by
  obtain ⟨root', hroot', hname⟩ := hdeleted _ _ h
  have hall : table ∈ Table.allOf ix.roots := (Table.all_sublist hroot).subset htable
  obtain rfl := eq_of_name_eq ix.names (Table.mem_allOf hroot') hall hname
  exact (hlinked root hroot).eq_root (ix.documents root hroot).1 htable
    (ix.documents root' hroot').1 (hlinked root' hroot').references_root

/-- Rows stay when no document of their table is deleted. -/
theorem gone_below
    {root : Table} (hroot : root ∈ ix.roots)
    (hkept : ∀ row ∈ ix.rows root.name, deleted root.name row = false) {depth : Nat}
    {table : Table} (htable : table ∈ root.all) {row : Row V} (hrow : row ∈ ix.rows table.name) :
    ix.gone deleted depth table.name row = false := by
  induction depth using Nat.strong_induction_on generalizing table row with
  | _ depth ih =>
      by_contra hgone
      rw [Bool.not_eq_false] at hgone
      rcases gone_cases hgone with h | ⟨other, hother, hname, r, hr, parent, hparent,
        ⟨depth', hdepth, h⟩, -⟩
      · obtain rfl := eq_root_of_deleted hlinked hdeleted hroot htable h
        rw [hkept row hrow] at h
        cases h
      · obtain rfl := eq_of_name_eq ix.names hother
          ((Table.all_sublist hroot).subset htable) hname
        obtain ⟨above, habove, hname', -⟩ :=
          (hlinked root hroot).exists_parent htable (hr : other.references = some (r.1, r.2))
        rw [← hname'] at h hparent
        rw [ih depth' hdepth habove hparent] at h
        cases h

/-- The rows that refer to a document that stays do so too. -/
theorem gone_joined
    {root : Table} (hroot : root ∈ ix.roots) {row : Row V} (hrow : row ∈ ix.rows root.name)
    (hkept : deleted root.name row = false) {j : Join} (hj : Below root j)
    (hparent : j.parent = some (scopeOf root)) {depth : Nat} {r : Row V}
    (hr : sqlEqual (primaryOf root row) (r PARENT_TABLE_ID) = true) :
    ix.gone deleted depth j.table r = false := by
  obtain ⟨table, htable, hname, hreferences⟩ := (hlinked root hroot).references_of_below hj
  rw [hparent] at hreferences
  obtain ⟨⟨name, column⟩, hsome, heq⟩ := Option.map_eq_some_iff.mp hreferences
  obtain ⟨rfl, hprimary⟩ := Prod.mk.inj heq
  rw [← hname]
  by_contra hgone
  rw [Bool.not_eq_false] at hgone
  rcases gone_cases hgone with h | ⟨other, hother, hsame, r', hr', parent, hmem,
    ⟨depth', -, h⟩, hequal⟩
  · obtain rfl := eq_root_of_deleted hlinked hdeleted hroot htable h
    rw [(hlinked table hroot).references_root] at hsome
    cases hsome
  · obtain rfl := eq_of_name_eq ix.names hother ((Table.all_sublist hroot).subset htable) hsame
    obtain rfl := Option.some.inj (hsome.symm.trans hr')
    have hkey : primaryOf root parent = primaryOf root row := by
      refine eq_of_sqlEqual ?_ hr
      rw [primaryOf, ← hprimary]
      exact hequal
    obtain rfl := List.inj_on_of_nodup_map (ix.keys root hroot) hmem hrow hkey
    rw [gone_root hlinked hroot, hkept] at h
    cases h

/-- Deleting documents leaves the others as they are. -/
theorem less_remove : Less ix (ix.remove deleted) where
  roots := rfl
  schemaKeys := rfl
  rows := fun _ _ => List.filter_sublist
  joined := by
    intro root hroot row hrow j hj hparent
    obtain ⟨hrow, hkept⟩ := List.mem_filter.mp hrow
    rw [gone_root hlinked hroot, Bool.not_eq_true'] at hkept
    rw [SQLiteIndex.remove, List.filter_filter]
    refine List.filter_congr fun r _ => ?_
    rw [Bool.and_eq_left_iff_imp]
    intro hr
    rw [gone_joined hlinked hdeleted hroot hrow hkept hj hparent hr]
    rfl
  below := by
    intro root hroot heq child hchild
    have hkept : ∀ row ∈ ix.rows root.name, deleted root.name row = false := by
      intro row hrow
      have hmem := List.filter_eq_self.mp heq row hrow
      rwa [gone_root hlinked hroot, Bool.not_eq_true'] at hmem
    refine List.filter_eq_self.mpr fun row hrow => ?_
    rw [gone_below hlinked hdeleted hroot hkept hchild hrow]
    rfl

end Removed

end Less

/-! ### Statements after a deletion -/

section Statements

variable {L V K : Type} [DecidableEq V] {ix ix' : SQLiteIndex V}
variable {compares : L → SQLField → Option V → Option Bool}
variable {idOf : Table → Option V → Except SqlError K}
variable {request : Request L} {table : Table} {st : Statement L} {row : Row V}

/-- A document is selected when it satisfies the conditions. -/
theorem selects_iff_matches (hprepares : st.prepares [scopeOf table] = true) :
    ix.selects compares table st row = true ↔ Matches ix.rows compares table st row := by
  have hroot : startEnv table row (.table table.name) = some row := Function.update_self _ _ _
  rw [← countP_pos_iff_matches hprepares hroot, List.countP_pos_iff, SQLiteIndex.selects,
    List.any_eq_true]
  rfl

section Linked

variable (hlinked : ∀ root ∈ ix.roots, Linked root) (htable : table ∈ ix.roots)
include hlinked htable

/-- The documents that a statement leaves. -/
theorem rows_deleteRows :
    (ix.deleteRows compares table st).rows table.name =
      (ix.rows table.name).filter (fun row => !ix.deletes compares table st row) := by
  refine List.filter_congr fun row _ => ?_
  rw [gone_root hlinked htable, beq_self_eq_true, Bool.true_and]

theorem rows_deleteRows_of_ne {other : Table} (hother : other ∈ ix.roots) (hne : other ≠ table) :
    (ix.deleteRows compares table st).rows other.name = ix.rows other.name := by
  refine List.filter_eq_self.mpr fun row _ => ?_
  have hname : other.name ≠ table.name := fun hname => hne (ix.root_inj hother htable hname)
  rw [gone_root hlinked hother, beq_false_of_ne hname, Bool.false_and]
  rfl

theorem less_deleteRows : Less ix (ix.deleteRows compares table st) := by
  refine less_remove hlinked fun name row h => ⟨table, htable, ?_⟩
  rw [Bool.and_eq_true, beq_iff_eq] at h
  exact h.1.symm

theorem less_deleteFrom : Less ix (ix.deleteFrom compares idOf request table).1 := by
  rw [SQLiteIndex.deleteFrom]
  split
  · exact Less.refl ix
  · split
    · exact less_deleteRows hlinked htable
    · exact Less.refl ix

theorem rows_deleteFrom_of_ne {other : Table} (hother : other ∈ ix.roots) (hne : other ≠ table) :
    (ix.deleteFrom compares idOf request table).1.rows other.name = ix.rows other.name := by
  rw [SQLiteIndex.deleteFrom]
  split
  · rfl
  · split
    · exact rows_deleteRows_of_ne hlinked htable hother hne
    · rfl

end Linked

section Converted

variable (h : Less ix ix') (htable : table ∈ ix.roots)
include h

theorem Less.convert (table : Table) (queries : List (QueryTree (QueryLeaf L))) :
    ix'.convert table queries = ix.convert table queries := by
  rw [SQLiteIndex.convert, SQLiteIndex.convert, h.roots, h.schemaKeys]

theorem Less.preparesDelete (table : Table) (st : Statement L) :
    ix'.preparesDelete table st = ix.preparesDelete table st := by
  rw [SQLiteIndex.preparesDelete, SQLiteIndex.preparesDelete, SQLiteIndex.ownsPrimary,
    SQLiteIndex.ownsPrimary, h.roots]

include htable

/-- What a query joins to a document that is left. -/
theorem Less.joinAll_queryJoins
    (hrow : row ∈ ix'.rows table.name) (hbelow : ∀ j ∈ st.joins, Below table j)
    (hprepares : st.prepares [scopeOf table] = true) {env : Env V}
    (henv : env (.table table.name) = some row) :
    joinAll (queryJoins ix'.rows st) env = joinAll (queryJoins ix.rows st) env := by
  refine joinAll_map_congr (fun _ _ => rfl) (a := .table table.name) ?_ ?_
  · rintro j - ⟨⟩
  · intro j hj e he
    obtain ⟨parent, hscope, hparent⟩ := (prepares_iff.mp hprepares).1 j hj
    rw [List.mem_singleton] at hscope
    subst hscope
    have hsame := h.joined table htable row hrow j (hbelow j hj) hparent
    have hroot : e (.table table.name) = some row := he.trans henv
    simp only [Join.leftJoin, hparent, scopeOf, hroot, Option.bind_some]
    exact hsame

theorem Less.selects
    (hrow : row ∈ ix'.rows table.name) (hbelow : ∀ j ∈ st.joins, Below table j)
    (hprepares : st.prepares [scopeOf table] = true) :
    ix'.selects compares table st row = ix.selects compares table st row := by
  have hroot : startEnv table row (.table table.name) = some row := Function.update_self _ _ _
  rw [SQLiteIndex.selects, SQLiteIndex.selects, SQLiteIndex.joined, SQLiteIndex.joined,
    h.joinAll_queryJoins htable hrow hbelow hprepares hroot]

section SameRows

variable (hrows : ix'.rows table.name = ix.rows table.name)
include hrows

variable (compares) in
theorem Less.deletes
    (hbelow : ∀ j ∈ st.joins, Below table j) (hprepares : st.prepares [scopeOf table] = true)
    (row : Row V) : ix'.deletes compares table st row = ix.deletes compares table st row := by
  rw [SQLiteIndex.deletes, SQLiteIndex.deletes, hrows, Bool.eq_iff_iff, List.any_eq_true,
    List.any_eq_true]
  refine exists_congr fun other => and_congr_right fun hother => ?_
  rw [h.selects htable (hrows ▸ hother) hbelow hprepares]

variable (compares idOf request) in
/-- A statement does the same after others. -/
theorem Less.deleteFrom (hlinked : ∀ root ∈ ix.roots, Linked root) :
    (ix'.deleteFrom compares idOf request table).2 =
        (ix.deleteFrom compares idOf request table).2 ∧
      (ix'.deleteFrom compares idOf request table).1.rows table.name =
        (ix.deleteFrom compares idOf request table).1.rows table.name := by
  rw [SQLiteIndex.deleteFrom, SQLiteIndex.deleteFrom, h.convert]
  cases hconvert : ix.convert table request.query with
  | error e => exact ⟨rfl, hrows⟩
  | ok st =>
      dsimp only
      rw [h.preparesDelete]
      split
      · rename_i hprepares
        have hnames := (Bool.and_eq_true_iff.mp hprepares).1
        have hdeletes := h.deletes compares htable hrows (below_statement hconvert) hnames
        refine ⟨?_, ?_⟩
        · rw [SQLiteIndex.deletedRows, SQLiteIndex.deletedRows, hrows]
          exact congrArg (List.mapM _) (List.filter_congr fun row _ => hdeletes row)
        · rw [rows_deleteRows (h.roots ▸ hlinked) (h.roots ▸ htable),
            rows_deleteRows hlinked htable, hrows]
          exact List.filter_congr fun row _ => by rw [hdeletes row]
      · exact ⟨rfl, hrows⟩

end SameRows

end Converted

/-! ### The loop over the tables -/

section Loop

variable {tables : List Table} {ret ids : List K} {once : Bool} {lastError : Option SqlError}
variable (hlinked : ∀ root ∈ ix.roots, Linked root)
include hlinked

variable (compares idOf request) in
/-- One statement, after others, on the documents of a table of its own. -/
theorem deleteFrom_step
    (hnodup : (table :: tables).Nodup) (htables : table :: tables ⊆ ix.roots)
    (h : Less ix ix') (hrows : ∀ other ∈ table :: tables,
      ix'.rows other.name = ix.rows other.name) :
    Less ix (ix'.deleteFrom compares idOf request table).1 ∧
      (∀ other ∈ tables, (ix'.deleteFrom compares idOf request table).1.rows other.name =
        ix.rows other.name) ∧
      ∀ other ∈ ix.roots, other ≠ table →
        (ix'.deleteFrom compares idOf request table).1.rows other.name = ix'.rows other.name := by
  have hlinked' : ∀ root ∈ ix'.roots, Linked root := h.roots ▸ hlinked
  have htable : table ∈ ix.roots := htables List.mem_cons_self
  have hothers : ∀ other ∈ ix.roots, other ≠ table →
      (ix'.deleteFrom compares idOf request table).1.rows other.name = ix'.rows other.name :=
    fun other hother hne =>
      rows_deleteFrom_of_ne hlinked' (h.roots ▸ htable) (h.roots ▸ hother) hne
  refine ⟨h.trans (less_deleteFrom hlinked' (h.roots ▸ htable)), ?_, hothers⟩
  intro other hother
  have hmem := List.mem_cons_of_mem table hother
  rw [hothers other (htables hmem)
    (fun heq => (List.nodup_cons.mp hnodup).1 (heq ▸ hother)), hrows other hmem]

/-- What is returned does not depend on the order of the statements. -/
theorem delTables_eq_ok_iff
    (hnodup : tables.Nodup) (htables : tables ⊆ ix.roots) (h : Less ix ix')
    (hrows : ∀ table ∈ tables, ix'.rows table.name = ix.rows table.name) :
    (delTables compares idOf request ret once lastError tables ix').2 = .ok ids ↔
      ∃ idss, skipMissing (tables.map (fun table =>
          (ix.deleteFrom compares idOf request table).2)) = .ok idss ∧
        (once = true ∨ idss ≠ []) ∧ ids = ret ++ idss.flatten := by
  induction tables generalizing ix' ret once lastError with
  | nil =>
      rw [delTables]
      constructor
      · intro hok
        dsimp only at hok
        split at hok
        · rename_i honce
          obtain rfl := Except.ok.inj hok
          exact ⟨[], rfl, Or.inl honce, (List.append_nil _).symm⟩
        · cases hok
      · rintro ⟨idss, hskip, honce, rfl⟩
        obtain rfl := Except.ok.inj hskip
        rcases honce with honce | hne
        · rw [if_pos honce, List.flatten_nil, List.append_nil]
        · exact absurd rfl hne
  | cons table tables ih =>
      obtain ⟨hless, hrest, -⟩ := deleteFrom_step compares idOf request hlinked hnodup
        htables h hrows
      have hsame := (h.deleteFrom compares idOf request (htables List.mem_cons_self)
        (hrows table List.mem_cons_self) hlinked).1
      rw [List.cons_subset] at htables
      rw [List.nodup_cons] at hnodup
      rw [delTables, List.map_cons, hsame]
      cases (ix.deleteFrom compares idOf request table).2 with
      | ok first =>
          dsimp only
          rw [ih hnodup.2 htables.2 hless hrest, skipMissing]
          simp only [Lib.Results.bind_eq_ok_iff]
          constructor
          · rintro ⟨idss, hskip, -, rfl⟩
            exact ⟨first :: idss, ⟨idss, hskip, rfl⟩, Or.inr (List.cons_ne_nil _ _), by simp⟩
          · rintro ⟨_, ⟨idss, hskip, heq⟩, -, rfl⟩
            obtain rfl := Except.ok.inj heq
            exact ⟨idss, hskip, Or.inl trivial, by simp⟩
      | error e =>
          dsimp only
          rw [skipMissing]
          split
          · exact ih hnodup.2 htables.2 hless hrest
          · constructor
            · intro hok
              cases hok
            · rintro ⟨idss, hskip, -⟩
              cases hskip

omit hlinked in
/-- When ids are returned, the loop has gone on. -/
theorem exists_delTables_cons
    (hok : (delTables compares idOf request ret once lastError (table :: tables) ix).2 =
      .ok ids) :
    ∃ ret' once' lastError',
      delTables compares idOf request ret once lastError (table :: tables) ix =
        delTables compares idOf request ret' once' lastError' tables
          (ix.deleteFrom compares idOf request table).1 := by
  rw [delTables] at hok ⊢
  split at hok
  · exact ⟨_, _, _, rfl⟩
  · split at hok
    · rename_i hmissing
      rw [if_pos hmissing]
      exact ⟨_, _, _, rfl⟩
    · cases hok

/-- Of each table the statement has deleted its documents. -/
theorem delTables_rows
    (hnodup : tables.Nodup) (htables : tables ⊆ ix.roots) (h : Less ix ix')
    (hrows : ∀ table ∈ tables, ix'.rows table.name = ix.rows table.name)
    (hok : (delTables compares idOf request ret once lastError tables ix').2 = .ok ids) :
    Less ix (delTables compares idOf request ret once lastError tables ix').1 ∧
      (∀ table ∈ ix.roots, table ∉ tables →
        (delTables compares idOf request ret once lastError tables ix').1.rows table.name =
          ix'.rows table.name) ∧
      ∀ table ∈ tables,
        (delTables compares idOf request ret once lastError tables ix').1.rows table.name =
          (ix.deleteFrom compares idOf request table).1.rows table.name := by
  induction tables generalizing ix' ret once lastError with
  | nil => exact ⟨h, fun _ _ _ => rfl, fun _ hmem => absurd hmem List.not_mem_nil⟩
  | cons table tables ih =>
      obtain ⟨hless, hrest, hothers⟩ := deleteFrom_step compares idOf request hlinked hnodup
        htables h hrows
      have hfirst := (h.deleteFrom compares idOf request (htables List.mem_cons_self)
        (hrows table List.mem_cons_self) hlinked).2
      rw [List.cons_subset] at htables
      rw [List.nodup_cons] at hnodup
      obtain ⟨ret', once', lastError', heq⟩ := exists_delTables_cons hok
      rw [heq] at hok ⊢
      obtain ⟨hless', hkept, hdone⟩ := ih hnodup.2 htables.2 hless hrest hok
      refine ⟨hless', fun other hother hnot => ?_, List.forall_mem_cons.mpr ⟨?_, hdone⟩⟩
      · obtain ⟨hne, hnot⟩ := not_or.mp (List.mem_cons.not.mp hnot)
        rw [hkept other hother hnot, hothers other hother hne]
      · rw [hkept table htables.1 hnodup.1, hfirst]

end Loop

/-! ### What is returned -/

section Returned

/-- The ids that the statement of a table returns. -/
def SQLiteIndex.returned (ix : SQLiteIndex V)
    (compares : L → SQLField → Option V → Option Bool)
    (idOf : Table → Option V → Except SqlError K) (t : Table × Statement L) :
    Except SqlError (List K) :=
  (ix.deletedRows compares t.1 t.2).mapM (fun row => idOf t.1 (primaryOf t.1 row))

theorem deleteFrom_of_error {e : SqlError} (h : ix.convert table request.query = .error e) :
    ix.deleteFrom compares idOf request table = (ix, .error e) := by
  rw [SQLiteIndex.deleteFrom, h]

theorem deleteFrom_of_ok (h : ix.convert table request.query = .ok st) :
    ix.deleteFrom compares idOf request table =
      if ix.preparesDelete table st then
        (ix.deleteRows compares table st, ix.returned compares idOf (table, st))
      else (ix, .error .refused) := by
  rw [SQLiteIndex.deleteFrom, h]
  rfl

/-- The tables of documents that have the fields of the query, among some. -/
def SQLiteIndex.knownOf (ix : SQLiteIndex V) (request : Request L) (tables : List Table) :
    List (Table × Statement L) :=
  tables.filterMap (fun table =>
    (resultOf (ix.convert table request.query)).map (fun st => (table, st)))

/-- The ids that are returned, as a set. -/
theorem mem_flatten_returned
    {ts : List (Table × Statement L)} {idss : List (List K)}
    (h : ts.mapM (ix.returned compares idOf) = .ok idss) {key : K} :
    key ∈ idss.flatten ↔
      ∃ t ∈ ts, ∃ row ∈ ix.deletedRows compares t.1 t.2,
        idOf t.1 (primaryOf t.1 row) = .ok key := by
  rw [List.mem_flatten]
  constructor
  · rintro ⟨ids, hids, hkey⟩
    obtain ⟨t, ht, hreturned⟩ := (Lib.Results.mem_of_mapM h).mp hids
    exact ⟨t, ht, (Lib.Results.mem_of_mapM hreturned).mp hkey⟩
  · rintro ⟨t, ht, hrow⟩
    obtain ⟨ids, hreturned⟩ := Lib.Results.exists_mapM_iff.mp ⟨idss, h⟩ t ht
    exact ⟨ids, (Lib.Results.mem_of_mapM h).mpr ⟨t, ht, hreturned⟩,
      (Lib.Results.mem_of_mapM hreturned).mpr hrow⟩

variable (hidOf : ∀ table value e, idOf table value = .error e → e.isMissingField = false)
include hidOf

theorem not_missing_of_returned {t : Table × Statement L} {e : SqlError}
    (h : ix.returned compares idOf t = .error e) : e.isMissingField = false := by
  obtain ⟨row, -, he⟩ := Lib.Results.mapM_error h
  exact hidOf _ _ _ he

theorem skipMissing_deleteFrom_iff {tables : List Table} {idss : List (List K)} :
    skipMissing (tables.map (fun table =>
        (ix.deleteFrom compares idOf request table).2)) = .ok idss ↔
      (∀ table ∈ tables, ∀ e, ix.convert table request.query = .error e →
          e.isMissingField = true) ∧
        (∀ t ∈ ix.knownOf request tables, ix.preparesDelete t.1 t.2 = true) ∧
          (ix.knownOf request tables).mapM (ix.returned compares idOf) = .ok idss := by
  induction tables generalizing idss with
  | nil =>
      constructor
      · exact fun h => ⟨fun _ hmem => absurd hmem List.not_mem_nil,
          fun _ hmem => absurd hmem List.not_mem_nil, h⟩
      · exact fun h => h.2.2
  | cons table tables ih =>
      rw [List.map_cons, List.forall_mem_cons]
      cases hconvert : ix.convert table request.query with
      | error e =>
          have hknown : ix.knownOf request (table :: tables) = ix.knownOf request tables := by
            rw [SQLiteIndex.knownOf, List.filterMap_cons, hconvert]
            rfl
          rw [hknown, deleteFrom_of_error hconvert, skipMissing]
          split
          · rename_i hmissing
            rw [ih]
            refine and_congr_left fun _ => (and_iff_right ?_).symm
            rintro e' ⟨⟩
            exact hmissing
          · rename_i hmissing
            constructor
            · rintro ⟨⟩
            · exact fun h => absurd (h.1.1 e rfl) hmissing
      | ok st =>
          have hknown : ix.knownOf request (table :: tables) =
              (table, st) :: ix.knownOf request tables := by
            rw [SQLiteIndex.knownOf, List.filterMap_cons, hconvert]
            rfl
          rw [hknown, deleteFrom_of_ok hconvert, List.forall_mem_cons, Lib.Results.mapM_cons]
          have hvacuous : ∀ e : SqlError, Except.ok st = .error e → e.isMissingField = true := by
            rintro e ⟨⟩
          rw [and_iff_right hvacuous]
          by_cases hprepares : ix.preparesDelete table st = true
          · rw [if_pos hprepares, and_iff_right hprepares]
            dsimp only
            cases hreturned : ix.returned compares idOf (table, st) with
            | error e =>
                have hmissing := not_missing_of_returned hidOf hreturned
                rw [skipMissing, if_neg (by simp [hmissing])]
                constructor
                · rintro ⟨⟩
                · rintro ⟨-, -, ⟨⟩⟩
            | ok ids =>
                rw [skipMissing, Lib.Results.bind_eq_ok_iff]
                constructor
                · rintro ⟨rest, hrest, h⟩
                  obtain rfl := (Except.ok.inj h).symm
                  obtain ⟨hmissing, haccepted, hmap⟩ := ih.mp hrest
                  exact ⟨hmissing, haccepted, by rw [hmap]⟩
                · rintro ⟨hmissing, haccepted, h⟩
                  cases hmap : (ix.knownOf request tables).mapM (ix.returned compares idOf) with
                  | error e =>
                      rw [hmap] at h
                      cases h
                  | ok rest =>
                      rw [hmap] at h
                      exact ⟨rest, ih.mpr ⟨hmissing, haccepted, hmap⟩, h⟩
          · rw [if_neg hprepares]
            constructor
            · rintro ⟨⟩
            · exact fun h => absurd h.2.1.1 hprepares

/-- There are ids when other tables of documents lack a field, the statements find their
names and the keys are ids. -/
theorem del_eq_ok_iff
    (hlinked : ∀ root ∈ ix.roots, Linked root) {ids : List K} :
    (ix.del compares idOf request).2 = .ok ids ↔
      (∀ table ∈ ix.roots, ∀ e, ix.convert table request.query = .error e →
          e.isMissingField = true) ∧
        (∀ t ∈ ix.known request, ix.preparesDelete t.1 t.2 = true) ∧
          ix.known request ≠ [] ∧
            ∃ idss, (ix.known request).mapM (ix.returned compares idOf) = .ok idss ∧
              ids = idss.flatten := by
  rw [SQLiteIndex.del, delTables_eq_ok_iff hlinked
    (ix.names.sublist ((sublist_allOf _).map _)).of_map (List.Subset.refl _) (Less.refl ix)
    (fun _ _ => rfl)]
  simp only [skipMissing_deleteFrom_iff hidOf]
  have hlength : ∀ idss, (ix.known request).mapM (ix.returned compares idOf) = .ok idss →
      (idss ≠ [] ↔ ix.known request ≠ []) := by
    intro idss hmap
    have hall := (Lib.Results.mapM_eq_ok_iff.mp hmap).length_eq
    rw [Ne, Ne, ← List.length_eq_zero_iff, ← hall, List.length_eq_zero_iff]
  constructor
  · rintro ⟨idss, ⟨hmissing, haccepted, hmap⟩, hne, rfl⟩
    have hne' := hne.resolve_left Bool.false_ne_true
    exact ⟨hmissing, haccepted, (hlength idss hmap).mp hne', idss, hmap, List.nil_append _⟩
  · rintro ⟨hmissing, haccepted, hne, idss, hmap, rfl⟩
    exact ⟨idss, ⟨hmissing, haccepted, hmap⟩, Or.inr ((hlength idss hmap).mpr hne),
      (List.nil_append _).symm⟩

omit hidOf in
/-- What `del` leaves. -/
theorem del_rows
    (hlinked : ∀ root ∈ ix.roots, Linked root) {ids : List K}
    (hok : (ix.del compares idOf request).2 = .ok ids) :
    Less ix (ix.del compares idOf request).1 ∧
      ∀ table ∈ ix.roots, (ix.del compares idOf request).1.rows table.name =
        (ix.deleteFrom compares idOf request table).1.rows table.name := by
  obtain ⟨hless, -, hrows⟩ := delTables_rows hlinked
    (ix.names.sublist ((sublist_allOf _).map _)).of_map (List.Subset.refl _) (Less.refl ix)
    (fun _ _ => rfl) hok
  exact ⟨hless, hrows⟩

end Returned

end Statements

end Indexer
end Peerbit
