import Peerbit.Indexer.RowElements

/-!
# Rows that belong to a row

The rows of a table that name a row by its id are the ones that its insert has
added, and the items of a vector are read from them.
-/

namespace Peerbit
namespace Sqlite

open Lib.RowTrees
open Lib.Results

/-! ### Rows that name a row -/

def InsertCall.key (call : InsertCall) : String × SqlValue :=
  (call.table.name, call.id.sql)

/-- The key of the row that a row belongs to. -/
def InsertCall.parentKey (call : InsertCall) : Option (String × SqlValue) :=
  call.parentId.bind fun parentId =>
    call.table.parentPath.head?.map fun name => (name, parentId.sql)

/-- A row whose insert was given the id of another row. -/
structure InsertCall.Below (tables : List Table) (call : InsertCall) :
    Prop where
  sound : call.Sound tables
  child : call.Child
  parent : ∃ parentId, call.parentId = some parentId

/-- The rows of a document. -/
def Stored (tables : List Table) (calls : List InsertCall) : Prop :=
  ∀ call ∈ calls, call.Sound tables ∧
    (call.table.references ≠ none → call.Below tables)

/-- A table whose rows belong to rows of another. -/
structure Table.IsChild (table : Table) (name : String) : Prop where
  references : table.references ≠ none
  parent : table.parentPath.head? = some name
  path : table.path = [table.name]
  primary : table.primary = some CHILD_TABLE_ID

/-- The rows of some tables that belong to a row are the ones of some trees. -/
def Serves (calls : List InsertCall) (call : InsertCall)
    (dependencies : List Table) (nodes : List (Node InsertCall)) : Prop :=
  ∀ table ∈ Table.allOf dependencies, table.IsChild call.table.name →
    selectChildren (calls.map InsertCall.row) table.name call.id.sql =
      (nodes.filter (fun node => node.row.table.name == table.name)).map
        (fun node => node.row.row)

theorem serves_of_served {tables : List Table}
    (hnames : (tables.map Table.name).Nodup) {calls : List InsertCall}
    (hstored : Stored tables calls) {call : InsertCall}
    {nodes : List (Node InsertCall)}
    (hserved : (Node.node call nodes).Served InsertCall.key
      InsertCall.parentKey calls)
    {dependencies : List Table}
    (hdependencies : ∀ table ∈ Table.allOf dependencies, table ∈ tables) :
    Serves calls call dependencies nodes := by
  intro table htable hchild
  have hsame : ∀ c ∈ calls,
      (c.row.table.name == table.name &&
          decide (c.row.cell PARENT_TABLE_ID = some call.id.sql)) =
        (c.table.name == table.name &&
          decide (c.parentKey = some call.key)) := by
    intro c hc
    change (c.table.name == table.name && _) = _
    by_cases hname : c.table.name = table.name
    · have heq : c.table = table :=
        eq_of_name_eq hnames (hstored c hc).1.mem (hdependencies table htable)
          hname
      have hbelow := (hstored c hc).2 (heq ▸ hchild.references)
      obtain ⟨parentId, hparent⟩ := hbelow.parent
      have hcell := hbelow.child.parentCell parentId hparent
      have hkey : c.parentKey = some (call.table.name, parentId.sql) := by
        unfold InsertCall.parentKey
        rw [hparent, heq, hchild.parent]
        rfl
      rw [hcell, hkey]
      simp [InsertCall.key]
    · rw [beq_false_of_ne hname]
      rfl
  unfold selectChildren
  rw [List.filter_map]
  calc (calls.filter _).map InsertCall.row
      = (calls.filter fun c => c.table.name == table.name &&
          decide (c.parentKey = some call.key)).map InsertCall.row :=
        congrArg _ (List.filter_congr hsame)
    _ = ((calls.filter fun c => decide (c.parentKey = some call.key)).filter
          fun c => c.table.name == table.name).map InsertCall.row := by
        rw [List.filter_filter]
    _ = ((nodes.map Node.row).filter
          fun c => c.table.name == table.name).map InsertCall.row := by
        rw [hserved.1]
    _ = _ := by
        rw [List.filter_map, List.map_map]
        rfl

/-! ### The rows of a vector -/

/-- A row as a part of a row of a select, or as an object. -/
inductive InsertCall.Seen (call : InsertCall) : Bool → Row → Prop
  | joined : Seen call true (.joined call.row)
  | element {properties : List (String × Scalar)} (hchild : call.Child)
      (h : call.Shows properties) : Seen call false (.element properties)

theorem getInlineTableFieldName_row {table : Table}
    (h : table.path = [table.name]) (key : String) :
    getInlineTableFieldName table.path.tail key = key := by
  rw [h, List.tail_cons, getInlineTableFieldName]
  split
  · rename_i hempty
    exact (String.isEmpty_iff.mp hempty).symm
  · rfl

/-- A row that is seen has a value for each column. -/
theorem InsertCall.Seen.column {tables : List Table} {call : InsertCall}
    (h : call.Sound tables) (hpath : call.table.path = [call.table.name])
    {tablePrefixed : Bool} {row : Row} (hseen : call.Seen tablePrefixed row)
    (db : Db) (column : SQLField) (hcolumn : column ∈ call.table.columns) :
    (column.valueIn call.obj).Reads
      (row.get db
        (getTablePrefixedField call.table column.name (!tablePrefixed))) := by
  unfold getTablePrefixedField
  rw [getInlineTableFieldName_row hpath]
  cases hseen with
  | joined =>
      have hcell := h.cell column hcolumn
      have hsame : call.table.name = call.row.table.name := rfl
      simp only [Row.get, Bool.not_true, Bool.false_eq_true, if_false]
      rw [if_pos hsame, Option.bind_some, hcell]
      exact SqlValue.reads_read _
  | element hchild hshows => exact hshows.column column hcolumn

/-- The rows of a table as the items of a vector are read from them. -/
theorem resolveArray_of_serves {tables : List Table} {call : InsertCall}
    (h : call.Sound tables) (hpath : call.table.path = [call.table.name])
    {tablePrefixed : Bool} {row : Row} (hseen : call.Seen tablePrefixed row)
    {db : Db} {table : Table} {nodes : List (Node InsertCall)}
    (hserves : selectChildren db table.name call.id.sql =
      nodes.map (fun node => node.row.row))
    (hnodes : ∀ node ∈ nodes, node.row.table = table ∧ node.row.Below tables ∧
      (tablePrefixed = true → node.row.Complete)) :
    ∃ elements,
      resolveArray db row call.table table tablePrefixed = .ok elements ∧
        List.Forall₂ (fun node element => node.row.Shows element) nodes
          elements := by
  cases hseen with
  | joined =>
      have hprimary : ∀ item ∈
          (nodes.map fun node => node.row.row).map DbRow.jsonObject,
          (!((item.lookup (table.primary.getD "")).getD .undefined).isNull) =
            true := by
        intro item hitem
        rw [List.map_map] at hitem
        obtain ⟨node, hnode, rfl⟩ := List.mem_map.mp hitem
        obtain ⟨rfl, hbelow, -⟩ := hnodes node hnode
        rw [hbelow.child.primary, Option.getD_some]
        exact congrArg not (InsertCall.id_json hbelow.child)
      obtain ⟨elements, helements, hall⟩ := mapM_ok
        (f := fun node : Node InsertCall =>
          node.row.row.jsonObject.mapM (convertProperty table.fields))
        (P := fun node element => node.row.Shows element) (l := nodes) (by
          intro node hnode
          obtain ⟨rfl, hbelow, hcomplete⟩ := hnodes node hnode
          exact InsertCall.shows_json hbelow.sound hbelow.child
            (hcomplete rfl))
      refine ⟨elements, ?_, hall⟩
      unfold resolveArray Row.array
      simp only
      rw [h.id, hserves, List.filter_eq_self.mpr hprimary, List.map_map,
        List.mapM_map]
      exact helements
  | element hchild hshows =>
      refine ⟨nodes.map fun node => node.row.row.object, ?_, ?_⟩
      · unfold resolveArray Row.array getTablePrefixedField
        simp only [getInlineTableFieldName_row hpath, hchild.primary,
          Option.getD_some, Bool.not_false, if_true, Row.get]
        rw [hshows.id.sql_eq, hserves, List.map_map]
        rfl
      · rw [List.forall₂_map_right_iff, List.forall₂_same]
        intro node hnode
        obtain ⟨-, hbelow, -⟩ := hnodes node hnode
        exact InsertCall.shows_object hbelow.sound hbelow.child

/-! ### The items of a vector -/

/-- Some items of an array are there. -/
structure Filled (items arr : List Value) (found : Nat → Prop) : Prop where
  length : arr.length ≤ items.length
  found : ∀ i, found i → i < arr.length ∧ arr[i]? = items[i]?

theorem Filled.set {items arr : List Value} {found : Nat → Prop}
    (h : Filled items arr found) {i : Nat} {item : Value}
    (hitem : items[i]? = some item) {index : Scalar}
    (hindex : (SqlValue.integer i).Reads index) :
    Filled items (setIndex arr index item) (fun j => found j ∨ j = i) := by
  have hi : i < items.length := (List.getElem?_eq_some_iff.mp hitem).1
  have hset : setIndex arr index item =
      (arr ++ List.replicate (i + 1 - arr.length) Value.undefined).set i
        item := by
    have hnonneg : ¬ (i : Int) < 0 := by omega
    rcases hindex with rfl | rfl
    · unfold setIndex
      simp only [if_neg hnonneg, Int.toNat_natCast]
    · unfold setIndex
      simp only [if_neg hnonneg, Int.toNat_natCast]
  have hlength : (arr ++ List.replicate (i + 1 - arr.length)
      Value.undefined).length = max arr.length (i + 1) := by
    rw [List.length_append, List.length_replicate]
    omega
  rw [hset]
  refine ⟨?_, ?_⟩
  · rw [List.length_set, hlength]
    have := h.length
    omega
  · intro j hj
    rw [List.length_set, hlength]
    by_cases hij : j = i
    · subst hij
      refine ⟨by omega, ?_⟩
      rw [List.getElem?_set_self (by omega), hitem]
    · have hfound := h.found j (hj.resolve_right hij)
      refine ⟨by omega, ?_⟩
      rw [List.getElem?_set_ne (Ne.symm hij),
        List.getElem?_append_left hfound.1, hfound.2]

theorem Filled.eq {items arr : List Value} {found : Nat → Prop}
    (h : Filled items arr found) (hall : ∀ i < items.length, found i) :
    arr = items := by
  refine List.ext_getElem? ?_
  intro i
  by_cases hi : i < items.length
  · exact (h.found i (hall i hi)).2
  · rw [List.getElem?_eq_none (by have := h.length; omega),
      List.getElem?_eq_none (by omega)]

/-- A row of an item of a vector. -/
def ItemOf (items : List Value) (resolve : Row → Except RowError Value)
    (node : Node InsertCall) : Prop :=
  ∃ (i : Nat) (item : Value), node.row.index = some i ∧
    items[i]? = some item ∧
    ∀ element, node.row.Shows element → resolve (.element element) = .ok item

theorem resolveRows_filled {items : List Value}
    {resolve : Row → Except RowError Value} {nodes : List (Node InsertCall)}
    {elements : List (List (String × Scalar))}
    (hshows : List.Forall₂ (fun node element => node.row.Shows element) nodes
      elements)
    (hitems : ∀ node ∈ nodes, ItemOf items resolve node)
    {arr : List Value} {found : Nat → Prop} (h : Filled items arr found) :
    ∃ resolvedArr, resolveRows resolve elements arr = .ok resolvedArr ∧
      Filled items resolvedArr
        (fun j => found j ∨ ∃ node ∈ nodes, node.row.index = some j) := by
  induction hshows generalizing arr found with
  | nil =>
      refine ⟨arr, rfl, h.length, ?_⟩
      rintro i (hi | ⟨node, hnode, -⟩)
      · exact h.found i hi
      · exact absurd hnode List.not_mem_nil
  | @cons node element nodes elements hshow _ ih =>
      obtain ⟨i, item, hindex, hitem, hresolve⟩ :=
        hitems node List.mem_cons_self
      obtain ⟨resolvedArr, hrows, hfilled⟩ :=
        ih (fun n hn => hitems n (List.mem_cons_of_mem _ hn))
          (h.set hitem (hshow.index i hindex))
      refine ⟨resolvedArr, ?_, hfilled.length, ?_⟩
      · unfold resolveRows
        rw [hresolve element hshow]
        exact hrows
      · rintro j (hj | ⟨n, hn, hj⟩)
        · exact hfilled.found j (.inl (.inl hj))
        · rcases List.mem_cons.mp hn with rfl | hn
          · refine hfilled.found j (.inl (.inr ?_))
            exact Option.some.inj (hj.symm.trans hindex)
          · exact hfilled.found j (.inr ⟨n, hn, hj⟩)

section Items

variable {db : Db} {row : Row} {rootTable : Table} {tablePrefixed : Bool}
variable {resolve : Table → Row → Except RowError Value} {items : List Value}
variable {nodes : List (Node InsertCall)}

theorem resolveItems_filled {subTables : List Table}
    (harrays : ∀ table ∈ subTables, ∃ elements,
      resolveArray db row rootTable table tablePrefixed = .ok elements ∧
        List.Forall₂ (fun node element => node.row.Shows element)
          (nodes.filter fun node => node.row.table.name == table.name) elements)
    (hitems : ∀ table ∈ subTables, ∀ node ∈ nodes,
      node.row.table.name = table.name → ItemOf items (resolve table) node)
    {arr : List Value} {found : Nat → Prop} (h : Filled items arr found) :
    ∃ resolvedArr,
      resolveItems db row rootTable tablePrefixed resolve subTables arr =
        .ok (.array resolvedArr) ∧
      Filled items resolvedArr (fun j => found j ∨ ∃ node ∈ nodes,
        (∃ table ∈ subTables, node.row.table.name = table.name) ∧
          node.row.index = some j) := by
  induction subTables generalizing arr found with
  | nil =>
      refine ⟨arr, rfl, h.length, ?_⟩
      rintro i (hi | ⟨node, -, ⟨table, htable, -⟩, -⟩)
      · exact h.found i hi
      · exact absurd htable List.not_mem_nil
  | cons subTable subTables ih =>
      obtain ⟨elements, harray, hshows⟩ := harrays subTable List.mem_cons_self
      have hown : ∀ node ∈ nodes.filter
          (fun node => node.row.table.name == subTable.name),
          ItemOf items (resolve subTable) node := by
        intro node hnode
        obtain ⟨hnode, hname⟩ := List.mem_filter.mp hnode
        exact hitems subTable List.mem_cons_self node hnode (beq_iff_eq.mp hname)
      obtain ⟨arr', hrows, hfilled⟩ := resolveRows_filled hshows hown h
      obtain ⟨resolvedArr, hrest, hresolved⟩ :=
        ih (fun t ht => harrays t (List.mem_cons_of_mem _ ht))
          (fun t ht => hitems t (List.mem_cons_of_mem _ ht)) hfilled
      refine ⟨resolvedArr, ?_, hresolved.length, ?_⟩
      · unfold resolveItems
        rw [harray]
        simp only [hrows]
        exact hrest
      · rintro j (hj | ⟨node, hnode, ⟨table, htable, hname⟩, hj⟩)
        · exact hresolved.found j (.inl (.inl hj))
        · rcases List.mem_cons.mp htable with rfl | htable
          · refine hresolved.found j (.inl (.inr ⟨node, ?_, hj⟩))
            exact List.mem_filter.mpr ⟨hnode, beq_iff_eq.mpr hname⟩
          · exact hresolved.found j
              (.inr ⟨node, hnode, ⟨table, htable, hname⟩, hj⟩)

variable (nodes) in
/-- A vector is resolved when each of its items has a row in one of the
tables. -/
theorem resolveItems_eq {subTables : List Table}
    (harrays : ∀ table ∈ subTables, ∃ elements,
      resolveArray db row rootTable table tablePrefixed = .ok elements ∧
        List.Forall₂ (fun node element => node.row.Shows element)
          (nodes.filter fun node => node.row.table.name == table.name) elements)
    (hitems : ∀ table ∈ subTables, ∀ node ∈ nodes,
      node.row.table.name = table.name → ItemOf items (resolve table) node)
    (hall : ∀ i < items.length, ∃ node ∈ nodes,
      (∃ table ∈ subTables, node.row.table.name = table.name) ∧
        node.row.index = some i) :
    resolveItems db row rootTable tablePrefixed resolve subTables [] =
      .ok (.array items) := by
  have hempty : Filled items [] (fun _ => False) :=
    ⟨Nat.zero_le _, fun _ h => h.elim⟩
  obtain ⟨resolvedArr, hresolved, hfilled⟩ :=
    resolveItems_filled harrays hitems hempty
  rw [hresolved, hfilled.eq fun i hi => .inr (hall i hi)]

end Items

end Sqlite
end Peerbit
