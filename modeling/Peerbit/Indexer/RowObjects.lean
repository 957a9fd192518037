import Peerbit.Indexer.RowBounds

/-!
# Rows of objects

An object of a vector or of a polymorphic field has a row of its own.  It is
inserted after the row that it belongs to, and resolved from its row.
-/

namespace Peerbit
namespace Sqlite

open Lib.RowTrees
open Lib.Results

/-- The row of an object is inserted, and the object is resolved from it. -/
structure RowInserted (tables dependencies : List Table) (name : String)
    (kind : RowKind) (resolve : Db → Table → Row → Except RowError Value)
    (item : Value) (id : Scalar) (index : Option Nat) (node : Node InsertCall) :
    Prop where
  belongs : Belongs tables dependencies name id node
  table : node.row.table ∈ dependencies
  index : node.row.index = index
  complete : kind = .json → node.row.Complete
  resolves : ∀ calls row, Stored tables calls →
    node.Served InsertCall.key InsertCall.parentKey calls →
      node.row.Seen kind.prefixed row →
        resolve (calls.map InsertCall.row) node.row.table row = .ok item

theorem RowInserted.mono {tables dependencies dependencies' : List Table}
    {name : String} {kind : RowKind}
    {resolve resolve' : Db → Table → Row → Except RowError Value} {item : Value}
    {id : Scalar} {index : Option Nat} {node : Node InsertCall}
    (h : RowInserted tables dependencies name kind resolve item id index node)
    (htables : ∀ table ∈ dependencies, table ∈ dependencies')
    (hall : ∀ table ∈ Table.allOf dependencies, table ∈ Table.allOf dependencies')
    (hresolve : ∀ db row, resolve db node.row.table row = .ok item →
      resolve' db node.row.table row = .ok item) :
    RowInserted tables dependencies' name kind resolve' item id index node :=
  { h with
    belongs := h.belongs.mono hall
    table := htables _ h.table
    resolves := fun calls row hstored hserved hseen =>
      hresolve _ _ (h.resolves calls row hstored hserved hseen) }

section Row

variable {tables : List Table} {path : List String}
variable {join : JoinFields} {isVec isSimpleValue : Bool} {ctor : String}
variable {body : SQLFields} {name : String} {obj item : Value} {kind : RowKind}
variable {bound : Bound} {resolves : Db → ResolvePlace → Prop}

theorem childTable_isChild (hhead : path.head? = some name) :
    (childTable path join isVec isSimpleValue ctor body).IsChild name where
  references := fun h => nomatch h
  parent := hhead
  path := rfl
  primary := rfl

theorem childTable_all :
    (childTable path join isVec isSimpleValue ctor body).all =
      childTable path join isVec isSimpleValue ctor body ::
        Table.allOf body.dependencies :=
  Table.all_eq _

/-- What the fields of an object bind is a row of its own. -/
theorem insertRow_inserted (rowIds : RowIds) (hcreated : Created tables) (hjoin : join.Parent)
    (hhead : path.head? = some name) {dependencies : List Table}
    (hmem : childTable path join isVec isSimpleValue ctor body ∈ dependencies)
    (hsub : (childTable path join isVec isSimpleValue ctor body).all.Sublist
      tables)
    (hbound : BoundSound tables
      (.ofRow (childTable path join isVec isSimpleValue ctor body) obj kind)
      body resolves bound)
    (hcomplete : JsonComplete
      (childTable path join isVec isSimpleValue ctor body) obj kind)
    {id : Scalar} (hid : id.IsId) {index : Option Nat}
    (hindex : index.isSome = isVec)
    (resolve : Db → Table → Row → Except RowError Value)
    (hresolve : ∀ db row, resolves db
        ((Place.ofRow (childTable path join isVec isSimpleValue ctor body) obj
          kind).resolve row) →
      resolve db (childTable path join isVec isSimpleValue ctor body) row =
        .ok item)
    (place : List (Nat × Nat)) :
    ∃ node,
      insertRow rowIds (childTable path join isVec isSimpleValue ctor body) obj
          (some id) index place bound = .ok node ∧
        RowInserted tables dependencies name kind resolve item id index node := by
  generalize htable : childTable path join isVec isSimpleValue ctor body = table
    at hmem hsub hbound hcomplete hresolve ⊢
  have hall : table.all = table :: Table.allOf body.dependencies := by
    rw [← htable]
    exact childTable_all
  have htables : table ∈ tables :=
    hsub.subset (hall ▸ List.mem_cons_self)
  have hbelow : ∀ t ∈ Table.allOf body.dependencies, t ∈ tables :=
    fun t ht => hsub.subset (hall ▸ List.mem_cons_of_mem _ ht)
  generalize hcall : childCall rowIds table obj id index place bound.values =
    call
  obtain ⟨hsound, hchild⟩ : call.Sound tables ∧ call.Child := by
    subst htable hcall
    exact childCall_sound hjoin htables (hcreated.columns _ htables rfl)
      hid.given hid.bindable hindex hbound.values hbound.bindable hbound.typed
  have hcallId : call.id.IsId := by
    obtain ⟨n, hn⟩ := hchild.id
    rw [hn]
    exact ⟨rfl, rfl⟩
  obtain ⟨added, hrun, hran⟩ := runs_callbacks hcallId place hbound.inserts
  have hbelongs := hran.belongs hcallId hbound.inserts
  have hcallTable : call.table = table := by rw [← hcall]; rfl
  have hcallObj : call.obj = obj := by rw [← hcall]; rfl
  refine ⟨.node call added.flatten, ?_,
    { belongs :=
        { mem := ?mem, child := ?child, parent := ?parent, rows := ?rows,
          linked := ?linked }
      table := ?table, index := ?index, complete := ?complete,
      resolves := ?resolves }⟩
  · unfold insertRow
    have hchildren : (bound.nested ++ bound.handled).zipIdx.mapM
        (fun callback => callback.1
          (insertFn rowIds table (parentValues (some id) index ++ bound.values) place) place
          callback.2) = .ok added := by
      rw [← hcall] at hrun
      exact hrun
    rw [← hcall]
    dsimp only
    rw [hchildren]
    rfl
  case mem =>
    rw [← hcallTable] at hmem
    exact Table.mem_allOf hmem
  case child =>
    change call.table.IsChild name
    rw [hcallTable, ← htable]
    exact childTable_isChild hhead
  case parent => rw [← hcall]; rfl
  case rows =>
    intro c hc
    rcases List.mem_cons.mp hc with rfl | hc
    · exact ⟨hsound, hchild, id, by rw [← hcall]; rfl⟩
    · obtain ⟨node, hnode, hc⟩ := mem_rowsOf.mp hc
      exact (hbelongs node hnode).rows c hc
  case linked =>
    refine linkedOf_iff.mpr ?_
    intro node hnode
    refine ⟨?_, (hbelongs node hnode).linked⟩
    rw [(hbelongs node hnode).parentKey, InsertCall.key, hcallTable]
    rfl
  case table => exact hcallTable ▸ hmem
  case index => rw [← hcall]; rfl
  case complete =>
    intro hkind column hcolumn
    change column ∈ call.table.columns at hcolumn
    rw [hcallTable] at hcolumn
    change _ → column.valueIn call.obj ≠ _
    rw [hcallObj]
    exact hcomplete hkind column hcolumn
  case resolves =>
    intro calls row hstored hserved hseen
    change resolve _ call.table row = _
    rw [hcallTable]
    refine hresolve _ row (hbound.resolves calls call row place added.flatten
      hran { table := hcallTable, obj := hcallObj, sound := hsound,
             id := hcallId, stored := hstored, seen := hseen, serves := ?_,
             served := servedOf_iff.mp hserved.2 })
    exact serves_of_served hcreated.names hstored hserved hbelow

end Row

/-! ### Vectors -/

theorem RowKind.item_prefixed (kind : RowKind) :
    kind.item.prefixed = false := by
  cases kind <;> rfl

theorem RowKind.item_json {kind : RowKind} (h : kind.prefixed = true) :
    kind.item = .json := by
  unfold RowKind.item
  rw [h]
  rfl

section Nested

variable {tables : List Table} {place : Place} {obj : Value} {key : String}
variable {dependencies : List Table}

/-- Each item of a vector has a row with its index. -/
theorem vec_sound (hcreated : Created tables)
    (hpath : place.row.path = [place.row.name])
    (hmem : ∀ table ∈ dependencies, table ∈ tables)
    (hchild : ∀ table ∈ dependencies, table.IsChild place.row.name)
    {subTables : List Table}
    (hfound : ∀ table, table ∈ subTables ↔ table ∈ dependencies)
    {items : List Value} (hvalue : obj.get key = .array items)
    (handleElement : Scalar → Value → Option Nat → List (Nat × Nat) →
      Except RowError (Node InsertCall))
    (resolve : Db → Table → Row → Except RowError Value)
    (hitems : ∀ item ∈ items, ∀ (id : Scalar) (index : Nat)
      (path : List (Nat × Nat)), id.IsId →
      ∃ node, handleElement id item (some index) path = .ok node ∧
        RowInserted tables dependencies place.row.name place.kind.item resolve
          item id (some index) node) :
    BoundSound tables place { fields := [], dependencies }
      (fun db at_ =>
        resolveItems db at_.row at_.rootTable at_.tablePrefixed (resolve db)
          subTables [] = .ok (obj.get key))
      { Bound.empty with
        handled :=
          [fun id => handleNested (obj.get key) true false (handleElement id)] } := by
  have hrun : ∀ (id : Scalar) (path : List (Nat × Nat)) (position : Nat),
      id.IsId → ∃ nodes,
        handleNested (obj.get key) true false (handleElement id) path position =
          .ok nodes ∧
        List.Forall₂ (fun item node => RowInserted tables dependencies
          place.row.name place.kind.item resolve item.1 id (some item.2) node)
          items.zipIdx nodes := by
    intro id path position hid
    rw [hvalue]
    exact mapM_ok fun item hitem => hitems item.1
      (List.fst_mem_of_mem_zipIdx hitem) id item.2 _ hid
  refine boundSound_callback ?_ ?_
  · intro id path position hid
    obtain ⟨nodes, hnodes, hall⟩ := hrun id path position hid
    refine ⟨nodes, hnodes, ?_⟩
    intro node hnode
    obtain ⟨item, -, hinserted⟩ := (exists_of_forall₂ hall).2 node hnode
    exact hinserted.belongs
  · intro calls call row path position nodes hcallback hreading
    obtain ⟨nodes', hnodes, hall⟩ := hrun call.id path position hreading.id
    rw [hcallback] at hnodes
    cases hnodes
    rw [hvalue]
    refine resolveItems_eq nodes ?_ ?_ ?_
    · intro table htable
      have hdependency := (hfound table).mp htable
      have hserves := hreading.serves table (Table.mem_allOf hdependency)
        (hreading.table ▸ hchild table hdependency)
      have harray := resolveArray_of_serves hreading.sound
        (hreading.table ▸ hpath) hreading.seen hserves (by
          intro node hnode
          obtain ⟨hnode, hname⟩ := List.mem_filter.mp hnode
          obtain ⟨item, -, hinserted⟩ := (exists_of_forall₂ hall).2 node hnode
          refine ⟨?_, hinserted.belongs.row, ?_⟩
          · exact eq_of_name_eq hcreated.names
              (hmem _ hinserted.table) (hmem _ hdependency)
              (beq_iff_eq.mp hname)
          · exact fun hprefixed =>
              hinserted.complete (RowKind.item_json hprefixed))
      rw [hreading.table] at harray
      exact harray
    · intro table htable node hnode hname
      have hdependency := (hfound table).mp htable
      obtain ⟨item, hitem, hinserted⟩ := (exists_of_forall₂ hall).2 node hnode
      obtain rfl : node.row.table = table :=
        eq_of_name_eq hcreated.names (hmem _ hinserted.table)
          (hmem _ hdependency) hname
      refine ⟨item.2, item.1, hinserted.index,
        List.mem_zipIdx_iff_getElem?.mp hitem, ?_⟩
      intro element hshows
      refine hinserted.resolves calls _ hreading.stored
        (hreading.served node hnode) ?_
      rw [RowKind.item_prefixed]
      exact .element hinserted.belongs.row.child hshows
    · intro i hi
      have hitem : (items[i], i) ∈ items.zipIdx :=
        List.mem_zipIdx_iff_getElem?.mpr (List.getElem?_eq_getElem hi)
      obtain ⟨node, hnode, hinserted⟩ := (exists_of_forall₂ hall).1 _ hitem
      exact ⟨node, hnode,
        ⟨_, (hfound _).mpr hinserted.table, rfl⟩, hinserted.index⟩

/-! ### Polymorphic fields -/

theorem pick_eq {l : List Table} {p : Table → Bool} {table : Table}
    (hmem : table ∈ l) (hp : p table = true)
    (honly : ∀ t ∈ l, p t = true → t = table) :
    (if 1 < l.length then l.find? p else l.head?) = some table := by
  split
  · obtain ⟨t, ht⟩ := Option.isSome_iff_exists.mp
      (List.find?_isSome.mpr ⟨table, hmem, hp⟩)
    rw [ht, honly t (List.mem_of_find?_eq_some ht) (List.find?_some ht)]
  · rename_i hlength
    match l, hmem with
    | [t], hmem => rw [List.mem_singleton.mp hmem]; rfl
    | _ :: _ :: _, _ => exact absurd (by simp) hlength

/-- The id of a joined row is null when there is none. -/
theorem column_joined {dependencies : List Table} {calls : List InsertCall}
    {call : InsertCall} {row : Row} {nodes : List (Node InsertCall)}
    (hreading : Reading tables place dependencies calls call row nodes)
    (hprefixed : place.kind.prefixed = true)
    (hbelow : ∀ node ∈ nodes, node.row.Below tables) {table : Table}
    (hmem : table ∈ dependencies) (hchild : table.IsChild place.row.name)
    (hapart : table.name ≠ place.row.name) :
    ((place.resolve row).column (calls.map InsertCall.row) table
        CHILD_TABLE_ID).isNull =
      (nodes.filter (fun node => node.row.table.name == table.name)).isEmpty := by
  have hserves := hreading.serves table (Table.mem_allOf hmem)
    (hreading.table ▸ hchild)
  have hseen := hreading.seen
  rw [hprefixed] at hseen
  cases hseen
  have hname : table.name ≠ call.row.table.name := by
    change table.name ≠ call.table.name
    rw [hreading.table]
    exact hapart
  unfold ResolvePlace.column getTablePrefixedField Place.resolve
  simp only [hprefixed, Bool.not_true, Bool.false_eq_true, if_false, Row.get,
    getInlineTableFieldName_row hchild.path]
  rw [if_neg hname, hreading.sound.id, hserves]
  cases hnodes : nodes.filter (fun node => node.row.table.name == table.name) with
  | nil => rfl
  | cons node rest =>
      have hnode : node ∈ nodes :=
        (List.mem_filter.mp (hnodes ▸ List.mem_cons_self)).1
      have hrow := (hbelow node hnode).child
      obtain ⟨n, hn⟩ := hrow.id
      simp only [List.map_cons, List.head?_cons, Option.bind_some, hrow.idCell,
        Option.map_some, Option.getD_some, hn]
      rfl

theorem resolveValue_poly (db : Db) (at_ : ResolvePlace) (owner : Option Nat)
    (isOptional : Bool) {clazz : Option String} {classes : List Ctor}
    {subTables : List Table} {subTable : Table}
    (hsubTables : getTableFromField tables at_.table
      (.mk key .plain (.poly clazz classes)) = subTables)
    (hpick : (if 1 < subTables.length then
        subTables.find? fun table =>
          !(at_.column db table (table.primary.getD "")).isNull
      else subTables.head?) = some subTable)
    (hprimary : subTable.primary = some CHILD_TABLE_ID) :
    resolveValue db tables at_ owner key isOptional (.poly clazz classes) =
      if (at_.column db subTable CHILD_TABLE_ID).isNull then .ok .undefined
      else
        resolveDependency db tables
          { at_ with
            rootTable := subTable
            table := subTable
            row := at_.row.descend db subTable } classes := by
  unfold resolveValue
  simp only [hsubTables, hpick, hprimary, Option.any_some]

/-- An object of a polymorphic field has a row that is joined. -/
theorem poly_sound (hcreated : Created tables)
    (hmem : ∀ table ∈ dependencies, table ∈ tables)
    (hchild : ∀ table ∈ dependencies, table.IsChild place.row.name)
    (hapart : ∀ table ∈ dependencies, table.name ≠ place.row.name)
    (hprefixed : place.kind.prefixed = true) {owner : Option Nat}
    {isOptional : Bool} {clazz : Option String} {classes : List Ctor}
    {handleElement : Scalar → Value → Option Nat → List (Nat × Nat) →
      Except RowError (Node InsertCall)}
    (hfound : ∀ table, table ∈ getTableFromField tables place.table
      (.mk key .plain (.poly clazz classes)) ↔ table ∈ dependencies)
    (hvalue : (obj.get key = .undefined ∧ isOptional = true ∧
        (getTableFromField tables place.table
          (.mk key .plain (.poly clazz classes))).length = 1) ∨
      (∃ ctor properties, obj.get key = .object ctor properties ∧
        ∀ (id : Scalar) (path : List (Nat × Nat)), id.IsId →
          ∃ node, handleElement id (obj.get key) none path = .ok node ∧
            RowInserted tables dependencies place.row.name .joined
              (fun db table row => resolveDependency db tables
                { rootTable := table, table, row, tablePrefixed := true }
                classes)
              (obj.get key) id none node)) :
    BoundSound tables place { fields := [], dependencies }
      (fun db at_ => resolveValue db tables at_ owner key isOptional
        (.poly clazz classes) = .ok (obj.get key))
      { Bound.empty with
        handled :=
          [fun id => handleNested (obj.get key) false isOptional
            (handleElement id)] } := by
  rcases hvalue with ⟨hnull, rfl, hlength⟩ | ⟨ctor, properties, hobject, hrow⟩
  · have hrun : ∀ id path position,
        handleNested (obj.get key) false true (handleElement id) path position =
          .ok [] := by
      intro id path position
      rw [hnull]
      rfl
    refine boundSound_callback ?_ ?_
    · intro id path position _
      exact ⟨[], hrun id path position, fun _ h => absurd h List.not_mem_nil⟩
    · intro calls call row path position nodes hcallback hreading
      rw [hrun] at hcallback
      cases hcallback
      obtain ⟨table, htable⟩ := List.length_eq_one_iff.mp hlength
      have hdependency : table ∈ dependencies :=
        (hfound table).mp (htable ▸ List.mem_cons_self)
      have hmissing := column_joined hreading hprefixed
        (fun _ h => absurd h List.not_mem_nil) hdependency
        (hchild table hdependency) (hapart table hdependency)
      rw [resolveValue_poly _ (place.resolve row) owner true htable rfl
        (hchild table hdependency).primary, hmissing, hnull]
      rfl
  · have hrun : ∀ (id : Scalar) (path : List (Nat × Nat)) (position : Nat),
        id.IsId → ∃ node,
          handleNested (obj.get key) false isOptional (handleElement id) path
            position = .ok [node] ∧
          RowInserted tables dependencies place.row.name .joined
            (fun db table row => resolveDependency db tables
              { rootTable := table, table, row, tablePrefixed := true } classes)
            (obj.get key) id none node := by
      intro id path position hid
      obtain ⟨node, hnode, hinserted⟩ := hrow id (path ++ [(position, 0)]) hid
      refine ⟨node, ?_, hinserted⟩
      rw [hobject] at hnode ⊢
      unfold handleNested
      simp only [Bool.false_eq_true, if_false, Value.isNull, hnode]
    refine boundSound_callback ?_ ?_
    · intro id path position hid
      obtain ⟨node, hnode, hinserted⟩ := hrun id path position hid
      refine ⟨[node], hnode, ?_⟩
      intro n hn
      rw [List.mem_singleton.mp hn]
      exact hinserted.belongs
    · intro calls call row path position nodes hcallback hreading
      obtain ⟨node, hnode, hinserted⟩ :=
        hrun call.id path position hreading.id
      rw [hcallback] at hnode
      cases hnode
      have hbelow : ∀ n ∈ [node], n.row.Below tables := by
        intro n hn
        rw [List.mem_singleton.mp hn]
        exact hinserted.belongs.row
      have hcolumn : ∀ table ∈ dependencies,
          (((place.resolve row).column (calls.map InsertCall.row) table
            (table.primary.getD "")).isNull = false ↔
              table = node.row.table) := by
        intro table htable
        rw [(hchild table htable).primary, Option.getD_some,
          column_joined hreading hprefixed hbelow htable (hchild table htable)
            (hapart table htable)]
        by_cases hname : node.row.table.name = table.name
        · have heq := eq_of_name_eq hcreated.names (hmem _ hinserted.table)
            (hmem _ htable) hname
          simp [heq]
        · have hne : table ≠ node.row.table := fun h => hname (h ▸ rfl)
          simp [hname, hne]
      have hpick := pick_eq (p := fun table =>
          !((place.resolve row).column (calls.map InsertCall.row) table
            (table.primary.getD "")).isNull)
        ((hfound _).mpr hinserted.table)
        (by rw [(hcolumn _ hinserted.table).mpr rfl]; rfl)
        (by
          intro t ht hp
          exact (hcolumn t ((hfound t).mp ht)).mp (by simpa using hp))
      have hseen := hreading.seen
      rw [hprefixed] at hseen
      cases hseen
      have hdescend : Row.descend (calls.map InsertCall.row) node.row.table
          (.joined call.row) = .joined node.row.row := by
        have hserves := hreading.serves node.row.table
          (Table.mem_allOf hinserted.table)
          (hreading.table ▸ hchild _ hinserted.table)
        simp only [Row.descend, hreading.sound.id, hserves]
        simp
      have hresolves := hinserted.resolves calls _ hreading.stored
        (hreading.served node List.mem_cons_self) .joined
      have hpresent := (hcolumn _ hinserted.table).mpr rfl
      rw [(hchild _ hinserted.table).primary, Option.getD_some] at hpresent
      have hsubTables : getTableFromField tables
          (place.resolve (.joined call.row)).table
            (.mk key .plain (.poly clazz classes)) =
          getTableFromField tables place.table
            (.mk key .plain (.poly clazz classes)) := rfl
      rw [resolveValue_poly _ (place.resolve (.joined call.row)) owner
        isOptional hsubTables hpick (hchild _ hinserted.table).primary,
        hpresent, if_neg Bool.false_ne_true]
      change resolveDependency _ tables
        { rootTable := node.row.table
          table := node.row.table
          row := Row.descend (calls.map InsertCall.row) node.row.table
            (.joined call.row)
          tablePrefixed := place.kind.prefixed } classes = _
      rw [hdescend, hprefixed]
      exact hresolves

end Nested

end Sqlite
end Peerbit
