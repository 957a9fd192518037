import Peerbit.Indexer.RowFields
import Peerbit.Indexer.RowChildren

/-!
# What an insert binds for fields

The values of some fields are the ones of their columns, their callbacks add
rows that belong to the row, and the fields are resolved from the row and these
rows.
-/

namespace Peerbit
namespace Sqlite

open Lib.RowTrees
open Lib.Results

/-! ### Rows that callbacks add -/

/-- Rows below a row of the table `name`. -/
structure Belongs (tables dependencies : List Table) (name : String)
    (parentId : Scalar) (node : Node InsertCall) : Prop where
  mem : node.row.table ∈ Table.allOf dependencies
  child : node.row.table.IsChild name
  parent : node.row.parentId = some parentId
  rows : ∀ call ∈ node.rows, call.Below tables
  linked : node.Linked InsertCall.key InsertCall.parentKey

theorem Belongs.mono {tables dependencies dependencies' : List Table}
    {name : String} {parentId : Scalar} {node : Node InsertCall}
    (h : Belongs tables dependencies name parentId node)
    (hsub : ∀ table ∈ Table.allOf dependencies,
      table ∈ Table.allOf dependencies') :
    Belongs tables dependencies' name parentId node :=
  { h with mem := hsub _ h.mem }

theorem Belongs.row {tables dependencies : List Table} {name : String}
    {parentId : Scalar} {node : Node InsertCall}
    (h : Belongs tables dependencies name parentId node) :
    node.row.Below tables :=
  h.rows node.row (row_mem_rows node)

theorem Belongs.parentKey {tables dependencies : List Table} {name : String}
    {parentId : Scalar} {node : Node InsertCall}
    (h : Belongs tables dependencies name parentId node) :
    node.row.parentKey = some (name, parentId.sql) := by
  unfold InsertCall.parentKey
  rw [h.parent, h.child.parent]
  rfl

/-- A value that rows can name. -/
structure Scalar.IsId (id : Scalar) : Prop where
  given : id.isNull = false
  bindable : id.bindable = true

/-- A callback adds rows below the row that it is called for. -/
def Inserts (tables dependencies : List Table) (name : String)
    (callback : NestedCallback) : Prop :=
  ∀ (id : Scalar) (path : List (Nat × Nat)) (position : Nat), id.IsId →
    ∃ nodes, callback id path position = .ok nodes ∧
      ∀ node ∈ nodes, Belongs tables dependencies name id node

/-- What some callbacks have added. -/
abbrev Added (id : Scalar) (path : List (Nat × Nat)) :
    List NestedCallback → List (List (Node InsertCall)) → Prop :=
  List.Forall₂ fun callback nodes =>
    ∃ position, callback id path position = .ok nodes

theorem belongs_of_added {tables dependencies : List Table} {name : String}
    {id : Scalar} (hid : id.IsId) {path : List (Nat × Nat)}
    {callbacks : List NestedCallback} {added : List (List (Node InsertCall))}
    (h : Added id path callbacks added)
    (hinserts : ∀ callback ∈ callbacks,
      Inserts tables dependencies name callback) :
    ∀ node ∈ added.flatten, Belongs tables dependencies name id node := by
  intro node hnode
  obtain ⟨nodes, hnodes, hnode⟩ := List.mem_flatten.mp hnode
  obtain ⟨callback, hcallback, position, hran⟩ :=
    (exists_of_forall₂ h).2 nodes hnodes
  obtain ⟨nodes', hran', hbelongs⟩ :=
    hinserts callback hcallback id path position hid
  rw [hran] at hran'
  cases hran'
  exact hbelongs node hnode

/-- The rows that the callbacks of some fields have added. -/
def Bound.Ran (bound : Bound) (id : Scalar) (path : List (Nat × Nat))
    (nodes : List (Node InsertCall)) : Prop :=
  ∃ nested handled, Added id path bound.nested nested ∧
    Added id path bound.handled handled ∧
    nodes = nested.flatten ++ handled.flatten

/-- The callbacks of an insert are called one after the other. -/
theorem runs_callbacks {tables dependencies : List Table} {name : String}
    {id : Scalar} (hid : id.IsId) (path : List (Nat × Nat)) {bound : Bound}
    (hinserts : ∀ callback ∈ bound.nested ++ bound.handled,
      Inserts tables dependencies name callback) :
    ∃ added, (bound.nested ++ bound.handled).zipIdx.mapM
        (fun callback => callback.1 id path callback.2) = .ok added ∧
      bound.Ran id path added.flatten := by
  obtain ⟨added, hrun, hadded⟩ := mapM_ok
    (f := fun callback : NestedCallback × Nat => callback.1 id path callback.2)
    (P := fun callback nodes => callback.1 id path callback.2 = .ok nodes)
    (l := (bound.nested ++ bound.handled).zipIdx) (by
      intro callback hcallback
      obtain ⟨nodes, hnodes, -⟩ := hinserts callback.1
        (List.fst_mem_of_mem_zipIdx hcallback) id path callback.2 hid
      exact ⟨nodes, hnodes, hnodes⟩)
  have hcallbacks : Added id path (bound.nested ++ bound.handled) added := by
    rw [← List.zipIdx_map_fst 0 (bound.nested ++ bound.handled)]
    exact List.forall₂_map_left_iff.mpr (hadded.imp fun _ _ h => ⟨_, h⟩)
  obtain ⟨nested, handled, hnested, hhandled, rfl⟩ :=
    forall₂_append_left hcallbacks
  exact ⟨_, hrun, nested, handled, hnested, hhandled, List.flatten_append⟩

theorem Bound.Ran.belongs {tables dependencies : List Table} {name : String}
    {id : Scalar} (hid : id.IsId) {path : List (Nat × Nat)} {bound : Bound}
    {nodes : List (Node InsertCall)} (h : bound.Ran id path nodes)
    (hinserts : ∀ callback ∈ bound.nested ++ bound.handled,
      Inserts tables dependencies name callback) :
    ∀ node ∈ nodes, Belongs tables dependencies name id node := by
  obtain ⟨nested, handled, hnested, hhandled, rfl⟩ := h
  intro node hnode
  rcases List.mem_append.mp hnode with hnode | hnode
  · exact belongs_of_added hid hnested
      (fun c hc => hinserts c (List.mem_append_left _ hc)) node hnode
  · exact belongs_of_added hid hhandled
      (fun c hc => hinserts c (List.mem_append_right _ hc)) node hnode

theorem Bound.Ran.append {id : Scalar} {path : List (Nat × Nat)}
    {first second : Bound} {nodes : List (Node InsertCall)}
    (h : (first.append second).Ran id path nodes) :
    ∃ nodes₁ nodes₂, first.Ran id path nodes₁ ∧ second.Ran id path nodes₂ ∧
      (∀ node ∈ nodes₁, node ∈ nodes) ∧ (∀ node ∈ nodes₂, node ∈ nodes) ∧
      ∀ own : Node InsertCall → Bool,
        ((∀ node ∈ nodes₂, own node = false) →
          nodes.filter own = nodes₁.filter own) ∧
        ((∀ node ∈ nodes₁, own node = false) →
          nodes.filter own = nodes₂.filter own) := by
  obtain ⟨nested, handled, hnested, hhandled, rfl⟩ := h
  obtain ⟨nested₁, nested₂, hn₁, hn₂, rfl⟩ := forall₂_append_left hnested
  obtain ⟨handled₁, handled₂, hh₁, hh₂, rfl⟩ := forall₂_append_left hhandled
  refine ⟨_, _, ⟨nested₁, handled₁, hn₁, hh₁, rfl⟩,
    ⟨nested₂, handled₂, hn₂, hh₂, rfl⟩, ?_, ?_, ?_⟩
  · intro node hnode
    simp only [List.flatten_append, List.mem_append] at hnode ⊢
    rcases hnode with hnode | hnode
    · exact .inl (.inl hnode)
    · exact .inr (.inl hnode)
  · intro node hnode
    simp only [List.flatten_append, List.mem_append] at hnode ⊢
    rcases hnode with hnode | hnode
    · exact .inl (.inr hnode)
    · exact .inr (.inr hnode)
  · intro own
    have hnone : ∀ nodes : List (Node InsertCall),
        (∀ node ∈ nodes, own node = false) → nodes.filter own = [] := by
      intro nodes hnodes
      refine List.filter_eq_nil_iff.mpr ?_
      intro node hnode
      rw [hnodes node hnode]
      exact Bool.false_ne_true
    constructor
    · intro h
      have hn := hnone nested₂.flatten
        fun node hnode => h node (List.mem_append_left _ hnode)
      have hh := hnone handled₂.flatten
        fun node hnode => h node (List.mem_append_right _ hnode)
      simp only [List.flatten_append, List.filter_append, hn, hh,
        List.append_nil]
    · intro h
      have hn := hnone nested₁.flatten
        fun node hnode => h node (List.mem_append_left _ hnode)
      have hh := hnone handled₁.flatten
        fun node hnode => h node (List.mem_append_right _ hnode)
      simp only [List.flatten_append, List.filter_append, hn, hh,
        List.nil_append]

/-! ### Fields -/

/-- The tables of an index that starts. -/
structure Created (tables : List Table) : Prop where
  names : (tables.map Table.name).Nodup
  columns : ∀ table ∈ tables, table.inline = false → table.NamesColumns

/-- The object whose fields are in a place. -/
structure Place.Of (place : Place) (obj : Value) : Prop where
  row : place.row.path = [place.row.name]
  head : place.table.path.head? = some place.row.name
  value : place.obj.at place.table.path.tail = obj
  given : obj.isNull = false

/-- The columns of some fields are in the row, and their tables are not the one
of the row. -/
structure Place.Has (tables : List Table) (place : Place) (out : SQLFields) :
    Prop where
  columns : ∀ column ∈ out.fields, column ∈ place.row.columns
  tables : (place.row :: Table.allOf out.dependencies).Sublist tables

/-- A row that is read, with the rows that belong to it. -/
structure Reading (tables : List Table) (place : Place)
    (dependencies : List Table) (calls : List InsertCall) (call : InsertCall)
    (row : Row) (nodes : List (Node InsertCall)) : Prop where
  table : call.table = place.row
  obj : call.obj = place.obj
  sound : call.Sound tables
  id : call.id.IsId
  stored : Stored tables calls
  seen : call.Seen place.kind.prefixed row
  serves : Serves calls call dependencies nodes
  served : ∀ node ∈ nodes,
    node.Served InsertCall.key InsertCall.parentKey calls

/-- Where the fields of a place are resolved from a row. -/
def Place.resolve (place : Place) (row : Row) : ResolvePlace where
  rootTable := place.row
  table := place.table
  row
  tablePrefixed := place.kind.prefixed

/-- What an insert binds for some fields. -/
structure BoundSound (tables : List Table) (place : Place) (out : SQLFields)
    (resolves : Db → ResolvePlace → Prop) (bound : Bound) : Prop where
  values : bound.values.map Scalar.sql =
    out.fields.map (fun column => column.valueIn place.obj)
  bindable : ∀ value ∈ bound.values, value.bindable = true
  typed : ∀ column ∈ out.fields, column.Stores (column.valueIn place.obj)
  inserts : ∀ callback ∈ bound.nested ++ bound.handled,
    Inserts tables out.dependencies place.row.name callback
  depth : 1 ≤ place.depth → bound.nested = []
  resolves : ∀ calls call row path nodes, bound.Ran call.id path nodes →
    Reading tables place out.dependencies calls call row nodes →
      resolves (calls.map InsertCall.row) (place.resolve row)

theorem BoundSound.imp {tables : List Table} {place : Place} {out : SQLFields}
    {resolves resolves' : Db → ResolvePlace → Prop} {bound : Bound}
    (h : BoundSound tables place out resolves bound)
    (himp : ∀ db row, resolves db (place.resolve row) →
      resolves' db (place.resolve row)) :
    BoundSound tables place out resolves' bound :=
  { h with
    resolves := fun calls call row path nodes hran hreading =>
      himp _ row (h.resolves calls call row path nodes hran hreading) }

theorem boundSound_empty (tables : List Table) (place : Place) :
    BoundSound tables place { fields := [], dependencies := [] }
      (fun _ _ => True) .empty where
  values := rfl
  bindable := fun _ h => absurd h List.not_mem_nil
  typed := fun _ h => absurd h List.not_mem_nil
  inserts := fun _ h => absurd h List.not_mem_nil
  depth := fun _ => rfl
  resolves := fun _ _ _ _ _ _ _ => trivial

theorem names_apart {tables s t : List Table}
    (hnames : (tables.map Table.name).Nodup) (hsub : (s ++ t).Sublist tables)
    {first second : Table} (hfirst : first ∈ s) (hsecond : second ∈ t) :
    first.name ≠ second.name := by
  have hnodup := (hsub.map Table.name).nodup hnames
  rw [List.map_append, List.nodup_append] at hnodup
  exact hnodup.2.2 _ (List.mem_map_of_mem hfirst) _ (List.mem_map_of_mem hsecond)

/-- The fields of an object, and then some more. -/
theorem BoundSound.append {tables : List Table} (hcreated : Created tables)
    {place : Place} {out₁ out₂ : SQLFields}
    {resolves₁ resolves₂ : Db → ResolvePlace → Prop} {first second : Bound}
    (h₁ : BoundSound tables place out₁ resolves₁ first)
    (h₂ : BoundSound tables place out₂ resolves₂ second)
    (hsub : (place.row :: Table.allOf (out₁.append out₂).dependencies).Sublist
      tables) :
    BoundSound tables place (out₁.append out₂)
      (fun db at_ => resolves₁ db at_ ∧ resolves₂ db at_)
      (first.append second) := by
  have hall : Table.allOf (out₁.append out₂).dependencies =
      Table.allOf out₁.dependencies ++ Table.allOf out₂.dependencies :=
    Table.allOf_append _ _
  have htail : (Table.allOf out₁.dependencies ++
      Table.allOf out₂.dependencies).Sublist tables :=
    hall ▸ (List.sublist_cons_self _ _).trans hsub
  have hleft : ∀ table ∈ Table.allOf out₁.dependencies,
      table ∈ Table.allOf (out₁.append out₂).dependencies :=
    fun table h => hall ▸ List.mem_append_left _ h
  have hright : ∀ table ∈ Table.allOf out₂.dependencies,
      table ∈ Table.allOf (out₁.append out₂).dependencies :=
    fun table h => hall ▸ List.mem_append_right _ h
  refine { values := ?values, bindable := ?bindable, typed := ?typed,
           inserts := ?inserts, depth := ?depth, resolves := ?resolves }
  case values =>
    change (first.values ++ second.values).map _ =
      (out₁.fields ++ out₂.fields).map _
    rw [List.map_append, List.map_append, h₁.values, h₂.values]
  case bindable =>
    intro value hvalue
    rcases List.mem_append.mp hvalue with hvalue | hvalue
    · exact h₁.bindable value hvalue
    · exact h₂.bindable value hvalue
  case typed =>
    intro column hcolumn
    rcases List.mem_append.mp hcolumn with hcolumn | hcolumn
    · exact h₁.typed column hcolumn
    · exact h₂.typed column hcolumn
  case inserts =>
    intro callback hcallback id path position hid
    have hcases : callback ∈ first.nested ++ first.handled ∨
        callback ∈ second.nested ++ second.handled := by
      simp only [Bound.append, List.mem_append] at hcallback ⊢
      rcases hcallback with (h | h) | (h | h)
      · exact .inl (.inl h)
      · exact .inr (.inl h)
      · exact .inl (.inr h)
      · exact .inr (.inr h)
    rcases hcases with h | h
    · obtain ⟨nodes, hran, hnodes⟩ := h₁.inserts callback h id path position hid
      exact ⟨nodes, hran, fun node hnode => (hnodes node hnode).mono hleft⟩
    · obtain ⟨nodes, hran, hnodes⟩ := h₂.inserts callback h id path position hid
      exact ⟨nodes, hran, fun node hnode => (hnodes node hnode).mono hright⟩
  case depth =>
    intro hdepth
    change first.nested ++ second.nested = []
    rw [h₁.depth hdepth, h₂.depth hdepth, List.append_nil]
  case resolves =>
    intro calls call row path nodes hran hreading
    obtain ⟨nodes₁, nodes₂, hran₁, hran₂, hmem₁, hmem₂, hown⟩ := hran.append
    have hbelongs₁ := hran₁.belongs hreading.id h₁.inserts
    have hbelongs₂ := hran₂.belongs hreading.id h₂.inserts
    refine ⟨h₁.resolves calls call row path nodes₁ hran₁
        { hreading with serves := ?_, served := ?_ },
      h₂.resolves calls call row path nodes₂ hran₂
        { hreading with serves := ?_, served := ?_ }⟩
    · intro table htable hchild
      rw [hreading.serves table (hleft table htable) hchild, (hown _).1]
      intro node hnode
      exact beq_false_of_ne (names_apart hcreated.names htail htable
        (hbelongs₂ node hnode).mem).symm
    · exact fun node hnode => hreading.served node (hmem₁ node hnode)
    · intro table htable hchild
      rw [hreading.serves table (hright table htable) hchild, (hown _).2]
      intro node hnode
      exact beq_false_of_ne (names_apart hcreated.names htail
        (hbelongs₁ node hnode).mem htable)
    · exact fun node hnode => hreading.served node (hmem₂ node hnode)

/-- A field whose values are all in rows that belong to the row. -/
theorem boundSound_callback {tables : List Table} {place : Place}
    {dependencies : List Table} {callback : NestedCallback}
    {resolves : Db → ResolvePlace → Prop}
    (hinserts : Inserts tables dependencies place.row.name callback)
    (hresolves : ∀ calls call row path position nodes,
      callback call.id path position = .ok nodes →
      Reading tables place dependencies calls call row nodes →
        resolves (calls.map InsertCall.row) (place.resolve row)) :
    BoundSound tables place { fields := [], dependencies } resolves
      { Bound.empty with handled := [callback] } where
  values := rfl
  bindable := fun _ h => absurd h List.not_mem_nil
  typed := fun _ h => absurd h List.not_mem_nil
  inserts := by
    intro c hc
    obtain rfl := List.mem_singleton.mp hc
    exact hinserts
  depth := fun _ => rfl
  resolves := by
    rintro calls call row path nodes ⟨nested, handled, hnested, hhandled, rfl⟩
      hreading
    cases hnested
    obtain ⟨added, rest, ⟨position, hran⟩, hrest, rfl⟩ :=
      List.forall₂_cons_left_iff.mp hhandled
    cases hrest
    have hnodes : ([] : List (List (Node InsertCall))).flatten ++
        [added].flatten = added := by simp
    rw [hnodes] at hreading
    exact hresolves calls call row path position added hran hreading

end Sqlite
end Peerbit
