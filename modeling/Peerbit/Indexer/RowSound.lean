import Peerbit.Indexer.RowInserts

/-!
# Objects that are kept

By induction on the schema, the fields of an object that is kept bind the values
of their columns, their objects have rows, and they are resolved from these
rows.
-/

namespace Peerbit
namespace Sqlite

open Lib.RowTrees
open Lib.Results

/-- An insert of fields that is sound. -/
abbrev Binds (tables : List Table) (place : Place) (out : SQLFields)
    (insert : Except RowError Bound) (resolves : Db → ResolvePlace → Prop) :
    Prop :=
  ∃ bound, insert = .ok bound ∧ BoundSound tables place out resolves bound

section Row

variable {tables : List Table} {path : List String} {join : JoinFields}
variable {isVec isSimpleValue : Bool} {clazz : String} {body : SQLFields}
variable {obj item : Value} {kind : RowKind}

theorem ofRow_of (hgiven : obj.isNull = false) :
    (Place.ofRow (childTable path join isVec isSimpleValue clazz body) obj
      kind).Of obj where
  row := rfl
  head := rfl
  value := rfl
  given := hgiven

theorem ofRow_has (hjoin : join.Parent)
    (hsub : (childTable path join isVec isSimpleValue clazz body).all.Sublist
      tables) :
    (Place.ofRow (childTable path join isVec isSimpleValue clazz body) obj
      kind).Has tables body where
  columns := fun _ h => (childTable_columns hjoin).symm ▸ h
  tables := childTable_all ▸ hsub

theorem Place.Has.child {place : Place} {table : Table}
    (h : place.Has tables { fields := [], dependencies := [table] }) :
    table.all.Sublist tables := by
  have hall : Table.allOf [table] = table.all := by
    rw [Table.allOf_cons, Table.all_eq, Table.allOf_nil, List.append_nil]
  exact hall ▸ (List.sublist_cons_self _ _).trans h.tables

theorem RowKind.item_ne_document (kind : RowKind) : kind.item ≠ .document := by
  cases kind <;> exact fun h => nomatch h

theorem Value.isNull_of_ctor {value : Value} {name : String}
    (h : value.ctor = some name) : value.isNull = false := by
  cases value with
  | scalar s => cases h
  | object ctor properties => rfl
  | array items => cases h

theorem isObject_of_dependencyHolds {dependencies : List Ctor} {value : Value}
    (h : DependencyHolds dependencies value) :
    ∃ ctor properties, value = .object ctor properties := by
  induction dependencies with
  | nil => exact h.elim
  | cons dependency dependencies ih =>
      obtain ⟨id, name, fields⟩ := dependency
      unfold DependencyHolds at h
      split at h
      · exact ⟨_, _, h.1⟩
      · exact ih h

theorem simpleNested_get (value : Value) :
    (simpleNested value).get FOREIGN_VALUE_PROPERTY = value := by
  simp [simpleNested, Value.get]

theorem resolve_item (table : Table) (kind : RowKind) (row : Row) :
    (Place.ofRow table obj kind.item).resolve row = .item table row := by
  unfold Place.resolve Place.ofRow ResolvePlace.item
  simp only [RowKind.item_prefixed]

theorem childTables_isChild {rowName : String}
    (hhead : path.head? = some rowName) {dependencies : List Ctor} :
    ∀ table ∈ childTables path join isVec dependencies,
      table.IsChild rowName := by
  induction dependencies with
  | nil => exact fun _ h => absurd h List.not_mem_nil
  | cons dependency dependencies ih =>
      obtain ⟨id, name, fields⟩ := dependency
      intro table htable
      rcases List.mem_cons.mp htable with rfl | htable
      · exact childTable_isChild hhead
      · exact ih table htable

end Row

variable {rowIds : RowIds} {tables : List Table}

/-! ### Objects of one of the classes -/

section Dependencies

variable {id : Option Nat} {name : String} {fields : List Field}
variable {dependencies : List Ctor}

theorem insertDependency_first {table : Table} {item : Value} {parentId : Scalar}
    {index : Option Nat} {place : List (Nat × Nat)} {bound : Bound}
    (h : table.ctor = name)
    (hinsert : insertFields rowIds tables table item (some parentId) index
      fields = .ok bound) :
    insertDependency rowIds tables table item parentId index place
        (.mk id name fields :: dependencies) =
      insertRow rowIds table item (some parentId) index place bound := by
  unfold insertDependency
  rw [if_pos h.symm, hinsert]

theorem insertDependency_rest {table : Table} (h : name ≠ table.ctor)
    (item : Value) (parentId : Scalar) (index : Option Nat)
    (place : List (Nat × Nat)) :
    insertDependency rowIds tables table item parentId index place
        (.mk id name fields :: dependencies) =
      insertDependency rowIds tables table item parentId index place
        dependencies := by
  rw [insertDependency, if_neg h]

theorem resolveDependency_first {db : Db} {at_ : ResolvePlace}
    {properties : List (String × Value)} (h : at_.table.ctor = name)
    (hresolve : resolveFields db tables at_ id fields = .ok properties) :
    resolveDependency db tables at_ (.mk id name fields :: dependencies) =
      .ok (.object name properties) := by
  unfold resolveDependency
  rw [if_pos h.symm, hresolve]

theorem resolveDependency_rest {at_ : ResolvePlace} (h : name ≠ at_.table.ctor)
    (db : Db) :
    resolveDependency db tables at_ (.mk id name fields :: dependencies) =
      resolveDependency db tables at_ dependencies := by
  rw [resolveDependency, if_neg h]

end Dependencies

variable (rowIds) in
/-- A vector whose items have rows in one table. -/
theorem vecTable_sound (hcreated : Created tables) {place : Place} {obj : Value}
    (hplace : place.Of obj) {join : JoinFields} (hjoin : join.Parent)
    {key clazz : String} {isSimpleValue : Bool} {body : SQLFields}
    {table : Table}
    (htable : table = childTable (place.table.path ++ [key]) join true
      isSimpleValue clazz body)
    (hhas : place.Has tables { fields := [], dependencies := [table] })
    {subTables : List Table} (hsubTables : subTables = [table])
    {items : List Value} (hvalue : obj.get key = .array items)
    (handleElement : Scalar → Value → Option Nat → List (Nat × Nat) →
      Except RowError (Node InsertCall))
    (resolve : Db → Table → Row → Except RowError Value)
    (hitems : ∀ item ∈ items, ∃ (rowObj : Value)
      (resolves : Db → ResolvePlace → Prop),
      JsonComplete table rowObj place.kind.item ∧
      (∀ db row, resolves db (.item table row) →
        resolve db table row = .ok item) ∧
      ∀ (id : Scalar) (index : Nat) (path : List (Nat × Nat)), id.IsId →
        ∃ bound, handleElement id item (some index) path =
            insertRow rowIds table rowObj (some id) (some index) path bound ∧
          BoundSound tables (.ofRow table rowObj place.kind.item) body resolves
            bound) :
    BoundSound tables place { fields := [], dependencies := [table] }
      (fun db at_ =>
        resolveItems db at_.row at_.rootTable at_.tablePrefixed (resolve db)
          subTables [] = .ok (obj.get key))
      { Bound.empty with
        handled :=
          [fun id => handleNested (obj.get key) true false
            (handleElement id)] } := by
  have hsub := hhas.child
  have hhead := head?_append hplace.head key
  have hmem : ∀ t ∈ [table], t ∈ tables := by
    intro t ht
    rw [List.mem_singleton.mp ht]
    exact hsub.subset (Table.all_eq table ▸ List.mem_cons_self)
  have hchild : ∀ t ∈ [table], t.IsChild place.row.name := by
    intro t ht
    rw [List.mem_singleton.mp ht, htable]
    exact childTable_isChild hhead
  refine vec_sound hcreated hplace.row hmem hchild
    (fun t => by rw [hsubTables]) hvalue handleElement resolve ?_
  intro item hitem id index path hid
  obtain ⟨rowObj, resolves, hcomplete, hresolve, hrow⟩ := hitems item hitem
  obtain ⟨bound, hhandle, hbound⟩ := hrow id index path hid
  subst htable
  rw [hhandle]
  exact insertRow_inserted rowIds hcreated hjoin hhead List.mem_cons_self hsub
    hbound hcomplete hid rfl resolve
    (fun db row h => hresolve db row (by rw [resolve_item] at h; exact h)) path

variable (rowIds) in
/-- A vector whose items are wrapped in an object with one field. -/
theorem wrappedVec_sound (hcreated : Created tables) {place : Place}
    {obj : Value} (hplace : place.Of obj) {join : JoinFields}
    (hjoin : join.Parent) (join' : JoinFields) (key : String) (type : FieldType)
    (isOptional : Bool) {table : Table}
    (htable : table = childTable (place.table.path ++ [key]) join true true
      wrappedName
        (handleField [getTableName (place.table.path ++ [key]) wrappedName]
          (some CHILD_TABLE_ID) join' none FOREIGN_VALUE_PROPERTY isOptional
            type))
    (hhas : place.Has tables { fields := [], dependencies := [table] })
    (hfinds : FindsWrapped tables (place.table.path ++ [key])) (field : Field)
    (hclazz : field.clazzNames = [WRAPPED_SIMPLE_VALUE_VARIANT])
    (hkey : field.key = key) {items : List Value}
    (hvalue : obj.get key = .array items)
    (hitems : resolveTable tables (place.table.path ++ [key])
        WRAPPED_SIMPLE_VALUE_VARIANT = some table →
      ∀ item ∈ items,
        JsonComplete table (simpleNested item) place.kind.item ∧
        ∀ (id : Scalar) (index : Nat),
          Binds tables (.ofRow table (simpleNested item) place.kind.item)
            (handleField [getTableName (place.table.path ++ [key]) wrappedName]
              (some CHILD_TABLE_ID) join' none FOREIGN_VALUE_PROPERTY isOptional
                type)
            (insertValue rowIds tables table (simpleNested item) (some id)
              (some index) FOREIGN_VALUE_PROPERTY isOptional type)
            (fun db at_ => resolveValue db tables at_ none
              FOREIGN_VALUE_PROPERTY isOptional type =
                .ok ((simpleNested item).get FOREIGN_VALUE_PROPERTY))) :
    BoundSound tables place { fields := [], dependencies := [table] }
      (fun db at_ =>
        resolveItems db at_.row at_.rootTable at_.tablePrefixed
          (fun subTable row => resolveValue db tables (.item subTable row) none
            FOREIGN_VALUE_PROPERTY isOptional type)
          (getTableFromField tables place.table field) [] = .ok (obj.get key))
      { Bound.empty with
        handled :=
          [fun id => handleNested (obj.get key) true false
            fun item index path =>
              match getWrappedTable tables place.table key with
              | .error error => .error error
              | .ok subTable =>
                  match insertValue rowIds tables subTable (simpleNested item)
                      (some id) index FOREIGN_VALUE_PROPERTY isOptional type with
                  | .error error => .error error
                  | .ok bound =>
                      insertRow rowIds subTable (simpleNested item) (some id)
                        index path bound] } := by
  have hfound : resolveTable tables (place.table.path ++ [key])
      WRAPPED_SIMPLE_VALUE_VARIANT = some table := by
    refine resolveWrapped_of_mem hcreated.names
      (hhas.tables.subset ?_) (by rw [htable]; rfl) hfinds
    exact List.mem_cons_of_mem _ (Table.mem_allOf List.mem_cons_self)
  refine vecTable_sound rowIds hcreated hplace hjoin htable hhas
    (getTableFromField_single _ hclazz (hkey ▸ hfound)) hvalue _
    (fun db subTable row => resolveValue db tables (.item subTable row) none
      FOREIGN_VALUE_PROPERTY isOptional type) ?_
  intro item hitem
  obtain ⟨hcomplete, hbinds⟩ := hitems hfound item hitem
  refine ⟨simpleNested item, fun db at_ => resolveValue db tables at_ none
    FOREIGN_VALUE_PROPERTY isOptional type =
      .ok ((simpleNested item).get FOREIGN_VALUE_PROPERTY), hcomplete, ?_, ?_⟩
  · intro db row h
    rw [simpleNested_get] at h
    exact h
  · intro id index path _
    obtain ⟨bound, hinsert, hbound⟩ := hbinds id index
    refine ⟨bound, ?_, hbound⟩
    simp only [getWrappedTable_eq hfound, hinsert]

/-- The properties of an object. -/
theorem resolveFields_object {db : Db} {at_ : ResolvePlace} {id : Option Nat}
    {name : String} {fields : List Field} {value : Value}
    (hvalue : value.IsObject name fields)
    (h : resolveFields db tables at_ id fields =
      .ok (fields.map fun field => (field.key, value.get field.key))) :
    (match resolveFields db tables at_ id fields with
      | .error error => Except.error error
      | .ok properties => .ok (Value.object name properties)) = .ok value := by
  rw [h]
  exact congrArg Except.ok hvalue.symm

mutual

theorem insertValue_sound (hcreated : Created tables) {place : Place}
    {obj : Value} (hplace : place.Of obj) (parentId : Option Scalar)
    (index : Option Nat) (hparent : place.kind = .document → parentId = none)
    (primary : Option String) {join : JoinFields} (hjoin : join.Parent)
    (owner : Option Nat) (key : String) (isOptional : Bool) :
    (type : FieldType) →
    place.Has tables (handleField place.table.path primary join owner key
      (isOptional || place.isOptional) type) →
    (isOptional = true ∧ obj.get key = .undefined) ∨ type.Holds (obj.get key) →
    type.Kept tables place owner key isOptional (obj.get key) →
    Binds tables place
      (handleField place.table.path primary join owner key
        (isOptional || place.isOptional) type)
      (insertValue rowIds tables place.table obj parentId index key isOptional
        type)
      (fun db at_ => resolveValue db tables at_ owner key isOptional type =
        .ok (obj.get key))
  | .simple type, _, hholds, hkept => by
      obtain ⟨s, hs, hgiven⟩ : ∃ s, obj.get key = .scalar s ∧ type.Given s := by
        rcases hholds with ⟨-, hnull⟩ | ⟨s, hs, hholds⟩
        · exact ⟨.undefined, hnull, .inl rfl⟩
        · exact ⟨s, hs, .inr hholds⟩
      exact ⟨_, rfl, simple_sound hplace _ rfl primary owner isOptional hs hgiven
        hkept⟩
  | .struct (.mk id name fields), hhas, hholds, hkept => by
      rcases hholds with ⟨rfl, hnull⟩ | ⟨hobject, hfields⟩
      · exact absent_sound hcreated hplace hhas hnull
      · have hgiven : (obj.get key).isNull = false := by
          rw [hobject]
          rfl
        obtain ⟨hkind, hoptional, hdepth, htable⟩ := hkept hgiven
        obtain rfl := hparent hkind
        have hsame : (isOptional || place.isOptional) = isOptional := by
          cases hplaceOptional : place.isOptional with
          | false => exact Bool.or_false _
          | true => rw [hoptional hplaceOptional]; rfl
        rw [hsame] at hhas ⊢
        have hkept := htable _ (resolveTable_inlined hcreated hhas)
        obtain ⟨outs, houts, hinline⟩ := inlineFields_outs
          (place.table.path ++ [key]) hjoin id isOptional fields
        have hwithin : (place.within
            (place.inlined join key id name isOptional fields) isOptional).Of
              (obj.get key) :=
          { row := hplace.row, head := head?_append hplace.head key,
            value := by
              change place.obj.at (place.table.path ++ [key]).tail = _
              rw [tail_append hplace.head, Value.at_append, hplace.value]
            given := hgiven }
        have hhasInner : (place.within
            (place.inlined join key id name isOptional fields) isOptional).Has
              tables (.concat outs) :=
          { columns := fun column h => hhas.columns column (by
              rw [← hinline] at h
              exact List.mem_append_left _ h)
            tables := by
              rw [← hinline]
              refine List.Sublist.trans ?_ hhas.tables
              refine List.Sublist.cons_cons _ ?_
              change (Table.allOf _).Sublist (Table.allOf [_])
              rw [Table.allOf_cons]
              exact (List.sublist_cons_self _ _).trans
                (List.sublist_append_left _ _) }
        obtain ⟨bound, hinsert, hbound⟩ := insertFields_sound hcreated hwithin
          none index (fun _ => rfl) id fields outs (by
            change Outs (place.table.path ++ [key]) id
              (isOptional || place.isOptional) fields outs
            rw [hsame]
            exact houts) hhasInner hfields hkept
        exact present_sound hcreated hplace hhas hobject hkind hdepth hinsert
          (hinline ▸ hbound)
  | .poly name dependencies, hhas, hholds, hkept => by
      obtain ⟨hprefixed, hfinds, habsent, hpresent⟩ := hkept
      have hsub : (Table.allOf (childTables (place.table.path ++ [key]) join
          false dependencies)).Sublist tables :=
        (List.sublist_cons_self _ _).trans hhas.tables
      have hmem : ∀ table ∈ childTables (place.table.path ++ [key]) join false
          dependencies, table ∈ tables :=
        fun table h => hsub.subset (Table.mem_allOf h)
      refine ⟨_, rfl, poly_sound hcreated hmem ?_ ?_ hprefixed
        (mem_getTableFromField hcreated.names _ rfl rfl hmem hfinds) ?_⟩
      · exact childTables_isChild (head?_append hplace.head key)
      · exact fun table h => (names_apart hcreated.names
          (s := [place.row]) hhas.tables List.mem_cons_self
          (Table.mem_allOf h)).symm
      · rcases hholds with ⟨rfl, hnull⟩ | hholds
        · refine .inl ⟨hnull, rfl, habsent ?_⟩
          rw [hnull]
          rfl
        · obtain ⟨ctor, properties, hobject⟩ := isObject_of_dependencyHolds hholds
          refine .inr ⟨ctor, properties, hobject, ?_⟩
          obtain ⟨table, clazz, hctor, -, hfound, hrow⟩ := insertDependency_sound
            hcreated (head?_append hplace.head key) hjoin false
            .joined (fun h => nomatch h) dependencies hsub hholds
            (hpresent (by rw [hobject]; rfl))
          intro id path hid
          obtain ⟨node, hnode, -, hinserted⟩ := hrow id none path hid rfl
          refine ⟨node, ?_, hinserted⟩
          rw [getTableFromValue_ctor hctor hfound]
          exact hnode

theorem insertDependency_sound (hcreated : Created tables) {path : List String}
    {rowName : String} (hhead : path.head? = some rowName) {join : JoinFields}
    (hjoin : join.Parent) (isVec : Bool) (kind : RowKind)
    (hkind : kind ≠ .document) {item : Value} :
    (dependencies : List Ctor) →
    (Table.allOf (childTables path join isVec dependencies)).Sublist tables →
    DependencyHolds dependencies item →
    DependencyKept tables path kind dependencies item →
    ∃ table clazz, item.ctor = some clazz ∧ table.ctor = clazz ∧
      resolveTable tables path clazz = some table ∧
      ∀ (id : Scalar) (index : Option Nat) (place : List (Nat × Nat)), id.IsId →
        index.isSome = isVec →
        ∃ node, insertDependency rowIds tables table item id index place
            dependencies = .ok node ∧ node.row.table = table ∧
          RowInserted tables (childTables path join isVec dependencies) rowName
            kind (fun db table row => resolveDependency db tables
              { rootTable := table, table, row, tablePrefixed := kind.prefixed }
              dependencies) item id index node
  | [], _, hholds, _ => hholds.elim
  | .mk id name fields :: dependencies, hsub, hholds, hkept => by
      generalize htable : childTable path join isVec false name
        (rowFields (getTableName path name) CHILD_TABLE_ID id [] fields) = table
      have htables : childTables path join isVec
          (.mk id name fields :: dependencies) =
            table :: childTables path join isVec dependencies := by
        rw [← htable]
        rfl
      have hall : Table.allOf (table :: childTables path join isVec
          dependencies) = table.all ++
            Table.allOf (childTables path join isVec dependencies) := rfl
      rw [htables, hall] at hsub
      have hfirst : table.all.Sublist tables :=
        (List.sublist_append_left _ _).trans hsub
      have hrest : (Table.allOf (childTables path join isVec
          dependencies)).Sublist tables :=
        (List.sublist_append_right _ _).trans hsub
      have hfound : resolveTable tables path name = some table := by
        refine resolveTable_of_mem hcreated.names
          (hfirst.subset (Table.all_eq table ▸ List.mem_cons_self)) ?_
        rw [← htable]
        rfl
      have hctor : table.ctor = name := by
        rw [← htable]
        rfl
      unfold DependencyHolds at hholds
      unfold DependencyKept at hkept
      by_cases hname : item.ctor = some name
      · rw [if_pos hname] at hholds hkept
        obtain ⟨hcomplete, hkept⟩ := hkept table hfound
        obtain ⟨outs, houts, hbody⟩ := rowFields_outs (getTableName path name)
          CHILD_TABLE_ID id [] fields
        refine ⟨table, name, hname, hctor, hfound, ?_⟩
        intro rowId index place hid hindex
        subst htable
        obtain ⟨bound, hinsert, hbound⟩ := insertFields_sound hcreated
          (ofRow_of (Value.isNull_of_ctor hname)) (some rowId)
          index (fun h => absurd h hkind) id fields outs houts
          (hbody ▸ ofRow_has hjoin hfirst) hholds.2 hkept
        rw [← hbody] at hbound
        obtain ⟨node, hnode, hinserted⟩ := insertRow_inserted
          rowIds hcreated hjoin hhead (List.mem_singleton.mpr rfl) hfirst hbound
          hcomplete hid hindex
          (fun db table row => resolveDependency db tables
            { rootTable := table, table, row, tablePrefixed := kind.prefixed }
            (.mk id name fields :: dependencies)) (by
              intro db row h
              refine (resolveDependency_first rfl h).trans ?_
              exact congrArg Except.ok hholds.1.symm) place
        refine ⟨node, ?_, List.mem_singleton.mp hinserted.table,
          hinserted.mono ?_ ?_ fun _ _ h => h⟩
        · exact (insertDependency_first rfl hinsert).trans hnode
        · intro t ht
          rw [List.mem_singleton.mp ht]
          exact List.mem_cons_self
        · intro t ht
          rw [htables, hall]
          rw [Table.allOf_cons, Table.allOf_nil, List.append_nil,
            ← Table.all_eq] at ht
          exact List.mem_append_left _ ht
      · rw [if_neg hname] at hholds hkept
        obtain ⟨subTable, clazz, hclazz, hsubCtor, hsubFound, hrow⟩ :=
          insertDependency_sound hcreated hhead hjoin isVec kind hkind dependencies
            hrest hholds hkept
        have hne : name ≠ subTable.ctor := by
          rintro rfl
          exact hname (hsubCtor ▸ hclazz)
        refine ⟨subTable, clazz, hclazz, hsubCtor, hsubFound, ?_⟩
        intro rowId index place hid hindex
        obtain ⟨node, hnode, hnodeTable, hinserted⟩ :=
          hrow rowId index place hid hindex
        refine ⟨node, ?_, hnodeTable, hinserted.mono ?_ ?_ ?_⟩
        · exact (insertDependency_rest hne item rowId index place).trans hnode
        · intro t ht
          rw [htables]
          exact List.mem_cons_of_mem _ ht
        · intro t ht
          rw [htables, hall]
          exact List.mem_append_right _ ht
        · intro db row h
          refine (resolveDependency_rest ?_ db).trans h
          exact hnodeTable ▸ hne

theorem insertField_sound (hcreated : Created tables) {place : Place}
    {obj : Value} (hplace : place.Of obj) (parentId : Option Scalar)
    (index : Option Nat) (hparent : place.kind = .document → parentId = none)
    (primary : Option String) {join : JoinFields} (hjoin : join.Parent)
    (owner : Option Nat) :
    (field : Field) →
    place.Has tables (getSQLField place.table.path primary join owner
      place.isOptional field) →
    field.Holds (obj.get field.key) →
    field.Kept tables place owner (obj.get field.key) →
    Binds tables place
      (getSQLField place.table.path primary join owner place.isOptional field)
      (insertField rowIds tables place.table obj parentId index field)
      (fun db at_ => resolveField db tables at_ owner field =
        .ok (obj.get field.key))
  | .mk key .plain type, hhas, hholds, hkept =>
      insertValue_sound hcreated hplace parentId index hparent primary hjoin owner key false
        type hhas (.inr hholds) hkept
  | .mk key .option type, hhas, hholds, hkept =>
      insertValue_sound hcreated hplace parentId index hparent primary hjoin owner key true
        type hhas (hholds.imp (fun h => ⟨rfl, h⟩) id) hkept
  | .mk key .vec (.simple type), hhas, ⟨items, hvalue, hholds⟩,
      ⟨hfinds, hkept⟩ => by
      have hsound := wrappedVec_sound rowIds hcreated hplace hjoin join key
        (.simple type) false rfl hhas hfinds (.mk key .vec (.simple type)) rfl rfl
        hvalue (by
          intro hfound item hitem
          obtain ⟨hcomplete, hreads⟩ := hkept items hvalue item hitem _ hfound
          refine ⟨hcomplete, ?_⟩
          intro id index
          exact insertValue_sound hcreated (ofRow_of rfl) (some id) (some index)
            (fun h => absurd h (RowKind.item_ne_document _)) _ hjoin none
            FOREIGN_VALUE_PROPERTY false (.simple type)
            (ofRow_has hjoin hhas.child)
            (.inr (by rw [simpleNested_get]; exact hholds item hitem))
            (by rw [simpleNested_get]; exact hreads))
      exact ⟨_, rfl, hsound.imp fun _ _ h => h⟩
  | .mk key .vecOption type, hhas, ⟨items, hvalue, hholds⟩,
      ⟨hfinds, hkept⟩ => by
      have hsound := wrappedVec_sound rowIds hcreated hplace hjoin
        (addJoinFields (getTableName (place.table.path ++ [key]) wrappedName)
          CHILD_TABLE_ID []) key type true rfl hhas hfinds
        (.mk key .vecOption type) rfl rfl hvalue (by
          intro hfound item hitem
          obtain ⟨hcomplete, hkept⟩ := hkept items hvalue item hitem _ hfound
          refine ⟨hcomplete, ?_⟩
          intro id index
          exact insertValue_sound hcreated (ofRow_of rfl) (some id) (some index)
            (fun h => absurd h (RowKind.item_ne_document _)) _
            (addJoinFields_parent _ _ _) none FOREIGN_VALUE_PROPERTY true type
            (ofRow_has hjoin hhas.child)
            (by
              rw [simpleNested_get]
              exact (hholds item hitem).imp (fun h => ⟨rfl, h⟩) (fun h => h))
            (by rw [simpleNested_get]; exact hkept))
      exact ⟨_, rfl, hsound.imp fun _ _ h => h⟩
  | .mk key .vec (.struct (.mk id name fields)), hhas, ⟨items, hvalue, hholds⟩,
      hkept => by
      obtain ⟨outs, houts, hbody⟩ := rowFields_outs
        (getTableName (place.table.path ++ [key]) name) CHILD_TABLE_ID id [] fields
      have hfound := resolveTable_of_mem hcreated.names
        (hhas.tables.subset (List.mem_cons_of_mem _
          (Table.mem_allOf List.mem_cons_self)))
        (rfl : _ = getTableName (place.table.path ++ [key]) name)
      have hsound := vecTable_sound rowIds hcreated hplace hjoin rfl hhas
        (getTableFromField_single
          (.mk key .vec (.struct (.mk id name fields))) rfl hfound)
        hvalue
        (fun parentId item index path =>
          match getTableFromValue tables place.table key name item with
          | .error error => .error error
          | .ok subTable =>
              match insertFields rowIds tables subTable item (some parentId) index
                  fields with
              | .error error => .error error
              | .ok bound =>
                  insertRow rowIds subTable item (some parentId) index path bound)
        (fun db subTable row =>
          match resolveFields db tables (.item subTable row) id fields with
          | .error error => .error error
          | .ok properties => .ok (.object name properties)) (by
          intro item hitem
          obtain ⟨hobject, hfields⟩ := hholds item hitem
          obtain ⟨hcomplete, hkept⟩ := hkept items hvalue item hitem _ hfound
          have hctor : item.ctor = some name := by
            rw [hobject]
            rfl
          refine ⟨item, fun db at_ => resolveFields db tables at_ id fields =
            .ok (fields.map fun field => (field.key, item.get field.key)),
            hcomplete, fun db row => resolveFields_object hobject, ?_⟩
          intro parentId index path _
          obtain ⟨bound, hinsert, hbound⟩ := insertFields_sound hcreated
            (ofRow_of (Value.isNull_of_ctor hctor)) (some parentId) (some index)
            (fun h => absurd h (RowKind.item_ne_document _)) id fields outs houts
            (hbody ▸ ofRow_has hjoin hhas.child) hfields hkept
          rw [← hbody] at hbound
          refine ⟨bound, ?_, hbound⟩
          simp only [Place.ofRow] at hinsert
          simp only [getTableFromValue_ctor hctor hfound, hinsert])
      exact ⟨_, rfl, hsound.imp fun _ _ h => h⟩
  | .mk key .vec (.poly name dependencies), hhas, ⟨items, hvalue, hholds⟩,
      ⟨hfinds, hkept⟩ => by
      have hsub : (Table.allOf (childTables (place.table.path ++ [key]) join
          true dependencies)).Sublist tables :=
        (List.sublist_cons_self _ _).trans hhas.tables
      have hmem : ∀ table ∈ childTables (place.table.path ++ [key]) join true
          dependencies, table ∈ tables :=
        fun table h => hsub.subset (Table.mem_allOf h)
      have hhead := head?_append hplace.head key
      have hsound := vec_sound hcreated hplace.row hmem
        (childTables_isChild hhead)
        (mem_getTableFromField hcreated.names
          (.mk key .vec (.poly name dependencies)) rfl rfl hmem hfinds)
        hvalue
        (fun id item index path =>
          match getTableFromValue tables place.table key
              ((FieldType.poly name dependencies).clazzNames.headD "") item with
          | .error error => .error error
          | .ok subTable =>
              insertDependency rowIds tables subTable item id index path
                dependencies)
        (fun db subTable row =>
          resolveDependency db tables (.item subTable row) dependencies) (by
          intro item hitem id index path hid
          obtain ⟨table, clazz, hctor, -, hfound, hrow⟩ := insertDependency_sound
            hcreated hhead hjoin true place.kind.item
            (RowKind.item_ne_document _) dependencies hsub (hholds item hitem)
            (hkept items hvalue item hitem)
          obtain ⟨node, hnode, -, hinserted⟩ := hrow id (some index) path hid rfl
          refine ⟨node, ?_, hinserted.mono (fun _ h => h) (fun _ h => h) ?_⟩
          · simp only [getTableFromValue_ctor hctor hfound]
            exact hnode
          · intro db row h
            simp only [RowKind.item_prefixed] at h
            exact h)
      exact ⟨_, rfl, hsound.imp fun _ _ h => h⟩

theorem insertFields_sound (hcreated : Created tables) {place : Place}
    {obj : Value} (hplace : place.Of obj) (parentId : Option Scalar)
    (index : Option Nat) (hparent : place.kind = .document → parentId = none)
    (owner : Option Nat) :
    (fields : List Field) → (outs : List SQLFields) →
    Outs place.table.path owner place.isOptional fields outs →
    place.Has tables (.concat outs) → FieldsHold fields obj →
    FieldsKept tables place owner fields obj →
    Binds tables place (.concat outs)
      (insertFields rowIds tables place.table obj parentId index fields)
      (fun db at_ => resolveFields db tables at_ owner fields =
        .ok (fields.map fun field => (field.key, obj.get field.key)))
  | [], _, .nil, _, _, _ =>
      ⟨.empty, rfl, (boundSound_empty tables place).imp fun _ _ _ => rfl⟩
  | field :: fields, _ :: outs, .cons ⟨primary, join, hjoin, hout⟩ houts,
      hhas, ⟨hfield, hfields⟩, ⟨hkept, hkeptFields⟩ => by
      subst hout
      have hconcat : SQLFields.concat (getSQLField place.table.path primary join
          owner place.isOptional field :: outs) =
            (getSQLField place.table.path primary join owner place.isOptional
              field).append (.concat outs) := rfl
      rw [hconcat] at hhas ⊢
      have hall : Table.allOf ((getSQLField place.table.path primary join owner
          place.isOptional field).append (.concat outs)).dependencies =
            Table.allOf (getSQLField place.table.path primary join owner
              place.isOptional field).dependencies ++
            Table.allOf (SQLFields.concat outs).dependencies :=
        Table.allOf_append _ _
      obtain ⟨first, hfirst, hsoundFirst⟩ := insertField_sound hcreated hplace
        parentId index hparent primary hjoin owner field
        { columns := fun column h =>
            hhas.columns column (List.mem_append_left _ h)
          tables := by
            refine List.Sublist.trans (List.Sublist.cons_cons _ ?_) hhas.tables
            rw [hall]
            exact List.sublist_append_left _ _ } hfield hkept
      obtain ⟨rest, hrest, hsoundRest⟩ := insertFields_sound hcreated hplace
        parentId index hparent owner fields outs houts
        { columns := fun column h =>
            hhas.columns column (List.mem_append_right _ h)
          tables := by
            refine List.Sublist.trans (List.Sublist.cons_cons _ ?_) hhas.tables
            rw [hall]
            exact List.sublist_append_right _ _ } hfields hkeptFields
      refine ⟨first.append rest, ?_,
        (hsoundFirst.append hcreated hsoundRest hhas.tables).imp ?_⟩
      · unfold insertFields
        rw [hfirst, hrest]
      · rintro db row ⟨hresolveFirst, hresolveRest⟩
        unfold resolveFields
        rw [hresolveFirst, hresolveRest]
        rfl

end

end Sqlite
end Peerbit
