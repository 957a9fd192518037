import Peerbit.Indexer.SelectedTables

/-!
# Tables below a table of documents

The tables that a query joins are below the table that is queried, and none of them is
inlined (`below_statement`).  When an index starts, the rows of a table below refer to
rows of the table by which it is joined (`linked_of_start`).
-/

namespace Peerbit
namespace Indexer

open Sqlite

/-- A join of a table with rows that is below another. -/
def Below (root : Table) (j : Join) : Prop :=
  ∃ t, Inside root t ∧ t.table.inline = false ∧ t.join = j

/-- The foreign keys of the tables refer to what they are joined to; inlined tables have
no rows. -/
def Linked (root : Table) : Prop :=
  ∀ t, Inside root t →
    t.table.references.map (fun r => (r.1, some r.2)) =
      if t.table.inline then none else t.join.parent

/-! ### Tables below -/

section Trees

variable {root table : Table} {t : Located}

theorem Inside.mem_all (h : Inside root t) : t.table ∈ root.all := by
  rw [Table.all_eq]
  rcases h.cases_root with rfl | ⟨-, hmem⟩
  · exact List.mem_cons_self
  · exact List.mem_cons_of_mem _ hmem

theorem Inside.ancestor_mem_all (h : Inside root t) : ∀ table ∈ t.ancestors, table ∈ root.all := by
  induction h with
  | root => exact fun table htable => absurd htable List.not_mem_nil
  | child hinside _ ih => exact List.forall_mem_cons.mpr ⟨hinside.mem_all, ih⟩

theorem exists_inside_of_mem_allOf
    {tables : List Table} (h : Inside root t) (htables : tables ⊆ t.table.children)
    (hmem : table ∈ Table.allOf tables) : ∃ t, Inside root t ∧ t.table = table := by
  induction hn : (Table.allOf tables).length using Nat.strong_induction_on
    generalizing tables t with
  | _ n ih =>
      cases tables with
      | nil => cases hmem
      | cons first rest =>
          rw [Table.allOf_cons] at hmem hn
          rw [List.length_append, List.length_cons] at hn
          obtain ⟨hfirst, hrest⟩ := List.cons_subset.mp htables
          rcases List.mem_append.mp hmem with hmem | hmem
          · rcases List.mem_cons.mp hmem with rfl | hmem
            · exact ⟨_, h.child hfirst, rfl⟩
            · exact ih (Table.allOf first.children).length (by omega) (h.child hfirst)
                (List.Subset.refl _) hmem rfl
          · exact ih _ (by omega) h hrest hmem rfl

theorem exists_inside (h : table ∈ root.all) : ∃ t, Inside root t ∧ t.table = table := by
  rw [Table.all_eq] at h
  rcases List.mem_cons.mp h with rfl | h
  · exact ⟨_, Inside.root, rfl⟩
  · exact exists_inside_of_mem_allOf Inside.root (List.Subset.refl _) h

theorem Linked.references_root (h : Linked root) : root.references = none := by
  have hroot := h _ Inside.root
  have hnone : ∀ inline : Bool, (if inline = true then none
      else (none : Option (String × Option String))) = none := by
    intro inline
    cases inline <;> rfl
  rw [show (Located.mk root []).join.parent = none from rfl, hnone,
    Option.map_eq_none_iff] at hroot
  exact hroot

theorem Inside.eq_or_mem_ancestors (h : Inside root t) : t.table = root ∨ root ∈ t.ancestors := by
  induction h with
  | root => exact Or.inl rfl
  | child _ _ ih =>
      rcases ih with rfl | hmem
      · exact Or.inr List.mem_cons_self
      · exact Or.inr (List.mem_cons_of_mem _ hmem)

/-- The rows of all tables below refer to others. -/
theorem Linked.eq_root
    (h : Linked root) (hroot : root.inline = false) (htable : table ∈ root.all)
    (hinline : table.inline = false) (hreferences : table.references = none) : table = root := by
  obtain ⟨t, ht, rfl⟩ := exists_inside htable
  rcases ht.eq_or_mem_ancestors with heq | hmem
  · exact heq
  · have hlinked := h t ht
    rw [hreferences, if_neg (by simp [hinline]), Option.map_none, Located.join, eq_comm,
      Option.map_eq_none_iff, getNonInlinedTable, List.find?_eq_none] at hlinked
    exact absurd (by simp [hroot]) (hlinked root hmem)

/-- The rows of a table below refer to rows of a table below. -/
theorem Linked.exists_parent
    (h : Linked root) (htable : table ∈ root.all) {name column : String}
    (hreferences : table.references = some (name, column)) :
    ∃ parent ∈ root.all, parent.name = name ∧ parent.primary = some column := by
  obtain ⟨t, ht, rfl⟩ := exists_inside htable
  have hlinked := h t ht
  rw [hreferences, Option.map_some, Located.join] at hlinked
  split at hlinked
  · cases hlinked
  · obtain ⟨parent, hparent, heq⟩ := Option.map_eq_some_iff.mp hlinked.symm
    obtain ⟨hname, hprimary⟩ := Prod.mk.inj heq
    exact ⟨parent, ht.ancestor_mem_all parent (List.mem_of_find?_eq_some hparent), hname,
      hprimary⟩

/-- The rows of a table that is joined refer to what it is joined to. -/
theorem Linked.references_of_below
    (h : Linked root) {j : Join} (hj : Below root j) :
    ∃ table ∈ root.all, table.name = j.table ∧
      table.references.map (fun r => (r.1, some r.2)) = j.parent := by
  obtain ⟨t, ht, hinline, rfl⟩ := hj
  refine ⟨t.table, ht.mem_all, rfl, ?_⟩
  rw [h t ht, if_neg (by simp [hinline])]

end Trees

/-! ### Tables that are joined -/

section Paths

variable {schemaKeys : Table → List String} {root : Table} {start : Located}
variable {key : String} {path : List String}

theorem inside_children
    {t child : QueryTable start} (h : Inside root t.located) (hchild : child ∈ t.children) :
    Inside root child.located := by
  obtain ⟨⟨table, hmem⟩, -, rfl⟩ := List.mem_map.mp hchild
  exact h.child hmem

variable (key) in
theorem inside_matchChildren
    {children : List (QueryTable start)} (h : ∀ t ∈ children, Inside root t.located) :
    (∀ t ∈ (matchChildren key children).1, Inside root t.located) ∧
      ∀ t, (matchChildren key children).2 = some t → Inside root t.located := by
  induction children with
  | nil =>
      rw [matchChildren]
      exact ⟨fun t ht => absurd ht List.not_mem_nil, fun t ht => by cases ht⟩
  | cons child rest ih =>
      rw [List.forall_mem_cons] at h
      obtain ⟨htables, hfound⟩ := ih h.2
      rw [matchChildren]
      split
      · split
        · refine ⟨fun t ht => absurd ht List.not_mem_nil, fun t ht => ?_⟩
          obtain rfl := Option.some.inj ht
          exact h.1
        · exact ⟨List.forall_mem_cons.mpr ⟨h.1, htables⟩, hfound⟩
      · exact ⟨htables, hfound⟩

theorem inside_matchTables
    {current tables : List (QueryTable start)} {found : Option (QueryTable start)}
    (h : ∀ t ∈ current, Inside root t.located)
    (hmatch : matchTables schemaKeys key current = .ok (tables, found)) :
    (∀ t ∈ tables, Inside root t.located) ∧ ∀ t, found = some t → Inside root t.located := by
  induction current generalizing tables with
  | nil =>
      rw [matchTables] at hmatch
      obtain ⟨rfl, rfl⟩ := Prod.mk.inj (Except.ok.inj hmatch)
      exact ⟨fun t ht => absurd ht List.not_mem_nil, fun t ht => by cases ht⟩
  | cons first rest ih =>
      rw [List.forall_mem_cons] at h
      have hchildren := inside_matchChildren key
        (fun t ht => inside_children h.1 ht : ∀ t ∈ first.children, Inside root t.located)
      rw [matchTables] at hmatch
      split at hmatch
      · cases hmatch
      · split at hmatch
        · rename_i heq
          rw [heq] at hchildren
          obtain ⟨rfl, rfl⟩ := Prod.mk.inj (Except.ok.inj hmatch)
          exact hchildren
        · rename_i heq
          rw [heq] at hchildren
          rw [Lib.Results.bind_eq_ok_iff] at hmatch
          obtain ⟨⟨more, found'⟩, hrest, hmatch⟩ := hmatch
          obtain ⟨rfl, rfl⟩ := Prod.mk.inj (Except.ok.inj hmatch)
          obtain ⟨hmore, hfound⟩ := ih h.2 hrest
          exact ⟨List.forall_mem_append.mpr ⟨hchildren.1, hmore⟩, hfound⟩

/-- A path leads to tables below. -/
theorem inside_walkPath
    {current : List (QueryTable start)} {walk : Walk start}
    (h : ∀ t ∈ current, Inside root t.located)
    (hwalk : walkPath schemaKeys path current = .ok walk) :
    (∀ t ∈ walk.currentTables, Inside root t.located) ∧
      (∀ t, walk.found = some t → Inside root t.located) ∧
        ∀ t ∈ walk.met, Inside root t.located := by
  induction path generalizing current walk with
  | nil =>
      rw [walkPath] at hwalk
      obtain rfl := Except.ok.inj hwalk
      refine ⟨h, ?_, fun t ht => absurd ht List.not_mem_nil⟩
      rintro t ⟨⟩
  | cons key path ih =>
      rw [walkPath, Lib.Results.bind_eq_ok_iff] at hwalk
      obtain ⟨⟨newTables, found⟩, hmatch, hwalk⟩ := hwalk
      obtain ⟨hnew, hfound⟩ := inside_matchTables h hmatch
      cases found with
      | some table =>
          obtain rfl := Except.ok.inj hwalk
          refine ⟨fun t ht => absurd ht List.not_mem_nil, hfound, ?_⟩
          exact List.forall_mem_append.mpr ⟨hnew, List.forall_mem_singleton.mpr (hfound _ rfl)⟩
      | none =>
          dsimp only at hwalk
          split at hwalk
          · obtain rfl := Except.ok.inj hwalk
            exact ⟨h, hfound, fun t ht => absurd ht List.not_mem_nil⟩
          · rw [Lib.Results.bind_eq_ok_iff] at hwalk
            obtain ⟨rest, hrest, hwalk⟩ := hwalk
            obtain rfl := Except.ok.inj hwalk
            obtain ⟨hcurrent, hfound', hmet⟩ := ih hnew hrest
            exact ⟨hcurrent, hfound', List.forall_mem_append.mpr ⟨hnew, hmet⟩⟩

theorem below_joinsOf
    {met : List (QueryTable start)} (h : ∀ t ∈ met, Inside root t.located) {j : Join}
    (hj : j ∈ joinsOf met) : Below root j := by
  obtain ⟨t, ht, rfl⟩ := List.mem_map.mp hj
  obtain ⟨hmem, hinline⟩ := List.mem_filter.mp ht
  exact ⟨t.located, h t hmem, by simpa [QueryTable.table] using hinline, rfl⟩

theorem inside_resolveTableToQuery
    {resolved : Resolved start} (h : Inside root start)
    (hresolved : resolveTableToQuery schemaKeys start path = .ok resolved) :
    (∀ t ∈ resolved.foreignTables, Inside root t.located) ∧
      ∀ j ∈ resolved.joins, Below root j := by
  rw [resolveTableToQuery, Lib.Results.bind_eq_ok_iff] at hresolved
  obtain ⟨walk, hwalk, hresolved⟩ := hresolved
  obtain ⟨hcurrent, hfound, hmet⟩ :=
    inside_walkPath (List.forall_mem_singleton.mpr (h : Inside root QueryTable.start.located)) hwalk
  split at hresolved
  · rename_i table htable
    obtain rfl := Except.ok.inj hresolved
    exact ⟨List.forall_mem_singleton.mpr (hfound _ htable), fun j hj => below_joinsOf hmet hj⟩
  · dsimp only at hresolved
    split at hresolved
    · cases hresolved
    · obtain rfl := Except.ok.inj hresolved
      exact ⟨fun t ht => hcurrent t (List.mem_filter.mp ht).1, fun j hj => below_joinsOf hmet hj⟩

end Paths

section Statements

variable {L : Type} {schemaKeys : Table → List String} {size : Nat} {root : Table}

/-- What a comparison joins is below the table where it was looked for. -/
theorem below_convertStateField
    {path : List String} {skipKeys : Nat} {start : Located} {tableAlias : Option Identifier}
    {joined : List String} {query : StateFieldQuery L} {c : Converted L}
    (hinside : Inside root start)
    (h : convertStateField schemaKeys path skipKeys start tableAlias joined query = .ok c) :
    ∀ j ∈ c.joins, Below root j := by
  induction hn : sizeOf start.table using Nat.strong_induction_on generalizing
    start tableAlias joined query c with
  | _ n ih =>
      rw [convertStateField] at h
      split at h
      · split at h
        · obtain rfl := (Except.ok.inj h).symm
          exact fun j hj => absurd hj List.not_mem_nil
        · cases h
      · rw [Lib.Results.bind_eq_ok_iff] at h
        obtain ⟨resolved, hresolved, h⟩ := h
        rw [Lib.Results.bind_eq_ok_iff] at h
        obtain ⟨parts, hparts, h⟩ := h
        obtain rfl := (Except.ok.inj h).symm
        obtain ⟨hforeign, hjoins⟩ := inside_resolveTableToQuery hinside hresolved
        refine List.forall_mem_append.mpr ⟨hjoins, fun j hj => ?_⟩
        obtain ⟨part, hpart, hj⟩ := List.mem_flatMap.mp hj
        rw [Lib.Results.mapM_eq_ok_iff] at hparts
        obtain ⟨foreign, hmem, hpart⟩ := (Lib.Results.exists_of_forall₂ hparts).2 part hpart
        cases foreign with
        | start => cases hpart
        | below table parent ancestors hsize =>
            exact ih _ (hn ▸ hsize) (hforeign _ hmem) hpart rfl j hj

theorem connected_below :
    Connected (L := L) schemaKeys size { table := root, ancestors := [] }
      (fun c => ∀ j ∈ c.joins, Below root j) where
  state := fun _ h => below_convertStateField Inside.root h
  parts := by
    intro parts where_ hleaves h j hj
    obtain ⟨part, hpart, hj⟩ := List.mem_flatMap.mp hj
    exact h part hpart j hj

/-- What a query joins is below the table that is queried. -/
theorem below_statement
    {queries : List (QueryTree (QueryLeaf L))} {st : Statement L}
    (h : convertRequestToQuery schemaKeys size root queries = .ok st) :
    ∀ j ∈ st.joins, Below root j := by
  rw [convertRequestToQuery, Lib.Results.bind_eq_ok_iff] at h
  obtain ⟨parts, hparts, h⟩ := h
  obtain rfl := (Except.ok.inj h).symm
  intro j hj
  obtain ⟨part, hpart, hj⟩ := List.mem_flatMap.mp (mem_joinBuilder.mp hj)
  exact connected_convertQueries connected_below (Or.inl rfl) queries hparts part hpart j hj

end Statements

/-! ### Tables that are generated -/

section Generated

/-- Primary columns have the name of the primary key. -/
def PrimaryNamed (primary : Option String) (fields : List SQLField) : Prop :=
  ∀ field ∈ fields, field.isPrimary = true → primary = some field.name

/-- The rows of a table refer to rows of a parent; those of the tables below it refer to
its own rows if it is not inlined. -/
inductive Generated : String → Table → Prop
  | row {parent column : String} {table : Table} (hinline : table.inline = false)
      (hreferences : table.references = some (parent, column))
      (hprimary : PrimaryNamed table.primary table.fields)
      (hchildren : ∀ child ∈ table.children, Generated table.name child) :
      Generated parent table
  | inlined {parent : String} {table : Table} (hinline : table.inline = true)
      (hreferences : table.references = none)
      (hchildren : ∀ child ∈ table.children, Generated parent child) :
      Generated parent table

/-- The columns and the tables that are generated. -/
structure GoodFields (parent : String) (primary : Option String) (body : SQLFields) :
    Prop where
  primary : PrimaryNamed primary body.fields
  tables : ∀ table ∈ body.dependencies, Generated parent table

theorem goodFields_nil (parent : String) (primary : Option String) :
    GoodFields parent primary { fields := [], dependencies := [] } where
  primary := fun _ h => absurd h List.not_mem_nil
  tables := fun _ h => absurd h List.not_mem_nil

theorem GoodFields.append {parent : String} {primary : Option String}
    {body body' : SQLFields} (h : GoodFields parent primary body)
    (h' : GoodFields parent primary body') :
    GoodFields parent primary (body.append body') where
  primary := List.forall_mem_append.mpr ⟨h.primary, h'.primary⟩
  tables := List.forall_mem_append.mpr ⟨h.tables, h'.tables⟩

theorem primaryNamed_simpleColumn
    (path : List String) (primary : Option String) (owner : Option Nat) (key : String)
    (type : SimpleType) : PrimaryNamed primary [simpleColumn path primary owner key type] := by
  intro field hfield hprimary
  obtain rfl := List.mem_singleton.mp hfield
  exact of_decide_eq_true hprimary

/-- Without a primary key no column is primary. -/
theorem PrimaryNamed.of_none {fields : List SQLField} (h : PrimaryNamed none fields)
    (primary : Option String) : PrimaryNamed primary fields := by
  intro field hfield hprimary
  cases h field hfield hprimary

theorem primaryNamed_addJoinFields (tableName primary : String) (sqlFields : List SQLField) :
    PrimaryNamed (some CHILD_TABLE_ID) (addJoinFields tableName primary sqlFields).fields := by
  intro field hfield hprimary
  rcases List.mem_cons.mp hfield with rfl | hfield
  · rfl
  · obtain rfl := List.mem_singleton.mp hfield
    cases hprimary

variable {join : JoinFields} (hjoin : PrimaryNamed (some CHILD_TABLE_ID) join.fields)
include hjoin

theorem generated_childTable
    {path : List String} {ctor : String} {body : SQLFields} (isVec isSimpleValue : Bool)
    (hbody : GoodFields (getTableName path ctor) (some CHILD_TABLE_ID) body) :
    Generated join.references.1 (childTable path join isVec isSimpleValue ctor body) := by
  refine Generated.row rfl rfl ?_ hbody.tables
  refine List.forall_mem_append.mpr ⟨List.forall_mem_append.mpr ⟨hjoin, ?_⟩, hbody.primary⟩
  intro field hfield hprimary
  split at hfield
  · obtain rfl := List.mem_singleton.mp hfield
    cases hprimary
  · cases hfield

omit hjoin

mutual

theorem good_handleField
    {join : JoinFields} (hjoin : PrimaryNamed (some CHILD_TABLE_ID) join.fields)
    (path : List String) (primary : Option String) (owner : Option Nat) (key : String)
    (isOptional : Bool) (type : FieldType) :
    GoodFields join.references.1 primary
      (handleField path primary join owner key isOptional type) := by
  match type with
  | .simple type =>
      exact ⟨primaryNamed_simpleColumn _ _ _ _ _, fun _ h => absurd h List.not_mem_nil⟩
  | .struct (.mk id name fields) =>
      have hfields := good_inlineFields hjoin (path ++ [key]) id isOptional fields
      refine ⟨PrimaryNamed.of_none ?_ _, List.forall_mem_singleton.mpr ?_⟩
      · refine List.forall_mem_append.mpr ⟨hfields.primary, fun field hfield hprimary => ?_⟩
        split at hfield
        · obtain rfl := List.mem_singleton.mp hfield
          cases hprimary
        · cases hfield
      · exact Generated.inlined rfl rfl hfields.tables
  | .poly _ dependencies =>
      exact ⟨fun _ h => absurd h List.not_mem_nil,
        generated_childTables hjoin (path ++ [key]) false dependencies⟩

theorem good_getSQLField
    {join : JoinFields} (hjoin : PrimaryNamed (some CHILD_TABLE_ID) join.fields)
    (path : List String) (primary : Option String) (owner : Option Nat) (isOptional : Bool)
    (field : Field) :
    GoodFields join.references.1 primary
      (getSQLField path primary join owner isOptional field) := by
  match field with
  | .mk key .plain type =>
      exact good_handleField hjoin path primary owner key isOptional type
  | .mk key .option type => exact good_handleField hjoin path primary owner key true type
  | .mk key .vec (.simple type) =>
      refine ⟨fun _ h => absurd h List.not_mem_nil, List.forall_mem_singleton.mpr ?_⟩
      exact generated_childTable hjoin true true
        ⟨primaryNamed_simpleColumn _ _ _ _ _, fun _ h => absurd h List.not_mem_nil⟩
  | .mk key .vec (.struct (.mk id name fields)) =>
      refine ⟨fun _ h => absurd h List.not_mem_nil, List.forall_mem_singleton.mpr ?_⟩
      exact generated_childTable hjoin true false
        (good_rowFields (getTableName (path ++ [key]) name) CHILD_TABLE_ID id [] fields)
  | .mk key .vec (.poly _ dependencies) =>
      exact ⟨fun _ h => absurd h List.not_mem_nil,
        generated_childTables hjoin (path ++ [key]) true dependencies⟩
  | .mk key .vecOption type =>
      refine ⟨fun _ h => absurd h List.not_mem_nil, List.forall_mem_singleton.mpr ?_⟩
      exact generated_childTable hjoin true true
        (good_handleField (primaryNamed_addJoinFields _ _ _) _ _ _ _ _ type)

theorem good_inlineFields
    {join : JoinFields} (hjoin : PrimaryNamed (some CHILD_TABLE_ID) join.fields)
    (path : List String) (owner : Option Nat) (isOptional : Bool) (fields : List Field) :
    GoodFields join.references.1 none (inlineFields path join owner isOptional fields) := by
  match fields with
  | [] => exact goodFields_nil _ _
  | field :: fields =>
      exact (good_getSQLField hjoin path none owner isOptional field).append
        (good_inlineFields hjoin path owner isOptional fields)

theorem good_rowFields
    (tableName primary : String) (owner : Option Nat) (sqlFields : List SQLField)
    (fields : List Field) :
    GoodFields tableName (some primary)
      (rowFields tableName primary owner sqlFields fields) := by
  match fields with
  | [] => exact goodFields_nil _ _
  | field :: fields =>
      exact (good_getSQLField (primaryNamed_addJoinFields tableName primary sqlFields) [tableName]
        (some primary) owner false field).append
        (good_rowFields tableName primary owner _ fields)

theorem generated_childTables
    {join : JoinFields} (hjoin : PrimaryNamed (some CHILD_TABLE_ID) join.fields)
    (path : List String) (isVec : Bool) (dependencies : List Ctor) :
    ∀ table ∈ childTables path join isVec dependencies, Generated join.references.1 table := by
  match dependencies with
  | [] => exact fun _ h => absurd h List.not_mem_nil
  | .mk id name fields :: dependencies =>
      exact List.forall_mem_cons.mpr
        ⟨generated_childTable hjoin isVec false (good_rowFields _ _ id [] fields),
          generated_childTables hjoin path isVec dependencies⟩

end

theorem good_rootTable (scope : List String) (primary : String) (ctor : Ctor) :
    PrimaryNamed (rootTable scope primary ctor).primary (rootTable scope primary ctor).fields ∧
      ∀ child ∈ (rootTable scope primary ctor).children,
        Generated (rootTable scope primary ctor).name child := by
  obtain ⟨id, name, fields⟩ := ctor
  have hfields := good_rowFields (getTableName scope name) primary id [] fields
  exact ⟨hfields.primary, hfields.tables⟩

end Generated

/-! ### Tables of an index that starts -/

section Started

variable {roots : List Table} {root : Table}

theorem Inside.mem_allOf {t : Located} (h : Inside root t) (hroot : root ∈ roots) :
    t.table ∈ Table.allOf roots := by
  induction h with
  | root => exact Table.mem_allOf hroot
  | child _ hchild ih => exact mem_allOf_children ih hchild

/-- Where rows of a table below refer to: a table that is not inlined. -/
theorem Inside.generated
    {t : Located} (h : Inside root t) (hroot : root ∈ roots) (hinline : root.inline = false)
    (hprimary : PrimaryNamed root.primary root.fields)
    (hchildren : ∀ child ∈ root.children, Generated root.name child) :
    t = { table := root, ancestors := [] } ∨
      ∃ parent ∈ Table.allOf roots, getNonInlinedTable t.ancestors = some parent ∧
        PrimaryNamed parent.primary parent.fields ∧ Generated parent.name t.table := by
  induction h with
  | root => exact Or.inl rfl
  | @child t child hinside hchild ih =>
      refine Or.inr ?_
      rcases ih with rfl | ⟨parent, hmem, hparent, hnamed, hgenerated⟩
      · exact ⟨root, Table.mem_allOf hroot, by simp [getNonInlinedTable, hinline], hprimary,
          hchildren child hchild⟩
      · cases hgenerated with
        | row hrow _ htable hbelow =>
            exact ⟨t.table, hinside.mem_allOf hroot, by simp [getNonInlinedTable, hrow], htable,
              hbelow child hchild⟩
        | inlined hrow _ hbelow =>
            refine ⟨parent, hmem, ?_, hnamed, hbelow child hchild⟩
            rw [← hparent, getNonInlinedTable, getNonInlinedTable,
              List.find?_cons_of_neg (by simp [hrow])]

/-- The rows of the tables below a table of documents refer to what they are joined
to. -/
theorem linked_of_start
    {scope : List String} {primary : String} {classes : List Ctor} {tables : List Table}
    (h : start scope primary classes = .ok tables) (hnames : (tables.map Table.name).Nodup)
    {ctor : Ctor} (hctor : ctor ∈ classes) : Linked (rootTable scope primary ctor) := by
  obtain ⟨hall, -, hprepared⟩ := start_ok h
  have hroot : rootTable scope primary ctor ∈ classes.map (rootTable scope primary) :=
    List.mem_map_of_mem hctor
  obtain ⟨hprimary, hchildren⟩ := good_rootTable scope primary ctor
  have hinline : (rootTable scope primary ctor).inline = false := by
    cases ctor
    rfl
  intro t ht
  rcases ht.generated hroot hinline hprimary hchildren with
    rfl | ⟨parent, hmem, hparent, hnamed, hgenerated⟩
  · cases ctor
    rfl
  · cases hgenerated with
    | inlined hrow hreferences _ =>
        rw [hreferences, if_pos hrow]
        rfl
    | @row _ column _ hrow hreferences _ _ =>
        have hprepares := hprepared t.table (hall ▸ ht.mem_allOf hroot) hrow
        rw [preparesTable, hreferences] at hprepares
        dsimp only at hprepares
        rw [getTable_of_mem hnames (hall ▸ hmem)] at hprepares
        obtain ⟨field, hfield, hcolumn⟩ := List.any_eq_true.mp hprepares
        rw [Bool.and_eq_true, beq_iff_eq] at hcolumn
        rw [hreferences, if_neg (by simp [hrow]), Located.join, hparent, Option.map_some,
          Option.map_some, hnamed field hfield hcolumn.1, hcolumn.2]

end Started

end Indexer
end Peerbit
