import Peerbit.Indexer.QueriedTables
import Peerbit.Indexer.RowColumns

/-!
# Tables that are selected

What a statement returns of a document is read from its table and from the tables below
it that the shape has, which are joined under their own names.  The rows of a table
whose objects are elements of a vector are gathered in one value, and then the rows of
the statement are grouped by document.

Each table is joined after the one that its rows refer to (`inScope_selected`), and
when nothing is grouped, no table of elements is joined (`single_of_selected`).
-/

namespace Peerbit
namespace Indexer

open Sqlite

/-- What is wanted of a document; a vector has the shape of its elements in a list. -/
inductive Shape where
  | all
  | fields (entries : List (String × Shape))
  | array (shapes : List Shape)

def Shape.get (key : String) : Shape → Option Shape
  | .fields entries => (entries.find? (fun entry => entry.1 == key)).map (·.2)
  | _ => none

/-- The loop of `matchFieldInShape`. -/
def matchFieldInShape : Shape → List String → Except SqlError Bool
  | _, [] => .error .unexpected
  | shape, key :: path =>
      match shape.get key with
      | none => .ok false
      | some .all => .ok true
      | some (.array []) => if path.isEmpty then .error .unexpected else .ok false
      | some (.array (first :: _)) => matchFieldInShape first path
      | some (.fields entries) => matchFieldInShape (.fields entries) path

def isSelected (shape : Option Shape) (field : SQLField) : Except SqlError Bool :=
  if field.isPrimary then .ok true
  else
    match shape with
    | none => .ok true
    | some shape => matchFieldInShape shape field.path

def selectFields (shape : Option Shape) (also : SQLField → Bool) (fields : List SQLField) :
    Except SqlError (List SQLField) := do
  let selected ← fields.mapM (isSelected shape)
  return ((fields.zip selected).filter (fun field => field.2 || also field.1)).map (·.1)

/-- What a statement returns: a column, or the rows of a table as a JSON array. -/
inductive Resolver where
  | column (table : String) (field : SQLField)
  | groupArray (table : String) (fields : List SQLField)
deriving DecidableEq

structure Selected where
  resolvers : List Resolver
  joins : List Join
  groupByParentId : Bool

def Selected.append (s s' : Selected) : Selected where
  resolvers := s.resolvers ++ s'.resolvers
  joins := s.joins ++ s'.joins
  groupByParentId := s.groupByParentId || s'.groupByParentId

/-- What is selected of one table. -/
def selectTable (t : Located) (shape : Option Shape) : Except SqlError Selected :=
  if t.table.referencedInArray then do
    let fields ← selectFields shape (fun field => field.name == ARRAY_INDEX_COLUMN)
      t.table.fields
    return { resolvers :=
               [.groupArray t.table.name
                 (fields.filter (fun field => field.name != PARENT_TABLE_ID))]
             joins := [t.join]
             groupByParentId := true }
  else if !t.table.inline then do
    let fields ← selectFields shape (fun _ => false) t.table.fields
    return { resolvers := fields.map (.column t.table.name)
             joins := if t.ancestors.isEmpty then [] else [t.join]
             groupByParentId := false }
  else return { resolvers := [], joins := [], groupByParentId := false }

/-- The shape of a table below, if it is wanted. -/
def childShape (shape : Option Shape) (child : Table) : Option (Option Shape) :=
  match shape with
  | none => some none
  | some shape =>
      match child.parentPath.tail.getLast?.bind (fun key => shape.get key) with
      | none => none
      | some .all => some none
      | some (.array shapes) => some shapes.head?
      | some (.fields entries) => some (some (.fields entries))

def selectedChildren (t : Located) (shape : Option Shape) : List (Located × Option Shape) :=
  t.table.children.filterMap (fun child =>
    (childShape shape child).map (fun shape =>
      ({ table := child, ancestors := t.table :: t.ancestors }, shape)))

/-- How many tables are left below those of a stack. -/
def tablesLeft (stack : List (Located × Option Shape)) : Nat :=
  (stack.map (fun t => t.1.table.all.length)).sum

theorem tablesLeft_selectedChildren (t : Located) (shape : Option Shape) :
    tablesLeft (selectedChildren t shape) < t.table.all.length := by
  rw [Table.all_eq, List.length_cons, Nat.lt_succ_iff, selectedChildren]
  induction t.table.children with
  | nil => simp [tablesLeft]
  | cons child children ih =>
      rw [Table.allOf_cons, List.length_append, List.length_cons, List.filterMap_cons]
      cases childShape shape child with
      | none =>
          rw [Option.map_none]
          dsimp only
          omega
      | some shape' =>
          rw [Option.map_some]
          dsimp only
          rw [tablesLeft, List.map_cons, List.sum_cons]
          dsimp only
          rw [Table.all_eq, List.length_cons]
          rw [tablesLeft] at ih
          omega

theorem tablesLeft_append (stack stack' : List (Located × Option Shape)) :
    tablesLeft (stack ++ stack') = tablesLeft stack + tablesLeft stack' := by
  rw [tablesLeft, List.map_append, List.sum_append]
  rfl

/-- The loop over the stack, which grows at its end. -/
def selectAll : List (Located × Option Shape) → Except SqlError Selected
  | [] => .ok { resolvers := [], joins := [], groupByParentId := false }
  | (t, shape) :: stack => do
      let selected ← selectTable t shape
      let rest ← selectAll (stack ++ selectedChildren t shape)
      return selected.append rest
termination_by stack => tablesLeft stack
decreasing_by
  rw [tablesLeft_append]
  have hless := tablesLeft_selectedChildren t shape
  simp only [tablesLeft, List.map_cons, List.sum_cons] at hless ⊢
  omega

/-- `selectAllFieldsFromTable`.  The loop meets each table once, so no join is set
twice. -/
def selectAllFieldsFromTable (table : Table) (shape : Option Shape) :
    Except SqlError Selected := do
  let selected ← selectAll [({ table, ancestors := [] }, shape)]
  if selected.resolvers.isEmpty then .error .noFieldsToResolve else return selected

/-! ### Where the tables are -/

/-- A table with the ones that it is part of, up to the table of documents. -/
inductive Inside (root : Table) : Located → Prop
  | root : Inside root { table := root, ancestors := [] }
  | child {t : Located} {child : Table} (h : Inside root t)
      (hchild : child ∈ t.table.children) :
      Inside root { table := child, ancestors := t.table :: t.ancestors }

theorem mem_allOf_children {tables : List Table} {table child : Table}
    (h : table ∈ Table.allOf tables) (hchild : child ∈ table.children) :
    child ∈ Table.allOf tables := by
  induction hn : (Table.allOf tables).length using Nat.strong_induction_on generalizing tables with
  | _ n ih =>
      cases tables with
      | nil => cases h
      | cons first rest =>
          rw [Table.allOf_cons] at h hn ⊢
          rw [List.length_append, List.length_cons] at hn
          rcases List.mem_append.mp h with h | h
          · rcases List.mem_cons.mp h with rfl | h
            · exact List.mem_append_left _ (List.mem_cons_of_mem _ (Table.mem_allOf hchild))
            · exact List.mem_append_left _
                (List.mem_cons_of_mem _ (ih _ (by omega) h rfl))
          · exact List.mem_append_right _ (ih _ (by omega) h rfl)

/-- It is the table of documents or one of those below. -/
theorem Inside.cases_root {root : Table} {t : Located} (h : Inside root t) :
    t = { table := root, ancestors := [] } ∨
      t.ancestors ≠ [] ∧ t.table ∈ Table.allOf root.children := by
  induction h with
  | root => exact Or.inl rfl
  | child _ hchild ih =>
      refine Or.inr ⟨List.cons_ne_nil _ _, ?_⟩
      rcases ih with rfl | ⟨-, hmem⟩
      · exact Table.mem_allOf hchild
      · exact mem_allOf_children hmem hchild

theorem Inside.selectedChildren
    {root : Table} {t : Located} (h : Inside root t) {shape : Option Shape}
    {x : Located × Option Shape} (hx : x ∈ selectedChildren t shape) : Inside root x.1 := by
  obtain ⟨child, hchild, hx⟩ := List.mem_filterMap.mp hx
  obtain ⟨shape', -, rfl⟩ := Option.map_eq_some_iff.mp hx
  exact h.child hchild

/-! ### What is joined -/

/-- A table that rows may refer to, with its primary column. -/
def scopeOf (table : Table) : String × Option String :=
  (table.name, table.primary)

/-- Each table is joined after the one that its rows refer to. -/
def inScope : List (String × Option String) → List Join → Bool
  | _, [] => true
  | scope, j :: js =>
      j.parent.any scope.contains && inScope (scope ++ [(j.table, j.primary)]) js

/-- The table is that of documents, in the scope, or its rows refer to a table of the
scope. -/
def Placed (scope : List (String × Option String)) (t : Located) : Prop :=
  (t.ancestors = [] ∧ scopeOf t.table ∈ scope ∧ t.table.inline = false ∧
      t.table.referencedInArray = false) ∨
    ∃ parent, getNonInlinedTable t.ancestors = some parent ∧ scopeOf parent ∈ scope

theorem Placed.mono {scope scope' : List (String × Option String)} {t : Located}
    (h : Placed scope t) (hsub : scope ⊆ scope') : Placed scope' t := by
  rcases h with ⟨hroot, hmem, hplain⟩ | ⟨parent, hparent, hmem⟩
  · exact Or.inl ⟨hroot, hsub hmem, hplain⟩
  · exact Or.inr ⟨parent, hparent, hsub hmem⟩

/-- The children of a table that is placed are placed, when it is inlined or in the
scope. -/
theorem Placed.children
    {scope : List (String × Option String)} {t : Located} (h : Placed scope t)
    (ht : t.table.inline = false → scopeOf t.table ∈ scope) {shape : Option Shape}
    {x : Located × Option Shape} (hx : x ∈ selectedChildren t shape) :
    Placed scope x.1 := by
  obtain ⟨child, -, hx⟩ := List.mem_filterMap.mp hx
  obtain ⟨shape', -, rfl⟩ := Option.map_eq_some_iff.mp hx
  refine Or.inr ?_
  cases hinline : t.table.inline with
  | false => exact ⟨t.table, by simp [getNonInlinedTable, hinline], ht hinline⟩
  | true =>
      rcases h with ⟨-, -, hplain, -⟩ | ⟨parent, hparent, hmem⟩
      · rw [hinline] at hplain
        cases hplain
      · refine ⟨parent, ?_, hmem⟩
        rw [← hparent, getNonInlinedTable, getNonInlinedTable,
          List.find?_cons_of_neg (by simp [hinline])]

/-- What is joined for one table. -/
theorem selectTable_cases
    {t : Located} {shape : Option Shape} {s : Selected} (h : selectTable t shape = .ok s) :
    (t.table.referencedInArray = true ∧ s.joins = [t.join] ∧ s.groupByParentId = true) ∨
      t.table.referencedInArray = false ∧
        ((t.table.inline = false ∧ t.ancestors ≠ [] ∧ s.joins = [t.join]) ∨
          ((t.table.inline = true ∨ t.ancestors = []) ∧ s.joins = [])) := by
  rw [selectTable] at h
  split at h
  · rename_i harray
    rw [Lib.Results.bind_eq_ok_iff] at h
    obtain ⟨fields, -, h⟩ := h
    obtain rfl := (Except.ok.inj h).symm
    exact Or.inl ⟨harray, rfl, rfl⟩
  · rename_i harray
    rw [Bool.not_eq_true] at harray
    refine Or.inr ⟨harray, ?_⟩
    split at h
    · rename_i hinline
      rw [Lib.Results.bind_eq_ok_iff] at h
      obtain ⟨fields, -, h⟩ := h
      obtain rfl := (Except.ok.inj h).symm
      by_cases hroot : t.ancestors = []
      · exact Or.inr ⟨Or.inr hroot, by simp [hroot]⟩
      · exact Or.inl ⟨by simpa using hinline, hroot, by simp [hroot]⟩
    · rename_i hinline
      obtain rfl := (Except.ok.inj h).symm
      exact Or.inr ⟨Or.inl (by simpa using hinline), rfl⟩

theorem Placed.parent {scope : List (String × Option String)} {t : Located}
    (h : Placed scope t) (ht : t.ancestors ≠ [] ∨ t.table.referencedInArray = true) :
    ∃ parent, t.join.parent = some parent ∧ parent ∈ scope := by
  rcases h with ⟨hroot, -, -, harray⟩ | ⟨parent, hparent, hmem⟩
  · rcases ht with ht | ht
    · exact absurd hroot ht
    · rw [harray] at ht
      cases ht
  · refine ⟨scopeOf parent, ?_, hmem⟩
    rw [Located.join, hparent]
    rfl

/-- Each table is joined after the one that its rows refer to. -/
theorem inScope_selectAll
    {stack : List (Located × Option Shape)} {scope : List (String × Option String)}
    {s : Selected} (h : selectAll stack = .ok s) (hplaced : ∀ x ∈ stack, Placed scope x.1) :
    inScope scope s.joins = true := by
  induction stack using selectAll.induct generalizing scope s with
  | case1 =>
      rw [selectAll] at h
      obtain rfl := (Except.ok.inj h).symm
      rfl
  | case2 t shape stack ih =>
      rw [selectAll, Lib.Results.bind_eq_ok_iff] at h
      obtain ⟨first, hfirst, h⟩ := h
      rw [Lib.Results.bind_eq_ok_iff] at h
      obtain ⟨rest, hrest, h⟩ := h
      obtain rfl := (Except.ok.inj h).symm
      rw [List.forall_mem_cons] at hplaced
      have hjoined : (t.ancestors ≠ [] ∨ t.table.referencedInArray = true) →
          first.joins = [t.join] → inScope scope (first.joins ++ rest.joins) = true := by
        intro ht hjoins
        obtain ⟨parent, hparent, hmem⟩ := hplaced.1.parent ht
        rw [hjoins, List.singleton_append, inScope, hparent, Bool.and_eq_true]
        refine ⟨List.contains_iff_mem.mpr hmem, ih hrest ?_⟩
        intro x hx
        have hsub : scope ⊆ scope ++ [(t.join.table, t.join.primary)] :=
          List.subset_append_left _ _
        rcases List.mem_append.mp hx with hx | hx
        · exact (hplaced.2 x hx).mono hsub
        · refine (hplaced.1.mono hsub).children (fun _ => ?_) hx
          exact List.mem_append_right _ (List.mem_singleton_self _)
      rw [Selected.append]
      rcases selectTable_cases hfirst with ⟨harray, hjoins, -⟩ |
        ⟨-, ⟨-, hroot, hjoins⟩ | ⟨hnone, hjoins⟩⟩
      · exact hjoined (Or.inr harray) hjoins
      · exact hjoined (Or.inl hroot) hjoins
      · rw [hjoins, List.nil_append]
        refine ih (s := rest) hrest ?_
        intro x hx
        rcases List.mem_append.mp hx with hx | hx
        · exact hplaced.2 x hx
        · refine hplaced.1.children (fun hinline => ?_) hx
          rcases hplaced.1 with ⟨-, hmem, -⟩ | ⟨parent, hparent, -⟩
          · exact hmem
          · rcases hnone with htrue | hroot
            · rw [hinline] at htrue
              cases htrue
            · rw [hroot] at hparent
              cases hparent

/-- The joined tables are below that of the documents, and when nothing is grouped they
are not of elements. -/
theorem mem_joins_selectAll
    {root : Table} (hroot : root.referencedInArray = false)
    {stack : List (Located × Option Shape)} {s : Selected} (h : selectAll stack = .ok s)
    (hinside : ∀ x ∈ stack, Inside root x.1) {j : Join} (hj : j ∈ s.joins) :
    ∃ t ∈ Table.allOf root.children, t.name = j.table ∧
      (s.groupByParentId = false → t.inline = false ∧ t.referencedInArray = false) := by
  induction stack using selectAll.induct generalizing s with
  | case1 =>
      rw [selectAll] at h
      obtain rfl := (Except.ok.inj h).symm
      cases hj
  | case2 t shape stack ih =>
      rw [selectAll, Lib.Results.bind_eq_ok_iff] at h
      obtain ⟨first, hfirst, h⟩ := h
      rw [Lib.Results.bind_eq_ok_iff] at h
      obtain ⟨rest, hrest, h⟩ := h
      obtain rfl := (Except.ok.inj h).symm
      rw [List.forall_mem_cons] at hinside
      rcases List.mem_append.mp hj with hj | hj
      · rcases selectTable_cases hfirst with ⟨harray, hjoins, hgroup⟩ |
          ⟨harray, ⟨hinline, hancestors, hjoins⟩ | ⟨-, hjoins⟩⟩
        · rw [hjoins, List.mem_singleton] at hj
          subst hj
          rcases hinside.1.cases_root with hat | ⟨-, hmem⟩
          · have htable : t.table = root := congrArg Located.table hat
            rw [htable, hroot] at harray
            cases harray
          · refine ⟨t.table, hmem, rfl, fun hnot => ?_⟩
            simp [Selected.append, hgroup] at hnot
        · rw [hjoins, List.mem_singleton] at hj
          subst hj
          rcases hinside.1.cases_root with hat | ⟨-, hmem⟩
          · exact absurd (congrArg Located.ancestors hat) hancestors
          · exact ⟨t.table, hmem, rfl, fun _ => ⟨hinline, harray⟩⟩
        · rw [hjoins] at hj
          cases hj
      · have hall : ∀ x ∈ stack ++ selectedChildren t shape, Inside root x.1 := by
          intro x hx
          rcases List.mem_append.mp hx with hx | hx
          · exact hinside.2 x hx
          · exact hinside.1.selectedChildren hx
        obtain ⟨table, hmem, hname, hplain⟩ := ih hrest hall hj
        refine ⟨table, hmem, hname, fun hnot => hplain ?_⟩
        exact (Bool.or_eq_false_iff.mp hnot).2

theorem selectAll_of_selected
    {table : Table} {shape : Option Shape} {s : Selected}
    (h : selectAllFieldsFromTable table shape = .ok s) :
    selectAll [({ table, ancestors := [] }, shape)] = .ok s := by
  rw [selectAllFieldsFromTable, Lib.Results.bind_eq_ok_iff] at h
  obtain ⟨s', hs', h⟩ := h
  split at h
  · cases h
  · obtain rfl := Except.ok.inj h
    exact hs'

theorem inScope_selected
    {table : Table} (hinline : table.inline = false) (harray : table.referencedInArray = false)
    {shape : Option Shape} {s : Selected}
    (h : selectAllFieldsFromTable table shape = .ok s) :
    inScope [scopeOf table] s.joins = true := by
  refine inScope_selectAll (selectAll_of_selected h) ?_
  rw [List.forall_mem_singleton]
  exact Or.inl ⟨rfl, List.mem_singleton_self _, hinline, harray⟩

theorem single_of_selected
    {table : Table} (harray : table.referencedInArray = false) {shape : Option Shape}
    {s : Selected} (h : selectAllFieldsFromTable table shape = .ok s) {j : Join}
    (hj : j ∈ s.joins) :
    ∃ t ∈ Table.allOf table.children, t.name = j.table ∧
      (s.groupByParentId = false → t.inline = false ∧ t.referencedInArray = false) := by
  refine mem_joins_selectAll harray (selectAll_of_selected h) ?_ hj
  rw [List.forall_mem_singleton]
  exact Inside.root

end Indexer
end Peerbit
