import Mathlib.Data.List.Nodup

/-!
# Trees of rows in one list

A row names the row that it belongs to by a key.  When no two rows have the same
key, the rows that name a row are its children in the tree.
-/

namespace Peerbit
namespace Lib
namespace RowTrees

universe u

inductive Node (α : Type u) where
  | node (row : α) (children : List (Node α))

section

variable {α : Type u} {κ : Type}

def Node.row : Node α → α
  | .node row _ => row

def Node.children : Node α → List (Node α)
  | .node _ children => children

mutual

/-- The rows of a tree, a row before the rows below it. -/
def Node.rows : Node α → List α
  | .node row children => row :: rowsOf children

def rowsOf : List (Node α) → List α
  | [] => []
  | node :: nodes => node.rows ++ rowsOf nodes

end

section Linked

variable (key : α → κ) (parent : α → Option κ)

mutual

/-- Every row below another names its parent. -/
def Node.Linked : Node α → Prop
  | .node row children => LinkedOf (key row) children

def LinkedOf (k : κ) : List (Node α) → Prop
  | [] => True
  | node :: nodes => parent node.row = some k ∧ node.Linked ∧ LinkedOf k nodes

end

variable [DecidableEq κ]

mutual

/-- The rows of a list that name a row of the tree are its children. -/
def Node.Served (all : List α) : Node α → Prop
  | .node row children =>
      all.filter (fun r => decide (parent r = some (key row))) =
          children.map Node.row ∧
        ServedOf all children

def ServedOf (all : List α) : List (Node α) → Prop
  | [] => True
  | node :: nodes => node.Served all ∧ ServedOf all nodes

end

end Linked

theorem row_mem_rows (node : Node α) : node.row ∈ node.rows := by
  cases node
  exact List.mem_cons_self

theorem mem_rowsOf {r : α} {nodes : List (Node α)} :
    r ∈ rowsOf nodes ↔ ∃ node ∈ nodes, r ∈ node.rows := by
  induction nodes with
  | nil => simp [rowsOf]
  | cons node nodes ih => simp [rowsOf, ih]

variable {key : α → κ} {parent : α → Option κ}

theorem linkedOf_iff {k : κ} {nodes : List (Node α)} :
    LinkedOf key parent k nodes ↔
      ∀ node ∈ nodes, parent node.row = some k ∧ node.Linked key parent := by
  induction nodes with
  | nil => simp [LinkedOf]
  | cons node nodes ih => simp [LinkedOf, ih, and_assoc]

mutual

/-- Below the root of a tree a row names a row of the tree. -/
theorem Node.parent_mem :
    (node : Node α) → node.Linked key parent → ∀ r ∈ node.rows,
      r = node.row ∨ ∃ p ∈ node.rows, parent r = some (key p)
  | .node row children, h, r, hr => by
      rcases List.mem_cons.mp hr with rfl | hr
      · exact .inl rfl
      · rcases parent_mem_of children h r hr with hk | ⟨p, hp, hparent⟩
        · exact .inr ⟨row, List.mem_cons_self, hk⟩
        · exact .inr ⟨p, List.mem_cons_of_mem _ hp, hparent⟩

theorem parent_mem_of {k : κ} :
    (nodes : List (Node α)) → LinkedOf key parent k nodes → ∀ r ∈ rowsOf nodes,
      parent r = some k ∨ ∃ p ∈ rowsOf nodes, parent r = some (key p)
  | [], _, r, hr => absurd hr List.not_mem_nil
  | node :: nodes, h, r, hr => by
      obtain ⟨hparent, hnode, hnodes⟩ := h
      rcases List.mem_append.mp hr with hr | hr
      · rcases node.parent_mem hnode r hr with rfl | ⟨p, hp, hr⟩
        · exact .inl hparent
        · exact .inr ⟨p, List.mem_append_left _ hp, hr⟩
      · rcases parent_mem_of nodes hnodes r hr with hk | ⟨p, hp, hr⟩
        · exact .inl hk
        · exact .inr ⟨p, List.mem_append_right _ hp, hr⟩

end

variable [DecidableEq κ]

theorem servedOf_iff {all : List α} {nodes : List (Node α)} :
    ServedOf key parent all nodes ↔
      ∀ node ∈ nodes, node.Served key parent all := by
  induction nodes with
  | nil => simp [ServedOf]
  | cons node nodes ih => simp [ServedOf, ih]

/-- Among the rows of some trees, the roots are the ones that name the row above
them. -/
theorem filter_rowsOf {k : κ} {nodes : List (Node α)}
    (h : LinkedOf key parent k nodes) (hk : ∀ p ∈ rowsOf nodes, key p ≠ k) :
    (rowsOf nodes).filter (fun r => decide (parent r = some k)) =
      nodes.map Node.row := by
  induction nodes with
  | nil => rfl
  | cons node nodes ih =>
      obtain ⟨hparent, hnode, hnodes⟩ := h
      have hrest := ih hnodes fun p hp => hk p (List.mem_append_right _ hp)
      have hfirst : node.rows.filter (fun r => decide (parent r = some k)) =
          [node.row] := by
        cases node with
        | node row children =>
            change (row :: rowsOf children).filter _ = [row]
            have hrow : decide (parent row = some k) = true :=
              decide_eq_true hparent
            rw [List.filter_cons_of_pos
              (p := fun r => decide (parent r = some k)) hrow]
            refine congrArg (row :: ·) (List.filter_eq_nil_iff.mpr ?_)
            intro r hr hrk
            have hrk : parent r = some k := of_decide_eq_true hrk
            have hmem : ∀ p ∈ rowsOf children,
                p ∈ rowsOf (Node.node row children :: nodes) :=
              fun p hp => List.mem_append_left _ (List.mem_cons_of_mem _ hp)
            rcases parent_mem_of children hnode r hr with hrow | ⟨p, hp, hrow⟩
            · refine hk row (List.mem_append_left _ List.mem_cons_self) ?_
              exact Option.some.inj (hrow.symm.trans hrk)
            · exact hk p (hmem p hp) (Option.some.inj (hrow.symm.trans hrk))
      change (node.rows ++ rowsOf nodes).filter _ = _
      rw [List.filter_append, hfirst, hrest]
      rfl

mutual

theorem Node.served_in {all : List α} (before after : List α) :
    (node : Node α) → node.Linked key parent →
      all = before ++ node.rows ++ after → (node.rows.map key).Nodup →
      (∀ r ∈ before ++ after, ∀ p ∈ node.rows, parent r ≠ some (key p)) →
      (∀ p ∈ node.rows, parent node.row ≠ some (key p)) →
      node.Served key parent all
  | .node row children, h, hall, hkeys, hout, hroot => by
      have hkey : ∀ p ∈ rowsOf children, key p ≠ key row := by
        intro p hp heq
        refine (List.nodup_cons.mp hkeys).1 ?_
        exact heq ▸ List.mem_map_of_mem hp
      have hself : row ∈ (Node.node row children).rows := List.mem_cons_self
      have hnone : ∀ rows : List α, (∀ r ∈ rows, r ∈ before ++ after) →
          rows.filter (fun r => decide (parent r = some (key row))) = [] := by
        intro rows hrows
        refine List.filter_eq_nil_iff.mpr ?_
        intro r hr hrk
        exact hout r (hrows r hr) row hself (of_decide_eq_true hrk)
      refine ⟨?_, ?_⟩
      · rw [hall, List.filter_append, List.filter_append,
          hnone before (fun r hr => List.mem_append_left _ hr),
          hnone after (fun r hr => List.mem_append_right _ hr),
          List.nil_append, List.append_nil]
        change (row :: rowsOf children).filter _ = _
        have hrow : ¬ decide (parent row = some (key row)) = true :=
          fun hrk => hroot row hself (of_decide_eq_true hrk)
        rw [List.filter_cons_of_neg
          (p := fun r => decide (parent r = some (key row))) hrow]
        exact filter_rowsOf h hkey
      · refine served_in_of (before ++ [row]) after
          children h ?_ (List.nodup_cons.mp hkeys).2 ?_ hkey
        · rw [hall]
          simp [Node.rows]
        · intro r hr p hp
          have hp' : p ∈ (Node.node row children).rows :=
            List.mem_cons_of_mem _ hp
          rcases List.mem_append.mp hr with hr | hr
          · rcases List.mem_append.mp hr with hr | hr
            · exact hout r (List.mem_append_left _ hr) p hp'
            · rw [List.mem_singleton.mp hr]
              exact hroot p hp'
          · exact hout r (List.mem_append_right _ hr) p hp'

theorem served_in_of {k : κ} {all : List α} (before after : List α) :
    (nodes : List (Node α)) → LinkedOf key parent k nodes →
      all = before ++ rowsOf nodes ++ after → ((rowsOf nodes).map key).Nodup →
      (∀ r ∈ before ++ after, ∀ p ∈ rowsOf nodes, parent r ≠ some (key p)) →
      (∀ p ∈ rowsOf nodes, key p ≠ k) → ServedOf key parent all nodes
  | [], _, _, _, _, _ => trivial
  | node :: nodes, h, hall, hkeys, hout, hk => by
      obtain ⟨hparent, hnode, hnodes⟩ := h
      change ((node.rows ++ rowsOf nodes).map key).Nodup at hkeys
      rw [List.map_append, List.nodup_append] at hkeys
      obtain ⟨hfirst, hrest, hapart⟩ := hkeys
      have hleft : ∀ p ∈ node.rows, p ∈ rowsOf (node :: nodes) :=
        fun p hp => List.mem_append_left _ hp
      have hright : ∀ p ∈ rowsOf nodes, p ∈ rowsOf (node :: nodes) :=
        fun p hp => List.mem_append_right _ hp
      have hne : ∀ p ∈ node.rows, ∀ q ∈ rowsOf nodes, key p ≠ key q :=
        fun p hp q hq => hapart _ (List.mem_map_of_mem hp) _
          (List.mem_map_of_mem hq)
      refine ⟨?_, ?_⟩
      · refine Node.served_in before (rowsOf nodes ++ after)
          node hnode ?_ hfirst ?_ ?_
        · rw [hall]
          simp [rowsOf]
        · intro r hr p hp hrp
          rcases List.mem_append.mp hr with hr | hr
          · exact hout r (List.mem_append_left _ hr) p (hleft p hp) hrp
          · rcases List.mem_append.mp hr with hr | hr
            · rcases parent_mem_of nodes hnodes r hr with hrk | ⟨q, hq, hrq⟩
              · exact hk p (hleft p hp) (Option.some.inj (hrp.symm.trans hrk))
              · exact hne p hp q hq (Option.some.inj (hrp.symm.trans hrq))
            · exact hout r (List.mem_append_right _ hr) p (hleft p hp) hrp
        · intro p hp hrp
          exact hk p (hleft p hp) (Option.some.inj (hrp.symm.trans hparent))
      · refine served_in_of (before ++ node.rows) after
          nodes hnodes ?_ hrest ?_ (fun p hp => hk p (hright p hp))
        · rw [hall]
          simp [rowsOf]
        · intro r hr p hp hrp
          rcases List.mem_append.mp hr with hr | hr
          · rcases List.mem_append.mp hr with hr | hr
            · exact hout r (List.mem_append_left _ hr) p (hright p hp) hrp
            · rcases node.parent_mem hnode r hr with rfl | ⟨q, hq, hrq⟩
              · exact hk p (hright p hp)
                  (Option.some.inj (hrp.symm.trans hparent))
              · exact hne q hq p hp (Option.some.inj (hrq.symm.trans hrp))
          · exact hout r (List.mem_append_right _ hr) p (hright p hp) hrp

end

/-- When the keys of a tree are different, the rows that name a row of it are
its children. -/
theorem Node.served {node : Node α} (h : node.Linked key parent)
    (hkeys : (node.rows.map key).Nodup) (hroot : parent node.row = none) :
    node.Served key parent node.rows := by
  refine Node.served_in [] []
    node h (by simp) hkeys (by simp) ?_
  intro p _ hp
  rw [hroot] at hp
  cases hp

end

end RowTrees
end Lib
end Peerbit
