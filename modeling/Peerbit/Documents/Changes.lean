import Peerbit.Documents.Store
import Peerbit.Log.PutStep

/-!
# What handling a change does to the rows

A change lists an added entry and the entries that leave the log with it.  The
row of a document is written when the added entry puts it and stays; it is
deleted when the change lists any other entry of the document; and it is left
alone when the change lists none.
-/

namespace Peerbit
namespace Documents

open Log

section Changes

variable {K D I : Type}

/-- The document that the operation of an entry is about. -/
def keyOf (options : DocumentsOptions K D I) (e : Entry (Operation K D)) : K :=
  match e.payload with
  | .put data => options.idResolver data
  | .delete key => key

/-- The entry puts the document. -/
def Puts (options : DocumentsOptions K D I) (key : K)
    (e : Entry (Operation K D)) : Prop :=
  ∃ data, e.payload = .put data ∧ options.idResolver data = key

/-- Entries with the same hash are the same. -/
def Content {α : Type} (U : Entry α → Prop) : Prop :=
  ∀ e f, U e → U f → e.hash = f.hash → e = f

variable [DecidableEq K] {options : DocumentsOptions K D I}
variable {U : Entry (Operation K D) → Prop}

/-! ### Rows -/

theorem DocumentsState.row_congr {s t : DocumentsState K D I}
    (h : s.rows = t.rows) (k : K) : s.row k = t.row k := by
  unfold DocumentsState.row
  rw [h]

theorem DocumentsState.row_del_self (s : DocumentsState K D I) (k : K) :
    (s.del k).row k = none := by
  unfold DocumentsState.del DocumentsState.row
  rw [Option.map_eq_none_iff, List.find?_eq_none]
  intro r hr
  simpa using (List.mem_filter.mp hr).2

theorem find?_filter_ne {β : Type} (rows : List (K × β)) {k j : K}
    (h : k ≠ j) :
    (rows.filter (fun r => r.1 ≠ j)).find? (fun r => r.1 = k) =
      rows.find? (fun r => r.1 = k) := by
  rw [List.find?_filter]
  congr 1
  funext r
  by_cases hk : r.1 = k
  · simp [hk, h]
  · simp [hk]

theorem DocumentsState.row_del_of_ne (s : DocumentsState K D I) {k j : K}
    (h : k ≠ j) : (s.del j).row k = s.row k := by
  unfold DocumentsState.del DocumentsState.row
  rw [find?_filter_ne _ h]

/-- The head of a row is a put entry of its document. -/
def HeadPuts (options : DocumentsOptions K D I)
    (U : Entry (Operation K D) → Prop) (key : K) (row : IndexedDocument I)
    (f : Entry (Operation K D)) : Prop :=
  U f ∧ Puts options key f ∧ f.hash = row.context.head

/-- What the loop does to the rows of the documents that it did not modify
before, when the items it goes on with are deletes and removed puts. -/
structure Cleared (options : DocumentsOptions K D I)
    (items : List (Entry (Operation K D))) (l l' : ChangesLoop K D I) :
    Prop where
  reads : Reads l.entryIndex l'.entryIndex
  modified : ∀ k ∈ l.modified, l'.app.row k = l.app.row k
  listed : ∀ k ∉ l.modified, (∃ f ∈ items, keyOf options f = k) →
    l'.app.row k = none
  other : ∀ k ∉ l.modified, (∀ f ∈ items, keyOf options f ≠ k) →
    l'.app.row k = l.app.row k

/-- The loop goes on after it skipped an item of a modified document. -/
theorem Cleared.skip
    {item : Entry (Operation K D)} {items : List (Entry (Operation K D))}
    {l l' : ChangesLoop K D I} (h : Cleared options items l l')
    (hitem : keyOf options item ∈ l.modified) :
    Cleared options (item :: items) l l' where
  reads := h.reads
  modified := h.modified
  listed := by
    rintro k hk ⟨f, hf, rfl⟩
    rcases List.mem_cons.mp hf with rfl | hf
    · exact absurd hitem hk
    · exact h.listed _ hk ⟨f, hf, rfl⟩
  other k hk hnone :=
    h.other k hk (fun f hf => hnone f (List.mem_cons_of_mem _ hf))

/-- The loop goes on after it deleted the row of the document of an item. -/
theorem Cleared.delete
    {item : Entry (Operation K D)} {items : List (Entry (Operation K D))}
    {l l' : ChangesLoop K D I} {index : EntryIndex (Operation K D)}
    {app : DocumentsState K D I} (hrows : app.rows = l.app.rows) (hreads : Reads l.entryIndex index)
    (hitem : keyOf options item ∉ l.modified)
    (h : Cleared options items
      { app := app.del (keyOf options item), entryIndex := index
        modified := keyOf options item :: l.modified } l') :
    Cleared options (item :: items) l l' where
  reads := hreads.trans h.reads
  modified := by
    intro k hk
    have hne : k ≠ keyOf options item := by
      rintro rfl
      exact hitem hk
    rw [h.modified k (List.mem_cons_of_mem _ hk)]
    exact (DocumentsState.row_del_of_ne app hne).trans
      (DocumentsState.row_congr hrows k)
  listed := by
    intro k hk hlisted
    by_cases hkey : k = keyOf options item
    · rw [hkey, h.modified _ List.mem_cons_self]
      exact DocumentsState.row_del_self app _
    · refine h.listed k (by simp [hkey, hk]) ?_
      obtain ⟨f, hf, hfk⟩ := hlisted
      rcases List.mem_cons.mp hf with rfl | hf
      · exact absurd hfk.symm hkey
      · exact ⟨f, hf, hfk⟩
  other := by
    intro k hk hnone
    have hne : k ≠ keyOf options item :=
      fun heq => hnone item List.mem_cons_self heq.symm
    rw [h.other k (by simp [hne, hk])
      (fun f hf => hnone f (List.mem_cons_of_mem _ hf))]
    exact (DocumentsState.row_del_of_ne app hne).trans
      (DocumentsState.row_congr hrows k)

/-- The loop goes on after it found no row of the document of an item. -/
theorem Cleared.missing
    {item : Entry (Operation K D)} {items : List (Entry (Operation K D))}
    {l l' : ChangesLoop K D I} {index : EntryIndex (Operation K D)}
    {app : DocumentsState K D I} (hrows : app.rows = l.app.rows)
    (hreads : Reads l.entryIndex index)
    (hgone : (∀ f ∈ items, keyOf options f ≠ keyOf options item) →
      l.app.row (keyOf options item) = none)
    (h : Cleared options items { l with app := app, entryIndex := index } l') :
    Cleared options (item :: items) l l' where
  reads := hreads.trans h.reads
  modified k hk := (h.modified k hk).trans (DocumentsState.row_congr hrows k)
  listed := by
    intro k hk hlisted
    by_cases hrest : ∃ f ∈ items, keyOf options f = k
    · exact h.listed k hk hrest
    · -- only the item is of the document
      obtain ⟨f, hf, rfl⟩ := hlisted
      rcases List.mem_cons.mp hf with rfl | hf
      · have hothers : ∀ f' ∈ items, keyOf options f' ≠ keyOf options f :=
          fun f' hf' hkey => hrest ⟨f', hf', hkey⟩
        rw [h.other _ hk hothers]
        exact (DocumentsState.row_congr hrows _).trans (hgone hothers)
      · exact absurd ⟨f, hf, rfl⟩ hrest
  other := by
    intro k hk hnone
    rw [h.other k hk (fun f hf => hnone f (List.mem_cons_of_mem _ hf))]
    exact DocumentsState.row_congr hrows k

/-- The added entry puts the document and stays. -/
def Keeps (options : DocumentsOptions K D I) (change : Change (Operation K D))
    (k : K) : Prop :=
  ∃ e ∈ change.added.map Prod.snd,
    Puts options k e ∧ e.hash ∉ removedHashes change

/-- The change lists an entry of the document. -/
def Lists (options : DocumentsOptions K D I) (U : Entry (Operation K D) → Prop)
    (change : Change (Operation K D)) (k : K) : Prop :=
  ∃ f, (f ∈ change.added.map Prod.snd ∨ U f ∧ f.hash ∈ removedHashes change) ∧
    keyOf options f = k

/-- What the handler does to the rows. -/
structure Handled (options : DocumentsOptions K D I)
    (U : Entry (Operation K D) → Prop) (change : Change (Operation K D))
    (e : Entry (Operation K D)) (s s' : DocumentsState K D I) : Prop where
  kept : ∀ k, Keeps options change k →
    ∃ row, s'.row k = some row ∧ row.context.head = e.hash
  listed : ∀ k, ¬ Keeps options change k → Lists options U change k →
    s'.row k = none
  other : ∀ k, ¬ Lists options U change k → s'.row k = s.row k

end Changes

end Documents
end Peerbit
