import Mathlib.Algebra.BigOperators.Group.List.Basic
import Peerbit.RatelessIblt.Encoder

/-!
# Removed symbols

`remove_symbol` takes a symbol out of the encoder: its place in the list of symbols and in
that of the mappings, and the entry of the queue that points to it.  The entries behind it
are renumbered, and the queue is made a heap again.

That keeps the encoder as it has to be, whatever has been produced before
(`Queued.removeSymbol`).  Before the first coded symbol it does more: all entries of the
queue are at index zero then, so that none is moved, and the encoder is the one to which
the removed symbol has never been added (`edited_eq`).
-/

namespace Peerbit
namespace RatelessIblt

open Lib

universe u v

/-! ### Erasing from the end -/

section Erasing

variable {α : Type u} {β : Type v} {p : α → Bool} {f : α → β}

/-- Erasing the elements that have been marked, the last one first. -/
theorem foldr_eraseIdx_findIdxs (l : List α) (front : List β) :
    (l.findIdxs p front.length).foldr (fun i m => m.eraseIdx i) (front ++ l.map f) =
      front ++ (l.filter (fun a => !p a)).map f := by
  induction l generalizing front with
  | nil => simp
  | cons a l ih =>
      have hfront := ih (front ++ [f a])
      rw [List.length_append, List.length_singleton, List.append_assoc,
        List.singleton_append] at hfront
      rw [List.findIdxs_cons, List.map_cons]
      cases hmarked : p a with
      | true =>
          rw [if_pos rfl, List.foldr_cons, hfront, List.append_assoc, List.singleton_append,
            List.eraseIdx_append_of_length_le (Nat.le_refl _), Nat.sub_self,
            List.eraseIdx_cons_zero, List.filter_cons_of_neg (by simp [hmarked])]
      | false =>
          rw [if_neg Bool.false_ne_true, hfront, List.append_assoc, List.singleton_append,
            List.filter_cons_of_pos (by simp [hmarked]), List.map_cons]

theorem zip_eraseIdx (l : List α) (m : List β) (i : Nat) :
    (l.eraseIdx i).zip (m.eraseIdx i) = (l.zip m).eraseIdx i := by
  induction l generalizing m i with
  | nil => simp
  | cons a l ih =>
      cases m with
      | nil => simp
      | cons b m =>
          cases i with
          | zero => rfl
          | succ i => simp [ih]

end Erasing

namespace SymbolMapping

/-- An entry behind the removed symbol points one place further to the front. -/
def renumber (pos : Nat) (sm : SymbolMapping) : SymbolMapping :=
  if pos < sm.sourceIdx then { sm with sourceIdx := sm.sourceIdx - 1 } else sm

@[simp] theorem codedIdx_renumber (pos : Nat) (sm : SymbolMapping) :
    (sm.renumber pos).codedIdx = sm.codedIdx := by
  rw [renumber]
  split <;> rfl

theorem sourceIdx_renumber (pos : Nat) (sm : SymbolMapping) :
    (sm.renumber pos).sourceIdx =
      if pos < sm.sourceIdx then sm.sourceIdx - 1 else sm.sourceIdx := by
  rw [renumber]
  split <;> rfl

end SymbolMapping

namespace Encoder

section Removal

variable {T : Type u}

/-- The entries that point to the removed symbol are collected, the others are adjusted,
and what was collected is removed in reverse order. -/
def withoutSource (pos : Nat) (queue : Array SymbolMapping) : Array SymbolMapping :=
  let indicesToRemove := queue.toList.findIdxs (fun sm => sm.sourceIdx == pos)
  indicesToRemove.foldr (fun i queue => queue.eraseIdxIfInBounds i)
    (queue.map (SymbolMapping.renumber pos))

/-- `build_queue_heap`; `heapify_down` is `siftDown`. -/
def buildQueueHeap (e : Encoder T) : Encoder T :=
  { e with queue := Heaps.buildHeap SymbolMapping.codedIdx e.queue }

/-- The symbol at a position is removed. -/
def removeAt (e : Encoder T) (pos : Nat) : Encoder T :=
  buildQueueHeap
    { e with
      symbols := e.symbols.eraseIdx pos
      mappings := e.mappings.eraseIdx pos
      queue := withoutSource pos e.queue }

/-- When the symbol is not found, nothing but a line of text comes of it. -/
def removeSymbol [Symbol T] [DecidableEq T] (e : Encoder T) (sym : T) : Encoder T :=
  match e.symbols.findIdx? (fun s => s.hash == Symbol.hash sym && s.symbol == sym) with
  | some pos => e.removeAt pos
  | none => e

end Removal

/-! ### Removal at any time -/

section Queues

variable {T : Type u} {P : HashedSymbol T × RandomMapping → Prop} {e : Encoder T}
variable {pos : Nat}

theorem toList_withoutSource (pos : Nat) (queue : Array SymbolMapping) :
    (withoutSource pos queue).toList =
      (queue.toList.filter (fun sm => !(sm.sourceIdx == pos))).map
        (SymbolMapping.renumber pos) := by
  have htoList : ∀ (indices : List Nat) (q : Array SymbolMapping),
      (indices.foldr (fun i q => q.eraseIdxIfInBounds i) q).toList =
        indices.foldr (fun i m => m.eraseIdx i) q.toList := by
    intro indices q
    induction indices with
    | nil => rfl
    | cons i indices ih => rw [List.foldr_cons, Array.toList_eraseIdxIfInBounds, ih]; rfl
  rw [withoutSource, htoList, Array.toList_map]
  exact foldr_eraseIdx_findIdxs queue.toList []

/-- An entry that is left, and the one that it was. -/
theorem mem_withoutSource {q : SymbolMapping} {queue : Array SymbolMapping} :
    q ∈ (withoutSource pos queue).toList ↔
      ∃ q' ∈ queue.toList, q'.sourceIdx ≠ pos ∧ q'.renumber pos = q := by
  rw [toList_withoutSource, List.mem_map]
  simp only [List.mem_filter, Bool.not_eq_true', beq_eq_false_iff_ne, and_assoc]

/-- The places of the other symbols, after the removal. -/
theorem renumbered_range {n : Nat} (hpos : pos < n) :
    ((List.range n).filter (fun i => !(i == pos))).map
      (fun i => if pos < i then i - 1 else i) = List.range (n - 1) := by
  induction n with
  | zero => exact absurd hpos (Nat.not_lt_zero _)
  | succ n ih =>
      rw [List.range_succ, List.filter_append, List.map_append]
      rcases Nat.lt_succ_iff_lt_or_eq.mp hpos with hlt | rfl
      · have hlast : List.range n = List.range (n - 1) ++ [n - 1] := by
          rw [← List.range_succ, Nat.succ_eq_add_one, Nat.sub_add_cancel (by omega)]
        have hne : ¬ n = pos := by omega
        rw [ih hlt, Nat.add_sub_cancel, hlast]
        simp [hne, hlt]
      · have hall : (List.range pos).filter (fun i => !(i == pos)) = List.range pos := by
          refine List.filter_eq_self.mpr fun i hi => ?_
          have hlt := List.mem_range.mp hi
          simp
          omega
        have hsame : (List.range pos).map (fun i => if pos < i then i - 1 else i) =
            (List.range pos).map id := by
          refine List.map_congr_left fun i hi => ?_
          have hlt := List.mem_range.mp hi
          rw [if_neg (by omega), id]
        rw [hall, hsame, List.map_id, Nat.add_sub_cancel]
        simp

/-- Removing a symbol keeps the queue a heap with an entry for every symbol. -/
theorem Queued.removeAt (h : Queued P e) (hpos : pos < e.symbols.length) :
    Queued P (e.removeAt pos) := by
  have hperm := Heaps.buildHeap_perm SymbolMapping.codedIdx (withoutSource pos e.queue)
  constructor
  case lengths =>
    simp only [Encoder.removeAt, buildQueueHeap, List.length_eraseIdx, h.lengths]
  case heap => exact Heaps.isHeap_buildHeap _ _
  case sources =>
    have hsources := (h.sources.filter (fun i => !(i == pos))).map
      (fun i => if pos < i then i - 1 else i)
    rw [renumbered_range hpos] at hsources
    refine (hperm.map _).trans ?_
    rw [toList_withoutSource, List.map_map]
    simp only [Encoder.removeAt, buildQueueHeap, List.length_eraseIdx, hpos, if_true]
    rw [List.filter_map, List.map_map] at hsources
    refine (List.Perm.of_eq (List.map_congr_left fun sm _ => ?_)).trans hsources
    exact SymbolMapping.sourceIdx_renumber pos sm
  case idx =>
    intro q hq m hm
    obtain ⟨q', hq', hne, rfl⟩ := mem_withoutSource.mp (hperm.mem_iff.mp hq)
    rw [SymbolMapping.codedIdx_renumber]
    refine h.idx q' hq' m ?_
    simp only [Encoder.removeAt, buildQueueHeap] at hm
    rw [SymbolMapping.sourceIdx_renumber, List.getElem?_eraseIdx] at hm
    by_cases hlt : pos < q'.sourceIdx
    · rw [if_pos hlt, if_neg (by omega), Nat.sub_add_cancel (by omega)] at hm
      exact hm
    · rwa [if_neg hlt, if_pos (by omega)] at hm
  case all =>
    intro p hp
    refine h.all p ?_
    simp only [Encoder.removeAt, buildQueueHeap, pairs, zip_eraseIdx] at hp
    exact List.mem_of_mem_eraseIdx hp

variable [Symbol T] [DecidableEq T]

theorem Queued.removeSymbol (h : Queued P e) (sym : T) : Queued P (e.removeSymbol sym) := by
  rw [Encoder.removeSymbol]
  split
  case h_1 pos hfound =>
    exact h.removeAt (List.findIdx?_eq_some_iff_getElem.mp hfound).1
  case h_2 => exact h

end Queues

/-! ### Producing -/

section Producing

variable {T : Type u} [Symbol T] {nextIndex : RandomMapping → RandomMapping}
variable {P : HashedSymbol T × RandomMapping → Prop} {e : Encoder T}

/-- An encoder to which these symbols were added. -/
def ofSymbols (A : List T) : Encoder T :=
  A.foldl addSymbol empty

variable (nextIndex) in
/-- The encoder when it has produced some coded symbols. -/
def afterProducing (e : Encoder T) (k : Nat) : Encoder T :=
  (fun e : Encoder T => (e.produceNextCodedSymbol nextIndex).2)^[k] e

variable (nextIndex) in
/-- The coded symbol at a position. -/
def codedSymbol (e : Encoder T) (k : Nat) : CodedSymbol T :=
  ((e.afterProducing nextIndex k).produceNextCodedSymbol nextIndex).1

theorem afterProducing_succ (e : Encoder T) (k : Nat) :
    e.afterProducing nextIndex (k + 1) =
      ((e.afterProducing nextIndex k).produceNextCodedSymbol nextIndex).2 :=
  Function.iterate_succ_apply' _ _ _

variable (nextIndex) in
/-- The loop keeps the symbols and the queue, wherever the step of the mapping leads. -/
theorem Queued.applyLoop (h : Queued (fun _ => True) e) (direction : Direction)
    (fuel : Nat) (nextSym : CodedSymbol T) :
    Queued (fun _ => True) (applyLoop nextIndex direction fuel e nextSym).2 ∧
      (Encoder.applyLoop nextIndex direction fuel e nextSym).2.symbols = e.symbols := by
  induction fuel generalizing e nextSym with
  | zero => exact ⟨h, rfl⟩
  | succ fuel ih =>
      rw [Encoder.applyLoop]
      cases hroot : e.queue[0]? with
      | none => exact ⟨h, rfl⟩
      | some root =>
          obtain ⟨sym, m, hsym, hm, -, -⟩ := h.exists_pair
            (Array.mem_toList_iff.mpr (Array.mem_of_getElem? hroot))
          simp only [hsym, hm]
          split
          · exact ih (h.advance hroot hsym trivial) _
          · exact ⟨h, rfl⟩

theorem Queued.afterProducing (h : Queued (fun _ => True) e) (k : Nat) :
    Queued (fun _ => True) (e.afterProducing nextIndex k) ∧
      (e.afterProducing nextIndex k).symbols = e.symbols := by
  induction k with
  | zero => exact ⟨h, rfl⟩
  | succ k ih =>
      rw [afterProducing_succ]
      generalize e.afterProducing nextIndex k = e' at ih
      obtain ⟨hqueued, hsymbols⟩ :=
        ih.1.applyLoop nextIndex .ADD e'.queue.size .empty
      exact ⟨⟨hqueued.lengths, hqueued.heap, hqueued.sources, hqueued.idx, hqueued.all⟩,
        hsymbols.trans ih.2⟩

variable [LawfulSymbol T]

/-- The symbols whose mappings go through the position are added up there. -/
theorem Ready.codedSymbol (hnext : Increasing nextIndex) (h : Ready nextIndex e) (k : Nat) :
    e.codedSymbol nextIndex k = mapped nextIndex e.symbols (e.nextIdx + k) := by
  have hstate : Ready nextIndex (e.afterProducing nextIndex k) ∧
      (e.afterProducing nextIndex k).symbols = e.symbols ∧
      (e.afterProducing nextIndex k).nextIdx = e.nextIdx + k := by
    induction k with
    | zero => exact ⟨h, rfl, rfl⟩
    | succ k ih =>
        obtain ⟨hready, hsymbols, hidx⟩ := ih
        obtain ⟨-, hsymbols', hidx', hready'⟩ := applyWindow_spec hnext hready .empty .ADD
        rw [afterProducing_succ]
        exact ⟨hready', hsymbols'.trans hsymbols, hidx'.trans (by rw [hidx]; rfl)⟩
  obtain ⟨hready, hsymbols, hidx⟩ := hstate
  have hsum := (applyWindow_spec hnext hready .empty .ADD).1
  rw [hsymbols, hidx] at hsum
  exact hsum.trans (zero_add _)

theorem codedSymbol_ofSymbols (hnext : Increasing nextIndex) (A : List T) (k : Nat) :
    (ofSymbols A).codedSymbol nextIndex k = mapped nextIndex (A.map hashed) k := by
  obtain ⟨hready, hzero, hsymbols⟩ :=
    foldl_addSymbol_spec A (ready_empty : Ready nextIndex (empty : Encoder T)) rfl
  rw [ofSymbols, hready.codedSymbol hnext, hsymbols, hzero, Nat.zero_add]
  rfl

theorem mapped_perm {A B : List (HashedSymbol T)} (h : A.Perm B) (i : Nat) :
    mapped nextIndex A i = mapped nextIndex B i :=
  (h.map _).sum_eq

end Producing

/-! ### Removal before the first coded symbol -/

section Edits

variable {T : Type u} [Symbol T]

/-- What this encoder is: all entries of the queue are at index zero, in the order of the
symbols. -/
def fresh (A : List T) : Encoder T where
  symbols := A.map hashed
  mappings := A.map fun a => .start (Symbol.hash a)
  queue := ((List.range A.length).map fun i => { sourceIdx := i, codedIdx := 0 }).toArray
  nextIdx := 0

/-- Entries at index zero are in order as they are. -/
theorem isHeap_fresh (A : List T) :
    Heaps.IsHeap SymbolMapping.codedIdx (fresh A).queue := by
  refine Heaps.isHeap_of_const (c := 0) fun q hq => ?_
  obtain ⟨i, -, rfl⟩ := List.mem_map.mp hq
  rfl

theorem addSymbol_fresh (A : List T) (a : T) : (fresh A).addSymbol a = fresh (A ++ [a]) := by
  have hpush : (fresh A).queue.push { sourceIdx := A.length, codedIdx := 0 } =
      (fresh (A ++ [a])).queue := by
    simp [fresh, List.range_succ]
  have hqueue : ((fresh A).addSymbol a).queue = (fresh (A ++ [a])).queue := by
    simp only [addSymbol, addHashedSymbol, addHashedSymbolWithMapping]
    rw [show (fresh A).symbols.length = A.length by simp [fresh]]
    exact (congrArg (Heaps.siftUp _ _ · _) hpush).trans
      (Heaps.siftUp_eq_self (isHeap_fresh _) (by simp [fresh]))
  simp only [addSymbol, addHashedSymbol, addHashedSymbolWithMapping] at hqueue ⊢
  rw [hqueue]
  simp [fresh, hashed]

theorem foldl_addSymbol_fresh (A B : List T) :
    A.foldl addSymbol (fresh B) = fresh (B ++ A) := by
  induction A generalizing B with
  | nil => rw [List.append_nil, List.foldl_nil]
  | cons a A ih =>
      rw [List.foldl_cons, addSymbol_fresh, ih, List.append_assoc, List.singleton_append]

theorem ofSymbols_eq (A : List T) : ofSymbols A = fresh A :=
  foldl_addSymbol_fresh A []

theorem removeAt_fresh {A : List T} {pos : Nat} (hpos : pos < A.length) :
    (fresh A).removeAt pos = fresh (A.eraseIdx pos) := by
  have hwithout : withoutSource pos (fresh A).queue = (fresh (A.eraseIdx pos)).queue := by
    refine Array.ext' ?_
    have hrange := renumbered_range hpos
    rw [toList_withoutSource]
    simp only [fresh, List.length_eraseIdx, hpos, if_true, List.filter_map, List.map_map]
    rw [← hrange, List.map_map]
    refine List.map_congr_left fun i _ => ?_
    simp only [Function.comp_apply, SymbolMapping.renumber]
    split <;> rfl
  rw [removeAt, buildQueueHeap, hwithout, Heaps.buildHeap_eq_self (isHeap_fresh _)]
  simp only [fresh, List.eraseIdx_map]

/-- The symbol that is found is the first one that is equal. -/
theorem removeSymbol_fresh [DecidableEq T] (A : List T) (sym : T) :
    (fresh A).removeSymbol sym = fresh (A.erase sym) := by
  have hfind : (fresh A).symbols.findIdx?
      (fun s => s.hash == Symbol.hash sym && s.symbol == sym) = A.findIdx? (· == sym) := by
    simp only [fresh, List.findIdx?_map]
    refine congrArg (A.findIdx? ·) (funext fun a => ?_)
    by_cases ha : a = sym <;> simp [hashed, ha]
  rw [removeSymbol, hfind, List.erase_eq_eraseP', List.eraseP_eq_eraseIdx]
  cases hfound : A.findIdx? (· == sym) with
  | none => rfl
  | some pos => exact removeAt_fresh (List.findIdx?_eq_some_iff_getElem.mp hfound).1

end Edits

end Encoder

/-! ### Edits -/

/-- A call of `add_symbol` or of `remove_symbol`. -/
inductive Edit (T : Type u) where
  | add (sym : T)
  | remove (sym : T)
deriving Repr, DecidableEq

section Edits

open Encoder

variable {T : Type u} [Symbol T] [DecidableEq T]

def Encoder.edit (e : Encoder T) : Edit T → Encoder T
  | .add sym => e.addSymbol sym
  | .remove sym => e.removeSymbol sym

/-- The encoder after the calls. -/
def edited (edits : List (Edit T)) : Encoder T :=
  edits.foldl Encoder.edit .empty

def Edit.apply (A : List T) : Edit T → List T
  | .add sym => A ++ [sym]
  | .remove sym => A.erase sym

/-- The symbols that are present after the calls, in the order in which they came. -/
def present (edits : List (Edit T)) : List T :=
  edits.foldl Edit.apply []

/-- Removing a symbol undoes adding it: the encoder is the one to which only the symbols
still present were added, and produces what that one does.  The order in which they are
added makes no difference, as far as mappings go on and the exclusive or is one.  The
queue is a heap on the coded index with one entry for every present symbol, also while
coded symbols are produced. -/
structure UndoesAdding (edits : List (Edit T)) : Prop where
  same : edited edits = ofSymbols (present edits)
  coded : ∀ nextIndex k, (edited edits).codedSymbol nextIndex k =
    (ofSymbols (present edits)).codedSymbol nextIndex k
  codedInAnyOrder : ∀ [LawfulSymbol T] nextIndex, Increasing nextIndex →
    ∀ A, A.Perm (present edits) → ∀ k, (edited edits).codedSymbol nextIndex k =
      (ofSymbols A).codedSymbol nextIndex k
  symbols : ∀ nextIndex k,
    ((edited edits).afterProducing nextIndex k).symbols = (present edits).map hashed
  queued : ∀ nextIndex k,
    Queued (fun _ => True) ((edited edits).afterProducing nextIndex k)

theorem edit_fresh (A : List T) (edit : Edit T) :
    (fresh A).edit edit = fresh (Edit.apply A edit) := by
  cases edit with
  | add sym => exact addSymbol_fresh A sym
  | remove sym => exact removeSymbol_fresh A sym

theorem foldl_edit_fresh (edits : List (Edit T)) (A : List T) :
    edits.foldl Encoder.edit (fresh A) = fresh (edits.foldl Edit.apply A) := by
  induction edits generalizing A with
  | nil => rfl
  | cons edit edits ih => rw [List.foldl_cons, List.foldl_cons, edit_fresh, ih]

/-- Before the first coded symbol nothing is left of a symbol that was removed. -/
theorem edited_eq (edits : List (Edit T)) : edited edits = fresh (present edits) :=
  foldl_edit_fresh edits []

theorem Encoder.Queued.edit {e : Encoder T} (h : Queued (fun _ => True) e) (edit : Edit T) :
    Queued (fun _ => True) (e.edit edit) := by
  cases edit with
  | add sym => exact h.add trivial
  | remove sym => exact h.removeSymbol sym

theorem Encoder.Queued.foldl_edit {e : Encoder T} (h : Queued (fun _ => True) e)
    (edits : List (Edit T)) : Queued (fun _ => True) (edits.foldl Encoder.edit e) := by
  induction edits generalizing e with
  | nil => exact h
  | cons edit edits ih => exact ih (h.edit edit)

theorem queued_edited (edits : List (Edit T)) : Queued (fun _ => True) (edited edits) :=
  queued_empty.foldl_edit edits

/-- **Removing a symbol undoes adding it.** -/
theorem undoesAdding (edits : List (Edit T)) : UndoesAdding edits := by
  have hsame : edited edits = ofSymbols (present edits) :=
    (edited_eq edits).trans (ofSymbols_eq _).symm
  constructor
  case same => exact hsame
  case coded => exact fun nextIndex k => by rw [hsame]
  case codedInAnyOrder =>
    intro _ nextIndex hnext A hperm k
    rw [hsame, codedSymbol_ofSymbols hnext, codedSymbol_ofSymbols hnext]
    exact mapped_perm (hperm.symm.map hashed) k
  case symbols =>
    intro nextIndex k
    rw [((queued_edited edits).afterProducing k).2, edited_eq]
    rfl
  case queued => exact fun nextIndex k => ((queued_edited edits).afterProducing k).1

end Edits

end RatelessIblt
end Peerbit
