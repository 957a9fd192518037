import Mathlib.Data.List.Range
import Mathlib.Tactic.Abel
import Peerbit.Lib.Heaps
import Peerbit.RatelessIblt.CodedSymbols

/-!
# The encoder

An encoder produces the coded symbols of a set, one index after the other.  A
queue holds for every symbol the next index that its mapping goes through, as a
heap, so that the symbols of the current index are at its root.

The decoder uses encoders as windows: it applies what they hold to the coded
symbols that it receives.
-/

namespace Peerbit
namespace RatelessIblt

open Lib

universe u

structure SymbolMapping where
  sourceIdx : Nat
  codedIdx : Nat
deriving Repr, DecidableEq, Inhabited

structure Encoder (T : Type u) where
  symbols : List (HashedSymbol T)
  mappings : List RandomMapping
  queue : Array SymbolMapping
  nextIdx : Nat

namespace Encoder

section Operations

variable {T : Type u} [Symbol T]

def empty : Encoder T where
  symbols := []
  mappings := []
  queue := #[]
  nextIdx := 0

/-- "Fix tail" is `siftUp`. -/
def addHashedSymbolWithMapping (e : Encoder T) (sym : HashedSymbol T)
    (mapp : RandomMapping) : Encoder T :=
  let queue := e.queue.push
    { sourceIdx := e.symbols.length, codedIdx := mapp.lastIdx }
  { e with
    symbols := e.symbols ++ [sym]
    mappings := e.mappings ++ [mapp]
    queue := Heaps.siftUp SymbolMapping.codedIdx e.queue.size queue e.queue.size }

def addHashedSymbol (e : Encoder T) (sym : HashedSymbol T) : Encoder T :=
  e.addHashedSymbolWithMapping sym (.start sym.hash)

def addSymbol (e : Encoder T) (sym : T) : Encoder T :=
  e.addHashedSymbol (hashed sym)

section Windows

variable (nextIndex : RandomMapping → RandomMapping)

/-- The loop of `apply_window`; "fix head" is `siftDown`.  The indices of the
queue are always in bounds (`sources_lt`). -/
def applyLoop (direction : Direction) :
    Nat → Encoder T → CodedSymbol T → CodedSymbol T × Encoder T
  | 0, e, nextSym => (nextSym, e)
  | fuel + 1, e, nextSym =>
      match e.queue[0]? with
      | none => (nextSym, e)
      | some root =>
          if root.codedIdx = e.nextIdx then
            match e.symbols[root.sourceIdx]?, e.mappings[root.sourceIdx]? with
            | some sym, some mapp =>
                let mapp := nextIndex mapp
                let queue := e.queue.setIfInBounds 0
                  { root with codedIdx := mapp.lastIdx }
                applyLoop direction fuel
                  { e with
                    mappings := e.mappings.set root.sourceIdx mapp
                    queue := Heaps.siftDown SymbolMapping.codedIdx e.queue.size queue 0 }
                  (nextSym.apply sym direction)
            | _, _ => (nextSym, e)
          else (nextSym, e)

/-- Every symbol is applied once at most, so that the loop takes no more steps
than the queue is long. -/
def applyWindow (e : Encoder T) (sym : CodedSymbol T) (direction : Direction) :
    CodedSymbol T × Encoder T :=
  let applied := applyLoop nextIndex direction e.queue.size e sym
  (applied.1, { applied.2 with nextIdx := applied.2.nextIdx + 1 })

def produceNextCodedSymbol (e : Encoder T) : CodedSymbol T × Encoder T :=
  e.applyWindow nextIndex .empty .ADD

end Windows

end Operations

/-! ### What the queue holds -/

section Queues

variable {T : Type u}

/-- The symbols with the mappings that they have come to. -/
def pairs (e : Encoder T) : List (HashedSymbol T × RandomMapping) :=
  e.symbols.zip e.mappings

/-- The queue is a heap with an entry for every symbol, and all symbols with
their mappings have the property. -/
structure Queued (P : HashedSymbol T × RandomMapping → Prop) (e : Encoder T) : Prop where
  lengths : e.mappings.length = e.symbols.length
  heap : Heaps.IsHeap SymbolMapping.codedIdx e.queue
  sources : (e.queue.toList.map SymbolMapping.sourceIdx).Perm (List.range e.symbols.length)
  idx : ∀ q ∈ e.queue.toList, ∀ m, e.mappings[q.sourceIdx]? = some m →
    q.codedIdx = m.lastIdx
  all : ∀ p ∈ e.pairs, P p

variable {P Q : HashedSymbol T × RandomMapping → Prop} {e : Encoder T}

theorem Queued.imp (h : Queued P e) (himp : ∀ p ∈ e.pairs, P p → Q p) : Queued Q e :=
  ⟨h.lengths, h.heap, h.sources, h.idx, fun p hp => himp p hp (h.all p hp)⟩

theorem Queued.sources_lt (h : Queued P e) {q : SymbolMapping}
    (hq : q ∈ e.queue.toList) : q.sourceIdx < e.symbols.length :=
  List.mem_range.mp (h.sources.mem_iff.mp (List.mem_map_of_mem hq))

/-- The symbol of an entry of the queue. -/
theorem Queued.exists_pair (h : Queued P e) {q : SymbolMapping}
    (hq : q ∈ e.queue.toList) :
    ∃ sym m, e.symbols[q.sourceIdx]? = some sym ∧ e.mappings[q.sourceIdx]? = some m ∧
      (sym, m) ∈ e.pairs ∧ q.codedIdx = m.lastIdx := by
  have hlt := h.sources_lt hq
  have hsym := List.getElem?_eq_getElem hlt
  have hm := List.getElem?_eq_getElem (l := e.mappings) (by rw [h.lengths]; exact hlt)
  refine ⟨_, _, hsym, hm, ?_, h.idx q hq _ hm⟩
  exact List.mem_of_getElem? (List.getElem?_zip_eq_some.mpr ⟨hsym, hm⟩)

/-- The entry of the queue for a symbol. -/
theorem Queued.exists_entry (h : Queued P e) {p : HashedSymbol T × RandomMapping}
    (hp : p ∈ e.pairs) : ∃ q ∈ e.queue.toList, q.codedIdx = p.2.lastIdx := by
  obtain ⟨i, hi⟩ := List.mem_iff_getElem?.mp hp
  rw [pairs, List.getElem?_zip_eq_some] at hi
  have hlt : i < e.symbols.length := (List.getElem?_eq_some_iff.mp hi.1).1
  have hmem := h.sources.mem_iff.mpr (List.mem_range.mpr hlt)
  obtain ⟨q, hq, rfl⟩ := List.mem_map.mp hmem
  exact ⟨q, hq, h.idx q hq p.2 hi.2⟩

theorem queued_empty : Queued P (empty : Encoder T) where
  lengths := rfl
  heap i hi hisize := absurd hisize (by simp [empty])
  sources := List.Perm.refl _
  idx q hq := by simp [empty] at hq
  all p hp := by simp [empty, pairs] at hp

theorem pairs_addHashedSymbolWithMapping (hlengths : e.mappings.length = e.symbols.length)
    (sym : HashedSymbol T) (mapp : RandomMapping) :
    (e.addHashedSymbolWithMapping sym mapp).pairs = e.pairs ++ [(sym, mapp)] :=
  List.zip_append hlengths.symm

theorem Queued.add (h : Queued P e) {sym : HashedSymbol T} {mapp : RandomMapping}
    (hP : P (sym, mapp)) : Queued P (e.addHashedSymbolWithMapping sym mapp) := by
  have hperm := Heaps.siftUp_perm SymbolMapping.codedIdx e.queue.size
    (e.queue.push { sourceIdx := e.symbols.length, codedIdx := mapp.lastIdx }) e.queue.size
  rw [Array.toList_push] at hperm
  constructor
  case lengths => simp [addHashedSymbolWithMapping, h.lengths]
  case heap => exact Heaps.isHeap_push h.heap _
  case sources =>
    refine (hperm.map _).trans ?_
    simp only [List.map_append, List.map_cons, List.map_nil, addHashedSymbolWithMapping,
      List.length_append, List.length_singleton, List.range_succ]
    exact h.sources.append_right _
  case idx =>
    intro q hq m hm
    simp only [addHashedSymbolWithMapping] at hm
    rcases List.mem_append.mp (hperm.mem_iff.mp hq) with hq | hq
    · rw [List.getElem?_append_left (by rw [h.lengths]; exact h.sources_lt hq)] at hm
      exact h.idx q hq m hm
    · obtain rfl := List.mem_singleton.mp hq
      rw [← h.lengths, List.getElem?_concat_length] at hm
      exact congrArg RandomMapping.lastIdx (Option.some.inj hm)
  case all =>
    intro p hp
    rw [pairs_addHashedSymbolWithMapping h.lengths] at hp
    rcases List.mem_append.mp hp with hp | hp
    · exact h.all p hp
    · rw [List.mem_singleton.mp hp]
      exact hP

end Queues

/-! ### The loop -/

section Loops

theorem zip_set_right {α β : Type*} {l : List α} {m : List β} {i : Nat} {a : α}
    (h : l[i]? = some a) (b : β) : l.zip (m.set i b) = (l.zip m).set i (a, b) := by
  induction l generalizing m i with
  | nil => simp at h
  | cons x l ih =>
      cases m with
      | nil => simp
      | cons y m =>
          cases i with
          | zero =>
              obtain rfl := Option.some.inj h
              rfl
          | succ i =>
              rw [List.set_cons_succ, List.zip_cons_cons, List.zip_cons_cons,
                List.set_cons_succ, ih (by simpa using h)]

variable {T : Type u} [Symbol T]
variable {nextIndex : RandomMapping → RandomMapping} {direction : Direction}
variable {P : HashedSymbol T × RandomMapping → Prop} {e : Encoder T}

/-- The encoder after one pass of the loop, for the symbol at the root. -/
def advance (e : Encoder T) (root : SymbolMapping) (mapp : RandomMapping) : Encoder T :=
  { e with
    mappings := e.mappings.set root.sourceIdx mapp
    queue := Heaps.siftDown SymbolMapping.codedIdx e.queue.size
      (e.queue.setIfInBounds 0 { root with codedIdx := mapp.lastIdx }) 0 }

omit [Symbol T] in
theorem pairs_advance {root : SymbolMapping} {sym : HashedSymbol T}
    (hsym : e.symbols[root.sourceIdx]? = some sym) (mapp : RandomMapping) :
    (e.advance root mapp).pairs = e.pairs.set root.sourceIdx (sym, mapp) :=
  zip_set_right hsym mapp

omit [Symbol T] in
theorem Queued.advance (h : Queued P e) {root : SymbolMapping}
    (hroot : e.queue[0]? = some root) {sym : HashedSymbol T}
    (hsym : e.symbols[root.sourceIdx]? = some sym) {mapp : RandomMapping}
    (hP : P (sym, mapp)) : Queued P (e.advance root mapp) := by
  have hperm := Heaps.siftDown_perm SymbolMapping.codedIdx e.queue.size
    (e.queue.setIfInBounds 0 { root with codedIdx := mapp.lastIdx }) 0
  rw [Array.toList_setIfInBounds] at hperm
  obtain ⟨tail, htail⟩ : ∃ tail, e.queue.toList = root :: tail := by
    rw [← Array.getElem?_toList] at hroot
    cases hqueue : e.queue.toList with
    | nil => simp [hqueue] at hroot
    | cons first tail =>
        rw [hqueue, List.getElem?_cons_zero] at hroot
        exact ⟨tail, by rw [Option.some.inj hroot]⟩
  rw [htail, List.set_cons_zero] at hperm
  have hsources := h.sources
  rw [htail, List.map_cons] at hsources
  have hnodup := hsources.nodup_iff.mpr List.nodup_range
  constructor
  case lengths => simp [Encoder.advance, h.lengths]
  case heap => exact Heaps.isHeap_replaceRoot h.heap _
  case sources => exact (hperm.map _).trans hsources
  case idx =>
    intro q hq m hm
    simp only [Encoder.advance] at hm
    rcases List.mem_cons.mp (hperm.mem_iff.mp hq) with rfl | hq
    · have hlt : root.sourceIdx < e.mappings.length := by
        rw [h.lengths]
        exact (List.getElem?_eq_some_iff.mp hsym).1
      rw [List.getElem?_set_self hlt] at hm
      exact congrArg RandomMapping.lastIdx (Option.some.inj hm)
    · have hne : root.sourceIdx ≠ q.sourceIdx := by
        intro heq
        rw [heq] at hnodup
        exact (List.nodup_cons.mp hnodup).1 (List.mem_map_of_mem hq)
      rw [List.getElem?_set_ne hne] at hm
      exact h.idx q (by rw [htail]; exact List.mem_cons_of_mem _ hq) m hm
  case all =>
    intro p hp
    rw [pairs_advance hsym] at hp
    rcases List.mem_or_eq_of_mem_set hp with hp | rfl
    · exact h.all p hp
    · exact hP

/-- What is to be applied at the index `t`. -/
def due (t : Nat) (e : Encoder T) : CodedSymbol T :=
  (e.pairs.map (fun p => if p.2.lastIdx = t then p.1.coded else 0)).sum

/-- While the index `t` is worked off. -/
def During (nextIndex : RandomMapping → RandomMapping) (t : Nat)
    (p : HashedSymbol T × RandomMapping) : Prop :=
  Ahead nextIndex p.1.hash t p.2 ∨ Ahead nextIndex p.1.hash (t + 1) p.2

omit [Symbol T] in
theorem During.le {t : Nat} {p : HashedSymbol T × RandomMapping}
    (h : During nextIndex t p) : t ≤ p.2.lastIdx := by
  rcases h with h | h
  · exact h.1
  · exact Nat.le_of_succ_le h.1

omit [Symbol T] in
/-- When the root is past the index, all symbols are. -/
theorem Queued.past_of_root {t : Nat} (h : Queued (During nextIndex t) e)
    (hroot : ∀ root, e.queue[0]? = some root → root.codedIdx ≠ t) :
    ∀ p ∈ e.pairs, p.2.lastIdx ≠ t := by
  intro p hp
  obtain ⟨q, hq, hidx⟩ := h.exists_entry hp
  obtain ⟨i, hi, rfl⟩ := List.mem_iff_getElem.mp hq
  have hsize : i < e.queue.size := by simpa using hi
  have hpos : 0 < e.queue.size := by omega
  have hmin := Heaps.root_le h.heap hsize
  rw [getElem!_pos e.queue 0 hpos, getElem!_pos e.queue i hsize] at hmin
  have hne := hroot e.queue[0] (Array.getElem?_eq_getElem hpos)
  obtain ⟨sym, m, -, -, hpair, hm⟩ := h.exists_pair
    (q := e.queue[0]) (Array.mem_toList_iff.mpr (Array.getElem_mem hpos))
  have hle := (h.all _ hpair).le
  rw [Array.getElem_toList] at hidx
  simp only at hle
  omega

variable [LawfulSymbol T]

theorem due_of_past {t : Nat} (h : ∀ p ∈ e.pairs, p.2.lastIdx ≠ t) : due t e = 0 := by
  have hzero : e.pairs.map (fun p => if p.2.lastIdx = t then p.1.coded else 0) =
      e.pairs.map (fun _ => 0) :=
    List.map_congr_left fun p hp => if_neg (h p hp)
  rw [due, hzero]
  simp

/-- What is due, less the symbol at the root. -/
theorem due_advance {t : Nat} {root : SymbolMapping} {sym : HashedSymbol T}
    {m mapp : RandomMapping} (hsym : e.symbols[root.sourceIdx]? = some sym)
    (hm : e.mappings[root.sourceIdx]? = some m) (hdue : m.lastIdx = t)
    (hpast : mapp.lastIdx ≠ t) :
    due t e = sym.coded + due t (e.advance root mapp) := by
  have hpair : e.pairs[root.sourceIdx]? = some (sym, m) :=
    List.getElem?_zip_eq_some.mpr ⟨hsym, hm⟩
  obtain ⟨hlt, hget⟩ := List.getElem?_eq_some_iff.mp hpair
  rw [due, due, pairs_advance hsym, List.map_set, List.sum_set',
    dif_pos (by rwa [List.length_map]), List.getElem_map, hget, if_pos hdue, if_neg hpast,
    add_zero]
  abel

omit [Symbol T] [LawfulSymbol T] in
theorem countP_pos {t : Nat} {p : HashedSymbol T × RandomMapping} (hp : p ∈ e.pairs)
    (hdue : p.2.lastIdx = t) :
    0 < e.pairs.countP (fun p => decide (p.2.lastIdx = t)) := by
  rw [List.countP_pos_iff]
  exact ⟨p, hp, decide_eq_true hdue⟩

omit [Symbol T] [LawfulSymbol T] in
theorem countP_advance {t : Nat} {root : SymbolMapping} {sym : HashedSymbol T}
    {m mapp : RandomMapping} (hsym : e.symbols[root.sourceIdx]? = some sym)
    (hm : e.mappings[root.sourceIdx]? = some m) (hdue : m.lastIdx = t)
    (hpast : mapp.lastIdx ≠ t) :
    (e.advance root mapp).pairs.countP (fun p => decide (p.2.lastIdx = t)) + 1 =
      e.pairs.countP (fun p => decide (p.2.lastIdx = t)) := by
  have hpair : e.pairs[root.sourceIdx]? = some (sym, m) :=
    List.getElem?_zip_eq_some.mpr ⟨hsym, hm⟩
  obtain ⟨hlt, hget⟩ := List.getElem?_eq_some_iff.mp hpair
  have hpos := countP_pos (List.mem_of_getElem? hpair) hdue
  rw [pairs_advance hsym, List.countP_set hlt, hget]
  simp only [hdue, hpast, decide_true, decide_false, if_true, Bool.false_eq_true, if_false]
  omega

/-- What a loop leaves that applies what is due at `t`. -/
structure Applies (nextIndex : RandomMapping → RandomMapping) (direction : Direction)
    (t : Nat) (e : Encoder T) (nextSym : CodedSymbol T)
    (applied : CodedSymbol T × Encoder T) : Prop where
  sum : applied.1 = nextSym + direction.signed (due t e)
  symbols : applied.2.symbols = e.symbols
  nextIdx : applied.2.nextIdx = t
  queued : Queued (fun p => Ahead nextIndex p.1.hash (t + 1) p.2) applied.2

theorem applies_of_past {nextSym : CodedSymbol T}
    (h : Queued (During nextIndex e.nextIdx) e)
    (hpast : ∀ p ∈ e.pairs, p.2.lastIdx ≠ e.nextIdx) :
    Applies nextIndex direction e.nextIdx e nextSym (nextSym, e) where
  sum := by rw [due_of_past hpast, Direction.signed_zero, add_zero]
  symbols := rfl
  nextIdx := rfl
  queued := h.imp fun p hp hduring =>
    hduring.elim (fun hahead => hahead.succ (hpast p hp)) id

/-- The loop applies what is due, and all symbols are past the index then. -/
theorem applyLoop_spec (hnext : Increasing nextIndex) (fuel : Nat)
    (nextSym : CodedSymbol T) (h : Queued (During nextIndex e.nextIdx) e)
    (hfuel : e.pairs.countP (fun p => decide (p.2.lastIdx = e.nextIdx)) ≤ fuel) :
    Applies nextIndex direction e.nextIdx e nextSym
      (applyLoop nextIndex direction fuel e nextSym) := by
  induction fuel generalizing e nextSym with
  | zero =>
      refine applies_of_past h fun p hp heq => ?_
      have hpos := countP_pos hp heq
      omega
  | succ fuel ih =>
      rw [applyLoop]
      cases hroot : e.queue[0]? with
      | none =>
          refine applies_of_past h (h.past_of_root fun root hsome => ?_)
          rw [hroot] at hsome
          cases hsome
      | some root =>
          by_cases hidx : root.codedIdx = e.nextIdx
          · -- the symbol at the root is applied
            obtain ⟨sym, m, hsym, hm, hpair, hlast⟩ := h.exists_pair
              (Array.mem_toList_iff.mpr (Array.mem_of_getElem? hroot))
            have hdue : m.lastIdx = e.nextIdx := by omega
            have hahead : Ahead nextIndex sym.hash (e.nextIdx + 1) (nextIndex m) := by
              rcases h.all _ hpair with hahead | hahead
              · exact hahead.next hnext hdue
              · exact absurd hahead.1 (by simp only; omega)
            have hpast : (nextIndex m).lastIdx ≠ e.nextIdx := by
              have hle := hahead.1
              omega
            have hcount := countP_advance hsym hm hdue hpast
            have hless : (e.advance root (nextIndex m)).pairs.countP
                (fun p => decide (p.2.lastIdx = e.nextIdx)) ≤ fuel := by
              omega
            have happlies := ih (e := e.advance root (nextIndex m))
              (nextSym.apply sym direction) (h.advance hroot hsym (.inr hahead)) hless
            simp only [hidx, hsym, hm, if_true]
            refine ⟨?_, happlies.symbols, happlies.nextIdx, happlies.queued⟩
            rw [due_advance hsym hm hdue hpast, Direction.signed_add, ← add_assoc,
              ← apply_eq]
            exact happlies.sum
          · -- the root is past the index
            simp only [hidx, if_false]
            refine applies_of_past h (h.past_of_root fun root' hsome => ?_)
            rw [hroot] at hsome
            rwa [← Option.some.inj hsome]

end Loops

/-! ### Windows -/

section Ready

variable {T : Type u} [Symbol T]
variable {nextIndex : RandomMapping → RandomMapping} {e : Encoder T}

/-- All mappings are at the first index that is not worked off. -/
def Ready (nextIndex : RandomMapping → RandomMapping) (e : Encoder T) : Prop :=
  Queued (fun p => Ahead nextIndex p.1.hash e.nextIdx p.2) e

open Classical in
/-- The symbols of a list that are part of the coded symbol at an index. -/
noncomputable def mapped (nextIndex : RandomMapping → RandomMapping)
    (symbols : List (HashedSymbol T)) (i : Nat) : CodedSymbol T :=
  (symbols.map (fun sym => if Maps nextIndex sym.hash i then sym.coded else 0)).sum

theorem due_eq_mapped (hnext : Increasing nextIndex) (h : Ready nextIndex e) :
    due e.nextIdx e = mapped nextIndex e.symbols e.nextIdx := by
  have hsymbols : e.pairs.map Prod.fst = e.symbols :=
    List.map_fst_zip (Nat.le_of_eq h.lengths.symm)
  rw [due, mapped]
  conv_rhs => rw [← hsymbols, List.map_map]
  refine congrArg List.sum (List.map_congr_left fun p hp => ?_)
  have hiff := (h.all p hp).lastIdx_eq_iff hnext
  by_cases hdue : p.2.lastIdx = e.nextIdx
  · rw [if_pos hdue, Function.comp_apply, if_pos (hiff.mp hdue)]
  · rw [if_neg hdue, Function.comp_apply, if_neg (fun hmaps => hdue (hiff.mpr hmaps))]

/-- A window applies the symbols of its index, and goes on to the next one. -/
theorem applyWindow_spec [LawfulSymbol T] (hnext : Increasing nextIndex)
    (h : Ready nextIndex e) (sym : CodedSymbol T) (direction : Direction) :
    (e.applyWindow nextIndex sym direction).1 =
        sym + direction.signed (mapped nextIndex e.symbols e.nextIdx) ∧
      (e.applyWindow nextIndex sym direction).2.symbols = e.symbols ∧
      (e.applyWindow nextIndex sym direction).2.nextIdx = e.nextIdx + 1 ∧
      Ready nextIndex (e.applyWindow nextIndex sym direction).2 := by
  have hsize : e.queue.size = e.symbols.length := by
    have hlength := h.sources.length_eq
    rwa [List.length_map, Array.length_toList, List.length_range] at hlength
  have hcount : e.pairs.countP (fun p => decide (p.2.lastIdx = e.nextIdx)) ≤
      e.queue.size := by
    refine Nat.le_trans List.countP_le_length ?_
    rw [pairs, List.length_zip, hsize]
    exact Nat.min_le_left _ _
  have happlies : Applies nextIndex direction e.nextIdx e sym
      (applyLoop nextIndex direction e.queue.size e sym) :=
    applyLoop_spec hnext e.queue.size sym (h.imp fun p _ hahead => .inl hahead) hcount
  obtain ⟨hsum, hsymbols, hidx, hqueued⟩ := happlies
  rw [due_eq_mapped hnext h] at hsum
  refine ⟨hsum, hsymbols, congrArg (· + 1) hidx, ?_⟩
  refine ⟨hqueued.lengths, hqueued.heap, hqueued.sources, hqueued.idx, fun p hp => ?_⟩
  simp only [applyWindow, hidx]
  exact hqueued.all p hp

omit [Symbol T] in
theorem ready_empty : Ready nextIndex (empty : Encoder T) :=
  queued_empty

omit [Symbol T] in
theorem Ready.add (h : Ready nextIndex e) {sym : HashedSymbol T} {mapp : RandomMapping}
    (hahead : Ahead nextIndex sym.hash e.nextIdx mapp) :
    Ready nextIndex (e.addHashedSymbolWithMapping sym mapp) :=
  Queued.add h hahead

/-- The encoder of a set, before it has produced a coded symbol. -/
theorem foldl_addSymbol_spec (A : List T) (h : Ready nextIndex e) (hidx : e.nextIdx = 0) :
    Ready nextIndex (A.foldl addSymbol e) ∧ (A.foldl addSymbol e).nextIdx = 0 ∧
      (A.foldl addSymbol e).symbols = e.symbols ++ A.map hashed := by
  induction A generalizing e with
  | nil => exact ⟨h, hidx, (List.append_nil _).symm⟩
  | cons a A ih =>
      have hahead : Ahead nextIndex (hashed a).hash e.nextIdx (.start (hashed a).hash) := by
        rw [hidx]
        exact ahead_start nextIndex _
      obtain ⟨hready, hzero, hsymbols⟩ := ih (e := e.addSymbol a) (h.add hahead) hidx
      refine ⟨hready, hzero, hsymbols.trans ?_⟩
      simp [addSymbol, addHashedSymbol, addHashedSymbolWithMapping]

end Ready

end Encoder

end RatelessIblt
end Peerbit
