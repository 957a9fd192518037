import Mathlib.Data.Finset.Card
import Peerbit.RatelessIblt.Reconciliation

/-!
# Sessions

A session is an encoder of a set `A`, and a decoder that is loaded with a set `B`.
The coded symbols of the encoder are added to the decoder in their order, and the
decoder may try to decode at any time.
-/

namespace Peerbit
namespace RatelessIblt

open Lib

universe u

section Invariant

variable {T : Type u} [Symbol T] [LawfulSymbol T] [DecidableEq T]
variable (nextIndex : RandomMapping → RandomMapping)

/-- An encoder of these symbols that has worked off the first `n` indices. -/
structure Window (e : Encoder T) (symbols : List T) (n : Nat) : Prop where
  ready : e.Ready nextIndex
  symbols : e.symbols = symbols.map hashed
  nextIdx : e.nextIdx = n

/-- What is in `A` only, and not known yet. -/
def unknown (A B known : List T) : Finset T :=
  (A.toFinset \ B.toFinset) \ known.toFinset

/-- A coded symbol of which `X` is unknown at the remote side, and `Y` here. -/
noncomputable def cell (X Y : Finset T) (i : Nat) : CodedSymbol T :=
  total (goesTo nextIndex X i) - total (goesTo nextIndex Y i)

/-- A decoder that has found `R` of the remote side, and `L` here. -/
structure Reconciling (A B R L : List T) (handled pending : List Nat) (d : Decoder T) :
    Prop where
  window : Window nextIndex d.window B d.coded.length
  remote : Window nextIndex d.remote R d.coded.length
  local_ : Window nextIndex d.local_ L d.coded.length
  remoteNew : R.Nodup ∧ ∀ r ∈ R, r ∈ A ∧ r ∉ B
  localNew : L.Nodup ∧ ∀ l ∈ L, l ∈ B ∧ l ∉ A
  coded : ∀ i c, d.coded[i]? = some c →
    c = cell nextIndex (unknown A B R) (unknown B A L) i
  numDecoded : d.numDecoded = handled.length
  counting : Counting nextIndex (unknown A B R ∪ unknown B A L) d.coded.length
    handled pending

variable {nextIndex} {A B R L known : List T} {X Y : Finset T} {e : Encoder T}
variable {d : Decoder T} {n i : Nat} {s : T}

omit [Symbol T] [LawfulSymbol T] in
theorem mem_unknown : s ∈ unknown A B known ↔ (s ∈ A ∧ s ∉ B) ∧ s ∉ known := by
  simp [unknown]

omit [Symbol T] [LawfulSymbol T] in
theorem unknown_append (A B known : List T) (s : T) :
    unknown A B (known ++ [s]) = (unknown A B known).erase s := by
  ext s'
  simp only [mem_unknown, Finset.mem_erase, List.mem_append, List.mem_singleton]
  tauto

omit [Symbol T] [LawfulSymbol T] in
theorem disjoint_unknown (A B R L : List T) :
    Disjoint (unknown A B R) (unknown B A L) := by
  rw [Finset.disjoint_left]
  intro s hs hs'
  exact (mem_unknown.mp hs').1.2 (mem_unknown.mp hs).1.1

omit [Symbol T] [LawfulSymbol T] in
theorem unknown_subset (A B R L : List T) :
    unknown A B R ∪ unknown B A L ⊆ A.toFinset ∪ B.toFinset := by
  intro s hs
  simp only [Finset.mem_union, mem_unknown, List.mem_toFinset] at hs ⊢
  tauto

/-! ### Windows -/

omit [DecidableEq T] in
/-- What a window does to a coded symbol. -/
theorem Window.apply_list (hnext : Increasing nextIndex) {l : List T}
    (h : Window nextIndex e l n) (sym : CodedSymbol T) (direction : Direction) :
    (e.applyWindow nextIndex sym direction).1 =
        sym + direction.signed (Encoder.mapped nextIndex (l.map hashed) n) ∧
      Window nextIndex (e.applyWindow nextIndex sym direction).2 l (n + 1) := by
  obtain ⟨hsum, hsymbols, hidx, hready⟩ :=
    Encoder.applyWindow_spec hnext h.ready sym direction
  rw [h.symbols, h.nextIdx] at hsum
  exact ⟨hsum, hready, hsymbols.trans h.symbols, by rw [hidx, h.nextIdx]⟩

theorem Window.apply (hnext : Increasing nextIndex) {l : List T} (hl : l.Nodup)
    (h : Window nextIndex e l n) (sym : CodedSymbol T) (direction : Direction) :
    (e.applyWindow nextIndex sym direction).1 =
        sym + direction.signed (total (goesTo nextIndex l.toFinset n)) ∧
      Window nextIndex (e.applyWindow nextIndex sym direction).2 l (n + 1) := by
  have happlied := h.apply_list hnext sym direction
  rwa [mapped_eq_total hl] at happlied

omit [LawfulSymbol T] [DecidableEq T] in
theorem Window.add {l : List T} (h : Window nextIndex e l n) {mapp : RandomMapping}
    (hahead : Ahead nextIndex (hashed s).hash n mapp) :
    Window nextIndex (e.addHashedSymbolWithMapping (hashed s) mapp) (l ++ [s]) n where
  ready := h.ready.add (by rw [h.nextIdx]; exact hahead)
  symbols := by simp [Encoder.addHashedSymbolWithMapping, h.symbols]
  nextIdx := h.nextIdx

/-! ### Coded symbols -/

theorem total_sdiff {S S' : Finset T} (h : S' ⊆ S) :
    total (S \ S') = total S - total S' :=
  Finset.sum_sdiff_eq_sub h

/-- What is left of the coded symbol of `A` after all windows. -/
theorem cell_unknown (hR : ∀ r ∈ R, r ∈ A ∧ r ∉ B) (hL : ∀ l ∈ L, l ∈ B ∧ l ∉ A)
    (i : Nat) :
    cell nextIndex (unknown A B R) (unknown B A L) i =
      total (goesTo nextIndex A.toFinset i) - total (goesTo nextIndex B.toFinset i) -
        total (goesTo nextIndex R.toFinset i) + total (goesTo nextIndex L.toFinset i) := by
  have hdiff : ∀ S S' : Finset T, goesTo nextIndex (S \ S') i =
      goesTo nextIndex S i \ goesTo nextIndex S' i := by
    intro S S'
    ext s
    simp only [mem_goesTo, Finset.mem_sdiff]
    tauto
  have hside : ∀ A B K : List T, (∀ k ∈ K, k ∈ A ∧ k ∉ B) →
      total (goesTo nextIndex (unknown A B K) i) =
        total (goesTo nextIndex A.toFinset i) -
          total (goesTo nextIndex A.toFinset i ∩ goesTo nextIndex B.toFinset i) -
            total (goesTo nextIndex K.toFinset i) := by
    intro A B K hK
    rw [unknown, hdiff, hdiff, total_sdiff, ← Finset.sdiff_inter_self_left,
      total_sdiff Finset.inter_subset_left]
    intro k hk
    simp only [mem_goesTo, Finset.mem_sdiff, List.mem_toFinset] at hk ⊢
    have hnew := hK k hk.1
    tauto
  rw [cell, hside A B R hR, hside B A L hL,
    Finset.inter_comm (goesTo nextIndex B.toFinset i)]
  abel

omit [LawfulSymbol T] [DecidableEq T] in
theorem disjoint_goesTo (hdisjoint : Disjoint X Y) (i : Nat) :
    Disjoint (goesTo nextIndex X i) (goesTo nextIndex Y i) :=
  Finset.disjoint_of_subset_left (goesTo_subset X i)
    (Finset.disjoint_of_subset_right (goesTo_subset Y i) hdisjoint)

/-- A coded symbol with one unknown symbol or none. -/
theorem cell_cases (hlight : (goesTo nextIndex (X ∪ Y) i).card ≤ 1)
    (hdisjoint : Disjoint X Y) :
    (∃ x, x ∈ goesTo nextIndex X i ∧ cell nextIndex X Y i = (hashed x).coded) ∨
      (∃ y, y ∈ goesTo nextIndex Y i ∧ cell nextIndex X Y i = -(hashed y).coded) ∨
      (goesTo nextIndex (X ∪ Y) i = ∅ ∧ cell nextIndex X Y i = 0) := by
  rw [goesTo_union] at hlight ⊢
  rw [Finset.card_union_of_disjoint (disjoint_goesTo hdisjoint i)] at hlight
  rw [cell]
  rcases Nat.eq_zero_or_pos (goesTo nextIndex X i).card with hX | hX
  · have hX := Finset.card_eq_zero.mp hX
    rw [hX, total_empty, zero_sub, Finset.empty_union]
    rcases Nat.eq_zero_or_pos (goesTo nextIndex Y i).card with hY | hY
    · have hY := Finset.card_eq_zero.mp hY
      rw [hY, total_empty, neg_zero]
      exact .inr (.inr ⟨rfl, rfl⟩)
    · obtain ⟨y, hy⟩ := Finset.card_eq_one.mp
        (show (goesTo nextIndex Y i).card = 1 by omega)
      rw [hy, total_singleton]
      exact .inr (.inl ⟨y, Finset.mem_singleton_self y, rfl⟩)
  · obtain ⟨x, hx⟩ := Finset.card_eq_one.mp
      (show (goesTo nextIndex X i).card = 1 by omega)
    have hY := Finset.card_eq_zero.mp
      (show (goesTo nextIndex Y i).card = 0 by omega)
    rw [hx, hY, total_empty, sub_zero, total_singleton]
    exact .inl ⟨x, Finset.mem_singleton_self x, rfl⟩

omit [DecidableEq T] [LawfulSymbol T] in
theorem isSingle_coded (x : T) : (hashed x).coded.isSingle = true := by
  simp [CodedSymbol.isSingle, HashedSymbol.coded, hashed]

omit [DecidableEq T] [LawfulSymbol T] in
theorem isSingle_neg_coded (x : T) : (-(hashed x).coded).isSingle = true := by
  have hcount : (-(hashed x).coded).count = -1 := rfl
  have hhash : (-(hashed x).coded).hash = Symbol.hash (-(hashed x).coded).symbol := rfl
  rw [CodedSymbol.isSingle, hcount, hhash]
  simp

/-- A coded symbol with one unknown symbol looks like it. -/
theorem isSingle_of_card (hone : (goesTo nextIndex (X ∪ Y) i).card = 1)
    (hdisjoint : Disjoint X Y) : (cell nextIndex X Y i).isSingle = true := by
  rcases cell_cases (Nat.le_of_eq hone) hdisjoint with
    ⟨x, -, hc⟩ | ⟨y, -, hc⟩ | ⟨hempty, -⟩
  · rw [hc]
    exact isSingle_coded x
  · rw [hc]
    exact isSingle_neg_coded y
  · rw [hempty] at hone
    simp at hone

/-! ### Receiving -/

omit [LawfulSymbol T] in
theorem goesTo_union_subset {U : Finset T} (hsub : X ∪ Y ⊆ U) (i : Nat) :
    goesTo nextIndex X i ∪ goesTo nextIndex Y i ⊆ U := by
  rw [← goesTo_union]
  exact (goesTo_subset _ i).trans hsub

/-- A coded symbol that looks like one symbol holds one symbol. -/
theorem single_of_test {U : Finset T} (hfree : CollisionFree U) (hsub : X ∪ Y ⊆ U)
    (hdisjoint : Disjoint X Y) (h : (cell nextIndex X Y i).isSingle = true) :
    (goesTo nextIndex (X ∪ Y) i).card = 1 := by
  rw [goesTo_union]
  exact card_of_isSingle hfree (goesTo_union_subset hsub i) (disjoint_goesTo hdisjoint i) h

/-- A coded symbol that is put into `decodable` holds one symbol or none. -/
theorem light_of_test {U : Finset T} (hfree : CollisionFree U) (hsub : X ∪ Y ⊆ U)
    (hdisjoint : Disjoint X Y)
    (h : ((cell nextIndex X Y i).isSingle ||
      (decide ((cell nextIndex X Y i).count = 0) &&
        decide ((cell nextIndex X Y i).hash = 0))) = true) :
    (goesTo nextIndex (X ∪ Y) i).card ≤ 1 := by
  rcases Bool.or_eq_true_iff.mp h with hsingle | hzero
  · exact Nat.le_of_eq (single_of_test hfree hsub hdisjoint hsingle)
  · rw [Bool.and_eq_true, decide_eq_true_eq, decide_eq_true_eq] at hzero
    rw [goesTo_union, card_of_zero hfree (goesTo_union_subset hsub i)
      (disjoint_goesTo hdisjoint i) hzero.1 hzero.2]
    exact Nat.zero_le 1

/-- The windows leave what is unknown of a coded symbol. -/
theorem Reconciling.received (hnext : Increasing nextIndex) (hB : B.Nodup)
    {handled pending : List Nat} (h : Reconciling nextIndex A B R L handled pending d)
    {sym : CodedSymbol T}
    (hsym : sym = total (goesTo nextIndex A.toFinset d.coded.length)) :
    ∃ window remote local_,
      Window nextIndex window B (d.coded.length + 1) ∧
      Window nextIndex remote R (d.coded.length + 1) ∧
      Window nextIndex local_ L (d.coded.length + 1) ∧
      d.addCodedSymbol nextIndex sym =
        let c := cell nextIndex (unknown A B R) (unknown B A L) d.coded.length
        { d with
          window := window
          remote := remote
          local_ := local_
          coded := d.coded ++ [c]
          decodable :=
            if c.isSingle || (decide (c.count = 0) && decide (c.hash = 0)) then
              d.decodable ++ [d.coded.length]
            else d.decodable } := by
  obtain ⟨hsum, hwindow⟩ := h.window.apply hnext hB sym .REMOVE
  obtain ⟨hsum', hremote⟩ := h.remote.apply hnext h.remoteNew.1
    (d.window.applyWindow nextIndex sym .REMOVE).1 .REMOVE
  obtain ⟨hsum'', hlocal⟩ := h.local_.apply hnext h.localNew.1
    (d.remote.applyWindow nextIndex (d.window.applyWindow nextIndex sym .REMOVE).1
      .REMOVE).1 .ADD
  refine ⟨_, _, _, hwindow, hremote, hlocal, ?_⟩
  have hcell := hsum''.trans (show _ =
      cell nextIndex (unknown A B R) (unknown B A L) d.coded.length by
    rw [hsum', hsum, cell_unknown h.remoteNew.2 h.localNew.2, hsym, sub_eq_add_neg,
      sub_eq_add_neg]
    rfl)
  simp only [Decoder.addCodedSymbol]
  rw [hcell]

theorem Reconciling.addCodedSymbol (hnext : Increasing nextIndex) (hB : B.Nodup)
    (hfree : CollisionFree (A.toFinset ∪ B.toFinset)) {handled : List Nat}
    (h : Reconciling nextIndex A B R L handled d.decodable d) {sym : CodedSymbol T}
    (hsym : sym = total (goesTo nextIndex A.toFinset d.coded.length)) :
    Reconciling nextIndex A B R L handled (d.addCodedSymbol nextIndex sym).decodable
      (d.addCodedSymbol nextIndex sym) := by
  obtain ⟨window, remote, local_, hwindow, hremote, hlocal, heq⟩ :=
    h.received hnext hB hsym
  rw [heq]
  constructor
  case window => simpa using hwindow
  case remote => simpa using hremote
  case local_ => simpa using hlocal
  case remoteNew => exact h.remoteNew
  case localNew => exact h.localNew
  case coded =>
    intro i c hc
    simp only at hc
    rcases Nat.lt_or_ge i d.coded.length with hi | hi
    · rw [List.getElem?_append_left hi] at hc
      exact h.coded i c hc
    · have hlt := (List.getElem?_eq_some_iff.mp hc).1
      rw [List.length_append, List.length_singleton] at hlt
      obtain rfl : i = d.coded.length := by omega
      rw [List.getElem?_concat_length] at hc
      exact (Option.some.inj hc).symm
  case numDecoded => exact h.numDecoded
  case counting =>
    simp only [List.length_append, List.length_singleton]
    split
    · rename_i htest
      exact h.counting.receive (.inr ⟨rfl, light_of_test hfree (unknown_subset A B R L)
        (disjoint_unknown A B R L) htest⟩)
    · have hcounting := h.counting.receive (.inl rfl)
      rwa [List.append_nil] at hcounting

/-! ### Taking a symbol out -/

theorem total_erase {S : Finset T} (hs : s ∈ S) :
    total (S.erase s) = total S - (hashed s).coded :=
  Finset.sum_erase_eq_sub hs

omit [LawfulSymbol T] in
theorem goesTo_erase_of_not_maps (X : Finset T)
    (h : ¬ Maps nextIndex (Symbol.hash s) i) :
    goesTo nextIndex (X.erase s) i = goesTo nextIndex X i := by
  rw [goesTo_erase]
  exact Finset.erase_eq_of_notMem (fun hs => h (mem_goesTo.mp hs).2)

theorem total_goesTo_erase (hs : s ∈ X) (h : Maps nextIndex (Symbol.hash s) i) :
    total (goesTo nextIndex (X.erase s) i) =
      total (goesTo nextIndex X i) - (hashed s).coded := by
  rw [goesTo_erase, total_erase (mem_goesTo.mpr ⟨hs, h⟩)]

/-- What is unknown after a symbol is found, on the one side or on the other. -/
def Found (s : T) (direction : Direction) (X Y X' Y' : Finset T) : Prop :=
  match direction with
  | .REMOVE => s ∈ X ∧ X' = X.erase s ∧ Y' = Y
  | .ADD => s ∈ Y ∧ X' = X ∧ Y' = Y.erase s

namespace Found

variable {X' Y' : Finset T} {direction : Direction}

theorem apply_cell (h : Found s direction X Y X' Y')
    (hmaps : Maps nextIndex (Symbol.hash s) i) :
    (cell nextIndex X Y i).apply (hashed s) direction = cell nextIndex X' Y' i := by
  rw [apply_eq, cell, cell]
  cases direction with
  | REMOVE =>
      obtain ⟨hs, rfl, rfl⟩ := h
      rw [total_goesTo_erase hs hmaps, Direction.signed]
      abel
  | ADD =>
      obtain ⟨hs, rfl, rfl⟩ := h
      rw [total_goesTo_erase hs hmaps, Direction.signed]
      abel

theorem cell_eq (h : Found s direction X Y X' Y')
    (hmaps : ¬ Maps nextIndex (Symbol.hash s) i) :
    cell nextIndex X Y i = cell nextIndex X' Y' i := by
  rw [cell, cell]
  cases direction with
  | REMOVE =>
      obtain ⟨-, rfl, rfl⟩ := h
      rw [goesTo_erase_of_not_maps X hmaps]
  | ADD =>
      obtain ⟨-, rfl, rfl⟩ := h
      rw [goesTo_erase_of_not_maps Y hmaps]

omit [Symbol T] [LawfulSymbol T] in
theorem union_eq (h : Found s direction X Y X' Y') (hdisjoint : Disjoint X Y) :
    X' ∪ Y' = (X ∪ Y).erase s := by
  cases direction with
  | REMOVE =>
      obtain ⟨hs, rfl, rfl⟩ := h
      rw [Finset.erase_union_distrib,
        Finset.erase_eq_of_notMem (Finset.disjoint_left.mp hdisjoint hs)]
  | ADD =>
      obtain ⟨hs, rfl, rfl⟩ := h
      rw [Finset.erase_union_distrib, Finset.erase_eq_of_notMem (s := X')
        (Finset.disjoint_right.mp hdisjoint hs)]

end Found

/-- The coded symbols after a symbol is taken out of them. -/
theorem Reconciling.taken (hnext : Increasing nextIndex)
    (hfree : CollisionFree (A.toFinset ∪ B.toFinset)) {handled rest : List Nat}
    {cidx : Nat} (h : Reconciling nextIndex A B R L handled (cidx :: rest) d)
    {R' L' : List T} {direction : Direction}
    (hfound : Found s direction (unknown A B R) (unknown B A L) (unknown A B R')
      (unknown B A L'))
    (hs : s ∈ goesTo nextIndex (unknown A B R ∪ unknown B A L) cidx) :
    ∃ mapp coded singles,
      d.applyNewSymbol nextIndex (hashed s) direction =
        (mapp, coded, d.decodable ++ singles) ∧
      Ahead nextIndex (hashed s).hash d.coded.length mapp ∧
      coded.length = d.coded.length ∧
      (∀ i c, coded[i]? = some c →
        c = cell nextIndex (unknown A B R') (unknown B A L') i) ∧
      Counting nextIndex (unknown A B R' ∪ unknown B A L') d.coded.length
        (handled ++ [cidx]) (rest ++ singles) ∧
      (NoneMissed nextIndex (unknown A B R ∪ unknown B A L) d.coded.length handled
          (cidx :: rest) →
        NoneMissed nextIndex (unknown A B R' ∪ unknown B A L') d.coded.length
          (handled ++ [cidx]) (rest ++ singles)) := by
  have htakes : TakesOut nextIndex (hashed s) direction 0 d.coded d.decodable
      (d.applyNewSymbol nextIndex (hashed s) direction) :=
    applyNewLoop_spec hnext (ahead_start nextIndex _) (Nat.zero_le _) (by omega)
  obtain ⟨⟨mapp, coded, decodable⟩, happlied⟩ :
      ∃ applied, d.applyNewSymbol nextIndex (hashed s) direction = applied := ⟨_, rfl⟩
  obtain ⟨singles', hsingles', hall⟩ :=
    applyNewLoop_singles hnext (ahead_start nextIndex _) (Nat.zero_le _) (by omega) happlied
  rw [happlied] at htakes ⊢
  obtain ⟨singles, rfl, hsorted, hsingles⟩ := htakes.decodable
  obtain rfl := List.append_cancel_left hsingles'
  have hcells : ∀ i c, coded[i]? = some c →
      c = cell nextIndex (unknown A B R') (unknown B A L') i := by
    intro i c hc
    have hlt := (List.getElem?_eq_some_iff.mp hc).1
    have hold := List.getElem?_eq_getElem (l := d.coded) (htakes.length ▸ hlt)
    by_cases hmaps : Maps nextIndex (Symbol.hash s) i
    · have hnew := htakes.mapped i _ hold (Nat.zero_le i) hmaps
      rw [hc] at hnew
      rw [Option.some.inj hnew, h.coded i _ hold]
      exact hfound.apply_cell hmaps
    · have hnew := htakes.others i (.inr hmaps)
      simp only [hc, hold] at hnew
      rw [Option.some.inj hnew, h.coded i _ hold]
      exact hfound.cell_eq hmaps
  refine ⟨mapp, coded, singles, rfl, htakes.ahead, htakes.length, hcells, ?_, fun hmissed => ?_⟩
  · rw [hfound.union_eq (disjoint_unknown A B R L)]
    refine h.counting.recover hs hsorted fun i hi => ?_
    obtain ⟨-, hmaps, c, hc, hsingle⟩ := hsingles i hi
    refine ⟨htakes.length ▸ (List.getElem?_eq_some_iff.mp hc).1, hmaps, ?_⟩
    rw [hcells i c hc] at hsingle
    rw [← hfound.union_eq (disjoint_unknown A B R L)]
    exact single_of_test hfree (unknown_subset A B R' L') (disjoint_unknown A B R' L')
      hsingle
  · rw [hfound.union_eq (disjoint_unknown A B R L)]
    refine hmissed.recover fun i hi hmaps hone => ?_
    have hlt : i < coded.length := by
      rw [htakes.length]
      exact hi
    have hc := List.getElem?_eq_getElem hlt
    refine hall i _ (Nat.zero_le i) hmaps hc ?_
    rw [hcells i _ hc]
    rw [← hfound.union_eq (disjoint_unknown A B R L)] at hone
    exact isSingle_of_card hone (disjoint_unknown A B R' L')

omit [Symbol T] [LawfulSymbol T] in
theorem new_append (h : R.Nodup ∧ ∀ r ∈ R, r ∈ A ∧ r ∉ B) (hs : s ∈ unknown A B R) :
    (R ++ [s]).Nodup ∧ ∀ r ∈ R ++ [s], r ∈ A ∧ r ∉ B := by
  obtain ⟨hnew, hnot⟩ := mem_unknown.mp hs
  refine ⟨List.nodup_append.mpr ⟨h.1, List.nodup_singleton s, ?_⟩, ?_⟩
  · rintro r hr r' hr' rfl
    exact hnot (List.mem_singleton.mp hr' ▸ hr)
  · intro r hr
    rcases List.mem_append.mp hr with hr | hr
    · exact h.2 r hr
    · rw [List.mem_singleton.mp hr]
      exact hnew

/-- A coded symbol is handled that holds one symbol, of the remote side. -/
theorem Reconciling.recover_remote (hnext : Increasing nextIndex)
    (hfree : CollisionFree (A.toFinset ∪ B.toFinset)) {handled rest : List Nat}
    {cidx : Nat} (h : Reconciling nextIndex A B R L handled (cidx :: rest) d)
    (hs : s ∈ goesTo nextIndex (unknown A B R) cidx) :
    ∃ singles,
      (d.recover nextIndex (hashed s).coded true).decodable = d.decodable ++ singles ∧
      (d.recover nextIndex (hashed s).coded true).coded.length = d.coded.length ∧
      Reconciling nextIndex A B (R ++ [s]) L (handled ++ [cidx]) (rest ++ singles)
        (d.recover nextIndex (hashed s).coded true) ∧
      (NoneMissed nextIndex (unknown A B R ∪ unknown B A L) d.coded.length handled
          (cidx :: rest) →
        NoneMissed nextIndex (unknown A B (R ++ [s]) ∪ unknown B A L) d.coded.length
          (handled ++ [cidx]) (rest ++ singles)) := by
  have hunknown := (mem_goesTo.mp hs).1
  have hfound : Found s .REMOVE (unknown A B R) (unknown B A L)
      (unknown A B (R ++ [s])) (unknown B A L) :=
    ⟨hunknown, unknown_append A B R s, rfl⟩
  obtain ⟨mapp, coded, singles, happlied, hahead, hlength, hcells, hcounting, hmissed⟩ :=
    h.taken hnext hfree hfound (by rw [goesTo_union]; exact Finset.mem_union_left _ hs)
  have hrecover : d.recover nextIndex (hashed s).coded true =
      { d with
        coded := coded
        decodable := d.decodable ++ singles
        remote := d.remote.addHashedSymbolWithMapping (hashed s) mapp
        numDecoded := d.numDecoded + 1 } := by
    simp only [Decoder.recover, HashedSymbol.coded, hashed, LawfulSymbol.zero_xor]
    simp only [hashed] at happlied
    simp [happlied]
  rw [hrecover]
  refine ⟨singles, rfl, hlength, ?_, hmissed⟩
  constructor
  case window => simpa only [hlength] using h.window
  case remote => simpa only [hlength] using h.remote.add hahead
  case local_ => simpa only [hlength] using h.local_
  case remoteNew => exact new_append h.remoteNew hunknown
  case localNew => exact h.localNew
  case coded => exact hcells
  case numDecoded => simp [h.numDecoded]
  case counting => simpa only [hlength] using hcounting

/-- A coded symbol is handled that holds one symbol, of this side. -/
theorem Reconciling.recover_local (hnext : Increasing nextIndex)
    (hfree : CollisionFree (A.toFinset ∪ B.toFinset)) {handled rest : List Nat}
    {cidx : Nat} (h : Reconciling nextIndex A B R L handled (cidx :: rest) d)
    (hs : s ∈ goesTo nextIndex (unknown B A L) cidx) :
    ∃ singles,
      (d.recover nextIndex (-(hashed s).coded) false).decodable =
        d.decodable ++ singles ∧
      (d.recover nextIndex (-(hashed s).coded) false).coded.length = d.coded.length ∧
      Reconciling nextIndex A B R (L ++ [s]) (handled ++ [cidx]) (rest ++ singles)
        (d.recover nextIndex (-(hashed s).coded) false) ∧
      (NoneMissed nextIndex (unknown A B R ∪ unknown B A L) d.coded.length handled
          (cidx :: rest) →
        NoneMissed nextIndex (unknown A B R ∪ unknown B A (L ++ [s])) d.coded.length
          (handled ++ [cidx]) (rest ++ singles)) := by
  have hunknown := (mem_goesTo.mp hs).1
  have hfound : Found s .ADD (unknown A B R) (unknown B A L) (unknown A B R)
      (unknown B A (L ++ [s])) :=
    ⟨hunknown, rfl, unknown_append B A L s⟩
  obtain ⟨mapp, coded, singles, happlied, hahead, hlength, hcells, hcounting, hmissed⟩ :=
    h.taken hnext hfree hfound (by rw [goesTo_union]; exact Finset.mem_union_right _ hs)
  have hsym : (-(hashed s).coded).symbol = s ∧
      (-(hashed s).coded).hash = Symbol.hash s := ⟨rfl, rfl⟩
  have hrecover : d.recover nextIndex (-(hashed s).coded) false =
      { d with
        coded := coded
        decodable := d.decodable ++ singles
        local_ := d.local_.addHashedSymbolWithMapping (hashed s) mapp
        numDecoded := d.numDecoded + 1 } := by
    simp only [Decoder.recover, hsym, LawfulSymbol.zero_xor]
    simp only [hashed] at happlied ⊢
    simp [happlied]
  rw [hrecover]
  refine ⟨singles, rfl, hlength, ?_, hmissed⟩
  constructor
  case window => simpa only [hlength] using h.window
  case remote => simpa only [hlength] using h.remote
  case local_ => simpa only [hlength] using h.local_.add hahead
  case remoteNew => exact h.remoteNew
  case localNew => exact new_append h.localNew hunknown
  case coded => exact hcells
  case numDecoded => simp [h.numDecoded]
  case counting => simpa only [hlength] using hcounting

/-- An empty coded symbol is handled. -/
theorem Reconciling.skip {handled rest : List Nat} {cidx : Nat}
    (h : Reconciling nextIndex A B R L handled (cidx :: rest) d)
    (hempty : goesTo nextIndex (unknown A B R ∪ unknown B A L) cidx = ∅) :
    Reconciling nextIndex A B R L (handled ++ [cidx]) rest
      { d with numDecoded := d.numDecoded + 1 } where
  window := h.window
  remote := h.remote
  local_ := h.local_
  remoteNew := h.remoteNew
  localNew := h.localNew
  coded := h.coded
  numDecoded := by simp [h.numDecoded]
  counting := h.counting.skip hempty

/-! ### Decoding -/

/-- The loop of `try_decode` handles all that waits, and ends well. -/
theorem tryDecodeLoop_spec (hnext : Increasing nextIndex)
    (hfree : CollisionFree (A.toFinset ∪ B.toFinset)) (fuel : Nat) {didx : Nat}
    {handled : List Nat}
    (h : Reconciling nextIndex A B R L handled (d.decodable.drop didx) d)
    (hfuel : d.coded.length < handled.length + fuel) :
    ∃ R' L' handled' d', d.tryDecodeLoop nextIndex fuel didx = some (.ok (), d') ∧
      d'.decodable = [] ∧ d'.coded.length = d.coded.length ∧
      Reconciling nextIndex A B R' L' handled' [] d' ∧
      (NoneMissed nextIndex (unknown A B R ∪ unknown B A L) d.coded.length handled
          (d.decodable.drop didx) →
        NoneMissed nextIndex (unknown A B R' ∪ unknown B A L') d.coded.length handled'
          []) := by
  induction fuel generalizing d R L handled didx with
  | zero =>
      have hle := h.counting.length_le
      omega
  | succ fuel ih =>
      rw [Decoder.tryDecodeLoop]
      cases hdidx : d.decodable[didx]? with
      | none =>
          have hend := List.drop_eq_nil_of_le (List.getElem?_eq_none_iff.mp hdidx)
          rw [hend] at h
          rw [hend]
          exact ⟨R, L, handled, _, rfl, rfl, rfl, ⟨h.window, h.remote, h.local_, h.remoteNew,
            h.localNew, h.coded, h.numDecoded, h.counting⟩, id⟩
      | some cidx =>
          obtain ⟨hlt, hget⟩ := List.getElem?_eq_some_iff.mp hdidx
          have hdrop := List.drop_eq_getElem_cons hlt
          rw [hget] at hdrop
          rw [hdrop] at h ⊢
          obtain ⟨hcidx, hlight⟩ := h.counting.light cidx (by simp)
          have hcoded := List.getElem?_eq_getElem hcidx
          have hcell := h.coded cidx _ hcoded
          -- what is pushed comes after what waits
          have hpending : ∀ singles, (d.decodable ++ singles).drop (didx + 1) =
              d.decodable.drop (didx + 1) ++ singles := fun singles =>
            List.drop_append_of_le_length hlt
          have hfuel' : d.coded.length < (handled ++ [cidx]).length + fuel := by
            rw [List.length_append, List.length_singleton]
            omega
          simp only [hcoded, hcell]
          rcases cell_cases hlight (disjoint_unknown A B R L) with
            ⟨x, hx, hc⟩ | ⟨y, hy, hc⟩ | ⟨hempty, hc⟩
          · -- a symbol of the remote side
            obtain ⟨singles, hdecodable, hlength, hnew, hmissed⟩ :=
              h.recover_remote hnext hfree hx
            rw [← hpending singles, ← hdecodable] at hnew hmissed
            obtain ⟨R', L', handled', d', hloop, hnil, hlength', hrec, hmissed'⟩ :=
              ih hnew (by rw [hlength]; exact hfuel')
            have hcount : (hashed x).coded.count = 1 := rfl
            rw [hc, if_pos hcount]
            rw [hlength] at hmissed'
            exact ⟨R', L', handled', d', hloop, hnil, hlength'.trans hlength, hrec,
              fun hold => hmissed' (hmissed hold)⟩
          · -- a symbol of this side
            obtain ⟨singles, hdecodable, hlength, hnew, hmissed⟩ :=
              h.recover_local hnext hfree hy
            rw [← hpending singles, ← hdecodable] at hnew hmissed
            obtain ⟨R', L', handled', d', hloop, hnil, hlength', hrec, hmissed'⟩ :=
              ih hnew (by rw [hlength]; exact hfuel')
            have hcount : (-(hashed y).coded).count = -1 := rfl
            rw [hc, if_neg (by rw [hcount]; decide), if_pos hcount]
            rw [hlength] at hmissed'
            exact ⟨R', L', handled', d', hloop, hnil, hlength'.trans hlength, hrec,
              fun hold => hmissed' (hmissed hold)⟩
          · -- no symbol
            have hcount : (0 : CodedSymbol T).count = 0 := rfl
            rw [hc, if_neg (by rw [hcount]; decide), if_neg (by rw [hcount]; decide),
              if_pos hcount]
            obtain ⟨R', L', handled', d', hloop, hnil, hlength, hrec, hmissed⟩ :=
              ih (d := { d with numDecoded := d.numDecoded + 1 }) (h.skip hempty) hfuel'
            exact ⟨R', L', handled', d', hloop, hnil, hlength, hrec,
              fun hold => hmissed hold.skip⟩

/-- With its own number of steps `try_decode` never fails. -/
theorem tryDecode_ok (hnext : Increasing nextIndex)
    (hfree : CollisionFree (A.toFinset ∪ B.toFinset)) {handled : List Nat}
    (h : Reconciling nextIndex A B R L handled d.decodable d) :
    ∃ R' L' handled' d', d.tryDecode nextIndex = some (.ok (), d') ∧
      d'.decodable = [] ∧ d'.coded.length = d.coded.length ∧
      Reconciling nextIndex A B R' L' handled' [] d' ∧
      (NoneMissed nextIndex (unknown A B R ∪ unknown B A L) d.coded.length handled
          d.decodable →
        NoneMissed nextIndex (unknown A B R' ∪ unknown B A L') d.coded.length handled'
          []) :=
  tryDecodeLoop_spec hnext hfree (d.coded.length + 1) h (by omega)

end Invariant

/-! ### Sessions -/

section Sessions

variable {T : Type u} [Symbol T]

/-- Both sides, of which the decoder gets its coded symbols from the encoder. -/
structure Session (T : Type u) where
  encoder : Encoder T
  decoder : Decoder T

inductive SessionCall where
  | codedSymbol
  | tryDecode
deriving Repr, DecidableEq

variable (nextIndex : RandomMapping → RandomMapping)

def Session.step (s : Session T) : SessionCall → Option (Session T)
  | .codedSymbol =>
      let produced := s.encoder.produceNextCodedSymbol nextIndex
      some
        { encoder := produced.2
          decoder := s.decoder.addCodedSymbol nextIndex produced.1 }
  | .tryDecode =>
      (s.decoder.tryDecode nextIndex).map (fun result => { s with decoder := result.2 })

def sessions (A B : List T) : Machine (Session T) SessionCall where
  init :=
    { encoder := A.foldl Encoder.addSymbol .empty
      decoder := B.foldl Decoder.addSymbol .empty }
  step := Session.step nextIndex

variable {nextIndex} [LawfulSymbol T] [DecidableEq T] {A B : List T} {s : Session T}

/-- The encoder is as far as the decoder, which has found a part of the difference. -/
structure InSession (nextIndex : RandomMapping → RandomMapping) (A B : List T)
    (s : Session T) : Prop where
  encoder : Window nextIndex s.encoder A s.decoder.coded.length
  decoder : ∃ R L handled,
    Reconciling nextIndex A B R L handled s.decoder.decodable s.decoder

omit [LawfulSymbol T] [DecidableEq T] in
theorem foldl_addSymbol_eq (B : List T) (d : Decoder T) :
    B.foldl Decoder.addSymbol d = { d with window := B.foldl Encoder.addSymbol d.window } := by
  induction B generalizing d with
  | nil => rfl
  | cons b B ih => exact ih (d.addSymbol b)

omit [LawfulSymbol T] [DecidableEq T] in
theorem decoder_init (A B : List T) :
    (sessions nextIndex A B).init.decoder =
      { Decoder.empty with window := B.foldl Encoder.addSymbol .empty } :=
  foldl_addSymbol_eq B .empty

omit [LawfulSymbol T] [DecidableEq T] in
theorem window_foldl (A : List T) :
    Window nextIndex (A.foldl Encoder.addSymbol .empty) A 0 := by
  have hempty : Encoder.Ready nextIndex (.empty : Encoder T) := Encoder.ready_empty
  obtain ⟨hready, hidx, hsymbols⟩ := Encoder.foldl_addSymbol_spec A hempty rfl
  exact ⟨hready, hsymbols, hidx⟩

theorem inSession_init (A B : List T) :
    InSession nextIndex A B (sessions nextIndex A B).init := by
  have hempty : Window nextIndex (.empty : Encoder T) [] 0 := ⟨Encoder.ready_empty, rfl, rfl⟩
  constructor
  case encoder =>
    rw [decoder_init]
    exact window_foldl A
  case decoder =>
    rw [decoder_init]
    refine ⟨[], [], [], window_foldl B, hempty, hempty, ⟨.nil, by simp⟩, ⟨.nil, by simp⟩,
      fun i c hc => ?_, rfl, ⟨.nil, fun i hi => ?_, fun i hi => ?_⟩⟩
    · simp [Decoder.empty] at hc
    · simp [Decoder.empty] at hi
    · simp at hi

theorem InSession.step (hnext : Increasing nextIndex) (hA : A.Nodup) (hB : B.Nodup)
    (hfree : CollisionFree (A.toFinset ∪ B.toFinset)) (h : InSession nextIndex A B s)
    {call : SessionCall} {s' : Session T} (hstep : s.step nextIndex call = some s') :
    InSession nextIndex A B s' := by
  obtain ⟨R, L, handled, hdecoder⟩ := h.decoder
  cases call with
  | codedSymbol =>
      obtain rfl := Option.some.inj hstep
      obtain ⟨hsum, hencoder⟩ := h.encoder.apply hnext hA .empty .ADD
      have hsym : (s.encoder.produceNextCodedSymbol nextIndex).1 =
          total (goesTo nextIndex A.toFinset s.decoder.coded.length) :=
        hsum.trans (zero_add _)
      refine ⟨?_, R, L, handled, hdecoder.addCodedSymbol hnext hB hfree hsym⟩
      simpa [Decoder.addCodedSymbol, Encoder.produceNextCodedSymbol] using hencoder
  | tryDecode =>
      obtain ⟨R', L', handled', d', hok, hnil, hlength, hdecoder', -⟩ :=
        tryDecode_ok hnext hfree hdecoder
      simp only [Session.step, hok, Option.map_some] at hstep
      obtain rfl := Option.some.inj hstep
      refine ⟨?_, R', L', handled', ?_⟩
      · rw [hlength]
        exact h.encoder
      · rw [hnil]
        exact hdecoder'

/-- In all sessions, and at all times. -/
theorem inSession_of_run (hnext : Increasing nextIndex) (hA : A.Nodup) (hB : B.Nodup)
    (hfree : CollisionFree (A.toFinset ∪ B.toFinset))
    (hrun : (sessions nextIndex A B).Run Machine.Free s) : InSession nextIndex A B s :=
  hrun.invariant (inSession_init A B) fun _ _ _ h _ hstep => h.step hnext hA hB hfree hstep

omit [Symbol T] [LawfulSymbol T] in
/-- When nothing is unknown, all of the difference is found. -/
theorem perm_of_unknown_eq_empty {R : List T} (hA : A.Nodup)
    (hR : R.Nodup ∧ ∀ r ∈ R, r ∈ A ∧ r ∉ B) (h : unknown A B R = ∅) :
    R.Perm (A.filter (fun a => decide (a ∉ B))) := by
  rw [List.perm_ext_iff_of_nodup hR.1 (hA.filter _)]
  intro s
  rw [List.mem_filter, decide_eq_true_eq]
  refine ⟨hR.2 s, fun hs => ?_⟩
  by_contra hnot
  have hmem := mem_unknown.mpr ⟨hs, hnot⟩
  rw [h] at hmem
  exact Finset.notMem_empty s hmem

/-- A decoder that has handled all its coded symbols has found the difference. -/
theorem Reconciling.perm_of_decoded {R L handled pending : List _} {d : Decoder T}
    (h : Reconciling nextIndex A B R L handled pending d) (hA : A.Nodup) (hB : B.Nodup)
    (hn : 1 ≤ d.coded.length) (hdecoded : d.decoded = true) :
    d.getRemoteSymbols.Perm ((A.filter (fun a => decide (a ∉ B))).map hashed) ∧
      d.getLocalSymbols.Perm ((B.filter (fun b => decide (b ∉ A))).map hashed) := by
  rw [Decoder.decoded, decide_eq_true_eq, h.numDecoded] at hdecoded
  obtain ⟨hremote, hlocal⟩ :=
    Finset.union_eq_empty.mp (h.counting.eq_empty (by omega) hdecoded)
  rw [Decoder.getRemoteSymbols, Decoder.getLocalSymbols, h.remote.symbols, h.local_.symbols]
  exact ⟨(perm_of_unknown_eq_empty hA h.remoteNew hremote).map hashed,
    (perm_of_unknown_eq_empty hB h.localNew hlocal).map hashed⟩

/-- What a decoder says it has decoded is the difference of the two sets. -/
theorem tryDecode_sound (hnext : Increasing nextIndex) (hA : A.Nodup) (hB : B.Nodup)
    (hfree : CollisionFree (A.toFinset ∪ B.toFinset))
    (hrun : (sessions nextIndex A B).Run Machine.Free s) {d : Decoder T}
    (hn : 1 ≤ s.decoder.coded.length)
    (hok : s.decoder.tryDecode nextIndex = some (.ok (), d)) (hdecoded : d.decoded = true) :
    d.getRemoteSymbols.Perm ((A.filter (fun a => decide (a ∉ B))).map hashed) ∧
      d.getLocalSymbols.Perm ((B.filter (fun b => decide (b ∉ A))).map hashed) := by
  obtain ⟨R, L, handled, hdecoder⟩ := (inSession_of_run hnext hA hB hfree hrun).decoder
  obtain ⟨R', L', handled', d', hok', -, hlength, h, -⟩ :=
    tryDecode_ok hnext hfree hdecoder
  rw [hok] at hok'
  obtain rfl : d = d' := congrArg Prod.snd (Option.some.inj hok')
  rw [Decoder.decoded, decide_eq_true_eq, h.numDecoded] at hdecoded
  have hempty := h.counting.eq_empty (by omega) hdecoded
  rw [Finset.union_eq_empty] at hempty
  constructor
  · rw [Decoder.getRemoteSymbols, h.remote.symbols]
    exact (perm_of_unknown_eq_empty hA h.remoteNew hempty.1).map hashed
  · rw [Decoder.getLocalSymbols, h.local_.symbols]
    exact (perm_of_unknown_eq_empty hB h.localNew hempty.2).map hashed

/-- The session of `{1, 2}` and `{2, 3}` is over after two coded symbols. -/
theorem tryDecode_sound_two :
    ∃ s d, (sessions RandomMapping.nextIndex ([1, 2] : List UInt64) [2, 3]).Run
        Machine.Free s ∧
      s.decoder.tryDecode RandomMapping.nextIndex = some (.ok (), d) ∧
      d.getRemoteSymbols.Perm [hashed 1] ∧ d.getLocalSymbols.Perm [hashed 3] := by
  have hunion : ([1, 2] : List UInt64).toFinset ∪ [2, 3].toFinset = {1, 2, 3} := by
    decide +kernel
  have hfree : CollisionFree (([1, 2] : List UInt64).toFinset ∪ [2, 3].toFinset) := by
    rw [hunion]
    constructor
    case injective =>
      have hnodup : (([1, 2, 3] : List UInt64).map Symbol.hash).Nodup := by
        decide +kernel
      exact fun a ha b hb =>
        List.inj_on_of_nodup_map hnodup (by simpa using ha) (by simpa using hb)
    case xor =>
      intro S hsub hcard
      rw [Finset.eq_of_subset_of_card_le hsub hcard]
      decide +kernel
  have hdecodes : ((sessions RandomMapping.nextIndex ([1, 2] : List UInt64) [2, 3]).exec
      (sessions RandomMapping.nextIndex [1, 2] [2, 3]).init [.codedSymbol, .codedSymbol]).map
        (fun s => (s.decoder.coded.length,
          (s.decoder.tryDecode RandomMapping.nextIndex).map
            (fun result => (result.1.isOk, result.2.decoded)))) =
      some (2, some (true, true)) := by
    decide +kernel
  obtain ⟨s, hexec, hs⟩ := Option.map_eq_some_iff.mp hdecodes
  obtain ⟨hlength, hdecode⟩ := Prod.mk.inj hs
  obtain ⟨⟨result, d⟩, hresult, hd⟩ := Option.map_eq_some_iff.mp hdecode
  obtain ⟨hok, hdecoded⟩ := Prod.mk.inj hd
  obtain rfl : result = .ok () := by
    cases result with
    | ok _ => rfl
    | error e => cases hok
  have hrun := Machine.Run.of_exec .init _ hexec
  have hsound := tryDecode_sound increasing_nextIndex (by decide) (by decide) hfree hrun
    (by omega) hresult hdecoded
  exact ⟨s, d, hrun, hresult, hsound⟩

end Sessions

end RatelessIblt
end Peerbit
