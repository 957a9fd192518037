import Peerbit.RatelessIblt.Completion

/-!
# Unbalanced lists

A symbol that one side holds twice more often than the other one cancels in the
exclusive or, but not in the count.  The decoder takes it out once at most.  So the
coded symbol in which it is alone keeps a count of two or more: it is never handled,
and the decoder is never done.
-/

namespace Peerbit
namespace RatelessIblt

open Lib

universe u

section Parity

variable {T : Type u} [Symbol T] [LawfulSymbol T] [DecidableEq T]
variable {nextIndex : RandomMapping → RandomMapping}

/-- These coded symbols differ by twice a coded symbol. -/
def SameParity (c c' : CodedSymbol T) : Prop :=
  ∃ e : CodedSymbol T, c = c' + (e + e)

/-- What the two lists together hold an odd number of times. -/
def oddly (C D : List T) : Finset T :=
  (differing C D).filter (fun a => ((C.count a : Int) - D.count a) % 2 = 1)

variable {C D : List T} {c c' : CodedSymbol T} {V : Finset T} {x : T} {i j : Nat}

namespace SameParity

omit [DecidableEq T] in
theorem symbol_eq (h : SameParity c c') : c.symbol = c'.symbol := by
  obtain ⟨e, rfl⟩ := h
  rw [symbol_add, symbol_add, LawfulSymbol.xor_self, LawfulSymbol.xor_comm,
    LawfulSymbol.zero_xor]

omit [DecidableEq T] [LawfulSymbol T] in
theorem hash_eq (h : SameParity c c') : c.hash = c'.hash := by
  obtain ⟨e, rfl⟩ := h
  rw [hash_add, hash_add, UInt64.xor_self, UInt64.xor_zero]

omit [DecidableEq T] [LawfulSymbol T] in
theorem count_eq (h : SameParity c c') : ∃ k : Int, c.count = c'.count + 2 * k := by
  obtain ⟨e, rfl⟩ := h
  exact ⟨e.count, by rw [count_add, count_add]; omega⟩

omit [DecidableEq T] in
/-- One symbol more on one side is one less on the other one, up to twice. -/
theorem apply (h : SameParity c c') (direction : Direction) :
    SameParity (c.apply (hashed x) direction) (c' - (hashed x).coded) := by
  obtain ⟨e, rfl⟩ := h
  rw [apply_eq]
  cases direction with
  | ADD => exact ⟨e + (hashed x).coded, by rw [Direction.signed]; abel⟩
  | REMOVE => exact ⟨e, by rw [Direction.signed]; abel⟩

end SameParity

/-- What is left of a coded symbol after the window, by multiplicities. -/
theorem mapped_sub_mapped_eq (C D : List T) (i : Nat) :
    Encoder.mapped nextIndex (C.map hashed) i - Encoder.mapped nextIndex (D.map hashed) i =
      ∑ a ∈ goesTo nextIndex (differing C D) i,
        ((C.count a : Int) - D.count a) • (hashed a).coded := by
  classical
  simp only [Encoder.mapped, List.map_map]
  rw [sum_sub_sum, goesTo, Finset.sum_filter]
  refine Finset.sum_congr rfl fun a _ => ?_
  by_cases hmaps : Maps nextIndex (Symbol.hash a) i
  · rw [if_pos hmaps, Function.comp_apply, if_pos (show Maps nextIndex (hashed a).hash i from
      hmaps)]
  · rw [if_neg hmaps, Function.comp_apply, if_neg (show ¬ Maps nextIndex (hashed a).hash i from
      hmaps), zsmul_zero]

omit [LawfulSymbol T] in
theorem goesTo_oddly (C D : List T) (i : Nat) :
    goesTo nextIndex (oddly C D) i = (goesTo nextIndex (differing C D) i).filter
      (fun a => ((C.count a : Int) - D.count a) % 2 = 1) := by
  ext a
  simp only [mem_goesTo, oddly, Finset.mem_filter]
  tauto

/-- What is held an odd number of times is left, up to twice. -/
theorem sameParity_mapped (C D : List T) (i : Nat) :
    SameParity
      (Encoder.mapped nextIndex (C.map hashed) i - Encoder.mapped nextIndex (D.map hashed) i)
      (total (goesTo nextIndex (oddly C D) i)) := by
  refine ⟨∑ a ∈ goesTo nextIndex (differing C D) i,
    (((C.count a : Int) - D.count a) / 2) • (hashed a).coded, ?_⟩
  rw [mapped_sub_mapped_eq, goesTo_oddly, total, Finset.sum_filter, ← Finset.sum_add_distrib,
    ← Finset.sum_add_distrib]
  refine Finset.sum_congr rfl fun a _ => ?_
  have hdivided := Int.emod_add_mul_ediv ((C.count a : Int) - D.count a) 2
  generalize (C.count a : Int) - D.count a = n at hdivided ⊢
  rw [← add_zsmul]
  split
  · rename_i hodd
    rw [← one_add_zsmul]
    congr 1
    omega
  · rw [zero_add]
    congr 1
    omega

/-- The count, as a map of groups. -/
def countHom : CodedSymbol T →+ Int where
  toFun := CodedSymbol.count
  map_zero' := rfl
  map_add' := count_add

/-- The coded symbol in which a symbol is alone holds its multiplicity. -/
theorem count_of_alone {a : T} (halone : goesTo nextIndex (differing C D) i = {a}) :
    (Encoder.mapped nextIndex (C.map hashed) i -
      Encoder.mapped nextIndex (D.map hashed) i).count = (C.count a : Int) - D.count a := by
  have hsmul := map_zsmul countHom ((C.count a : Int) - D.count a) (hashed a).coded
  rw [mapped_sub_mapped_eq, halone, Finset.sum_singleton]
  exact hsmul.trans (mul_one _)

/-! ### Cells up to twice -/

omit [DecidableEq T] in
theorem SameParity.odd_of_isSingle (h : SameParity c (total V)) (hsingle : c.isSingle = true) :
    V.card % 2 = 1 := by
  obtain ⟨k, hk⟩ := h.count_eq
  rw [count_total] at hk
  rw [CodedSymbol.isSingle, Bool.and_eq_true, Bool.or_eq_true, decide_eq_true_eq,
    decide_eq_true_eq] at hsingle
  omega

omit [DecidableEq T] in
/-- What looks like one symbol is one symbol, up to twice. -/
theorem SameParity.card_of_isSingle {U : Finset T} (hfree : CollisionFree U) (hV : V ⊆ U)
    (h : SameParity c (total V)) (hsingle : c.isSingle = true) : V.card = 1 := by
  have hodd := h.odd_of_isSingle hsingle
  rw [CodedSymbol.isSingle, Bool.and_eq_true, decide_eq_true_eq, h.hash_eq,
    h.symbol_eq] at hsingle
  by_contra hne
  exact (hfree.xor V hV (by omega)).2 hsingle.2

/-- What looks empty is empty, up to twice. -/
theorem SameParity.card_of_zero {U : Finset T} (hfree : CollisionFree U) (hV : V ⊆ U)
    (h : SameParity c (total V)) (hcount : c.count = 0) (hhash : c.hash = 0) :
    V.card = 0 := by
  obtain ⟨k, hk⟩ := h.count_eq
  rw [count_total] at hk
  rw [h.hash_eq] at hhash
  by_contra hne
  by_cases hthree : 3 ≤ V.card
  · exact (hfree.xor V hV hthree).1 hhash
  · -- two symbols with the same hash
    obtain ⟨p, q, hpq, rfl⟩ := Finset.card_eq_two.mp (show V.card = 2 by omega)
    rw [total, Finset.sum_pair hpq, hash_add] at hhash
    have heq : Symbol.hash p = Symbol.hash q := UInt64.xor_eq_zero_iff.mp hhash
    exact hpq (hfree.injective (hV (by simp)) (hV (by simp)) heq)

/-! ### The decoder -/

/-- A decoder of which the symbols of `V` are left an odd number of times, and whose
coded symbol `j` does not wait. -/
structure Stuck (nextIndex : RandomMapping → RandomMapping) (U V : Finset T) (j : Nat)
    (d : Decoder T) : Prop where
  subset : V ⊆ U
  coded : ∀ i c, d.coded[i]? = some c → SameParity c (total (goesTo nextIndex V i))
  nodup : d.decodable.Nodup
  light : ∀ i ∈ d.decodable,
    i < d.coded.length ∧ (goesTo nextIndex V i).card ≤ 1 ∧ i ≠ j
  heavy : ∃ c, d.coded[j]? = some c ∧
    ((goesTo nextIndex V j).card : Int) + 2 ≤ c.count.natAbs

variable {U : Finset T} {d : Decoder T} {cidx : Nat}

omit [DecidableEq T] in
/-- A coded symbol with the count one or minus one gives away what is left in it. -/
theorem Stuck.exists_single (h : Stuck nextIndex U V j d) (hcidx : cidx ∈ d.decodable)
    (hc : d.coded[cidx]? = some c) (hcount : c.count = 1 ∨ c.count = -1) :
    ∃ x, goesTo nextIndex V cidx = {x} ∧ c.symbol = x ∧ c.hash = Symbol.hash x := by
  have hparity := h.coded cidx c hc
  obtain ⟨k, hk⟩ := hparity.count_eq
  rw [count_total] at hk
  have hlight := (h.light cidx hcidx).2.1
  obtain ⟨x, hx⟩ := Finset.card_eq_one.mp
    (show (goesTo nextIndex V cidx).card = 1 by omega)
  rw [hx, total_singleton] at hparity
  exact ⟨x, hx, hparity.symbol_eq, hparity.hash_eq⟩

/-- The coded symbols after a symbol is taken out of them. -/
theorem Stuck.coded_taken (h : Stuck nextIndex U V j d) (hx : x ∈ V) {direction : Direction}
    {applied : RandomMapping × List (CodedSymbol T) × List Nat}
    (htakes : TakesOut nextIndex (hashed x) direction 0 d.coded d.decodable applied)
    (hc : applied.2.1[i]? = some c) :
    SameParity c (total (goesTo nextIndex (V.erase x) i)) := by
  have hlt := (List.getElem?_eq_some_iff.mp hc).1
  have hold := List.getElem?_eq_getElem (l := d.coded) (htakes.length ▸ hlt)
  by_cases hmaps : Maps nextIndex (Symbol.hash x) i
  · have hnew := htakes.mapped i _ hold (Nat.zero_le i) hmaps
    rw [hc] at hnew
    rw [Option.some.inj hnew, total_goesTo_erase hx hmaps]
    exact (h.coded i _ hold).apply direction
  · have hnew := htakes.others i (.inr hmaps)
    rw [hc, hold] at hnew
    rw [Option.some.inj hnew, goesTo_erase_of_not_maps V hmaps]
    exact h.coded i _ hold

/-- The count of the coded symbol `j` stays above what is left in it. -/
theorem Stuck.heavy_taken (h : Stuck nextIndex U V j d) (hx : x ∈ V) {direction : Direction}
    {applied : RandomMapping × List (CodedSymbol T) × List Nat}
    (htakes : TakesOut nextIndex (hashed x) direction 0 d.coded d.decodable applied) :
    ∃ c, applied.2.1[j]? = some c ∧
      ((goesTo nextIndex (V.erase x) j).card : Int) + 2 ≤ c.count.natAbs := by
  obtain ⟨c, hc, hheavy⟩ := h.heavy
  by_cases hmaps : Maps nextIndex (Symbol.hash x) j
  · refine ⟨_, htakes.mapped j c hc (Nat.zero_le j) hmaps, ?_⟩
    have hcard := Finset.card_erase_add_one (mem_goesTo.mpr ⟨hx, hmaps⟩)
    rw [goesTo_erase]
    cases direction with
    | ADD =>
        simp only [CodedSymbol.apply, Direction.count]
        omega
    | REMOVE =>
        simp only [CodedSymbol.apply, Direction.count]
        omega
  · refine ⟨c, (htakes.others j (.inr hmaps)).trans hc, ?_⟩
    rw [goesTo_erase_of_not_maps V hmaps]
    exact hheavy

/-- A symbol is taken out, on either side. -/
theorem Stuck.taken (hnext : Increasing nextIndex) (hfree : CollisionFree U)
    (h : Stuck nextIndex U V j d) (hx : x ∈ V) (direction : Direction) :
    ∃ mapp coded singles,
      d.applyNewSymbol nextIndex (hashed x) direction =
        (mapp, coded, d.decodable ++ singles) ∧
      coded.length = d.coded.length ∧
      Stuck nextIndex U (V.erase x) j
        { d with coded := coded, decodable := d.decodable ++ singles } := by
  have htakes : TakesOut nextIndex (hashed x) direction 0 d.coded d.decodable
      (d.applyNewSymbol nextIndex (hashed x) direction) :=
    applyNewLoop_spec hnext (ahead_start nextIndex _) (Nat.zero_le _) (by omega)
  obtain ⟨⟨mapp, coded, decodable⟩, happlied⟩ :
      ∃ applied, d.applyNewSymbol nextIndex (hashed x) direction = applied := ⟨_, rfl⟩
  rw [happlied] at htakes ⊢
  obtain ⟨singles, rfl, hsorted, hsingles⟩ := htakes.decodable
  obtain ⟨heavy, hheavy, hcount⟩ := h.heavy_taken hx htakes
  have hsub : V.erase x ⊆ U := (Finset.erase_subset x V).trans h.subset
  have hcard : ∀ i, x ∈ goesTo nextIndex V i →
      (goesTo nextIndex (V.erase x) i).card + 1 = (goesTo nextIndex V i).card := by
    intro i hi
    rw [goesTo_erase]
    exact Finset.card_erase_add_one hi
  have hone : ∀ i ∈ singles, (goesTo nextIndex (V.erase x) i).card = 1 := by
    intro i hi
    obtain ⟨-, -, c, hc, hsingle⟩ := hsingles i hi
    exact (h.coded_taken hx htakes hc).card_of_isSingle hfree
      ((goesTo_subset _ i).trans hsub) hsingle
  refine ⟨mapp, coded, singles, rfl, htakes.length, hsub,
    fun i c hc => h.coded_taken hx htakes hc, ?_, fun i hi => ?_, heavy, hheavy, hcount⟩
  · refine List.nodup_append.mpr ⟨h.nodup, hsorted.imp Nat.ne_of_lt, ?_⟩
    rintro i hi i' hi' rfl
    -- two symbols were left, so that the index did not wait yet
    obtain ⟨-, hmaps, -⟩ := hsingles i hi'
    have htwo := hcard i (mem_goesTo.mpr ⟨hx, hmaps⟩)
    have hlight := (h.light i hi).2.1
    have hleft := hone i hi'
    omega
  · rcases List.mem_append.mp hi with hi | hi
    · obtain ⟨hlt, hlight, hne⟩ := h.light i hi
      refine ⟨htakes.length ▸ hlt, Nat.le_trans ?_ hlight, hne⟩
      rw [goesTo_erase]
      exact Finset.card_erase_le
    · obtain ⟨-, -, c, hc, hsingle⟩ := hsingles i hi
      refine ⟨(List.getElem?_eq_some_iff.mp hc).1, Nat.le_of_eq (hone i hi), ?_⟩
      rintro rfl
      rw [hc] at hheavy
      obtain rfl := Option.some.inj hheavy
      rw [CodedSymbol.isSingle, Bool.and_eq_true, Bool.or_eq_true, decide_eq_true_eq,
        decide_eq_true_eq] at hsingle
      omega

/-- A coded symbol is handled that gives away its symbol. -/
theorem Stuck.recover (hnext : Increasing nextIndex) (hfree : CollisionFree U)
    (h : Stuck nextIndex U V j d) (hx : x ∈ V) (hsymbol : c.symbol = x)
    (hhash : c.hash = Symbol.hash x) (isRemote : Bool) :
    Stuck nextIndex U (V.erase x) j (d.recover nextIndex c isRemote) ∧
      (d.recover nextIndex c isRemote).coded.length = d.coded.length ∧
      d.decodable.length ≤ (d.recover nextIndex c isRemote).decodable.length ∧
      (d.recover nextIndex c isRemote).numDecoded = d.numDecoded + 1 := by
  obtain ⟨mapp, coded, singles, happlied, hlength, hstuck⟩ :=
    h.taken hnext hfree hx (if isRemote then .REMOVE else .ADD)
  have hsym : ({ symbol := Symbol.xor Symbol.zero c.symbol, hash := c.hash } :
      HashedSymbol T) = hashed x := by
    rw [hsymbol, hhash, LawfulSymbol.zero_xor]
    rfl
  simp only [Decoder.recover, hsym, happlied]
  refine ⟨⟨hstuck.subset, hstuck.coded, hstuck.nodup, hstuck.light, hstuck.heavy⟩, hlength, ?_,
    trivial⟩
  rw [List.length_append]
  omega

omit [DecidableEq T] in
/-- The indices that wait are fewer than the coded symbols. -/
theorem Stuck.length_lt (h : Stuck nextIndex U V j d) :
    d.decodable.length < d.coded.length := by
  have hnodup : (j :: d.decodable).Nodup :=
    List.nodup_cons.mpr ⟨fun hj => (h.light j hj).2.2 rfl, h.nodup⟩
  have hsub : j :: d.decodable ⊆ List.range d.coded.length := by
    intro i hi
    rw [List.mem_range]
    rcases List.mem_cons.mp hi with rfl | hi
    · obtain ⟨c, hc, -⟩ := h.heavy
      exact (List.getElem?_eq_some_iff.mp hc).1
    · exact (h.light i hi).1
  have hle := (hnodup.subperm hsub).length_le
  rw [List.length_cons, List.length_range] at hle
  omega

/-- The loop handles what waits, which does not become all coded symbols. -/
theorem Stuck.tryDecodeLoop (hnext : Increasing nextIndex) (hfree : CollisionFree U)
    {fuel didx : Nat} {d' : Decoder T} (h : Stuck nextIndex U V j d)
    (hnum : d.numDecoded = didx) (hdidx : didx ≤ d.decodable.length)
    (hok : d.tryDecodeLoop nextIndex fuel didx = some (.ok (), d')) :
    d'.decoded = false := by
  induction fuel generalizing d V didx with
  | zero => cases hok
  | succ fuel ih =>
      rw [Decoder.tryDecodeLoop] at hok
      cases hcidx : d.decodable[didx]? with
      | none =>
          rw [hcidx] at hok
          obtain rfl := (Prod.mk.inj (Option.some.inj hok)).2
          have hend := List.getElem?_eq_none_iff.mp hcidx
          have hlt := h.length_lt
          simp only [Decoder.decoded, decide_eq_false_iff_not]
          omega
      | some cidx =>
          have hmem := List.mem_of_getElem? hcidx
          have hlt := (List.getElem?_eq_some_iff.mp hcidx).1
          cases hc : d.coded[cidx]? with
          | none =>
              rw [hcidx] at hok
              simp only [hc] at hok
              cases hok
          | some c =>
              rw [hcidx] at hok
              simp only [hc] at hok
              have hrecover : ∀ isRemote, (c.count = 1 ∨ c.count = -1) →
                  (d.recover nextIndex c isRemote).tryDecodeLoop nextIndex fuel (didx + 1) =
                    some (.ok (), d') → d'.decoded = false := by
                intro isRemote hcount hok
                obtain ⟨x, hx, hsymbol, hhash⟩ := h.exists_single hmem hc hcount
                have hxV : x ∈ V :=
                  (mem_goesTo.mp (hx ▸ Finset.mem_singleton_self x)).1
                obtain ⟨hstuck, hlength, hmore, hnum'⟩ :=
                  h.recover hnext hfree hxV hsymbol hhash isRemote
                exact ih hstuck (by omega) (by omega) hok
              split at hok
              · rename_i hone
                exact hrecover true (.inl hone) hok
              · split at hok
                · rename_i hone
                  exact hrecover false (.inr hone) hok
                · split at hok
                  · exact ih (d := { d with numDecoded := d.numDecoded + 1 })
                      ⟨h.subset, h.coded, h.nodup, h.light, h.heavy⟩ (congrArg (· + 1) hnum)
                      hlt hok
                  · cases hok

/-! ### Coded symbols that are received only -/

/-- A session that has not tried to decode yet. -/
structure Received (nextIndex : RandomMapping → RandomMapping) (C D : List T)
    (s : Session T) : Prop where
  encoder : Window nextIndex s.encoder C s.decoder.coded.length
  window : Window nextIndex s.decoder.window D s.decoder.coded.length
  remote : Window nextIndex s.decoder.remote [] s.decoder.coded.length
  local_ : Window nextIndex s.decoder.local_ [] s.decoder.coded.length
  coded : ∀ i c, s.decoder.coded[i]? = some c →
    c = Encoder.mapped nextIndex (C.map hashed) i - Encoder.mapped nextIndex (D.map hashed) i
  nodup : s.decoder.decodable.Nodup
  decodable : ∀ i ∈ s.decoder.decodable, ∃ c, s.decoder.coded[i]? = some c ∧
    (c.isSingle || (decide (c.count = 0) && decide (c.hash = 0))) = true
  numDecoded : s.decoder.numDecoded = 0

variable {s : Session T} {n : Nat}

omit [DecidableEq T] in
theorem received_init (C D : List T) :
    Received nextIndex C D (sessions nextIndex C D).init := by
  have hempty : Window nextIndex (.empty : Encoder T) [] 0 := ⟨Encoder.ready_empty, rfl, rfl⟩
  constructor
  case encoder =>
    rw [decoder_init]
    exact window_foldl C
  case window =>
    rw [decoder_init]
    exact window_foldl D
  case remote =>
    rw [decoder_init]
    exact hempty
  case local_ =>
    rw [decoder_init]
    exact hempty
  case coded =>
    intro i c hc
    rw [decoder_init] at hc
    cases hc
  case nodup =>
    rw [decoder_init]
    exact .nil
  case decodable =>
    intro i hi
    rw [decoder_init] at hi
    cases hi
  case numDecoded => rw [decoder_init]; rfl

omit [DecidableEq T] in
theorem Received.step (hnext : Increasing nextIndex) (h : Received nextIndex C D s)
    {s' : Session T} (hstep : s.step nextIndex .codedSymbol = some s') :
    Received nextIndex C D s' ∧
      s'.decoder.coded.length = s.decoder.coded.length + 1 := by
  obtain rfl := Option.some.inj hstep
  obtain ⟨henc, hencoder⟩ := h.encoder.apply_list hnext .empty .ADD
  obtain ⟨hwin, hwindow⟩ := h.window.apply_list hnext
    (s.encoder.produceNextCodedSymbol nextIndex).1 .REMOVE
  obtain ⟨hrem, hremote⟩ := h.remote.apply_list hnext
    (s.decoder.window.applyWindow nextIndex
      (s.encoder.produceNextCodedSymbol nextIndex).1 .REMOVE).1 .REMOVE
  obtain ⟨hloc, hlocal⟩ := h.local_.apply_list hnext
    (s.decoder.remote.applyWindow nextIndex (s.decoder.window.applyWindow nextIndex
      (s.encoder.produceNextCodedSymbol nextIndex).1 .REMOVE).1 .REMOVE).1 .ADD
  have hcell := hloc.trans (show _ =
      Encoder.mapped nextIndex (C.map hashed) s.decoder.coded.length -
        Encoder.mapped nextIndex (D.map hashed) s.decoder.coded.length by
    rw [hrem, hwin, Encoder.produceNextCodedSymbol, henc]
    have hnothing : Encoder.mapped nextIndex (([] : List T).map hashed)
        s.decoder.coded.length = 0 := rfl
    have hzero : (CodedSymbol.empty : CodedSymbol T) = 0 := rfl
    simp only [Direction.signed, hnothing, hzero]
    abel)
  have hadded : s.decoder.addCodedSymbol nextIndex
      (s.encoder.produceNextCodedSymbol nextIndex).1 =
        let c := Encoder.mapped nextIndex (C.map hashed) s.decoder.coded.length -
          Encoder.mapped nextIndex (D.map hashed) s.decoder.coded.length
        { s.decoder with
          window := (s.decoder.window.applyWindow nextIndex
            (s.encoder.produceNextCodedSymbol nextIndex).1 .REMOVE).2
          remote := (s.decoder.remote.applyWindow nextIndex
            (s.decoder.window.applyWindow nextIndex
              (s.encoder.produceNextCodedSymbol nextIndex).1 .REMOVE).1 .REMOVE).2
          local_ := (s.decoder.local_.applyWindow nextIndex
            (s.decoder.remote.applyWindow nextIndex (s.decoder.window.applyWindow nextIndex
              (s.encoder.produceNextCodedSymbol nextIndex).1 .REMOVE).1 .REMOVE).1 .ADD).2
          coded := s.decoder.coded ++ [c]
          decodable :=
            if c.isSingle || (decide (c.count = 0) && decide (c.hash = 0)) then
              s.decoder.decodable ++ [s.decoder.coded.length]
            else s.decoder.decodable } := by
    simp only [Decoder.addCodedSymbol]
    rw [hcell]
  have hlt : ∀ i ∈ s.decoder.decodable, i < s.decoder.coded.length := by
    intro i hi
    obtain ⟨c, hc, -⟩ := h.decodable i hi
    exact (List.getElem?_eq_some_iff.mp hc).1
  rw [hadded]
  refine ⟨?_, List.length_append⟩
  constructor
  case encoder => simpa [Encoder.produceNextCodedSymbol] using hencoder
  case window => simpa using hwindow
  case remote => simpa using hremote
  case local_ => simpa using hlocal
  case coded =>
    intro i c hc
    simp only at hc
    rcases Nat.lt_or_ge i s.decoder.coded.length with hi | hi
    · rw [List.getElem?_append_left hi] at hc
      exact h.coded i c hc
    · have hle := (List.getElem?_eq_some_iff.mp hc).1
      rw [List.length_append, List.length_singleton] at hle
      obtain rfl : i = s.decoder.coded.length := by omega
      rw [List.getElem?_concat_length] at hc
      exact (Option.some.inj hc).symm
  case nodup =>
    simp only
    split
    · refine List.nodup_append.mpr ⟨h.nodup, List.nodup_singleton _, ?_⟩
      rintro i hi i' hi' rfl
      have hless := hlt i hi
      rw [List.mem_singleton.mp hi'] at hless
      omega
    · exact h.nodup
  case decodable =>
    have hold : ∀ i ∈ s.decoder.decodable, ∃ c,
        (s.decoder.coded ++ [Encoder.mapped nextIndex (C.map hashed) s.decoder.coded.length -
          Encoder.mapped nextIndex (D.map hashed) s.decoder.coded.length])[i]? = some c ∧
        (c.isSingle || (decide (c.count = 0) && decide (c.hash = 0))) = true := by
      intro i hi
      obtain ⟨c, hc, htest⟩ := h.decodable i hi
      exact ⟨c, by rwa [List.getElem?_append_left (hlt i hi)], htest⟩
    intro i hi
    simp only at hi
    split at hi
    · rename_i htest
      rcases List.mem_append.mp hi with hi | hi
      · exact hold i hi
      · rw [List.mem_singleton.mp hi]
        exact ⟨_, List.getElem?_concat_length, htest⟩
    · exact hold i hi
  case numDecoded => exact h.numDecoded

omit [DecidableEq T] in
/-- There is a session with as many coded symbols as one likes, and no try to decode. -/
theorem exists_received (hnext : Increasing nextIndex) (C D : List T) (n : Nat) :
    ∃ s, (sessions nextIndex C D).Run Machine.Free s ∧ s.decoder.coded.length = n ∧
      Received nextIndex C D s := by
  induction n with
  | zero =>
      refine ⟨_, .init, ?_, received_init C D⟩
      rw [decoder_init]
      rfl
  | succ n ih =>
      obtain ⟨s, hrun, hlength, h⟩ := ih
      obtain ⟨h', hlength'⟩ := h.step hnext rfl
      exact ⟨_, .step (a := .codedSymbol) hrun trivial rfl, by rw [hlength', hlength], h'⟩

/-- The index at which a symbol is alone that is held twice more often. -/
theorem Received.stuck (h : Received nextIndex C D s) (hfree : CollisionFree (differing C D))
    {a : T} (halone : goesTo nextIndex (differing C D) j = {a})
    (hj : j < s.decoder.coded.length) (htwice : 2 ≤ ((C.count a : Int) - D.count a).natAbs) :
    Stuck nextIndex (differing C D) (oddly C D) j s.decoder := by
  have hsub : oddly C D ⊆ differing C D := Finset.filter_subset _ _
  have hcoded : ∀ i c, s.decoder.coded[i]? = some c →
      SameParity c (total (goesTo nextIndex (oddly C D) i)) := by
    intro i c hc
    rw [h.coded i c hc]
    exact sameParity_mapped C D i
  have hgoes : ∀ i, goesTo nextIndex (oddly C D) i ⊆ differing C D := fun i =>
    (goesTo_subset _ i).trans hsub
  obtain ⟨c, hc⟩ : ∃ c, s.decoder.coded[j]? = some c := ⟨_, List.getElem?_eq_getElem hj⟩
  have hheavy : ((goesTo nextIndex (oddly C D) j).card : Int) + 2 ≤ c.count.natAbs := by
    rw [h.coded j c hc, count_of_alone halone, goesTo_oddly, halone, Finset.filter_singleton]
    split
    · rw [Finset.card_singleton]
      omega
    · rw [Finset.card_empty]
      omega
  refine ⟨hsub, hcoded, h.nodup, fun i hi => ?_, c, hc, hheavy⟩
  obtain ⟨c', hc', htest⟩ := h.decodable i hi
  have hlight : (goesTo nextIndex (oddly C D) i).card ≤ 1 := by
    rcases Bool.or_eq_true_iff.mp htest with hsingle | hzero
    · exact Nat.le_of_eq ((hcoded i c' hc').card_of_isSingle hfree (hgoes i) hsingle)
    · rw [Bool.and_eq_true, decide_eq_true_eq, decide_eq_true_eq] at hzero
      rw [(hcoded i c' hc').card_of_zero hfree (hgoes i) hzero.1 hzero.2]
      exact Nat.zero_le 1
  refine ⟨(List.getElem?_eq_some_iff.mp hc').1, hlight, ?_⟩
  rintro rfl
  rw [hc] at hc'
  obtain rfl := Option.some.inj hc'
  simp only [CodedSymbol.isSingle, Bool.or_eq_true, Bool.and_eq_true, decide_eq_true_eq]
    at htest
  omega

/-- **Lists that are not balanced are never decoded**, however many coded symbols are
received. -/
theorem exists_not_decoded (hnext : Increasing nextIndex)
    (hfree : CollisionFree (differing C D))
    (hseparates : Separates nextIndex (differing C D) n) (hnot : ¬ EvenlyHeld C D) {m : Nat}
    (hm : n ≤ m) :
    ∃ s, (sessions nextIndex C D).Run Machine.Free s ∧ s.decoder.coded.length = m ∧
      ∀ d, s.decoder.tryDecode nextIndex = some (.ok (), d) → d.decoded = false := by
  rw [EvenlyHeld, not_forall] at hnot
  obtain ⟨a, ha⟩ := hnot
  obtain ⟨j, hj, halone⟩ := hseparates a (mem_differing.mpr (by omega))
  obtain ⟨s, hrun, hlength, h⟩ := exists_received hnext C D m
  have hstuck := h.stuck hfree halone (by omega) (by omega)
  exact ⟨s, hrun, hlength, fun d hok =>
    hstuck.tryDecodeLoop hnext hfree h.numDecoded (Nat.zero_le _) hok⟩

end Parity

end RatelessIblt
end Peerbit
