import Peerbit.RatelessIblt.RepeatedSymbols

/-!
# Completion

A session is over when every coded symbol has given away its last symbol.  This comes
about as soon as the mappings separate the symbols, each of which is then alone at some
index that has been received.  For no such index is missed by the decoder.
-/

namespace Peerbit
namespace RatelessIblt

open Lib

universe u

section Completion

variable {T : Type u} [Symbol T] [LawfulSymbol T] [DecidableEq T]
variable {nextIndex : RandomMapping → RandomMapping}

/-- Each of these symbols is alone at some index below `n`. -/
def Separates (nextIndex : RandomMapping → RandomMapping) (U : Finset T) (n : Nat) : Prop :=
  ∀ s ∈ U, ∃ i < n, goesTo nextIndex U i = {s}

/-- A session whose decoder has not missed an index. -/
structure Peeling (nextIndex : RandomMapping → RandomMapping) (A B : List T)
    (s : Session T) : Prop where
  encoder : Window nextIndex s.encoder A s.decoder.coded.length
  decoder : ∃ R L handled,
    Reconciling nextIndex A B R L handled s.decoder.decodable s.decoder ∧
      NoneMissed nextIndex (unknown A B R ∪ unknown B A L) s.decoder.coded.length handled
        s.decoder.decodable

variable {A B R L C D : List T} {d : Decoder T} {s : Session T} {X Y : Finset T} {i n : Nat}

omit [LawfulSymbol T] [DecidableEq T] in
/-- What is alone in a set is alone in its subsets. -/
theorem goesTo_of_subset {S U : Finset T} {t : T} (hsub : S ⊆ U) (ht : t ∈ S)
    (halone : goesTo nextIndex U i = {t}) : goesTo nextIndex S i = {t} := by
  have hmaps : t ∈ goesTo nextIndex U i := halone ▸ Finset.mem_singleton_self t
  refine Finset.eq_singleton_iff_unique_mem.mpr
    ⟨mem_goesTo.mpr ⟨ht, (mem_goesTo.mp hmaps).2⟩, fun t' ht' => ?_⟩
  have hmem : t' ∈ goesTo nextIndex U i :=
    mem_goesTo.mpr ⟨hsub (mem_goesTo.mp ht').1, (mem_goesTo.mp ht').2⟩
  rw [halone] at hmem
  exact Finset.mem_singleton.mp hmem

/-- A coded symbol with one unknown symbol or none is put into `decodable`. -/
theorem test_of_light (hlight : (goesTo nextIndex (X ∪ Y) i).card ≤ 1)
    (hdisjoint : Disjoint X Y) :
    ((cell nextIndex X Y i).isSingle ||
      (decide ((cell nextIndex X Y i).count = 0) &&
        decide ((cell nextIndex X Y i).hash = 0))) = true := by
  rcases cell_cases hlight hdisjoint with ⟨x, -, hc⟩ | ⟨y, -, hc⟩ | ⟨-, hc⟩
  · rw [hc, isSingle_coded, Bool.true_or]
  · rw [hc, isSingle_neg_coded, Bool.true_or]
  · rw [hc]
    exact Bool.or_true _

theorem Reconciling.noneMissed_addCodedSymbol (hnext : Increasing nextIndex) (hB : B.Nodup)
    {handled : List Nat} (h : Reconciling nextIndex A B R L handled d.decodable d)
    (hmissed : NoneMissed nextIndex (unknown A B R ∪ unknown B A L) d.coded.length handled
      d.decodable) {sym : CodedSymbol T}
    (hsym : sym = total (goesTo nextIndex A.toFinset d.coded.length)) :
    NoneMissed nextIndex (unknown A B R ∪ unknown B A L) (d.coded.length + 1) handled
      (d.addCodedSymbol nextIndex sym).decodable := by
  obtain ⟨window, remote, local_, -, -, -, heq⟩ := h.received hnext hB hsym
  rw [heq]
  simp only
  split
  · exact hmissed.receive fun _ => List.mem_singleton_self _
  · rename_i hnot
    have hnever : NoneMissed nextIndex (unknown A B R ∪ unknown B A L)
        (d.coded.length + 1) handled (d.decodable ++ []) := hmissed.receive fun hlight =>
      absurd (test_of_light hlight (disjoint_unknown A B R L)) hnot
    rwa [List.append_nil] at hnever

theorem peeling_init (A B : List T) :
    Peeling nextIndex A B (sessions nextIndex A B).init := by
  have hsession : InSession nextIndex A B (sessions nextIndex A B).init :=
    inSession_init A B
  obtain ⟨R, L, handled, h⟩ := hsession.decoder
  refine ⟨hsession.encoder, R, L, handled, h, fun i hi => ?_⟩
  rw [decoder_init] at hi
  exact absurd hi (Nat.not_lt_zero i)

theorem Peeling.step (hnext : Increasing nextIndex) (hA : A.Nodup) (hB : B.Nodup)
    (hfree : CollisionFree (A.toFinset ∪ B.toFinset)) (h : Peeling nextIndex A B s)
    {call : SessionCall} {s' : Session T} (hstep : s.step nextIndex call = some s') :
    Peeling nextIndex A B s' := by
  obtain ⟨R, L, handled, hdecoder, hmissed⟩ := h.decoder
  have hencoder := (InSession.step hnext hA hB hfree ⟨h.encoder, R, L, handled, hdecoder⟩
    hstep).encoder
  refine ⟨hencoder, ?_⟩
  cases call with
  | codedSymbol =>
      obtain rfl := Option.some.inj hstep
      obtain ⟨hsum, -⟩ := h.encoder.apply hnext hA .empty .ADD
      have hsym : (s.encoder.produceNextCodedSymbol nextIndex).1 =
          total (goesTo nextIndex A.toFinset s.decoder.coded.length) :=
        hsum.trans (zero_add _)
      refine ⟨R, L, handled, hdecoder.addCodedSymbol hnext hB hfree hsym, ?_⟩
      rw [Decoder.length_addCodedSymbol]
      exact hdecoder.noneMissed_addCodedSymbol hnext hB hmissed hsym
  | tryDecode =>
      obtain ⟨R', L', handled', d', hok, hnil, hlength, hdecoder', hmissed'⟩ :=
        tryDecode_ok hnext hfree hdecoder
      simp only [Session.step, hok, Option.map_some] at hstep
      obtain rfl := Option.some.inj hstep
      refine ⟨R', L', handled', ?_⟩
      simp only [hnil, hlength]
      exact ⟨hdecoder', hmissed' hmissed⟩

/-- When the mappings separate two sets, and enough coded symbols are received, the
decoder decodes all of them. -/
theorem decoded_of_separates (hnext : Increasing nextIndex)
    (hfree : CollisionFree (A.toFinset ∪ B.toFinset))
    (hseparates : Separates nextIndex (A.toFinset ∪ B.toFinset) n)
    (h : Peeling nextIndex A B s) (hn : n ≤ s.decoder.coded.length) :
    ∃ d, s.decoder.tryDecode nextIndex = some (.ok (), d) ∧ d.decoded = true := by
  obtain ⟨R, L, handled, hdecoder, hmissed⟩ := h.decoder
  obtain ⟨R', L', handled', d, hok, -, hlength, hdecoder', hmissed'⟩ :=
    tryDecode_ok hnext hfree hdecoder
  have hnone := hmissed' hmissed
  refine ⟨d, hok, ?_⟩
  have hempty : unknown A B R' ∪ unknown B A L' = ∅ := by
    -- a symbol that is alone at an index would have been taken out
    by_contra hne
    obtain ⟨t, ht⟩ := Finset.nonempty_iff_ne_empty.mpr hne
    obtain ⟨i, hi, halone⟩ := hseparates t (unknown_subset A B R' L' ht)
    have hsingle := goesTo_of_subset (unknown_subset A B R' L') ht halone
    have hhandled := hnone i (by omega) (by rw [hsingle, Finset.card_singleton])
    rw [List.append_nil] at hhandled
    rw [hdecoder'.counting.empty i hhandled] at hsingle
    exact Finset.singleton_ne_empty t hsingle.symm
  have hle := (List.nodup_range.subperm (hnone.range_subset hempty)).length_le
  have hge := hdecoder'.counting.length_le
  rw [List.length_range] at hle
  rw [Decoder.decoded, decide_eq_true_eq, hdecoder'.numDecoded]
  omega

/-- The same for balanced lists, whose surpluses the mappings separate. -/
theorem decoded_of_run (hnext : Increasing nextIndex) (hbalanced : EvenlyHeld C D)
    (hfree : CollisionFree (differing C D))
    (hseparates : Separates nextIndex (differing C D) n)
    (hrun : (sessions nextIndex C D).Run Machine.Free s) (hn : n ≤ s.decoder.coded.length) :
    ∃ d, s.decoder.tryDecode nextIndex = some (.ok (), d) ∧ d.decoded = true := by
  obtain ⟨s', hrun', halike⟩ := exists_alike hnext hbalanced hfree hrun
  have hpeeling : Peeling nextIndex (surplus C D) (surplus D C) s' :=
    hrun'.invariant (peeling_init _ _) fun _ _ _ h _ hstep =>
      h.step hnext (nodup_surplus C D) (nodup_surplus D C) hfree hstep
  have hlength : s.decoder.coded.length = s'.decoder.coded.length := by rw [halike.decoder]
  obtain ⟨d, hok, hdecoded⟩ :=
    decoded_of_separates hnext hfree hseparates hpeeling (by omega)
  refine ⟨{ d with window := s.decoder.window }, ?_, hdecoded⟩
  rw [halike.decoder, tryDecode_window, hok]
  rfl

end Completion

end RatelessIblt
end Peerbit
