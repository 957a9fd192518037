import Peerbit.Lib.Surplus
import Peerbit.RatelessIblt.Sessions

/-!
# Repeated symbols

An encoder and a decoder may be given a symbol more than once.  In a coded symbol
what both sides hold equally often cancels.  So a session of two balanced lists goes
like the session of their surpluses, which are sets: at each call the decoders differ
in nothing but their windows.
-/

namespace Peerbit
namespace RatelessIblt

open Lib

universe u

section Repeated

variable {T : Type u} [Symbol T] [LawfulSymbol T] [DecidableEq T]
variable {nextIndex : RandomMapping → RandomMapping} {A B C D : List T}
variable {s s' : Session T}

/-- What is left of a coded symbol of one list after the window of the other. -/
theorem mapped_sub_mapped (h : EvenlyHeld C D) (i : Nat) :
    Encoder.mapped nextIndex (C.map hashed) i - Encoder.mapped nextIndex (D.map hashed) i =
      Encoder.mapped nextIndex ((surplus C D).map hashed) i -
        Encoder.mapped nextIndex ((surplus D C).map hashed) i := by
  simp only [Encoder.mapped, List.map_map]
  exact h.sum_sub_sum _

/-- A session of the lists beside a session of their surpluses: the decoders differ in
their windows only. -/
structure Alike (nextIndex : RandomMapping → RandomMapping) (C D : List T)
    (s s' : Session T) : Prop where
  encoder : Window nextIndex s.encoder C s.decoder.coded.length
  window : Window nextIndex s.decoder.window D s.decoder.coded.length
  surpluses : InSession nextIndex (surplus C D) (surplus D C) s'
  decoder : s.decoder = { s'.decoder with window := s.decoder.window }

theorem alike_init (C D : List T) :
    Alike nextIndex C D (sessions nextIndex C D).init
      (sessions nextIndex (surplus C D) (surplus D C)).init := by
  constructor
  case encoder =>
    rw [decoder_init]
    exact window_foldl C
  case window =>
    rw [decoder_init]
    exact window_foldl D
  case surpluses => exact inSession_init _ _
  case decoder => rw [decoder_init, decoder_init]

/-- After their windows two decoders that are alike have the same coded symbol. -/
theorem Alike.received (hnext : Increasing nextIndex) (hbalanced : EvenlyHeld C D)
    (h : Alike nextIndex C D s s') :
    (s.decoder.window.applyWindow nextIndex
        (s.encoder.produceNextCodedSymbol nextIndex).1 .REMOVE).1 =
      (s'.decoder.window.applyWindow nextIndex
        (s'.encoder.produceNextCodedSymbol nextIndex).1 .REMOVE).1 := by
  have hlength : s.decoder.coded.length = s'.decoder.coded.length := by rw [h.decoder]
  have hside : ∀ {A B : List T} {e w : Encoder T} {n : Nat}, Window nextIndex e A n →
      Window nextIndex w B n →
      (w.applyWindow nextIndex (e.produceNextCodedSymbol nextIndex).1 .REMOVE).1 =
        Encoder.mapped nextIndex (A.map hashed) n -
          Encoder.mapped nextIndex (B.map hashed) n := by
    intro A B e w n he hw
    rw [(hw.apply_list hnext _ .REMOVE).1, Encoder.produceNextCodedSymbol,
      (he.apply_list hnext _ .ADD).1, sub_eq_add_neg]
    exact congrArg (· + _) (zero_add _)
  obtain ⟨R, L, handled, hdecoder⟩ := h.surpluses.decoder
  rw [hside h.encoder h.window, hside h.surpluses.encoder hdecoder.window, hlength,
    mapped_sub_mapped hbalanced]

omit [LawfulSymbol T] [DecidableEq T] in
theorem tryDecodeLoop_window (fuel didx : Nat) (d : Decoder T) (window : Encoder T) :
    ({ d with window := window }.tryDecodeLoop nextIndex fuel didx) =
      (d.tryDecodeLoop nextIndex fuel didx).map
        (fun result => (result.1, { result.2 with window := window })) := by
  induction fuel generalizing d didx with
  | zero => rfl
  | succ fuel ih =>
      rw [Decoder.tryDecodeLoop, Decoder.tryDecodeLoop]
      cases d.decodable[didx]? with
      | none => simp only [Option.map_some]
      | some cidx =>
          cases hcidx : d.coded[cidx]? with
          | none => simp only [hcidx, Option.map_none]
          | some sym =>
              simp only [hcidx]
              split
              · exact ih (didx + 1) (d.recover nextIndex sym true)
              · split
                · exact ih (didx + 1) (d.recover nextIndex sym false)
                · split
                  · exact ih (didx + 1) { d with numDecoded := d.numDecoded + 1 }
                  · rfl

omit [LawfulSymbol T] [DecidableEq T] in
/-- `try_decode` neither uses the window nor changes it. -/
theorem tryDecode_window (d : Decoder T) (window : Encoder T) :
    { d with window := window }.tryDecode nextIndex =
      (d.tryDecode nextIndex).map
        (fun result => (result.1, { result.2 with window := window })) :=
  tryDecodeLoop_window _ 0 d window

variable (hnext : Increasing nextIndex) (hbalanced : EvenlyHeld C D)
variable (hfree : CollisionFree (differing C D))

include hnext hbalanced hfree

/-- The same call keeps sessions alike. -/
theorem Alike.step (h : Alike nextIndex C D s s') {call : SessionCall} {t : Session T}
    (hstep : s.step nextIndex call = some t) :
    ∃ t', s'.step nextIndex call = some t' ∧ Alike nextIndex C D t t' := by
  have hsurpluses : ∀ t', s'.step nextIndex call = some t' →
      InSession nextIndex (surplus C D) (surplus D C) t' := fun t' hstep' =>
    h.surpluses.step hnext (nodup_surplus C D) (nodup_surplus D C) hfree hstep'
  cases call with
  | codedSymbol =>
      obtain rfl := Option.some.inj hstep
      have hreceived := h.received hnext hbalanced
      refine ⟨_, rfl, ?_, ?_, hsurpluses _ rfl, ?_⟩
      · rw [Decoder.length_addCodedSymbol]
        exact (h.encoder.apply_list hnext _ .ADD).2
      · rw [Decoder.length_addCodedSymbol]
        exact (h.window.apply_list hnext _ .REMOVE).2
      · have hremote : s.decoder.remote = s'.decoder.remote := by rw [h.decoder]
        have hlocal : s.decoder.local_ = s'.decoder.local_ := by rw [h.decoder]
        have hcoded : s.decoder.coded = s'.decoder.coded := by rw [h.decoder]
        have hdecodable : s.decoder.decodable = s'.decoder.decodable := by rw [h.decoder]
        have hnum : s.decoder.numDecoded = s'.decoder.numDecoded := by rw [h.decoder]
        simp only [Decoder.addCodedSymbol, hreceived, hremote, hlocal, hcoded, hdecodable,
          hnum]
  | tryDecode =>
      obtain ⟨⟨result, d⟩, hdecode, rfl⟩ := Option.map_eq_some_iff.mp hstep
      rw [h.decoder, tryDecode_window] at hdecode
      obtain ⟨⟨result', d'⟩, hdecode', heq⟩ := Option.map_eq_some_iff.mp hdecode
      obtain ⟨-, rfl⟩ := Prod.mk.inj heq
      have hstep' : s'.step nextIndex .tryDecode = some { s' with decoder := d' } := by
        rw [Session.step, hdecode']
        rfl
      obtain ⟨R, L, handled, hdecoder⟩ := h.surpluses.decoder
      obtain ⟨_, _, _, _, hok, -, hlength, -, -⟩ := tryDecode_ok hnext hfree hdecoder
      rw [hdecode'] at hok
      obtain ⟨-, rfl⟩ := Prod.mk.inj (Option.some.inj hok)
      have hsame : d'.coded.length = s.decoder.coded.length := by
        rw [hlength, h.decoder]
      refine ⟨_, hstep', ?_, ?_, hsurpluses _ hstep', rfl⟩
      · rw [hsame]
        exact h.encoder
      · rw [hsame]
        exact h.window

/-- A session of the lists goes like one of their surpluses. -/
theorem exists_alike (hrun : (sessions nextIndex C D).Run Machine.Free s) :
    ∃ s', (sessions nextIndex (surplus C D) (surplus D C)).Run Machine.Free s' ∧
      Alike nextIndex C D s s' := by
  induction hrun with
  | init => exact ⟨_, .init, alike_init C D⟩
  | step _ _ hstep ih =>
      obtain ⟨s', hrun', h⟩ := ih
      obtain ⟨t', hstep', h'⟩ := h.step hnext hbalanced hfree hstep
      exact ⟨t', .step hrun' trivial hstep', h'⟩

/-- What the decoder says it has decoded of the remote side is the surplus of it. -/
theorem remote_of_decoded (hrun : (sessions nextIndex C D).Run Machine.Free s)
    {d : Decoder T} (hn : 1 ≤ s.decoder.coded.length)
    (hok : s.decoder.tryDecode nextIndex = some (.ok (), d)) (hdecoded : d.decoded = true) :
    d.getRemoteSymbols.Perm ((surplus C D).map hashed) := by
  obtain ⟨s', hrun', halike⟩ := exists_alike hnext hbalanced hfree hrun
  have hlength : s.decoder.coded.length = s'.decoder.coded.length := by rw [halike.decoder]
  rw [halike.decoder, tryDecode_window] at hok
  obtain ⟨⟨result, d'⟩, hok', heq⟩ := Option.map_eq_some_iff.mp hok
  obtain ⟨rfl, rfl⟩ := Prod.mk.inj heq
  obtain ⟨R, L, handled, hdecoder⟩ := halike.surpluses.decoder
  obtain ⟨_, _, _, _, hsame, -, hlength', hreconciling, -⟩ := tryDecode_ok hnext hfree hdecoder
  rw [hok'] at hsame
  obtain ⟨-, rfl⟩ := Prod.mk.inj (Option.some.inj hsame)
  have hsound := (hreconciling.perm_of_decoded (nodup_surplus C D) (nodup_surplus D C)
    (by omega) hdecoded).1
  have hall : (surplus C D).filter (fun a => decide (a ∉ surplus D C)) = surplus C D :=
    List.filter_eq_self.mpr fun a ha => decide_eq_true (not_mem_surplus_of_mem ha)
  rwa [hall] at hsound

end Repeated

end RatelessIblt
end Peerbit
