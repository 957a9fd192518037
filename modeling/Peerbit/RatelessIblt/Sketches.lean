import Peerbit.RatelessIblt.Completion
import Peerbit.RatelessIblt.RemoveSymbol

/-!
# Sketches

A sketch is a fixed number of coded symbols that symbols are added to and removed from.
What it holds depends only on how often each symbol was added and removed: it is the
beginning of what encoders of the symbols would produce (`v_run_eq_codedSymbols`).  The
difference of two sketches is decoded as in a session that receives as many coded
symbols (`decode_subtract`), and so what it says it has decoded is the difference of the
two sets (`decode_subtract_exact`).  All of this is for a `next_index` that always goes on.
-/

namespace Peerbit
namespace RatelessIblt

open Lib

universe u

structure Sketch (T : Type u) where
  v : List (CodedSymbol T)
deriving Repr, DecidableEq

structure SketchDecodeResult (T : Type u) where
  fwd : List (HashedSymbol T)
  rev : List (HashedSymbol T)
  isDecoded : Bool
deriving Repr, DecidableEq

namespace Sketch

section Operations

variable {T : Type u} [Symbol T]

def new (size : Nat) : Sketch T where
  v := List.replicate size .empty

variable (nextIndex : RandomMapping → RandomMapping)

/-- The loop over the coded symbols that the mapping goes through.  The index grows with
every step, so that there are no more steps than coded symbols. -/
def applyLoop (sym : HashedSymbol T) (direction : Direction) :
    Nat → RandomMapping → List (CodedSymbol T) → List (CodedSymbol T)
  | 0, _, v => v
  | fuel + 1, mapp, v =>
      match v[mapp.lastIdx]? with
      | none => v
      | some c =>
          applyLoop sym direction fuel (nextIndex mapp)
            (v.set mapp.lastIdx (c.apply sym direction))

def addHashedSymbol (sketch : Sketch T) (sym : HashedSymbol T) : Sketch T where
  v := applyLoop nextIndex sym .ADD sketch.v.length (.start sym.hash) sketch.v

def removeHashedSymbol (sketch : Sketch T) (sym : HashedSymbol T) : Sketch T where
  v := applyLoop nextIndex sym .REMOVE sketch.v.length (.start sym.hash) sketch.v

def addSymbol (sketch : Sketch T) (sym : T) : Sketch T :=
  sketch.addHashedSymbol nextIndex (hashed sym)

def removeSymbol (sketch : Sketch T) (sym : T) : Sketch T :=
  sketch.removeHashedSymbol nextIndex (hashed sym)

def subtract (sketch other : Sketch T) : Except DecodeError (Sketch T) :=
  if sketch.v.length ≠ other.v.length then .error .InvalidSize
  else
    .ok
      { v := List.zipWith (fun a b =>
          { symbol := Symbol.xor a.symbol b.symbol
            count := a.count - b.count
            hash := a.hash ^^^ b.hash }) sketch.v other.v }

def decode (sketch : Sketch T) : Option (Except DecodeError (SketchDecodeResult T)) :=
  let dec := sketch.v.foldl (Decoder.addCodedSymbol nextIndex) .empty
  match dec.tryDecode nextIndex with
  | some (.ok (), dec) =>
      some (.ok
        { fwd := dec.getRemoteSymbols
          rev := dec.getLocalSymbols
          isDecoded := dec.decoded })
  | some (.error x, _) => some (.error x)
  | none => none

end Operations

/-! ### What a sketch holds -/

/-- A call that changes a sketch. -/
inductive Call (T : Type u) where
  | add (sym : T)
  | remove (sym : T)
deriving Repr, DecidableEq

section Contents

variable {T : Type u} [Symbol T] (nextIndex : RandomMapping → RandomMapping)

def perform (sketch : Sketch T) : Call T → Sketch T
  | .add sym => sketch.addSymbol nextIndex sym
  | .remove sym => sketch.removeSymbol nextIndex sym

/-- The sketch after some calls. -/
def run (size : Nat) (calls : List (Call T)) : Sketch T :=
  calls.foldl (perform nextIndex) (new size)

def added (calls : List (Call T)) : List T :=
  calls.filterMap (fun call =>
    match call with
    | .add sym => some sym
    | .remove _ => none)

def removed (calls : List (Call T)) : List T :=
  calls.filterMap (fun call =>
    match call with
    | .add _ => none
    | .remove sym => some sym)

variable {nextIndex} {sym : HashedSymbol T} {direction : Direction}

/-- The loop is the one that takes a symbol out of the coded symbols of a decoder. -/
theorem applyLoop_eq (fuel : Nat) (mapp : RandomMapping) (v : List (CodedSymbol T))
    (decodable : List Nat) :
    applyLoop nextIndex sym direction fuel mapp v =
      (Decoder.applyNewLoop nextIndex sym direction fuel mapp v decodable).2.1 := by
  induction fuel generalizing mapp v decodable with
  | zero => rfl
  | succ fuel ih =>
      rw [applyLoop, Decoder.applyNewLoop]
      cases v[mapp.lastIdx]? with
      | none => rfl
      | some c => exact ih _ _ _

open Classical in
/-- What is applied of a symbol at an index. -/
noncomputable def share (nextIndex : RandomMapping → RandomMapping) (sym : HashedSymbol T)
    (i : Nat) : CodedSymbol T :=
  if Maps nextIndex sym.hash i then sym.coded else 0

variable [LawfulSymbol T] {C D : List T} {n : Nat} {sketch : Sketch T}

/-- A symbol is applied where its mapping goes. -/
theorem getElem?_applyLoop (hnext : Increasing nextIndex) (v : List (CodedSymbol T))
    (i : Nat) :
    (applyLoop nextIndex sym direction v.length (.start sym.hash) v)[i]? =
      v[i]?.map (fun c => c + direction.signed (share nextIndex sym i)) := by
  have htakes : TakesOut nextIndex sym direction 0 v []
      (Decoder.applyNewLoop nextIndex sym direction v.length (.start sym.hash) v []) :=
    applyNewLoop_spec hnext (ahead_start nextIndex sym.hash) (Nat.zero_le _) (by omega)
  rw [applyLoop_eq _ _ _ [], share]
  by_cases hmaps : Maps nextIndex sym.hash i
  · rw [if_pos hmaps]
    cases hc : v[i]? with
    | none =>
        rw [List.getElem?_eq_none_iff] at hc
        rw [Option.map_none, List.getElem?_eq_none_iff, htakes.length]
        exact hc
    | some c => rw [htakes.mapped i c hc (Nat.zero_le i) hmaps, Option.map_some, apply_eq]
  · rw [if_neg hmaps, Direction.signed_zero, htakes.others i (.inr hmaps)]
    simp

variable (nextIndex) in
/-- A coded symbol that these symbols were added to and removed from. -/
noncomputable def held (C D : List T) (i : Nat) : CodedSymbol T :=
  Encoder.mapped nextIndex (C.map hashed) i - Encoder.mapped nextIndex (D.map hashed) i

theorem mapped_concat (C : List T) (a : T) (i : Nat) :
    Encoder.mapped nextIndex ((C ++ [a]).map hashed) i =
      Encoder.mapped nextIndex (C.map hashed) i + share nextIndex (hashed a) i := by
  simp [Encoder.mapped, share]

/-- The sketch holds these symbols. -/
def Holds (nextIndex : RandomMapping → RandomMapping) (n : Nat) (C D : List T)
    (sketch : Sketch T) : Prop :=
  sketch.v = (List.range n).map (held nextIndex C D)

variable (sym direction) in
theorem Holds.applied (hnext : Increasing nextIndex) (h : Holds nextIndex n C D sketch)
    {C' D' : List T} (hheld : ∀ i, held nextIndex C' D' i =
      held nextIndex C D i + direction.signed (share nextIndex sym i)) :
    Holds nextIndex n C' D'
      ⟨applyLoop nextIndex sym direction sketch.v.length (.start sym.hash) sketch.v⟩ := by
  refine List.ext_getElem? fun i => ?_
  rw [getElem?_applyLoop hnext, h, List.getElem?_map, List.getElem?_map]
  rcases Nat.lt_or_ge i n with hi | hi
  · rw [List.getElem?_range hi, Option.map_some, Option.map_some, Option.map_some, hheld]
  · rw [List.getElem?_eq_none (by simpa using hi)]
    rfl

/-- One call adds a symbol to what the sketch holds, or takes it away. -/
theorem Holds.perform (hnext : Increasing nextIndex) (h : Holds nextIndex n C D sketch)
    (call : Call T) :
    Holds nextIndex n (C ++ added [call]) (D ++ removed [call])
      (sketch.perform nextIndex call) := by
  cases call with
  | add sym =>
      refine h.applied (hashed sym) .ADD hnext fun i => ?_
      simp only [added, removed, List.filterMap_cons, List.filterMap_nil, List.append_nil,
        held, mapped_concat, Direction.signed]
      abel
  | remove sym =>
      refine h.applied (hashed sym) .REMOVE hnext fun i => ?_
      simp only [added, removed, List.filterMap_cons, List.filterMap_nil, List.append_nil,
        held, mapped_concat, Direction.signed]
      abel

theorem holds_run (hnext : Increasing nextIndex) (size : Nat) (calls : List (Call T)) :
    Holds nextIndex size (added calls) (removed calls) (run nextIndex size calls) := by
  have hfrom : ∀ (calls : List (Call T)) (C D : List T) (sketch : Sketch T),
      Holds nextIndex size C D sketch →
        Holds nextIndex size (C ++ added calls) (D ++ removed calls)
          (calls.foldl (Sketch.perform nextIndex) sketch) := by
    intro calls
    induction calls with
    | nil =>
        intro C D sketch h
        simpa [added, removed] using h
    | cons call calls ih =>
        intro C D sketch h
        have hrest := ih _ _ _ (h.perform hnext call)
        have hadded : added (call :: calls) = added [call] ++ added calls :=
          List.filterMap_append (l := [call])
        have hremoved : removed (call :: calls) = removed [call] ++ removed calls :=
          List.filterMap_append (l := [call])
        rwa [List.append_assoc, List.append_assoc, ← hadded, ← hremoved] at hrest
  have hempty : held nextIndex ([] : List T) [] = fun _ => CodedSymbol.empty :=
    funext fun _ => sub_self _
  refine hfrom calls [] [] (new size) ?_
  rw [Holds, hempty, List.map_const', List.length_range]
  rfl

variable [DecidableEq T]

/-- How often a symbol was added more than removed. -/
def net (calls : List (Call T)) (a : T) : Int :=
  (added calls).count a - (removed calls).count a

theorem held_congr {C D C' D' : List T}
    (h : ∀ a, (C.count a : Int) - D.count a = C'.count a - D'.count a) :
    held nextIndex C D = held nextIndex C' D' := by
  funext i
  simp only [held, Encoder.mapped, List.map_map]
  exact sum_sub_sum_congr h _

/-- A sketch is the beginning of what encoders would produce: it depends neither on the
order of the calls nor on symbols that were added and removed equally often. -/
theorem v_run_eq_codedSymbols (hnext : Increasing nextIndex) {calls : List (Call T)}
    {C D : List T} (hnet : ∀ a, net calls a = C.count a - D.count a) (size : Nat) :
    (run nextIndex size calls).v = (List.range size).map (fun i =>
      (Encoder.ofSymbols C).codedSymbol nextIndex i -
        (Encoder.ofSymbols D).codedSymbol nextIndex i) := by
  have hholds := holds_run hnext size calls
  rw [Holds, held_congr hnet] at hholds
  rw [hholds]
  refine List.map_congr_left fun i _ => ?_
  rw [held, Encoder.codedSymbol_ofSymbols hnext, Encoder.codedSymbol_ofSymbols hnext]

end Contents

/-! ### Differences of sketches -/

section Differences

variable {T : Type u} [Symbol T] [LawfulSymbol T] [DecidableEq T]
variable {nextIndex : RandomMapping → RandomMapping} {calls calls' : List (Call T)}
variable {A B : List T}

/-- The difference of two sketches is the sketch of the differences. -/
theorem subtract_run (hnext : Increasing nextIndex)
    (hnet : ∀ a, net calls a - net calls' a = A.count a - B.count a) (size : Nat) :
    ∃ diff, (run nextIndex size calls).subtract (run nextIndex size calls') = .ok diff ∧
      Holds nextIndex size A B diff := by
  have h := holds_run hnext size calls
  have h' := holds_run hnext size calls'
  have hheld : held nextIndex A B = fun i =>
      held nextIndex (added calls) (removed calls) i -
        held nextIndex (added calls') (removed calls') i := by
    have hcount : ∀ a, (A.count a : Int) - B.count a =
        (added calls ++ removed calls').count a - (removed calls ++ added calls').count a := by
      intro a
      rw [← hnet a, net, net, List.count_append, List.count_append]
      omega
    rw [held_congr hcount]
    funext i
    simp only [held, Encoder.mapped, List.map_append, List.sum_append]
    abel
  rw [Holds] at h h'
  refine ⟨_, if_neg (by simp [h, h']), ?_⟩
  rw [Holds, h, h', List.zipWith_map, List.zipWith_self, hheld]
  rfl

/-! #### Decoding -/

/-- The decoder receives a coded symbol of the encoder. -/
def receive (nextIndex : RandomMapping → RandomMapping) (s : Session T) : Session T :=
  let produced := s.encoder.produceNextCodedSymbol nextIndex
  { encoder := produced.2
    decoder := s.decoder.addCodedSymbol nextIndex produced.1 }

/-- The session of two sets when the decoder has received some coded symbols. -/
def received (nextIndex : RandomMapping → RandomMapping) (A B : List T) (n : Nat) :
    Session T :=
  (receive nextIndex)^[n] (sessions nextIndex A B).init

omit [LawfulSymbol T] [DecidableEq T] in
variable (nextIndex) in
theorem received_succ (A B : List T) (n : Nat) :
    received nextIndex A B (n + 1) = receive nextIndex (received nextIndex A B n) :=
  Function.iterate_succ_apply' _ _ _

omit [LawfulSymbol T] [DecidableEq T] in
theorem run_received (A B : List T) (n : Nat) :
    (sessions nextIndex A B).Run Machine.Free (received nextIndex A B n) := by
  induction n with
  | zero => exact .init
  | succ n ih =>
      rw [received_succ]
      exact .step (a := .codedSymbol) ih trivial rfl

/-- The decoder of a sketch beside the one of a session: they differ in their windows
only. -/
structure Beside (nextIndex : RandomMapping → RandomMapping) (A B : List T) (n : Nat)
    (d : Decoder T) : Prop where
  length : (received nextIndex A B n).decoder.coded.length = n
  encoder : Window nextIndex (received nextIndex A B n).encoder A n
  window : Window nextIndex (received nextIndex A B n).decoder.window B n
  own : Window nextIndex d.window [] n
  decoder : d = { (received nextIndex A B n).decoder with window := d.window }

omit [LawfulSymbol T] [DecidableEq T] in
/-- Decoders with different windows do the same with what is the same after these. -/
theorem addCodedSymbol_window {d : Decoder T} {window : Encoder T} {sym sym' : CodedSymbol T}
    (h : (window.applyWindow nextIndex sym .REMOVE).1 =
      (d.window.applyWindow nextIndex sym' .REMOVE).1) :
    { d with window := window }.addCodedSymbol nextIndex sym =
      { d.addCodedSymbol nextIndex sym' with
        window := (window.applyWindow nextIndex sym .REMOVE).2 } := by
  simp only [Decoder.addCodedSymbol, h]

omit [DecidableEq T] in
theorem beside_received (hnext : Increasing nextIndex) (A B : List T) (n : Nat) :
    Beside nextIndex A B n
      (((List.range n).map (held nextIndex A B)).foldl (Decoder.addCodedSymbol nextIndex)
        .empty) := by
  induction n with
  | zero =>
      refine ⟨?_, window_foldl A, ?_, ⟨Encoder.ready_empty, rfl, rfl⟩, ?_⟩
      · rw [received, Function.iterate_zero_apply, decoder_init]
        rfl
      · rw [received, Function.iterate_zero_apply, decoder_init]
        exact window_foldl B
      · rw [received, Function.iterate_zero_apply, decoder_init]
        rfl
  | succ n ih =>
      rw [List.range_succ, List.map_append, List.foldl_append]
      generalize ((List.range n).map (held nextIndex A B)).foldl
        (Decoder.addCodedSymbol nextIndex) .empty = d at ih
      obtain ⟨hsum, hencoder⟩ := ih.encoder.apply_list hnext .empty .ADD
      obtain ⟨hheld, hwindow⟩ := ih.window.apply_list hnext
        ((received nextIndex A B n).encoder.produceNextCodedSymbol nextIndex).1 .REMOVE
      obtain ⟨hsame, hown⟩ := ih.own.apply_list hnext (held nextIndex A B n) .REMOVE
      have hleft : (d.window.applyWindow nextIndex (held nextIndex A B n) .REMOVE).1 =
          ((received nextIndex A B n).decoder.window.applyWindow nextIndex
            ((received nextIndex A B n).encoder.produceNextCodedSymbol nextIndex).1
            .REMOVE).1 := by
        have hzero : Encoder.mapped nextIndex (([] : List T).map hashed) n = 0 := rfl
        rw [hsame, hheld, hzero, Direction.signed_zero, add_zero,
          Encoder.produceNextCodedSymbol, hsum, held, sub_eq_add_neg]
        exact congrArg (· + _) (zero_add _).symm
      have hdecoder : d.addCodedSymbol nextIndex (held nextIndex A B n) =
          { (received nextIndex A B n).decoder.addCodedSymbol nextIndex
              ((received nextIndex A B n).encoder.produceNextCodedSymbol nextIndex).1 with
            window := (d.window.applyWindow nextIndex (held nextIndex A B n) .REMOVE).2 } := by
        conv_lhs => rw [ih.decoder]
        exact addCodedSymbol_window hleft
      have hstate := received_succ nextIndex A B n
      refine ⟨?_, by rw [hstate]; exact hencoder, by rw [hstate]; exact hwindow, hown,
        by rw [hstate]; exact hdecoder⟩
      rw [hstate, receive, Decoder.length_addCodedSymbol, ih.length]

theorem decode_subtract_eq (hnext : Increasing nextIndex)
    (hnet : ∀ a, net calls a - net calls' a = A.count a - B.count a) (size : Nat) :
    ∃ diff, (run nextIndex size calls).subtract (run nextIndex size calls') = .ok diff ∧
      diff.decode nextIndex =
        ((received nextIndex A B size).decoder.tryDecode nextIndex).map (fun result =>
          result.1.map (fun _ =>
            { fwd := result.2.getRemoteSymbols
              rev := result.2.getLocalSymbols
              isDecoded := result.2.decoded })) := by
  obtain ⟨diff, hdiff, hholds⟩ := subtract_run hnext hnet size
  refine ⟨diff, hdiff, ?_⟩
  have hbeside := beside_received hnext A B size
  rw [decode, hholds, hbeside.decoder, tryDecode_window]
  cases (received nextIndex A B size).decoder.tryDecode nextIndex with
  | none => rfl
  | some result =>
      obtain ⟨outcome, d⟩ := result
      cases outcome with
      | ok _ => rfl
      | error x => rfl

/-- The decoder of a session of two sets does not fail. -/
theorem tryDecode_received (hnext : Increasing nextIndex) (hA : A.Nodup) (hB : B.Nodup)
    (hfree : CollisionFree (A.toFinset ∪ B.toFinset)) (size : Nat) :
    ∃ d, (received nextIndex A B size).decoder.tryDecode nextIndex = some (.ok (), d) := by
  have hpeeling : Peeling nextIndex A B (received nextIndex A B size) :=
    (run_received A B size).invariant (peeling_init A B)
      fun _ _ _ h _ hstep => h.step hnext hA hB hfree hstep
  obtain ⟨R, L, handled, hdecoder, -⟩ := hpeeling.decoder
  obtain ⟨_, _, _, d, hok, -⟩ := tryDecode_ok hnext hfree hdecoder
  exact ⟨d, hok⟩

/-- The difference of two sketches is decoded as in a session of two sets that differ
like the sketches, when as many coded symbols have been received. -/
theorem decode_subtract (hnext : Increasing nextIndex) (hA : A.Nodup) (hB : B.Nodup)
    (hfree : CollisionFree (A.toFinset ∪ B.toFinset))
    (hnet : ∀ a, net calls a - net calls' a = A.count a - B.count a) (size : Nat) :
    ∃ diff d, (run nextIndex size calls).subtract (run nextIndex size calls') = .ok diff ∧
      (received nextIndex A B size).decoder.tryDecode nextIndex = some (.ok (), d) ∧
      diff.decode nextIndex = some (.ok
        { fwd := d.getRemoteSymbols, rev := d.getLocalSymbols, isDecoded := d.decoded }) := by
  obtain ⟨diff, hdiff, hdecode⟩ := decode_subtract_eq hnext hnet size
  obtain ⟨d, hok⟩ := tryDecode_received hnext hA hB hfree size
  refine ⟨diff, d, hdiff, hok, ?_⟩
  rw [hdecode, hok]
  rfl

/-- What one of two sketches holds once more than the other one: their difference always
decodes to a result.  If this says that it is complete, it is that; and it does say so when
each of these symbols is alone at one of the indices of the sketches. -/
theorem decode_subtract_exact (hnext : Increasing nextIndex) (hA : A.Nodup) (hB : B.Nodup)
    (hdisjoint : A.Disjoint B) (hfree : CollisionFree (A.toFinset ∪ B.toFinset))
    (hnet : ∀ a, net calls a - net calls' a = A.count a - B.count a) {size : Nat}
    (hsize : 1 ≤ size) :
    ∃ diff result,
      (run nextIndex size calls).subtract (run nextIndex size calls') = .ok diff ∧
      diff.decode nextIndex = some (.ok result) ∧
      (result.isDecoded = true →
        result.fwd.Perm (A.map hashed) ∧ result.rev.Perm (B.map hashed)) ∧
      (Separates nextIndex (A.toFinset ∪ B.toFinset) size → result.isDecoded = true) := by
  obtain ⟨diff, hdiff, hdecode⟩ := decode_subtract_eq hnext hnet size
  have hlength : (received nextIndex A B size).decoder.coded.length = size :=
    (beside_received hnext A B size).length
  have hrun : (sessions nextIndex A B).Run Machine.Free (received nextIndex A B size) :=
    run_received A B size
  have hpeeling : Peeling nextIndex A B (received nextIndex A B size) :=
    hrun.invariant (peeling_init A B) fun _ _ _ h _ hstep => h.step hnext hA hB hfree hstep
  obtain ⟨R, L, handled, hdecoder, -⟩ := hpeeling.decoder
  obtain ⟨R', L', handled', d, hok, -, hlength', hdecoder', -⟩ := tryDecode_ok hnext hfree hdecoder
  rw [hok] at hdecode
  refine ⟨diff, _, hdiff, hdecode, fun hdecoded => ?_, fun hseparates => ?_⟩
  · have hperm := hdecoder'.perm_of_decoded hA hB (by omega) hdecoded
    have hfwd : A.filter (fun a => decide (a ∉ B)) = A :=
      List.filter_eq_self.mpr fun a ha => decide_eq_true (hdisjoint ha)
    have hrev : B.filter (fun b => decide (b ∉ A)) = B :=
      List.filter_eq_self.mpr fun b hb => decide_eq_true fun ha => hdisjoint ha hb
    rwa [hfwd, hrev] at hperm
  · obtain ⟨d', hok', hdecoded⟩ :=
      decoded_of_separates hnext hfree hseparates hpeeling (Nat.le_of_eq hlength.symm)
    rw [hok] at hok'
    obtain ⟨-, rfl⟩ := Prod.mk.inj (Option.some.inj hok')
    exact hdecoded

/-- `1` is added after `3`, which is removed again; `2` is in both sketches. -/
def callsOfOne : List (Call UInt64) := [.add 3, .add 1, .remove 3, .add 2]

def callsOfThree : List (Call UInt64) := [.add 2, .add 3]

theorem net_callsOfOne (a : UInt64) :
    net callsOfOne a = ([1, 2] : List UInt64).count a - ([] : List UInt64).count a := by
  simp only [net, callsOfOne, added, removed, List.filterMap_cons, List.filterMap_nil,
    List.count_cons, List.count_nil]
  omega

theorem v_run_eq_codedSymbols_callsOfOne :
    (run RandomMapping.nextIndex 2 callsOfOne).v = (List.range 2).map (fun i =>
      (Encoder.ofSymbols [1, 2]).codedSymbol RandomMapping.nextIndex i -
        (Encoder.ofSymbols []).codedSymbol RandomMapping.nextIndex i) :=
  v_run_eq_codedSymbols increasing_nextIndex net_callsOfOne 2

theorem net_sub_net (a : UInt64) : net callsOfOne a - net callsOfThree a =
    ([1] : List UInt64).count a - ([3] : List UInt64).count a := by
  simp only [net, callsOfOne, callsOfThree, added, removed, List.filterMap_cons,
    List.filterMap_nil, List.count_cons, List.count_nil]
  omega

theorem collisionFree_one_three :
    CollisionFree (([1] : List UInt64).toFinset ∪ [3].toFinset) := by
  constructor
  case injective =>
    have hnodup : (([1, 3] : List UInt64).map Symbol.hash).Nodup := by
      decide +kernel
    exact fun a ha b hb =>
      List.inj_on_of_nodup_map hnodup (by simpa using ha) (by simpa using hb)
  case xor =>
    intro S hsub hcard
    have hle := Finset.card_le_card hsub
    have htwo : (([1] : List UInt64).toFinset ∪ [3].toFinset).card = 2 := by
      decide +kernel
    omega

theorem decode_subtract_callsOfOne :
    ∃ diff d, (run RandomMapping.nextIndex 2 callsOfOne).subtract
        (run RandomMapping.nextIndex 2 callsOfThree) = .ok diff ∧
      (received RandomMapping.nextIndex [1] [3] 2).decoder.tryDecode
        RandomMapping.nextIndex = some (.ok (), d) ∧
      diff.decode RandomMapping.nextIndex = some (.ok
        { fwd := d.getRemoteSymbols, rev := d.getLocalSymbols, isDecoded := d.decoded }) :=
  decode_subtract increasing_nextIndex (by decide) (by decide) collisionFree_one_three
    net_sub_net 2

theorem decode_subtract_exact_callsOfOne :
    ∃ diff result, (run RandomMapping.nextIndex 2 callsOfOne).subtract
        (run RandomMapping.nextIndex 2 callsOfThree) = .ok diff ∧
      diff.decode RandomMapping.nextIndex = some (.ok result) ∧
      (result.isDecoded = true →
        result.fwd.Perm [hashed 1] ∧ result.rev.Perm [hashed 3]) := by
  obtain ⟨diff, result, hdiff, hdecode, hperm, -⟩ := decode_subtract_exact
    increasing_nextIndex (by decide) (by decide) (by simp) collisionFree_one_three net_sub_net
    (Nat.le_succ 1)
  exact ⟨diff, result, hdiff, hdecode, hperm⟩

end Differences

end Sketch

end RatelessIblt
end Peerbit
