import Peerbit.Lib.Machines
import Peerbit.SharedLog.Ranges
import Mathlib.Data.List.Sort

/-!
# The symbol stream of a rateless sync

A sender starts a sync with the first coded symbols of its encoder.  A receiver
adds them to a decoder and asks for more until it has decoded; it handles the
answers in the order of their numbers.

One encoder and one counter serve all targets.  An answer carries the next
number after the one in its request, but its symbols are the next ones of the
encoder, or none when the request is not newer than the last.

The encoder is given by the sequence of its symbols, and the decoder by what it
says about the symbols that were added to it.
-/

namespace Peerbit
namespace SharedLog

structure SSymbol where
  count : Int
  hash : Nat
  symbol : Nat
deriving Repr, DecidableEq

/-- A `MoreSymbols` message; `StartSync` is handled as the one with number
zero. -/
structure SyncMessage where
  seqNo : Int
  symbols : List SSymbol
deriving Repr, DecidableEq

/-- What a decoder says after `try_decode`. -/
inductive Decoding where
  | decoded
  | undecided
  | invalidDegree
  | failed
deriving Repr, DecidableEq

/-! ### The sender -/

/-- A value of `outgoingSyncProcesses`, with the number of symbols that the
encoder has produced. -/
structure OutgoingSync where
  lastSeqNo : Int
  produced : Nat
deriving Repr, DecidableEq

@[irreducible] def nextBatch : Nat := 10000

/-- `produce_next_coded_symbol`, a number of times. -/
def produce (coded : Nat → SSymbol) (produced n : Nat) : List SSymbol :=
  (List.range n).map (fun i => coded (produced + i))

/-- `next`. -/
def OutgoingSync.next (coded : Nat → SSymbol) (p : OutgoingSync)
    (lastSeqNo : Int) : List SSymbol × OutgoingSync :=
  if lastSeqNo ≤ p.lastSeqNo then
    ([], p)
  else
    (produce coded p.produced nextBatch,
      { lastSeqNo := p.lastSeqNo + 1, produced := p.produced + nextBatch })

theorem OutgoingSync.next_of_le {coded : Nat → SSymbol} {lastSeqNo : Int}
    (p : OutgoingSync) (h : lastSeqNo ≤ p.lastSeqNo) :
    p.next coded lastSeqNo = ([], p) :=
  if_pos h

theorem OutgoingSync.next_of_lt {coded : Nat → SSymbol} {lastSeqNo : Int}
    (p : OutgoingSync) (h : p.lastSeqNo < lastSeqNo) :
    p.next coded lastSeqNo =
      (produce coded p.produced nextBatch,
        { lastSeqNo := p.lastSeqNo + 1, produced := p.produced + nextBatch }) :=
  if_neg (by omega)

/-! ### The receiver -/

/-- A value of `ingoingSyncProcesses`, with the symbols that were added to its
decoder, and whether it is still in the map. -/
structure IngoingSync where
  added : List SSymbol
  messageQueue : List SyncMessage
  lastSeqNo : Int
  held : Bool

def IngoingSync.init : IngoingSync where
  added := []
  messageQueue := []
  lastSeqNo := -1
  held := true

/-- What `process` returns or throws. -/
inductive Processed where
  | returns (result : Option Bool)
  | throws
deriving Repr, DecidableEq

/-- `process`.  Of the queue it handles one message at most. -/
def IngoingSync.process (decode : List SSymbol → Decoding) (p : IngoingSync)
    (newMessage : SyncMessage) : Processed × IngoingSync :=
  if newMessage.seqNo ≤ p.lastSeqNo then
    (.returns none, p)
  else
    match (p.messageQueue ++ [newMessage]).insertionSort
        (fun a b => a.seqNo ≤ b.seqNo) with
    | [] => (.returns none, p)
    | message :: queue =>
        if message.seqNo ≠ p.lastSeqNo + 1 then
          (.returns none, { p with messageQueue := message :: queue })
        else
          let p :=
            { p with
              added := p.added ++ message.symbols, messageQueue := queue
              lastSeqNo := p.lastSeqNo + 1 }
          match decode p.added with
          | .decoded => (.returns (some true), { p with held := false })
          | .undecided => (.returns (some false), p)
          | .invalidDegree => (.returns (some false), p)
          | .failed => (.throws, p)

/-! ### Runs -/

/-- A sync, with all requests and answers that were sent; they may arrive in any
order, and more than once. -/
structure SyncState where
  outgoing : Option OutgoingSync
  ingoing : PeerHash → Option IngoingSync
  requests : List (PeerHash × Int)
  answers : List (PeerHash × SyncMessage)

/-- The sender's symbols and how many of them it starts with, its targets, and
the decoders of those that hold entries in the range. -/
structure SyncConfig where
  coded : Nat → SSymbol
  initialSymbols : Nat
  targets : List PeerHash
  decoder : PeerHash → Option (List SSymbol → Decoding)

inductive SyncAction where
  /-- The target handles `StartSync`. -/
  | startSync (target : PeerHash)
  /-- The sender handles `RequestMoreSymbols`. -/
  | requestMoreSymbols (i : Nat)
  /-- A target handles `MoreSymbols`. -/
  | moreSymbols (i : Nat)
  | outgoingTimeout
  | ingoingTimeout (target : PeerHash)
deriving Repr, DecidableEq

section Steps

variable (cfg : SyncConfig)

/-- A target processes a message, and asks for more when it is not done. -/
def SyncState.received (s : SyncState) (target : PeerHash)
    (decode : List SSymbol → Decoding) (p : IngoingSync)
    (message : SyncMessage) : SyncState :=
  let processed := p.process decode message
  { s with
    ingoing := Function.update s.ingoing target (some processed.2)
    requests :=
      if processed.1 = .returns (some false) then
        s.requests ++ [(target, message.seqNo)]
      else
        s.requests }

def syncStep (s : SyncState) : SyncAction → Option SyncState
  | .startSync target =>
      if target ∈ cfg.targets then
        match cfg.decoder target, s.ingoing target with
        | some decode, none =>
            some
              (s.received target decode .init
                { seqNo := 0
                  symbols := produce cfg.coded 0 cfg.initialSymbols })
        | _, _ => some s
      else
        none
  | .requestMoreSymbols i =>
      match s.requests[i]? with
      | none => none
      | some (target, lastSeqNo) =>
          match s.outgoing with
          | none => some s
          | some p =>
              let next := p.next cfg.coded lastSeqNo
              some
                { s with
                  outgoing := some next.2
                  answers :=
                    s.answers ++
                      [(target, { seqNo := lastSeqNo + 1, symbols := next.1 })]
                  }
  | .moreSymbols i =>
      match s.answers[i]? with
      | none => none
      | some (target, message) =>
          match cfg.decoder target, s.ingoing target with
          | some decode, some p =>
              if p.held then some (s.received target decode p message)
              else some s
          | _, _ => some s
  | .outgoingTimeout => some { s with outgoing := none }
  | .ingoingTimeout target =>
      some
        { s with
          ingoing :=
            Function.update s.ingoing target
              ((s.ingoing target).map (fun p => { p with held := false })) }

/-- A sync from its `StartSync` on. -/
def syncMachine : Lib.Machine SyncState SyncAction where
  init :=
    { outgoing := some { lastSeqNo := -1, produced := cfg.initialSymbols }
      ingoing := fun _ => none, requests := [], answers := [] }
  step := syncStep cfg

end Steps

/-! ### The order of the symbols -/

section InOrder

variable (cfg : SyncConfig)

/-- The number of symbols in the messages up to a number. -/
def symbolsUpTo (seqNo : Int) : Nat :=
  (cfg.initialSymbols + nextBatch * seqNo).toNat

/-- The receiver has added the first symbols of the sender, those of the
messages that it has handled. -/
def InOrder (p : IngoingSync) : Prop :=
  p.added = produce cfg.coded 0 (symbolsUpTo cfg p.lastSeqNo)

/-- Each request is for the symbols that the sender produces next, or it repeats
one whose answer its sender has handled. -/
def SyncClean (s : SyncState) : SyncAction → Prop
  | .requestMoreSymbols i =>
      ∀ target lastSeqNo, s.requests[i]? = some (target, lastSeqNo) →
        ∀ out, s.outgoing = some out →
          lastSeqNo = out.lastSeqNo + 1 ∨
            ∃ p, s.ingoing target = some p ∧ lastSeqNo < p.lastSeqNo
  | _ => True

/-- The message carries the symbols of its number. -/
structure Labelled (m : SyncMessage) : Prop where
  seqNo : 0 ≤ m.seqNo
  symbols : m.seqNo = 0 ∧ m.symbols = produce cfg.coded 0 cfg.initialSymbols ∨
    0 < m.seqNo ∧
      m.symbols = produce cfg.coded (symbolsUpTo cfg (m.seqNo - 1)) nextBatch

/-- What clean steps keep of a receiver. -/
structure IngoingInv (p : IngoingSync) : Prop where
  queue : ∀ m ∈ p.messageQueue, Labelled cfg m
  started : p.lastSeqNo = -1 ∧ p.added = [] ∨ 0 ≤ p.lastSeqNo ∧ InOrder cfg p

structure SyncInv (s : SyncState) : Prop where
  outgoing : ∀ p, s.outgoing = some p →
    -1 ≤ p.lastSeqNo ∧ p.produced = symbolsUpTo cfg (p.lastSeqNo + 1)
  ingoing : ∀ target p, s.ingoing target = some p →
    0 ≤ p.lastSeqNo ∧ IngoingInv cfg p
  /-- An answer is right, or its target will ignore it. -/
  answers : ∀ a ∈ s.answers, 0 ≤ a.2.seqNo ∧ (Labelled cfg a.2 ∨
    ∃ p, s.ingoing a.1 = some p ∧ a.2.seqNo ≤ p.lastSeqNo)
  requests : ∀ r ∈ s.requests, 0 ≤ r.2

theorem produce_append (coded : Nat → SSymbol) (start m n : Nat) :
    produce coded start m ++ produce coded (start + m) n =
      produce coded start (m + n) := by
  unfold produce
  rw [List.range_add, List.map_append, List.map_map]
  simp only [Function.comp_def, Nat.add_assoc]

theorem symbolsUpTo_succ {n : Int} (hn : 0 ≤ n) :
    symbolsUpTo cfg (n + 1) = symbolsUpTo cfg n + nextBatch := by
  unfold symbolsUpTo nextBatch
  omega

theorem getElem?_produce_of_lt (coded : Nat → SSymbol) (start : Nat) {n i : Nat}
    (h : i < n) : (produce coded start n)[i]? = some (coded (start + i)) := by
  unfold produce
  rw [List.getElem?_map, List.getElem?_range h]
  rfl

theorem eq_of_getElem?_produce {coded : Nat → SSymbol} {start n i : Nat}
    {x : SSymbol} (h : (produce coded start n)[i]? = some x) :
    x = coded (start + i) := by
  obtain ⟨hlt, _⟩ := List.getElem?_eq_some_iff.mp h
  have hi : i < n := by simpa [produce] using hlt
  rw [getElem?_produce_of_lt coded start hi] at h
  exact (Option.some.inj h).symm

variable {cfg}

/-- Adding the symbols of the next message keeps the order. -/
theorem Labelled.append
    {p : IngoingSync} (hp : IngoingInv cfg p) {m : SyncMessage}
    (hm : Labelled cfg m) (hnext : m.seqNo = p.lastSeqNo + 1) :
    p.added ++ m.symbols =
      produce cfg.coded 0 (symbolsUpTo cfg (p.lastSeqNo + 1)) := by
  rcases hp.started with ⟨hlast, hadded⟩ | ⟨hlast, hadded⟩
  · rcases hm.symbols with ⟨_, hsymbols⟩ | ⟨hpos, _⟩
    · rw [hadded, hsymbols, hlast, List.nil_append]
      rfl
    · omega
  · rcases hm.symbols with ⟨hzero, _⟩ | ⟨_, hsymbols⟩
    · omega
    · rw [hadded, hsymbols, hnext, Int.add_sub_cancel]
      rw [symbolsUpTo_succ cfg hlast, ← produce_append, Nat.zero_add]

/-- Processing a message keeps the order, and the numbers grow. -/
theorem IngoingInv.process
    {p : IngoingSync} (hp : IngoingInv cfg p) {m : SyncMessage}
    (hm : Labelled cfg m ∨ m.seqNo ≤ p.lastSeqNo)
    (decode : List SSymbol → Decoding) :
    IngoingInv cfg (p.process decode m).2 ∧
      p.lastSeqNo ≤ (p.process decode m).2.lastSeqNo := by
  unfold IngoingSync.process
  split
  · exact ⟨hp, le_refl _⟩
  · rename_i hnew
    have hlabelled := hm.resolve_right hnew
    have hqueue : ∀ q ∈ (p.messageQueue ++ [m]).insertionSort
        (fun a b => a.seqNo ≤ b.seqNo), Labelled cfg q := by
      intro q hq
      have hmem := (List.perm_insertionSort _ _).mem_iff.mp hq
      rcases List.mem_append.mp hmem with hmem | hmem
      · exact hp.queue q hmem
      · rw [List.mem_singleton.mp hmem]
        exact hlabelled
    split
    · exact ⟨hp, le_refl _⟩
    · rename_i message queue heq
      rw [heq] at hqueue
      split
      · exact ⟨{ queue := hqueue, started := hp.started }, le_refl _⟩
      · rename_i hnext
        have hnext : message.seqNo = p.lastSeqNo + 1 := not_not.mp hnext
        have hmessage := hqueue message List.mem_cons_self
        have hadded := hmessage.append hp hnext
        have hrest : ∀ q ∈ queue, Labelled cfg q :=
          fun q hq => hqueue q (List.mem_cons_of_mem _ hq)
        have hpos : 0 ≤ p.lastSeqNo + 1 := hnext ▸ hmessage.seqNo
        have hgrows : p.lastSeqNo ≤ p.lastSeqNo + 1 := by omega
        simp only
        split
        · exact ⟨{ queue := hrest, started := Or.inr ⟨hpos, hadded⟩ }, hgrows⟩
        · exact ⟨{ queue := hrest, started := Or.inr ⟨hpos, hadded⟩ }, hgrows⟩
        · exact ⟨{ queue := hrest, started := Or.inr ⟨hpos, hadded⟩ }, hgrows⟩
        · exact ⟨{ queue := hrest, started := Or.inr ⟨hpos, hadded⟩ }, hgrows⟩

theorem IngoingInv.init : IngoingInv cfg .init where
  queue _ hm := nomatch hm
  started := Or.inl ⟨rfl, rfl⟩

/-- With an empty queue the next message is processed at once. -/
theorem process_next
    {p : IngoingSync} {m : SyncMessage} (hqueue : p.messageQueue = [])
    (hnext : m.seqNo = p.lastSeqNo + 1) (decode : List SSymbol → Decoding) :
    (p.process decode m).2.lastSeqNo = p.lastSeqNo + 1 := by
  have hsort : (p.messageQueue ++ [m]).insertionSort
      (fun a b => a.seqNo ≤ b.seqNo) = [m] := by
    rw [hqueue]
    rfl
  unfold IngoingSync.process
  rw [if_neg (by omega), hsort]
  simp only [ne_eq, hnext, not_true, if_false]
  split <;> rfl

theorem labelled_startSync : Labelled cfg
    { seqNo := 0, symbols := produce cfg.coded 0 cfg.initialSymbols } where
  seqNo := le_refl _
  symbols := Or.inl ⟨rfl, rfl⟩

namespace SyncInv

theorem init : SyncInv cfg (syncMachine cfg).init where
  outgoing := by
    intro p hp
    obtain rfl := Option.some.inj hp
    exact ⟨le_refl _, by simp [symbolsUpTo]⟩
  ingoing _ _ hp := nomatch hp
  answers _ ha := nomatch ha
  requests _ hr := nomatch hr

/-- A receiver goes on to a later state. -/
theorem receive
    {s : SyncState} (h : SyncInv cfg s) {target : PeerHash} {p : IngoingSync}
    (hp : 0 ≤ p.lastSeqNo) (hinv : IngoingInv cfg p)
    (hlater : ∀ q, s.ingoing target = some q → q.lastSeqNo ≤ p.lastSeqNo)
    {requests : List (PeerHash × Int)} (hrequests : ∀ r ∈ requests, 0 ≤ r.2) :
    SyncInv cfg
      { s with
        ingoing := Function.update s.ingoing target (some p)
        requests := requests } where
  outgoing := h.outgoing
  ingoing := by
    intro t q hq
    simp only [Function.update_apply] at hq
    split at hq
    · obtain rfl := Option.some.inj hq
      exact ⟨hp, hinv⟩
    · exact h.ingoing t q hq
  answers := by
    intro a ha
    refine (h.answers a ha).imp_right (Or.imp_right ?_)
    rintro ⟨q, hq, hold⟩
    simp only [Function.update_apply]
    split
    · rename_i heq
      exact ⟨p, rfl, hold.trans (hlater q (heq ▸ hq))⟩
    · exact ⟨q, hq, hold⟩
  requests := hrequests

theorem received
    {s : SyncState} (h : SyncInv cfg s) {target : PeerHash} {p : IngoingSync}
    (decode : List SSymbol → Decoding) {m : SyncMessage}
    (hp : 0 ≤ (p.process decode m).2.lastSeqNo) (hinv : IngoingInv cfg p)
    (hm : Labelled cfg m ∨ m.seqNo ≤ p.lastSeqNo)
    (hlater : ∀ q, s.ingoing target = some q → q.lastSeqNo ≤ p.lastSeqNo)
    (hseqNo : 0 ≤ m.seqNo) :
    SyncInv cfg (s.received target decode p m) := by
  obtain ⟨hprocessed, hgrows⟩ := hinv.process hm decode
  refine h.receive hp hprocessed (fun q hq => (hlater q hq).trans hgrows) ?_
  intro r hr
  split at hr
  · rcases List.mem_append.mp hr with hr | hr
    · exact h.requests r hr
    · rw [List.mem_singleton.mp hr]
      exact hseqNo
  · exact h.requests r hr

end SyncInv

/-- Every clean step keeps the invariant. -/
theorem syncInv_step
    (s : SyncState) (a : SyncAction) (s' : SyncState) (h : SyncInv cfg s)
    (hclean : SyncClean s a) (hstep : syncStep cfg s a = some s') :
    SyncInv cfg s' := by
  cases a with
  | startSync target =>
      obtain ⟨_, heq⟩ := Option.ite_none_right_eq_some.mp hstep
      split at heq
      · rename_i decode hdecoder hnone
        obtain rfl := Option.some.inj heq
        refine h.received decode ?_ .init (Or.inl labelled_startSync) ?_
          (le_refl _)
        · rw [process_next rfl rfl]
          decide
        · intro q hq
          rw [hnone] at hq
          cases hq
      · obtain rfl := Option.some.inj heq
        exact h
  | requestMoreSymbols i =>
      unfold syncStep at hstep
      simp only at hstep
      split at hstep
      · cases hstep
      · rename_i target lastSeqNo hrequest
        have hpos : 0 ≤ lastSeqNo :=
          h.requests _ (List.mem_of_getElem? hrequest)
        split at hstep
        · obtain rfl := Option.some.inj hstep
          exact h
        · rename_i out hout
          obtain rfl := Option.some.inj hstep
          obtain ⟨hlast, hproduced⟩ := h.outgoing out hout
          refine
            { outgoing := ?_, ingoing := h.ingoing, answers := ?_
              requests := h.requests }
          · intro p hp
            obtain rfl := Option.some.inj hp
            by_cases hold : lastSeqNo ≤ out.lastSeqNo
            · rw [out.next_of_le hold]
              exact ⟨hlast, hproduced⟩
            · rw [out.next_of_lt (by omega)]
              refine ⟨by simp only; omega, ?_⟩
              simp only
              rw [hproduced, ← symbolsUpTo_succ cfg (by omega)]
          · intro a ha
            rcases List.mem_append.mp ha with ha | ha
            · exact h.answers a ha
            · rw [List.mem_singleton.mp ha]
              have hseqNo : 0 < lastSeqNo + 1 := by omega
              refine ⟨hseqNo.le, ?_⟩
              rcases hclean target lastSeqNo hrequest out hout with
                hnext | ⟨p, hp, hhandled⟩
              · -- the symbols that the request is for
                refine Or.inl
                  { seqNo := hseqNo.le, symbols := Or.inr ⟨hseqNo, ?_⟩ }
                simp only
                rw [out.next_of_lt (by omega), hproduced, hnext,
                  Int.add_sub_cancel]
              · exact Or.inr ⟨p, hp, hhandled⟩
  | moreSymbols i =>
      unfold syncStep at hstep
      simp only at hstep
      split at hstep
      · cases hstep
      · rename_i target m hanswer
        have hmem := List.mem_of_getElem? hanswer
        split at hstep
        · rename_i decode p hdecoder hp
          obtain ⟨hstarted, hinv⟩ := h.ingoing target p hp
          split at hstep
          · obtain rfl := Option.some.inj hstep
            obtain ⟨hseqNo, hanswers⟩ := h.answers _ hmem
            have hm : Labelled cfg m ∨ m.seqNo ≤ p.lastSeqNo := by
              refine hanswers.imp_right ?_
              rintro ⟨q, hq, hold⟩
              obtain rfl := Option.some.inj (hp.symm.trans hq)
              exact hold
            refine h.received decode ?_ hinv hm ?_ hseqNo
            · exact hstarted.trans (hinv.process hm decode).2
            · intro q hq
              obtain rfl := Option.some.inj (hp.symm.trans hq)
              exact le_refl _
          · obtain rfl := Option.some.inj hstep
            exact h
        · obtain rfl := Option.some.inj hstep
          exact h
  | outgoingTimeout =>
      obtain rfl := Option.some.inj hstep
      exact { h with outgoing := fun p hp => nomatch hp }
  | ingoingTimeout target =>
      obtain rfl := Option.some.inj hstep
      cases hp : s.ingoing target with
      | none =>
          have hsame : Function.update s.ingoing target none = s.ingoing := by
            rw [← hp, Function.update_eq_self]
          simp only [Option.map_none, hsame]
          exact h
      | some p =>
          obtain ⟨hstarted, hinv⟩ := h.ingoing target p hp
          refine h.receive (p := { p with held := false }) hstarted
            { queue := hinv.queue, started := hinv.started } ?_ h.requests
          intro q hq
          obtain rfl := Option.some.inj (hp.symm.trans hq)
          exact le_refl _

/-- In every state of a clean run all receivers have added exactly the first
symbols. -/
theorem inOrder_of_cleanRun
    {s : SyncState} {target : PeerHash} {p : IngoingSync}
    (hrun : (syncMachine cfg).Run SyncClean s)
    (hp : s.ingoing target = some p) : InOrder cfg p := by
  have hinv : SyncInv cfg s :=
    hrun.invariant .init (fun s a s' => syncInv_step s a s')
  obtain ⟨hstarted, hreceiver⟩ := hinv.ingoing target p hp
  rcases hreceiver.started with ⟨hlast, _⟩ | ⟨_, horder⟩
  · omega
  · exact horder

end InOrder

/-! ### Two targets -/

namespace TwoTargets

def coded (i : Nat) : SSymbol := { count := 1, hash := i, symbol := i }

/-- Both targets have entries in the range, and are never done. -/
def cfg : SyncConfig where
  coded := coded
  initialSymbols := 1
  targets := ["a", "b"]
  decoder _ := some (fun _ => .undecided)

def state (actions : List SyncAction) : SyncState :=
  ((syncMachine cfg).exec (syncMachine cfg).init actions).getD
    (syncMachine cfg).init

/-- The first target asks for more, and gets it. -/
def first : List SyncAction :=
  [.startSync "a", .requestMoreSymbols 0, .moreSymbols 0]

/-- The second target asks for the same, and gets nothing, and then for more. -/
def second : List SyncAction :=
  [.startSync "b", .requestMoreSymbols 2, .moreSymbols 1,
    .requestMoreSymbols 3, .moreSymbols 2]

theorem not_inOrder :
    ∃ s p, (syncMachine cfg).Run Lib.Machine.Free s ∧
      s.ingoing "b" = some p ∧ ¬ InOrder cfg p ∧
      ∀ n, p.added ≠ produce cfg.coded 0 n := by
  have hgap : ∀ n, [] ++ produce coded 0 1 ++ [] ++
      produce coded (1 + nextBatch) nextBatch ≠ produce coded 0 n := by
    intro n heq
    have hsecond : (produce coded 0 n)[1]? = some (coded (1 + nextBatch)) := by
      have hpos : 0 < nextBatch := by
        unfold nextBatch
        omega
      rw [← heq, List.append_nil, List.nil_append,
        List.getElem?_append_right (le_refl 1)]
      exact getElem?_produce_of_lt coded (1 + nextBatch) hpos
    have hcoded := eq_of_getElem?_produce hsecond
    simp [coded, nextBatch] at hcoded
  refine ⟨state (first ++ second), _, .of_exec .init (first ++ second) rfl, rfl,
    fun h => hgap _ h, hgap⟩

/-- With one target the run is clean. -/
theorem inOrder_first :
    ∃ s p, (syncMachine cfg).Run SyncClean s ∧ s.ingoing "a" = some p ∧
      InOrder cfg p := by
  have hstarted : (syncMachine cfg).Run SyncClean (state (first.take 1)) :=
    .step (a := .startSync "a") .init trivial rfl
  have hrequested : (syncMachine cfg).Run SyncClean (state (first.take 2)) := by
    refine .step (a := .requestMoreSymbols 0) hstarted ?_ rfl
    intro target lastSeqNo hrequest out hout
    obtain ⟨_, rfl⟩ := Prod.mk.inj (Option.some.inj hrequest)
    obtain rfl := Option.some.inj hout
    exact Or.inl rfl
  have hrun : (syncMachine cfg).Run SyncClean (state first) :=
    .step (a := .moreSymbols 0) hrequested trivial rfl
  obtain ⟨p, hp⟩ : ∃ p, (state first).ingoing "a" = some p := ⟨_, rfl⟩
  exact ⟨_, p, hrun, hp, inOrder_of_cleanRun hrun hp⟩

end TwoTargets

end SharedLog
end Peerbit
