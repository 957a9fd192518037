import Mathlib.Data.List.Induction
import Peerbit.SharedLog.RatelessStream

/-!
# The reorder queue of a rateless sync

The messages of a sync arrive in any order, and more than once.  The receiver
queues them by their numbers and hands the next one to its decoder; the first
message is `StartSync`, with the number zero.

The numbers are handed over one after the other.  But an arrival lets one message
through at most.  When it is the one that was missing and the one after it waits
already, then that one is left behind, and what waits twice blocks the queue
afterwards (`reorders_iff`).
-/

namespace Peerbit
namespace SharedLog

/-- The message of the queue that `process` hands to the decoder. -/
def IngoingSync.handed (p : IngoingSync) (newMessage : SyncMessage) :
    Option SyncMessage :=
  if newMessage.seqNo ≤ p.lastSeqNo then none
  else
    ((p.messageQueue ++ [newMessage]).insertionSort
      (fun a b => a.seqNo ≤ b.seqNo)).head?.filter
        (fun message => decide (message.seqNo = p.lastSeqNo + 1))

/-- An ingoing process with the messages that it has handed over. -/
structure Receiving where
  process : IngoingSync
  handed : List SyncMessage

section Receiver

variable (decode : List SSymbol → Decoding)

/-- A message arrives; a process that is done is not held any more. -/
def Receiving.receive (s : Receiving) (m : SyncMessage) : Receiving :=
  if s.process.held then
    { process := (s.process.process decode m).2
      handed := s.handed ++ (s.process.handed m).toList }
  else s

/-- The messages arrive after the symbols of `StartSync`. -/
def receiveAll (symbols : List SSymbol) (arrivals : List SyncMessage) : Receiving :=
  ({ seqNo := 0, symbols := symbols } :: arrivals).foldl
    (Receiving.receive decode) { process := .init, handed := [] }

/-- The numbers that have arrived. -/
def arrivedNumbers (arrivals : List SyncMessage) : List Int :=
  0 :: arrivals.map SyncMessage.seqNo

/-- Every number is handed over once at most, in their order; and as long as the
decoder is not done, all numbers are up to which all have arrived. -/
structure Reorders (symbols : List SSymbol) (arrivals : List SyncMessage) : Prop where
  inOrder : ((receiveAll decode symbols arrivals).handed.map
    SyncMessage.seqNo).Pairwise (· < ·)
  complete : (receiveAll decode symbols arrivals).process.held = true →
    ∀ n, (∀ k, 0 ≤ k → k ≤ n → k ∈ arrivedNumbers arrivals) →
      ∀ k, 0 ≤ k → k ≤ n →
        k ∈ (receiveAll decode symbols arrivals).handed.map SyncMessage.seqNo

/-- The number arrives as the only one that was missing below the next one, which
is there. -/
def FillsGap (arrived : List Int) (k : Int) : Prop :=
  0 < k ∧ k ∉ arrived ∧ (∀ j, 0 ≤ j → j < k → j ∈ arrived) ∧ k + 1 ∈ arrived

/-- No message but the last one of the decoder fills a gap. -/
def FillsNoGaps (symbols : List SSymbol) (arrivals : List SyncMessage) : Prop :=
  ∀ earlier m, earlier ++ [m] <+: arrivals →
    (receiveAll decode symbols earlier).process.held = true →
    FillsGap (arrivedNumbers earlier) m.seqNo →
      decode ((receiveAll decode symbols earlier).process.added ++ m.symbols) = .decoded

end Receiver

/-! ### One arrival -/

section Arrivals

variable {decode : List SSymbol → Decoding} {symbols : List SSymbol}
variable {s : Receiving} {p : IngoingSync} {m : SyncMessage}

/-- A message is ignored, or it waits, or the next message is handed over. -/
theorem process_cases (decode : List SSymbol → Decoding) (p : IngoingSync)
    (m : SyncMessage) :
    (m.seqNo ≤ p.lastSeqNo ∧ p.handed m = none ∧ (p.process decode m).2 = p) ∨
    (∃ queue, p.lastSeqNo < m.seqNo ∧ queue.Perm (p.messageQueue ++ [m]) ∧
      (∃ q ∈ queue, q.seqNo ≠ p.lastSeqNo + 1 ∧ ∀ q' ∈ queue, q.seqNo ≤ q'.seqNo) ∧
      p.handed m = none ∧ (p.process decode m).2 = { p with messageQueue := queue }) ∨
    (∃ message queue, p.lastSeqNo < m.seqNo ∧
      (message :: queue).Perm (p.messageQueue ++ [m]) ∧
      message.seqNo = p.lastSeqNo + 1 ∧ p.handed m = some message ∧
      (p.process decode m).2.messageQueue = queue ∧
      (p.process decode m).2.lastSeqNo = p.lastSeqNo + 1 ∧
      ((p.process decode m).2.held = true ↔
        p.held = true ∧ decode (p.added ++ message.symbols) ≠ .decoded)) := by
  have hperm := List.perm_insertionSort (fun a b : SyncMessage => a.seqNo ≤ b.seqNo)
    (p.messageQueue ++ [m])
  have hsorted := List.pairwise_insertionSort
    (fun a b : SyncMessage => a.seqNo ≤ b.seqNo) (p.messageQueue ++ [m])
  by_cases hold : m.seqNo ≤ p.lastSeqNo
  · left
    refine ⟨hold, ?_, ?_⟩
    · rw [IngoingSync.handed, if_pos hold]
    · rw [IngoingSync.process, if_pos hold]
  · right
    rw [IngoingSync.handed, IngoingSync.process, if_neg hold, if_neg hold]
    cases hqueue : (p.messageQueue ++ [m]).insertionSort
        (fun a b => a.seqNo ≤ b.seqNo) with
    | nil =>
        rw [hqueue] at hperm
        simp at hperm
    | cons message queue =>
        rw [hqueue] at hperm hsorted
        by_cases hnext : message.seqNo = p.lastSeqNo + 1
        · right
          refine ⟨message, queue, by omega, hperm, hnext, by simp [hnext], ?_⟩
          simp only [hnext, ne_eq, not_true, if_false]
          split <;> simp_all
        · left
          refine ⟨message :: queue, by omega, hperm, ⟨message, List.mem_cons_self, hnext, ?_⟩,
            by simp [hnext], by simp [hnext]⟩
          intro q hq
          rcases List.mem_cons.mp hq with rfl | hq
          · exact Int.le_refl _
          · exact (List.pairwise_cons.mp hsorted).1 q hq

theorem receiveAll_concat (arrivals : List SyncMessage) (m : SyncMessage) :
    receiveAll decode symbols (arrivals ++ [m]) =
      (receiveAll decode symbols arrivals).receive decode m := by
  rw [receiveAll, ← List.cons_append, List.foldl_append]
  rfl

theorem held_of_held_receive (h : (s.receive decode m).process.held = true) :
    s.process.held = true := by
  by_contra hnot
  rw [Receiving.receive, if_neg hnot] at h
  exact hnot h

/-! ### What is handed over -/

/-- The numbers up to the last one were handed over, one after the other. -/
def HandsOn (s : Receiving) : Prop :=
  -1 ≤ s.process.lastSeqNo ∧
    s.handed.map SyncMessage.seqNo =
      (List.range (s.process.lastSeqNo + 1).toNat).map Int.ofNat

theorem HandsOn.receive (h : HandsOn s) : HandsOn (s.receive decode m) := by
  obtain ⟨hlast, hhanded⟩ := h
  rw [Receiving.receive]
  split
  · rcases process_cases decode s.process m with
      ⟨-, hnone, hsame⟩ | ⟨queue, -, -, -, hnone, hsame⟩ |
        ⟨message, queue, -, -, hnext, hsome, -, hlast', -⟩
    · rw [HandsOn, hsame, hnone]
      simpa using ⟨hlast, hhanded⟩
    · rw [HandsOn, hsame, hnone]
      simpa using ⟨hlast, hhanded⟩
    · rw [HandsOn, hlast', hsome]
      refine ⟨by omega, ?_⟩
      have hsucc : (s.process.lastSeqNo + 1 + 1).toNat =
          (s.process.lastSeqNo + 1).toNat + 1 := by omega
      have hcast : Int.ofNat (s.process.lastSeqNo + 1).toNat = s.process.lastSeqNo + 1 := by
        simp only [Int.ofNat_eq_natCast]
        omega
      rw [List.map_append, hhanded, hsucc, List.range_succ, List.map_append]
      simp only [Option.toList_some, List.map_cons, List.map_nil, hnext, hcast]
  · exact ⟨hlast, hhanded⟩

theorem handsOn_receiveAll (symbols : List SSymbol) (arrivals : List SyncMessage) :
    HandsOn (receiveAll decode symbols arrivals) := by
  rw [receiveAll]
  refine List.foldlRecOn (motive := HandsOn) _ _ ?_ fun s hs m _ => hs.receive
  exact ⟨Int.le_refl _, rfl⟩

theorem HandsOn.pairwise (h : HandsOn s) :
    (s.handed.map SyncMessage.seqNo).Pairwise (· < ·) := by
  rw [h.2, List.pairwise_map]
  exact List.pairwise_lt_range.imp fun hlt => Int.ofNat_lt.mpr hlt

theorem HandsOn.mem_iff (h : HandsOn s) {k : Int} :
    k ∈ s.handed.map SyncMessage.seqNo ↔ 0 ≤ k ∧ k ≤ s.process.lastSeqNo := by
  rw [h.2, List.mem_map]
  constructor
  · rintro ⟨i, hi, rfl⟩
    rw [List.mem_range] at hi
    simp only [Int.ofNat_eq_natCast]
    omega
  · rintro ⟨hzero, hle⟩
    exact ⟨k.toNat, List.mem_range.mpr (by omega), Int.toNat_of_nonneg hzero⟩

/-! ### What waits -/

/-- All numbers up to the last one have arrived, the next one has not, and what
waits has arrived before its turn. -/
structure InStep (p : IngoingSync) (arrived : List Int) : Prop where
  started : 0 ≤ p.lastSeqNo
  here : ∀ k, 0 ≤ k → k ≤ p.lastSeqNo → k ∈ arrived
  missing : p.lastSeqNo + 1 ∉ arrived
  waiting : ∀ q ∈ p.messageQueue, p.lastSeqNo < q.seqNo ∧ q.seqNo ∈ arrived

/-- All numbers are handed over up to which all have arrived. -/
def CaughtUp (p : IngoingSync) (arrived : List Int) : Prop :=
  ∀ n, (∀ k, 0 ≤ k → k ≤ n → k ∈ arrived) → n ≤ p.lastSeqNo

theorem InStep.caughtUp {arrived : List Int} (h : InStep p arrived) :
    CaughtUp p arrived := by
  intro n hn
  by_contra hlt
  have hstarted := h.started
  exact h.missing (hn _ (by omega) (by omega))

/-- A message in step is ignored, or waits before its turn, or is itself the
next. -/
theorem InStep.process_cases {arrived : List Int} (h : InStep p arrived)
    (decode : List SSymbol → Decoding) (m : SyncMessage) :
    (m.seqNo ≤ p.lastSeqNo ∧ (p.process decode m).2 = p) ∨
    (p.lastSeqNo + 1 < m.seqNo ∧ ∃ queue, queue.Perm (p.messageQueue ++ [m]) ∧
      (p.process decode m).2 = { p with messageQueue := queue }) ∨
    (m.seqNo = p.lastSeqNo + 1 ∧
      (p.process decode m).2.messageQueue.Perm p.messageQueue ∧
      (p.process decode m).2.lastSeqNo = p.lastSeqNo + 1 ∧
      ((p.process decode m).2.held = true ↔
        p.held = true ∧ decode (p.added ++ m.symbols) ≠ .decoded)) := by
  rcases SharedLog.process_cases decode p m with
    ⟨hold, -, hsame⟩ | ⟨queue, hnew, hperm, ⟨q, hq, hnext, hleast⟩, -, hsame⟩ |
      ⟨message, queue, -, hperm, hnext, -, hqueue, hlast, hheld⟩
  · exact .inl ⟨hold, hsame⟩
  · refine .inr (.inl ⟨?_, queue, hperm, hsame⟩)
    have hm := hleast m (hperm.mem_iff.mpr (by simp))
    rcases List.mem_append.mp (hperm.mem_iff.mp hq) with hwaits | hself
    · have := (h.waiting q hwaits).1
      omega
    · rw [List.mem_singleton.mp hself] at hnext
      omega
  · right
    right
    have hmessage : message = m := by
      have hmem : message ∈ p.messageQueue ++ [m] :=
        hperm.mem_iff.mp List.mem_cons_self
      rcases List.mem_append.mp hmem with hwaits | hself
      · have harrived := (h.waiting message hwaits).2
        rw [hnext] at harrived
        exact absurd harrived h.missing
      · exact List.mem_singleton.mp hself
    subst hmessage
    refine ⟨hnext, ?_, hlast, hheld⟩
    rw [hqueue]
    exact (List.perm_cons message).mp (hperm.trans (List.perm_append_singleton _ _))

theorem InStep.fillsGap_iff {arrived : List Int} (h : InStep p arrived) (k : Int) :
    FillsGap arrived k ↔ k = p.lastSeqNo + 1 ∧ p.lastSeqNo + 2 ∈ arrived := by
  have hstarted := h.started
  constructor
  · rintro ⟨hpos, hnew, hbelow, habove⟩
    have hk : k = p.lastSeqNo + 1 := by
      rcases Int.lt_trichotomy k (p.lastSeqNo + 1) with hlt | heq | hgt
      · exact absurd (h.here k (by omega) (by omega)) hnew
      · exact heq
      · exact absurd (hbelow _ (by omega) hgt) h.missing
    refine ⟨hk, ?_⟩
    rw [hk, Int.add_assoc] at habove
    exact habove
  · rintro ⟨rfl, habove⟩
    refine ⟨by omega, h.missing, fun j hzero hlt => h.here j hzero (by omega), ?_⟩
    rw [Int.add_assoc]
    exact habove

/-- An arrival that fills no gap keeps the queue in step. -/
theorem InStep.process {arrived : List Int} (h : InStep p arrived)
    (hgap : ¬ FillsGap arrived m.seqNo) :
    InStep (p.process decode m).2 (arrived ++ [m.seqNo]) := by
  have hstarted := h.started
  rcases h.process_cases decode m with
    ⟨hold, hsame⟩ | ⟨hlater, queue, hperm, hsame⟩ | ⟨hnext, hqueue, hlast, -⟩
  · rw [hsame]
    refine ⟨hstarted, fun k hzero hle => ?_, ?_, fun q hq => ?_⟩
    · exact List.mem_append_left _ (h.here k hzero hle)
    · simp only [List.mem_append, List.mem_singleton, not_or]
      exact ⟨h.missing, by omega⟩
    · exact ⟨(h.waiting q hq).1, List.mem_append_left _ (h.waiting q hq).2⟩
  · rw [hsame]
    refine ⟨hstarted, fun k hzero hle => ?_, ?_, fun q hq => ?_⟩
    · exact List.mem_append_left _ (h.here k hzero hle)
    · simp only [List.mem_append, List.mem_singleton, not_or]
      exact ⟨h.missing, by omega⟩
    · rcases List.mem_append.mp (hperm.mem_iff.mp hq) with hwaits | hself
      · exact ⟨(h.waiting q hwaits).1, List.mem_append_left _ (h.waiting q hwaits).2⟩
      · rw [List.mem_singleton.mp hself]
        exact ⟨by simp only; omega, by simp⟩
  · have hfree : p.lastSeqNo + 2 ∉ arrived := fun habove =>
      hgap ((h.fillsGap_iff _).mpr ⟨hnext, habove⟩)
    refine ⟨by omega, fun k hzero hle => ?_, ?_, fun q hq => ?_⟩
    · rw [hlast] at hle
      rw [List.mem_append, List.mem_singleton]
      by_cases hk : k = p.lastSeqNo + 1
      · exact .inr (hk.trans hnext.symm)
      · exact .inl (h.here k hzero (by omega))
    · rw [hlast, Int.add_assoc]
      simp only [List.mem_append, List.mem_singleton, not_or]
      exact ⟨hfree, by omega⟩
    · have hwaits := h.waiting q (hqueue.mem_iff.mp hq)
      refine ⟨?_, List.mem_append_left _ hwaits.2⟩
      have hne : q.seqNo ≠ p.lastSeqNo + 1 := fun heq =>
        h.missing (heq.symm ▸ hwaits.2)
      omega

/-- One that fills a gap leaves a message behind. -/
theorem InStep.not_caughtUp {arrived : List Int} (h : InStep p arrived)
    (hgap : FillsGap arrived m.seqNo) :
    ¬ CaughtUp (p.process decode m).2 (arrived ++ [m.seqNo]) := by
  have hstarted := h.started
  obtain ⟨hnext, habove⟩ := (h.fillsGap_iff _).mp hgap
  rcases h.process_cases decode m with
    ⟨hold, -⟩ | ⟨hlater, -⟩ | ⟨-, -, hlast, -⟩
  · omega
  · omega
  · intro hcaught
    have hle := hcaught (p.lastSeqNo + 2) fun k hzero hk => by
      rw [List.mem_append, List.mem_singleton]
      by_cases hold : k ≤ p.lastSeqNo
      · exact .inl (h.here k hzero hold)
      · by_cases hself : k = p.lastSeqNo + 1
        · exact .inr (hself.trans hnext.symm)
        · have hlast : k = p.lastSeqNo + 2 := by omega
          exact .inl (hlast ▸ habove)
    omega

theorem InStep.held_of_fillsGap {arrived : List Int} (h : InStep p arrived)
    (hgap : FillsGap arrived m.seqNo) :
    (p.process decode m).2.held = true ↔
      p.held = true ∧ decode (p.added ++ m.symbols) ≠ .decoded := by
  obtain ⟨hnext, -⟩ := (h.fillsGap_iff _).mp hgap
  rcases h.process_cases decode m with
    ⟨hold, -⟩ | ⟨hlater, -⟩ | ⟨-, -, -, hheld⟩
  · omega
  · omega
  · exact hheld

/-! ### All arrivals -/

theorem inStep_start : InStep (receiveAll decode symbols []).process (arrivedNumbers []) := by
  have hlast : (receiveAll decode symbols []).process.lastSeqNo = 0 ∧
      (receiveAll decode symbols []).process.messageQueue = [] := by
    simp only [receiveAll, List.foldl_cons, List.foldl_nil, Receiving.receive,
      IngoingSync.init, IngoingSync.process, List.nil_append]
    cases hdecode : decode symbols <;> simp [hdecode]
  constructor
  · omega
  · intro k hzero hle
    have : k = 0 := by omega
    simp [arrivedNumbers, this]
  · simp [arrivedNumbers, hlast.1]
  · simp [hlast.2]

theorem arrivedNumbers_concat (arrivals : List SyncMessage) (m : SyncMessage) :
    arrivedNumbers (arrivals ++ [m]) = arrivedNumbers arrivals ++ [m.seqNo] := by
  simp [arrivedNumbers]

theorem reorders_iff_caughtUp (arrivals : List SyncMessage) :
    Reorders decode symbols arrivals ↔
      ((receiveAll decode symbols arrivals).process.held = true →
        CaughtUp (receiveAll decode symbols arrivals).process
          (arrivedNumbers arrivals)) := by
  have hhands : HandsOn (receiveAll decode symbols arrivals) :=
    handsOn_receiveAll symbols arrivals
  constructor
  · intro h hheld n hn
    have hlast := hhands.1
    by_contra hlt
    have := hhands.mem_iff.mp (h.complete hheld n hn n (by omega) (Int.le_refl n))
    omega
  · intro h
    refine ⟨hhands.pairwise, fun hheld n hn k hzero hle => ?_⟩
    have := h hheld n hn
    exact hhands.mem_iff.mpr ⟨hzero, by omega⟩

theorem FillsNoGaps.of_prefix {earlier arrivals : List SyncMessage}
    (h : FillsNoGaps decode symbols arrivals) (hpre : earlier <+: arrivals) :
    FillsNoGaps decode symbols earlier :=
  fun before m hbefore => h before m (hbefore.trans hpre)

theorem FillsNoGaps.inStep {arrivals : List SyncMessage}
    (h : FillsNoGaps decode symbols arrivals)
    (hheld : (receiveAll decode symbols arrivals).process.held = true) :
    InStep (receiveAll decode symbols arrivals).process (arrivedNumbers arrivals) := by
  induction arrivals using List.reverseRecOn with
  | nil => exact inStep_start
  | append_singleton arrivals m ih =>
      rw [receiveAll_concat] at hheld ⊢
      have hbefore := held_of_held_receive hheld
      have hstep := ih (h.of_prefix (List.prefix_append _ _)) hbefore
      rw [Receiving.receive, if_pos hbefore] at hheld ⊢
      rw [arrivedNumbers_concat]
      refine hstep.process fun hgap => ?_
      have hdone := h arrivals m (List.prefix_refl _) hbefore hgap
      exact ((hstep.held_of_fillsGap hgap).mp hheld).2 hdone

theorem fillsNoGaps_of_reorders {arrivals : List SyncMessage}
    (h : ∀ earlier, earlier <+: arrivals → Reorders decode symbols earlier) :
    FillsNoGaps decode symbols arrivals := by
  induction arrivals using List.reverseRecOn with
  | nil =>
      intro earlier m hpre
      have := hpre.length_le
      simp at this
  | append_singleton arrivals m ih =>
      have hno := ih fun earlier hpre => h earlier (hpre.trans (List.prefix_append _ _))
      intro earlier m' hpre hheld hgap
      rcases List.prefix_concat_iff.mp hpre with hall | hpre
      · obtain ⟨rfl, hm⟩ := List.append_inj' hall rfl
        obtain rfl := List.singleton_inj.mp hm
        by_contra hundone
        have hstep := hno.inStep hheld
        have hheld' := (hstep.held_of_fillsGap hgap).mpr ⟨hheld, hundone⟩
        have hcaught := (reorders_iff_caughtUp _).mp (h _ (List.prefix_refl _))
        rw [receiveAll_concat, Receiving.receive, if_pos hheld,
          arrivedNumbers_concat] at hcaught
        exact hstep.not_caughtUp hgap (hcaught hheld')
      · exact hno earlier m' hpre hheld hgap

/-- Every arrival keeps the order and leaves none behind exactly when no number
arrives as the only missing one, unless its symbols complete the decoding. -/
theorem reorders_iff (decode : List SSymbol → Decoding) (symbols : List SSymbol)
    (arrivals : List SyncMessage) :
    (∀ earlier, earlier <+: arrivals → Reorders decode symbols earlier) ↔
      FillsNoGaps decode symbols arrivals := by
  constructor
  · exact fillsNoGaps_of_reorders
  · intro h earlier hpre
    rw [reorders_iff_caughtUp]
    exact fun hheld => ((h.of_prefix hpre).inStep hheld).caughtUp

/-- The second message overtakes the first: it is left in the queue. -/
theorem overtaken_not_reordered :
    ¬ ∀ (decode : List SSymbol → Decoding) (symbols : List SSymbol)
      (arrivals : List SyncMessage), Reorders decode symbols arrivals := by
  intro h
  have := (h (fun _ => .undecided) [] [⟨2, []⟩, ⟨1, []⟩]).complete rfl 2
    (by intro k hzero hle; simp [arrivedNumbers]; omega) 2 (by omega) (by omega)
  exact absurd this (by decide)

end Arrivals

end SharedLog
end Peerbit
