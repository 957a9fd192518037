import Mathlib.Data.Finset.Card
import Mathlib.Data.Finset.Image
import Mathlib.Data.Finset.Prod
import Mathlib.Data.Finset.Range
import Peerbit.Lib.Machines
import Peerbit.Transport.Routes

/-!
# The delivery promise

The origin of a message waits for acknowledgements of its receivers.  From every
one of them it wants as many as it expects copies to arrive, each with another
count of the copies seen before.  The promise resolves when it has them all, and
rejects when a receiver becomes unreachable.

When the time is over, a loop over the receivers looks for one that has not
acknowledged.  It ends at the first one that has, so that the promise resolves
although receivers behind that one have not (`not_honest_of_not_endsInTime`).
-/

namespace Peerbit
namespace Transport

/-- The arguments of `createDeliveryPromise`, and the number of peers. -/
structure Delivery where
  from_ : KeyHash
  mode : DeliveryMode
  relayed : Bool
  peers : Nat
deriving Repr, DecidableEq

/-- How the promise is settled; `stopped` is the resolution by `stop`. -/
inductive DeliveryOutcome where
  | resolved
  | stopped
  | rejected
deriving Repr, DecidableEq

inductive DeliveryEvent where
  /-- The key of the first signature, and the count it acknowledges with. -/
  | ack (messageTarget : KeyHash) (seenCounter : Nat)
  | unreachable (peer : KeyHash)
  | timeout
  /-- `clear` is called by `stop`. -/
  | stop
deriving Repr, DecidableEq

/-- What the closures share.  They are in place, the timer included, until
`clear` takes them away. -/
structure DeliveryState where
  messageToSet : List KeyHash
  fastestNodesReached : KeyHash → Option (List Nat)
  uniqueAcks : Finset String
  listening : Bool
  outcome : Option DeliveryOutcome
  /-- All events so far, for the proofs only. -/
  history : List DeliveryEvent

namespace Delivery

variable (d : Delivery)

/-- The receivers, in the order of the set. -/
def receivers : List KeyHash :=
  ((d.mode.receivers.getD []).filter (· ≠ d.from_)).foldl
    (fun set to_ => if to_ ∈ set then set else set ++ [to_]) []

def haveReceivers : Bool := !d.receivers.isEmpty

/-- How many acknowledgements are expected of each receiver. -/
def filterMessageForSeenCounter : Option Nat :=
  if d.relayed then none
  else
    match d.mode with
    | .seek _ redundancy => some (min d.peers redundancy)
    | _ => some 1

/-- `createDeliveryPromise`, for a message without a promise yet. -/
def createDeliveryPromise : DeliveryState :=
  let s : DeliveryState :=
    { messageToSet := d.receivers, fastestNodesReached := fun _ => none
      uniqueAcks := ∅, listening := false, outcome := none, history := [] }
  if d.mode = .anyWhere then
    { s with outcome := some .resolved }
  else if d.haveReceivers ∧ d.peers = 0 then
    { s with outcome := some .rejected }
  else
    { s with
      listening := true
      outcome := if d.haveReceivers then none else some .resolved }

end Delivery

namespace DeliveryState

variable (d : Delivery) (s : DeliveryState)

/-- A promise is settled once. -/
def settle (outcome : DeliveryOutcome) : DeliveryState :=
  { s with outcome := s.outcome.or (some outcome) }

def clear : DeliveryState :=
  { s with listening := false }

def checkDone : DeliveryState :=
  match d.filterMessageForSeenCounter with
  | some filter =>
      if s.messageToSet.length * filter ≤ s.uniqueAcks.card then
        (if d.haveReceivers then s.clear else s).settle .resolved
      else s
  | none => s

/-- What the callback keeps of an acknowledgement. -/
def keepAck (messageTarget : KeyHash) (seenCounter : Nat) : DeliveryState :=
  if messageTarget ∈ s.messageToSet ∧
      (∀ filter, d.filterMessageForSeenCounter = some filter →
        seenCounter < filter) ∧
      seenCounter < MAX_ROUTE_DISTANCE then
    { s with
      fastestNodesReached := Function.update s.fastestNodesReached messageTarget
        (some ((s.fastestNodesReached messageTarget).getD [] ++ [seenCounter]))
      uniqueAcks := insert (messageTarget ++ toString seenCounter) s.uniqueAcks }
  else s

/-- The loop of the timeout over the receivers, with its `break`. -/
def hasAll (relayed : Bool) (reached : KeyHash → Bool) : List KeyHash → Bool
  | [] => true
  | to_ :: rest =>
      if reached to_ then true
      else if relayed then hasAll relayed reached rest
      else
        -- nothing sets `hasAll` again
        false

def onUnreachable (peer : KeyHash) : DeliveryState :=
  if d.relayed = false ∧ peer ∈ s.messageToSet then
    { s with
      messageToSet := s.messageToSet.filter (· ≠ peer) }.clear.settle .rejected
  else s

def onTimeout : DeliveryState :=
  let all := hasAll d.relayed (fun to_ => (s.fastestNodesReached to_).isSome)
    s.messageToSet
  if all = false ∧ d.relayed = false then s.clear.settle .rejected
  else s.clear.settle .resolved

/-- Nothing reacts to an event after `clear`. -/
def on (event : DeliveryEvent) : DeliveryState :=
  let s' :=
    if s.listening then
      match event with
      | .ack messageTarget seenCounter =>
          (s.keepAck d messageTarget seenCounter).checkDone d
      | .unreachable peer => s.onUnreachable d peer
      | .timeout => s.onTimeout d
      | .stop => s.clear.settle .stopped
    else s
  { s' with history := s.history ++ [event] }

/-- The receiver has acknowledged at least once. -/
def Acked (r : KeyHash) : Prop :=
  ∃ seenCounter, .ack r seenCounter ∈ s.history

end DeliveryState

def deliveryMachine (d : Delivery) : Lib.Machine DeliveryState DeliveryEvent where
  init := d.createDeliveryPromise
  step s event := some (s.on d event)

/-- The promise resolves, other than by a stop, only if every receiver has
acknowledged, and is settled when a receiver has become unreachable or the time
is over. -/
structure Honest (d : Delivery) (s : DeliveryState) : Prop where
  resolved : s.outcome = some .resolved → ∀ r ∈ d.receivers, s.Acked r
  rejected : s.outcome ≠ some .resolved → s.outcome ≠ some .stopped →
    (.timeout ∈ s.history ∨ ∃ r ∈ d.receivers, .unreachable r ∈ s.history) →
    s.outcome = some .rejected

/-- An event that does not end the wait too early: an acknowledgement, when none
is expected, is the last one that is missing, and when the time is over and the
first receiver has acknowledged then all have. -/
def EndsInTime (d : Delivery) (s : DeliveryState) : DeliveryEvent → Prop
  | .ack messageTarget _ =>
      s.listening = true → d.filterMessageForSeenCounter = some 0 →
        ∀ r ∈ d.receivers, r = messageTarget ∨ s.Acked r
  | .timeout =>
      s.listening = true →
        ∀ first, d.receivers.head? = some first →
          (s.fastestNodesReached first).isSome = true →
          ∀ r ∈ d.receivers, s.Acked r
  | _ => True

/-! ### The invariant of a wait -/

/-- Acknowledgements that are told apart by receiver and count are at most as
many as there are receivers that have sent one, times the counts. -/
theorem card_le_of_tagged {acks : Finset String} {senders : Finset KeyHash}
    {filter : Nat}
    (h : ∀ x ∈ acks, ∃ r ∈ senders, ∃ c < filter, x = r ++ toString c) :
    acks.card ≤ senders.card * filter := by
  have hsub : acks ⊆ (senders ×ˢ Finset.range filter).image
      (fun tag => tag.1 ++ toString tag.2) := by
    intro x hx
    obtain ⟨r, hr, c, hc, rfl⟩ := h x hx
    exact Finset.mem_image.mpr
      ⟨(r, c), Finset.mem_product.mpr ⟨hr, Finset.mem_range.mpr hc⟩, rfl⟩
  calc acks.card
      ≤ ((senders ×ˢ Finset.range filter).image _).card := Finset.card_le_card hsub
    _ ≤ (senders ×ˢ Finset.range filter).card := Finset.card_image_le
    _ = senders.card * filter := by rw [Finset.card_product, Finset.card_range]

theorem nodup_receivers (d : Delivery) : d.receivers.Nodup := by
  have hfold : ∀ (tos set : List KeyHash), set.Nodup →
      (tos.foldl (fun set to_ => if to_ ∈ set then set else set ++ [to_])
        set).Nodup := by
    intro tos
    induction tos with
    | nil => exact fun _ h => h
    | cons to_ tos ih =>
        intro set h
        refine ih _ ?_
        simp only
        split
        · exact h
        · rename_i hnew
          exact (List.perm_append_singleton _ _).nodup_iff.mpr
            (List.nodup_cons.mpr ⟨hnew, h⟩)
  exact hfold _ [] List.nodup_nil

/-- What the state says of those who have acknowledged. -/
structure DeliveryInv (d : Delivery) (acked : KeyHash → Prop)
    (s : DeliveryState) : Prop where
  open_ : s.listening = true ↔ s.outcome = none
  set_ : s.listening = true → s.messageToSet = d.receivers
  reached : ∀ r, (s.fastestNodesReached r).isSome = true → acked r
  acks : ∀ x ∈ s.uniqueAcks, ∃ r ∈ d.receivers, acked r ∧
    ∃ c, (∀ filter, d.filterMessageForSeenCounter = some filter → c < filter) ∧
      x = r ++ toString c
  resolved : s.outcome = some .resolved → ∀ r ∈ d.receivers, acked r

namespace DeliveryInv

variable {d : Delivery} {acked : KeyHash → Prop} {s : DeliveryState}

theorem mono (h : DeliveryInv d acked s) {acked' : KeyHash → Prop}
    (hmono : ∀ r, acked r → acked' r) : DeliveryInv d acked' s where
  open_ := h.open_
  set_ := h.set_
  reached := fun r hr => hmono r (h.reached r hr)
  acks := fun x hx => by
    obtain ⟨r, hr, hacked, hcount⟩ := h.acks x hx
    exact ⟨r, hr, hmono r hacked, hcount⟩
  resolved := fun hres r hr => hmono r (h.resolved hres r hr)

/-- The end of the wait. -/
theorem settled (h : DeliveryInv d acked s) (hlistening : s.listening = true)
    {outcome : DeliveryOutcome}
    (hresolved : outcome = .resolved → ∀ r ∈ d.receivers, acked r) :
    DeliveryInv d acked (s.clear.settle outcome) := by
  have hnone := h.open_.mp hlistening
  refine ⟨?_, ?_, h.reached, h.acks, fun hres => ?_⟩
  · simp [DeliveryState.settle, DeliveryState.clear]
  · simp [DeliveryState.settle, DeliveryState.clear]
  · have houtcome : outcome = .resolved := by
      simpa [DeliveryState.settle, DeliveryState.clear, hnone] using hres
    exact hresolved houtcome

theorem keepAck (h : DeliveryInv d acked s) (hlistening : s.listening = true)
    {messageTarget : KeyHash} (hacked : acked messageTarget)
    (seenCounter : Nat) :
    DeliveryInv d acked (s.keepAck d messageTarget seenCounter) := by
  rw [DeliveryState.keepAck]
  split
  · rename_i hkeep
    refine ⟨h.open_, h.set_, fun r hr => ?_, fun x hx => ?_, h.resolved⟩
    · by_cases hrt : r = messageTarget
      · exact hrt ▸ hacked
      · exact h.reached r (by simpa [hrt] using hr)
    · rcases Finset.mem_insert.mp hx with rfl | hx
      · exact ⟨messageTarget, h.set_ hlistening ▸ hkeep.1, hacked, seenCounter,
          hkeep.2.1, rfl⟩
      · exact h.acks x hx
  · exact h

theorem listening_keepAck {messageTarget : KeyHash} {seenCounter : Nat} :
    (s.keepAck d messageTarget seenCounter).listening = s.listening := by
  rw [DeliveryState.keepAck]
  split <;> rfl

/-- Enough acknowledgements are acknowledgements of all receivers. -/
theorem acked_of_enough (h : DeliveryInv d acked s)
    (hset : s.messageToSet = d.receivers) {filter : Nat}
    (hfilter : d.filterMessageForSeenCounter = some filter) (hpos : 0 < filter)
    (henough : s.messageToSet.length * filter ≤ s.uniqueAcks.card) :
    ∀ r ∈ d.receivers, acked r := by
  classical
  have hcard : s.uniqueAcks.card ≤
      (d.receivers.toFinset.filter acked).card * filter := by
    refine card_le_of_tagged fun x hx => ?_
    obtain ⟨r, hr, hacked, c, hc, hx⟩ := h.acks x hx
    exact ⟨r, by simp [hr, hacked], c, hc filter hfilter, hx⟩
  have hlength : d.receivers.toFinset.card = d.receivers.length :=
    List.toFinset_card_of_nodup (nodup_receivers d)
  have hle : d.receivers.toFinset.card ≤
      (d.receivers.toFinset.filter acked).card := by
    rw [hset] at henough
    rw [hlength]
    exact Nat.le_of_mul_le_mul_right (henough.trans hcard) hpos
  have hall := Finset.eq_of_subset_of_card_le (Finset.filter_subset _ _) hle
  intro r hr
  have hmem : r ∈ d.receivers.toFinset.filter acked := by
    rw [hall]
    exact List.mem_toFinset.mpr hr
  exact (Finset.mem_filter.mp hmem).2

theorem checkDone (h : DeliveryInv d acked s) (hlistening : s.listening = true)
    (hreceivers : d.haveReceivers = true)
    (hzero : d.filterMessageForSeenCounter = some 0 →
      ∀ r ∈ d.receivers, acked r) :
    DeliveryInv d acked (s.checkDone d) := by
  rw [DeliveryState.checkDone]
  split
  · rename_i filter hfilter
    split
    · rename_i henough
      refine h.settled hlistening fun _ => ?_
      rcases Nat.eq_zero_or_pos filter with rfl | hpos
      · exact hzero hfilter
      · exact h.acked_of_enough (h.set_ hlistening) hfilter hpos henough
    · exact h
  · exact h

/-- If the first receiver has acknowledged then the loop of the timeout ends
there; if not then it finds that one. -/
theorem onTimeout (h : DeliveryInv d acked s) (hlistening : s.listening = true)
    (hrelayed : d.relayed = false)
    (hfirst : ∀ first, d.receivers.head? = some first →
      (s.fastestNodesReached first).isSome = true →
      ∀ r ∈ d.receivers, acked r) :
    DeliveryInv d acked (s.onTimeout d) := by
  rw [DeliveryState.onTimeout, h.set_ hlistening, hrelayed]
  simp only [and_true]
  split
  · exact h.settled hlistening fun hres => (nomatch hres)
  · rename_i hall
    refine h.settled hlistening fun _ => ?_
    cases hrec : d.receivers with
    | nil => exact fun _ hr => absurd hr List.not_mem_nil
    | cons first rest =>
        rw [hrec, DeliveryState.hasAll] at hall
        by_cases hreached : (s.fastestNodesReached first).isSome = true
        · rw [← hrec]
          exact hfirst first (by rw [hrec]; rfl) hreached
        · simp [hreached] at hall

theorem onUnreachable (h : DeliveryInv d acked s)
    (hlistening : s.listening = true) (peer : KeyHash) :
    DeliveryInv d acked (s.onUnreachable d peer) := by
  rw [DeliveryState.onUnreachable]
  split
  · have hnone := h.open_.mp hlistening
    refine ⟨?_, ?_, h.reached, h.acks, fun hres => ?_⟩
    · simp [DeliveryState.settle, DeliveryState.clear]
    · simp [DeliveryState.settle, DeliveryState.clear]
    · simp [DeliveryState.settle, DeliveryState.clear, hnone] at hres
  · exact h

end DeliveryInv

/-- Nothing has happened that ends the wait. -/
def Waits (d : Delivery) (s : DeliveryState) : Prop :=
  s.listening = true →
    .timeout ∉ s.history ∧ ∀ r ∈ d.receivers, .unreachable r ∉ s.history

/-- The origin of a message that wants acknowledgements, with receivers. -/
structure Awaits (d : Delivery) : Prop where
  mode : (∃ to_ redundancy, d.mode = .acknowledge to_ redundancy) ∨
    ∃ to_ redundancy, d.mode = .seek to_ redundancy
  relayed : d.relayed = false
  receivers : d.receivers ≠ []

section Run

variable {d : Delivery} {s : DeliveryState} {event : DeliveryEvent}

theorem Awaits.haveReceivers (h : Awaits d) : d.haveReceivers = true := by
  simpa [Delivery.haveReceivers] using h.receivers

theorem acked_on {r : KeyHash} (h : s.Acked r) : (s.on d event).Acked r := by
  obtain ⟨seenCounter, hack⟩ := h
  exact ⟨seenCounter, List.mem_append_left _ hack⟩

theorem settled_inv (hawaits : Awaits d) :
    DeliveryInv d d.createDeliveryPromise.Acked d.createDeliveryPromise ∧
      Waits d d.createDeliveryPromise := by
  have hmode : d.mode ≠ .anyWhere := by
    rcases hawaits.mode with ⟨_, _, h⟩ | ⟨_, _, h⟩ <;> simp [h]
  have hhave := hawaits.haveReceivers
  rw [Delivery.createDeliveryPromise, if_neg hmode]
  split
  · refine ⟨⟨?_, ?_, ?_, ?_, ?_⟩, ?_⟩ <;> simp [Waits]
  · refine ⟨⟨?_, ?_, ?_, ?_, ?_⟩, ?_⟩ <;> simp [Waits]

/-- One event that does not end the wait too early keeps the invariant. -/
theorem deliveryInv_on (hawaits : Awaits d) (h : DeliveryInv d s.Acked s)
    (htime : EndsInTime d s event) :
    DeliveryInv d (s.on d event).Acked (s.on d event) := by
  have hmono : DeliveryInv d (s.on d event).Acked s := h.mono fun _ hr => acked_on hr
  have hfields : ∀ {s' : DeliveryState} {history : List DeliveryEvent},
      DeliveryInv d (s.on d event).Acked s' →
      DeliveryInv d (s.on d event).Acked { s' with history := history } :=
    fun h' => ⟨h'.open_, h'.set_, h'.reached, h'.acks, h'.resolved⟩
  refine hfields ?_
  by_cases hlistening : s.listening = true
  · rw [if_pos hlistening]
    cases event with
    | ack messageTarget seenCounter =>
        have hacked : (s.on d (.ack messageTarget seenCounter)).Acked
            messageTarget :=
          ⟨seenCounter, List.mem_append_right _ (List.mem_singleton_self _)⟩
        refine (hmono.keepAck hlistening hacked seenCounter).checkDone
          (DeliveryInv.listening_keepAck.trans hlistening)
          hawaits.haveReceivers fun hzero r hr => ?_
        rcases htime hlistening hzero r hr with rfl | hr
        · exact hacked
        · exact acked_on hr
    | unreachable peer => exact hmono.onUnreachable hlistening peer
    | timeout =>
        refine hmono.onTimeout hlistening hawaits.relayed ?_
        intro first hfirst hreached r hr
        exact acked_on (htime hlistening first hfirst hreached r hr)
    | stop => exact hmono.settled hlistening fun hres => (nomatch hres)
  · rw [if_neg hlistening]
    exact hmono

theorem waits_on (hawaits : Awaits d) (h : DeliveryInv d s.Acked s)
    (hwaits : Waits d s) : Waits d (s.on d event) := by
  intro hlistening
  by_cases hbefore : s.listening = true
  · obtain ⟨htimeout, hunreachable⟩ := hwaits hbefore
    simp only [DeliveryState.on, hbefore, if_true] at hlistening
    have hevent : event ≠ .timeout ∧
        ∀ r ∈ d.receivers, event ≠ .unreachable r := by
      cases event with
      | ack _ _ => simp
      | timeout =>
          simp only [DeliveryState.onTimeout] at hlistening
          split at hlistening <;>
            simp [DeliveryState.settle, DeliveryState.clear] at hlistening
      | unreachable peer =>
          refine ⟨by simp, fun r hr heq => ?_⟩
          obtain rfl := DeliveryEvent.unreachable.inj heq
          simp only [DeliveryState.onUnreachable, hawaits.relayed,
            h.set_ hbefore, hr] at hlistening
          exact (nomatch hlistening)
      | stop => exact (nomatch hlistening)
    constructor
    · intro hmem
      rcases List.mem_append.mp hmem with hmem | hmem
      · exact htimeout hmem
      · exact hevent.1 (List.mem_singleton.mp hmem).symm
    · intro r hr hmem
      rcases List.mem_append.mp hmem with hmem | hmem
      · exact hunreachable r hr hmem
      · exact hevent.2 r hr (List.mem_singleton.mp hmem).symm
  · simp [DeliveryState.on, hbefore] at hlistening

theorem DeliveryInv.honest (h : DeliveryInv d s.Acked s) (hwaits : Waits d s) :
    Honest d s where
  resolved := h.resolved
  rejected := by
    intro hresolved hstopped hevent
    cases houtcome : s.outcome with
    | none =>
        obtain ⟨htimeout, hunreachable⟩ := hwaits (h.open_.mpr houtcome)
        rcases hevent with hevent | ⟨r, hr, hevent⟩
        · exact absurd hevent htimeout
        · exact absurd hevent (hunreachable r hr)
    | some outcome =>
        cases outcome with
        | resolved => exact absurd houtcome hresolved
        | stopped => exact absurd houtcome hstopped
        | rejected => rfl

theorem deliveryInv_of_run (hawaits : Awaits d)
    (hrun : (deliveryMachine d).Run (EndsInTime d) s) :
    DeliveryInv d s.Acked s ∧ Waits d s := by
  refine @Lib.Machine.Run.invariant _ _ _ _
    (fun s => DeliveryInv d s.Acked s ∧ Waits d s) (settled_inv hawaits) ?_ s hrun
  rintro s event s' ⟨h, hwaits⟩ htime hstep
  obtain rfl := Option.some.inj hstep
  exact ⟨deliveryInv_on hawaits h htime, waits_on hawaits h hwaits⟩

/-- **The delivery promise is honest** after any events of which none ends the
wait too early. -/
theorem honest_of_run (hawaits : Awaits d)
    (hrun : (deliveryMachine d).Run (EndsInTime d) s) :
    Honest d s := by
  obtain ⟨h, hwaits⟩ := deliveryInv_of_run hawaits hrun
  exact h.honest hwaits

theorem outcome_keepAck {messageTarget : KeyHash} {seenCounter : Nat} :
    (s.keepAck d messageTarget seenCounter).outcome = s.outcome := by
  rw [DeliveryState.keepAck]
  split <;> rfl

/-- The first event that ends the wait too early makes the promise dishonest. -/
theorem not_honest_of_not_endsInTime (hawaits : Awaits d)
    (hrun : (deliveryMachine d).Run (EndsInTime d) s)
    (htime : ¬ EndsInTime d s event) :
    ¬ Honest d (s.on d event) := by
  have h := (deliveryInv_of_run hawaits hrun).1
  intro hhonest
  cases event with
  | ack messageTarget seenCounter =>
      simp only [EndsInTime, Classical.not_imp, not_forall, not_or] at htime
      obtain ⟨hlistening, hzero, r, hr, hne, hnot⟩ := htime
      have houtcome :
          (s.on d (.ack messageTarget seenCounter)).outcome = some .resolved := by
        simp [DeliveryState.on, hlistening, DeliveryState.checkDone, hzero,
          DeliveryState.settle, hawaits.haveReceivers, DeliveryState.clear,
          outcome_keepAck, h.open_.mp hlistening]
      obtain ⟨count, hack⟩ := hhonest.resolved houtcome r hr
      rcases List.mem_append.mp hack with hack | hack
      · exact hnot ⟨count, hack⟩
      · exact hne (DeliveryEvent.ack.inj (List.mem_singleton.mp hack)).1
  | timeout =>
      simp only [EndsInTime, Classical.not_imp, not_forall] at htime
      obtain ⟨hlistening, first, hfirst, hreached, r, hr, hnot⟩ := htime
      have hset := h.set_ hlistening
      have hall : DeliveryState.hasAll d.relayed
          (fun to_ => (s.fastestNodesReached to_).isSome) s.messageToSet =
            true := by
        obtain ⟨rest, hrest⟩ := List.head?_eq_some_iff.mp hfirst
        rw [hset, hrest, DeliveryState.hasAll, if_pos hreached]
      have houtcome : (s.on d .timeout).outcome = some .resolved := by
        simp [DeliveryState.on, hlistening, DeliveryState.onTimeout, hall,
          DeliveryState.settle, DeliveryState.clear, h.open_.mp hlistening]
      obtain ⟨count, hack⟩ := hhonest.resolved houtcome r hr
      rcases List.mem_append.mp hack with hack | hack
      · exact hnot ⟨count, hack⟩
      · exact (nomatch List.mem_singleton.mp hack)
  | unreachable peer => exact htime trivial
  | stop => exact htime trivial

end Run

section LateReceiver

/-- A message of `a` to `b` and `c`. -/
def toTwo : Delivery where
  from_ := "a"
  mode := .acknowledge ["b", "c"] 1
  relayed := false
  peers := 2

theorem awaits_toTwo : Awaits toTwo where
  mode := .inl ⟨_, _, rfl⟩
  relayed := rfl
  receivers := by decide

/-- Both acknowledge. -/
theorem honest_toTwo :
    ∃ s, (deliveryMachine toTwo).exec (deliveryMachine toTwo).init
        [.ack "b" 0, .ack "c" 0] = some s ∧
      s.outcome = some .resolved ∧ Honest toTwo s := by
  have hone : (deliveryMachine toTwo).Run (EndsInTime toTwo) _ :=
    .step (a := .ack "b" 0) .init (fun _ hzero => (nomatch hzero)) rfl
  have htwo : (deliveryMachine toTwo).Run (EndsInTime toTwo) _ :=
    .step (a := .ack "c" 0) hone (fun _ hzero => (nomatch hzero)) rfl
  exact ⟨_, rfl, by decide, honest_of_run awaits_toTwo htwo⟩

/-- The time is over when `b` has acknowledged and `c` has not. -/
theorem not_honest_lateReceiver :
    ∃ s, (deliveryMachine toTwo).exec (deliveryMachine toTwo).init
        [.ack "b" 0, .timeout] = some s ∧ ¬ Honest toTwo s := by
  refine ⟨_, rfl, fun h => ?_⟩
  obtain ⟨count, hack⟩ := h.resolved (by decide) "c" (by decide)
  rcases List.mem_append.mp hack with hack | hack
  · have hb := (DeliveryEvent.ack.inj (List.mem_singleton.mp hack)).1
    exact absurd hb (by decide)
  · exact (nomatch List.mem_singleton.mp hack)

end LateReceiver

end Transport
end Peerbit
