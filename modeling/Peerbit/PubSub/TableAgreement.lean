import Peerbit.PubSub.DirectSub

/-!
# When the subscription tables agree

`topics`, `topicsToPeers` and `peerToTopic` say the same in different order.
Every handler keeps them in agreement but one: `unsubscribe` deletes the topic
from the first two of them and leaves it in `peerToTopic`, under every peer that
was listed.  In a run in which the topics that the node stops tracking have no
such peer the tables agree in every state.
-/

namespace Peerbit
namespace PubSub

open Lib

inductive DirectSubAction where
  | subscribe (topic : String)
  | unsubscribe (topic : String) (force : Bool)
  /-- The message of a call of `unsubscribe` is sent. -/
  | unsubscribed (topic : String)
  /-- The message could not be sent, and the call of `unsubscribe` throws. -/
  | notUnsubscribed (topic : String)
  | requestSubscribers (topics : List String) (to_ : Option PeerHash)
  | onDataMessage (message : SubscriptionMessage) (seenBefore : Nat)
  | onPeerSession (key : PeerHash)
  /-- The key is missing, and the handler throws, for an unknown peer. -/
  | onPeerUnreachable (publicKey : Option PeerHash)
deriving Repr, DecidableEq

def directSubStep (s : DirectSub) : DirectSubAction → Option DirectSub
  | .subscribe topic => some (s.subscribe topic)
  | .unsubscribe topic force => some (s.unsubscribe topic force)
  | .unsubscribed topic =>
      if topic ∈ s.unsubscribing then some (s.unsubscribed topic) else none
  | .notUnsubscribed topic =>
      if topic ∈ s.unsubscribing then
        some { s with unsubscribing := s.unsubscribing.erase topic }
      else none
  | .requestSubscribers topics to_ => some (s.requestSubscribers topics to_)
  | .onDataMessage message seenBefore =>
      some (s.onDataMessage message seenBefore)
  | .onPeerSession key => some (s.removeSubscriptions key)
  | .onPeerUnreachable (some publicKey) => some (s.removeSubscriptions publicKey)
  | .onPeerUnreachable none => some s

def directSubMachine : Machine DirectSub DirectSubAction where
  init := .empty
  step := directSubStep

/-- For every tracked topic the three tables list the same peers, and
`peerToTopic` lists no topic that is not tracked. -/
def TablesAgree (s : DirectSub) : Prop :=
  (∀ t p, s.Tracks t →
    (s.Listed t p ↔ s.PeerOf t p) ∧ (s.Listed t p ↔ s.TopicOf t p)) ∧
  ∀ t p, s.TopicOf t p → s.Tracks t

/-- The node stops tracking a topic only when it lists no peer for it. -/
def StopsTrackingAlone (s : DirectSub) : DirectSubAction → Prop
  | .unsubscribed topic => (s.topicsToPeers topic).getD [] = []
  | _ => True

structure TablesInv (s : DirectSub) : Prop where
  tracked : ∀ t, (s.topicsToPeers t).isSome = (s.topics t).isSome
  peers : ∀ t p, s.Listed t p ↔ s.PeerOf t p
  topics : ∀ t p, s.Listed t p ↔ s.TopicOf t p

namespace TablesInv

variable {s s' : DirectSub}

theorem tablesAgree (h : TablesInv s) : TablesAgree s :=
  ⟨fun t p _ => ⟨h.peers t p, h.topics t p⟩,
    fun t p ht => DirectSub.listed_tracks ((h.topics t p).mpr ht)⟩

theorem empty : TablesInv .empty where
  tracked := fun _ => rfl
  peers := fun t p => by
    simp [DirectSub.Listed, DirectSub.PeerOf, DirectSub.empty]
  topics := fun t p => by
    simp [DirectSub.Listed, DirectSub.TopicOf, DirectSub.empty]

/-- The other fields do not matter. -/
theorem of_tables (h : TablesInv s) (hsame : s.SameTables s') :
    TablesInv s' := by
  obtain ⟨htopics, hpeers, hpeer⟩ := hsame
  refine ⟨fun t => ?_, fun t p => ?_, fun t p => ?_⟩
  · rw [htopics, hpeers]
    exact h.tracked t
  · rw [DirectSub.Listed, DirectSub.PeerOf, htopics, hpeers]
    exact h.peers t p
  · rw [DirectSub.Listed, DirectSub.TopicOf, htopics, hpeer]
    exact h.topics t p

theorem initializeTopic (h : TablesInv s) (topic : String) :
    TablesInv (s.initializeTopic topic) where
  tracked := fun t => by
    by_cases ht : t = topic
    · subst ht
      simp [DirectSub.initializeTopic]
    · simpa [DirectSub.initializeTopic, ht] using h.tracked t
  peers := fun t p => by
    rw [DirectSub.listed_initializeTopic, DirectSub.peerOf_initializeTopic]
    exact h.peers t p
  topics := fun t p => by
    rw [DirectSub.listed_initializeTopic]
    exact h.topics t p

theorem initializePeer (h : TablesInv s) (peer : PeerHash) :
    TablesInv (s.initializePeer peer) where
  tracked := h.tracked
  peers := h.peers
  topics := fun t p => by
    rw [DirectSub.topicOf_initializePeer]
    exact h.topics t p

theorem deletePeerFromTopic (h : TablesInv s) (topic : String)
    (peer : PeerHash) :
    TablesInv (s.deletePeerFromTopic topic peer).1 where
  tracked := fun t => by
    by_cases ht : t = topic
    · subst ht
      simpa [DirectSub.deletePeerFromTopic] using h.tracked t
    · simpa [DirectSub.deletePeerFromTopic, ht] using h.tracked t
  peers := fun t p => by
    rw [DirectSub.listed_deletePeerFromTopic,
      DirectSub.peerOf_deletePeerFromTopic, h.peers t p]
  topics := fun t p => by
    rw [DirectSub.listed_deletePeerFromTopic,
      DirectSub.topicOf_deletePeerFromTopic, h.topics t p]

theorem deletePeers (h : TablesInv s) (topics changed : List String)
    (peer : PeerHash) :
    TablesInv (topics.foldl (DirectSub.deletePeer peer) (s, changed)).1 := by
  induction topics generalizing s changed with
  | nil => exact h
  | cons topic topics ih => exact ih (h.deletePeerFromTopic topic peer) _

theorem removeSubscriptions (h : TablesInv s) (publicKey : PeerHash) :
    TablesInv (s.removeSubscriptions publicKey) :=
  (h.deletePeers _ [] publicKey).of_tables ⟨rfl, rfl, rfl⟩

/-- A further peer of a tracked topic is added to all three tables. -/
theorem subscribePeer_none {peers : PeerHash → Option SubscriptionData}
    {topic : String} {message : SubscriptionMessage} (h : TablesInv s)
    (htopic : s.topics topic = some peers)
    (hpeer : peers message.sender = none) (changed : List String) :
    TablesInv (DirectSub.subscribePeer message (s, changed) topic).1 := by
  obtain ⟨others, hothers⟩ : ∃ others, s.topicsToPeers topic = some others := by
    rw [← Option.isSome_iff_exists, h.tracked, htopic]
    rfl
  simp only [DirectSub.subscribePeer, htopic, hpeer]
  refine ⟨fun t => ?_, fun t p => ?_, fun t p => ?_⟩
  · by_cases ht : t = topic
    · subst ht
      simp [DirectSub.initializePeer, hothers]
    · simpa [DirectSub.initializePeer, ht] using h.tracked t
  · have hold := h.peers t p
    by_cases ht : t = topic
    · subst ht
      by_cases hp : p = message.sender
      · simp [DirectSub.Listed, DirectSub.PeerOf, DirectSub.initializePeer, hp,
          hothers, mem_addToSet]
      · simpa [DirectSub.Listed, DirectSub.PeerOf, DirectSub.initializePeer, hp,
          hothers, htopic, mem_addToSet] using hold
    · simpa [DirectSub.Listed, DirectSub.PeerOf, DirectSub.initializePeer, ht]
        using hold
  · have hold := h.topics t p
    by_cases hp : p = message.sender
    · subst hp
      by_cases ht : t = topic
      · simp [DirectSub.Listed, DirectSub.TopicOf, DirectSub.initializePeer, ht,
          mem_addToSet]
      · simpa [DirectSub.Listed, DirectSub.TopicOf, DirectSub.initializePeer, ht,
          mem_addToSet] using hold
    · by_cases ht : t = topic
      · subst ht
        simpa [DirectSub.Listed, DirectSub.TopicOf, DirectSub.initializePeer, hp,
          htopic] using hold
      · simpa [DirectSub.Listed, DirectSub.TopicOf, DirectSub.initializePeer, ht,
          hp] using hold

/-- A newer session of a listed peer changes only its data. -/
theorem setData {peers : PeerHash → Option SubscriptionData}
    {topic : String} {peer : PeerHash}
    (h : TablesInv s) (htopic : s.topics topic = some peers)
    (hpeer : (peers peer).isSome = true) (new : SubscriptionData) :
    TablesInv
      { s with
        topics := Function.update s.topics topic
          (some (Function.update peers peer (some new))) } := by
  have hlisted : ∀ t p,
      DirectSub.Listed
        { s with
          topics := Function.update s.topics topic
            (some (Function.update peers peer (some new))) } t p ↔
        s.Listed t p := by
    intro t p
    by_cases ht : t = topic
    · subst ht
      by_cases hp : p = peer
      · subst hp
        simp [DirectSub.Listed, htopic, hpeer]
      · simp [DirectSub.Listed, htopic, hp]
    · simp [DirectSub.Listed, ht]
  refine ⟨fun t => ?_, fun t p => ?_, fun t p => ?_⟩
  · by_cases ht : t = topic
    · subst ht
      simpa [htopic] using h.tracked t
    · simpa [ht] using h.tracked t
  · rw [hlisted]
    exact h.peers t p
  · rw [hlisted]
    exact h.topics t p

theorem subscribePeer (h : TablesInv s) (message : SubscriptionMessage)
    (changed : List String) (topic : String) :
    TablesInv (DirectSub.subscribePeer message (s, changed) topic).1 := by
  cases htopic : s.topics topic with
  | none => simpa [DirectSub.subscribePeer, htopic] using h
  | some peers =>
      cases hpeer : peers message.sender with
      | none => exact h.subscribePeer_none htopic hpeer changed
      | some existingSubscription =>
          have hinit := h.initializePeer message.sender
          simp only [DirectSub.subscribePeer, htopic, hpeer]
          split
          · have hsome : (peers message.sender).isSome = true := by
              rw [hpeer]
              rfl
            exact hinit.setData htopic hsome _
          · exact hinit

theorem subscribePeers (h : TablesInv s) (message : SubscriptionMessage)
    (topics changed : List String) :
    TablesInv (topics.foldl (DirectSub.subscribePeer message) (s, changed)).1 := by
  induction topics generalizing s changed with
  | nil => exact h
  | cons topic topics ih => exact ih (h.subscribePeer message changed topic) _

theorem onSubscribe (h : TablesInv s) (message : SubscriptionMessage)
    (requestSubscribers : Bool) :
    TablesInv (s.onSubscribe message requestSubscribers) :=
  (h.subscribePeers message message.content.topics []).of_tables
    (DirectSub.sameTables_onSubscribe s message requestSubscribers)

theorem onUnsubscribe (h : TablesInv s) (message : SubscriptionMessage)
    (seenBefore : Nat) :
    TablesInv (s.onUnsubscribe message seenBefore) :=
  (h.deletePeers message.content.topics [] message.sender).of_tables
    (DirectSub.sameTables_onUnsubscribe s message seenBefore)

theorem rememberMessage (h : TablesInv s) (message : SubscriptionMessage) :
    TablesInv (s.rememberMessage message) :=
  h.of_tables ⟨rfl, rfl, rfl⟩

theorem onDataMessage (h : TablesInv s) (message : SubscriptionMessage)
    (seenBefore : Nat) :
    TablesInv (s.onDataMessage message seenBefore) := by
  rw [DirectSub.onDataMessage]
  split
  · split_ifs
    · exact (h.rememberMessage message).onSubscribe message _
    · exact h.rememberMessage message
    · exact h
    · exact h
  · split_ifs
    · exact (h.rememberMessage message).onUnsubscribe message seenBefore
    · exact h
  · simp only
    split_ifs
    · exact h.of_tables ⟨rfl, rfl, rfl⟩
    · exact h

theorem subscribe (h : TablesInv s) (topic : String) :
    TablesInv (s.subscribe topic) := by
  rw [DirectSub.subscribe]
  split
  · exact h.of_tables ⟨rfl, rfl, rfl⟩
  · exact of_tables (h.initializeTopic topic) ⟨rfl, rfl, rfl⟩

theorem unsubscribe (h : TablesInv s) (topic : String) (force : Bool) :
    TablesInv (s.unsubscribe topic force) := by
  rw [DirectSub.unsubscribe]
  simp only
  split
  · exact h.of_tables ⟨rfl, rfl, rfl⟩
  · split_ifs
    · exact h.of_tables ⟨rfl, rfl, rfl⟩
    · exact h.of_tables ⟨rfl, rfl, rfl⟩

theorem initializeTopics (h : TablesInv s) (topics : List String) :
    TablesInv (topics.foldl DirectSub.initializeTopic s) := by
  induction topics generalizing s with
  | nil => exact h
  | cons topic topics ih => exact ih (h.initializeTopic topic)

theorem requestSubscribers (h : TablesInv s) (topics : List String)
    (to_ : Option PeerHash) :
    TablesInv (s.requestSubscribers topics to_) := by
  rw [DirectSub.requestSubscribers]
  split_ifs
  · exact h
  · exact (h.initializeTopics topics).of_tables ⟨rfl, rfl, rfl⟩

/-- Nothing is left of a topic that has no peers. -/
theorem unsubscribed (h : TablesInv s) {topic : String}
    (halone : (s.topicsToPeers topic).getD [] = []) :
    TablesInv (s.unsubscribed topic) := by
  have hno : ∀ p, ¬ s.Listed topic p := fun p hp => by
    have hpeer := (h.peers topic p).mp hp
    rw [DirectSub.PeerOf, halone] at hpeer
    exact List.not_mem_nil hpeer
  refine ⟨fun t => ?_, fun t p => ?_, fun t p => ?_⟩
  · by_cases ht : t = topic
    · subst ht
      simp [DirectSub.unsubscribed]
    · simpa [DirectSub.unsubscribed, ht] using h.tracked t
  · have hold := h.peers t p
    by_cases ht : t = topic
    · subst ht
      simp [DirectSub.Listed, DirectSub.PeerOf, DirectSub.unsubscribed]
    · simpa [DirectSub.Listed, DirectSub.PeerOf, DirectSub.unsubscribed, ht]
        using hold
  · have hold := h.topics t p
    by_cases ht : t = topic
    · subst ht
      have hnot : ¬ s.TopicOf t p := fun htopic => hno p (hold.mpr htopic)
      simpa [DirectSub.Listed, DirectSub.TopicOf, DirectSub.unsubscribed]
        using hnot
    · simpa [DirectSub.Listed, DirectSub.TopicOf, DirectSub.unsubscribed, ht]
        using hold

end TablesInv

theorem tablesInv_step {s s' : DirectSub} {a : DirectSubAction}
    (h : TablesInv s) (halone : StopsTrackingAlone s a)
    (hstep : directSubStep s a = some s') :
    TablesInv s' := by
  cases a with
  | subscribe topic => exact Option.some.inj hstep ▸ h.subscribe topic
  | unsubscribe topic force =>
      exact Option.some.inj hstep ▸ h.unsubscribe topic force
  | unsubscribed topic =>
      rw [directSubStep] at hstep
      split at hstep
      · exact Option.some.inj hstep ▸ h.unsubscribed halone
      · exact (nomatch hstep)
  | notUnsubscribed topic =>
      rw [directSubStep] at hstep
      split at hstep
      · exact Option.some.inj hstep ▸ h.of_tables ⟨rfl, rfl, rfl⟩
      · exact (nomatch hstep)
  | requestSubscribers topics to_ =>
      exact Option.some.inj hstep ▸ h.requestSubscribers topics to_
  | onDataMessage message seenBefore =>
      exact Option.some.inj hstep ▸ h.onDataMessage message seenBefore
  | onPeerSession key => exact Option.some.inj hstep ▸ h.removeSubscriptions key
  | onPeerUnreachable publicKey =>
      cases publicKey with
      | none => exact Option.some.inj hstep ▸ h
      | some publicKey =>
          exact Option.some.inj hstep ▸ h.removeSubscriptions publicKey

/-- **The subscription tables agree** in every state of a run in which the node
stops tracking a topic only when it lists no peer for it. -/
theorem tablesAgree_of_run {s : DirectSub}
    (hrun : directSubMachine.Run StopsTrackingAlone s) :
    TablesAgree s :=
  (hrun.invariant TablesInv.empty
    fun _ _ _ h halone hstep => tablesInv_step h halone hstep).tablesAgree

/-- The first step that breaks the condition breaks the agreement. -/
theorem not_tablesAgree_of_unsubscribed {s : DirectSub} {topic : String}
    (hrun : directSubMachine.Run StopsTrackingAlone s)
    (hpeers : ¬ StopsTrackingAlone s (.unsubscribed topic)) :
    ¬ TablesAgree (s.unsubscribed topic) := by
  have h : TablesInv s := hrun.invariant TablesInv.empty
    fun _ _ _ h halone hstep => tablesInv_step h halone hstep
  obtain ⟨p, hp⟩ := List.exists_mem_of_ne_nil _ hpeers
  have htopic : s.TopicOf topic p :=
    (h.topics topic p).mp ((h.peers topic p).mpr hp)
  intro hagree
  have htracks : (s.unsubscribed topic).Tracks topic := hagree.2 topic p htopic
  simp [DirectSub.Tracks, DirectSub.unsubscribed] at htracks

section LeftBehind

def subscribeToTopic (timestamp : Nat) : SubscriptionMessage where
  sender := "peer"
  session := 1
  timestamp := timestamp
  content := .Subscribe ["topic"] false

/-- The node subscribes, hears of a subscriber and unsubscribes. -/
def leavingActions : List DirectSubAction :=
  [.subscribe "topic", .onDataMessage (subscribeToTopic 1) 0,
    .unsubscribe "topic" false, .unsubscribed "topic"]

/-- The run without the subscriber. -/
theorem tablesAgree_leavingAlone :
    ∃ s, directSubMachine.exec directSubMachine.init
        [.subscribe "topic", .unsubscribe "topic" false,
          .unsubscribed "topic"] = some s ∧
      TablesAgree s := by
  have hsubscribed : directSubMachine.Run StopsTrackingAlone _ :=
    .step (a := .subscribe "topic") .init trivial rfl
  have hleaving : directSubMachine.Run StopsTrackingAlone _ :=
    .step (a := .unsubscribe "topic" false) hsubscribed trivial rfl
  exact ⟨_, rfl,
    tablesAgree_of_run (.step (a := .unsubscribed "topic") hleaving rfl rfl)⟩

theorem not_tablesAgree_leavingActions :
    ∃ s, directSubMachine.Run Machine.Free s ∧ ¬ TablesAgree s := by
  refine ⟨_, Machine.Run.of_exec .init leavingActions rfl, ?_⟩
  intro hagree
  exact absurd (hagree.2 "topic" "peer" (by decide)) (by decide)

end LeftBehind

end PubSub
end Peerbit
