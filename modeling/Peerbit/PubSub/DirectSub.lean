import Mathlib.Data.Set.Basic
import Mathlib.Logic.Function.Basic
import Peerbit.Lib.Machines

/-!
# The subscription tables of `DirectSub`

A node keeps for each topic it tracks the peers that subscribe to it, with the
session and timestamp of the message that said so (`topics`) and as a plain set
(`topicsToPeers`), and for each peer the topics it subscribes to
(`peerToTopic`).  A map is the function that looks a key up in it.

The handlers below run from one `await` to the next.  The only one that changes
the tables after an `await` is `unsubscribe`, which drops the topic once its own
message is sent: it is two steps here, and `unsubscribing` holds the topics of
the calls between the two.
-/

namespace Peerbit
namespace PubSub

/-- A public key hash, as a string. -/
abbrev PeerHash := String

structure SubscriptionData where
  publicKey : PeerHash
  session : Nat
  timestamp : Nat
deriving Repr, DecidableEq

/-- The messages about subscriptions. -/
inductive PubSubMessage where
  | Subscribe (topics : List String) (requestSubscribers : Bool)
  | Unsubscribe (topics : List String)
  | GetSubscribers (topics : List String)
deriving Repr, DecidableEq

def PubSubMessage.topics : PubSubMessage → List String
  | .Subscribe topics _ => topics
  | .Unsubscribe topics => topics
  | .GetSubscribers topics => topics

/-- A data message that verifies and carries a message about subscriptions:
the key of its first signature, and what the handlers read of its header. -/
structure SubscriptionMessage where
  sender : PeerHash
  session : Nat
  timestamp : Nat
  content : PubSubMessage
deriving Repr, DecidableEq

/-- The events "subscribe" and "unsubscribe". -/
inductive SubscriptionChange where
  | subscribe (peer : PeerHash) (topics : List String)
  | unsubscribe (peer : PeerHash) (topics : List String)
deriving Repr, DecidableEq

structure DirectSub where
  topics : String → Option (PeerHash → Option SubscriptionData)
  peerToTopic : PeerHash → Option (List String)
  topicsToPeers : String → Option (List PeerHash)
  /-- The counters. -/
  subscriptions : String → Option Nat
  /-- The timestamps of the messages. -/
  lastSubscriptionMessages : PeerHash → Option (String → Option Nat)
  unsubscribing : List String
  dispatched : List SubscriptionChange
  /-- What the node publishes, and to whom if it is addressed. -/
  published : List (PubSubMessage × Option PeerHash)

/-- `Set.prototype.add`. -/
def addToSet (set : List String) (x : String) : List String :=
  if x ∈ set then set else set ++ [x]

theorem mem_addToSet {set : List String} {x y : String} :
    y ∈ addToSet set x ↔ y ∈ set ∨ y = x := by
  rw [addToSet]
  split
  · constructor
    · exact .inl
    · rintro (hy | rfl)
      · exact hy
      · assumption
  · simp

namespace DirectSub

def empty : DirectSub where
  topics := fun _ => none
  peerToTopic := fun _ => none
  topicsToPeers := fun _ => none
  subscriptions := fun _ => none
  lastSubscriptionMessages := fun _ => none
  unsubscribing := []
  dispatched := []
  published := []

def initializeTopic (s : DirectSub) (topic : String) : DirectSub :=
  { s with
    topics := Function.update s.topics topic
      (some ((s.topics topic).getD fun _ => none))
    topicsToPeers := Function.update s.topicsToPeers topic
      (some ((s.topicsToPeers topic).getD [])) }

def initializePeer (s : DirectSub) (publicKey : PeerHash) : DirectSub :=
  { s with
    peerToTopic := Function.update s.peerToTopic publicKey
      (some ((s.peerToTopic publicKey).getD [])) }

def publishMessage (s : DirectSub) (message : PubSubMessage)
    (to_ : Option PeerHash) : DirectSub :=
  { s with published := s.published ++ [(message, to_)] }

def subscribe (s : DirectSub) (topic : String) : DirectSub :=
  match s.subscriptions topic with
  | some counter =>
      { s with
        subscriptions :=
          Function.update s.subscriptions topic (some (counter + 1)) }
  | none =>
      (initializeTopic
        { s with
          subscriptions := Function.update s.subscriptions topic (some 1) }
        topic).publishMessage (.Subscribe [topic] true) none

/-- `unsubscribe` up to its `await`. -/
def unsubscribe (s : DirectSub) (topic : String) (force : Bool) : DirectSub :=
  let s :=
    { s with
      lastSubscriptionMessages := fun peer =>
        if peer ∈ (s.topicsToPeers topic).getD [] then none
        else s.lastSubscriptionMessages peer }
  match s.subscriptions topic with
  | none => s
  | some counter =>
      let counter := counter - 1
      let s :=
        { s with
          subscriptions :=
            Function.update s.subscriptions topic (some counter) }
      if counter = 0 ∨ force = true then
        { s with unsubscribing := s.unsubscribing ++ [topic] }.publishMessage
          (.Unsubscribe [topic]) none
      else s

/-- The rest of `unsubscribe`, after its message is sent. -/
def unsubscribed (s : DirectSub) (topic : String) : DirectSub :=
  { s with
    subscriptions := Function.update s.subscriptions topic none
    topics := Function.update s.topics topic none
    topicsToPeers := Function.update s.topicsToPeers topic none
    unsubscribing := s.unsubscribing.erase topic }

def requestSubscribers (s : DirectSub) (topics : List String)
    (to_ : Option PeerHash) : DirectSub :=
  if topics.length = 0 then s
  else
    (topics.foldl initializeTopic s).publishMessage (.GetSubscribers topics) to_

/-- `deletePeerFromTopic`, with the subscription it deletes from `topics`. -/
def deletePeerFromTopic (s : DirectSub) (topic : String)
    (publicKeyHash : PeerHash) : DirectSub × Option SubscriptionData :=
  let rest := (s.peerToTopic publicKeyHash).map (List.filter (· ≠ topic))
  ({ s with
      topics := Function.update s.topics topic
        ((s.topics topic).map fun peers =>
          Function.update peers publicKeyHash none)
      peerToTopic := Function.update s.peerToTopic publicKeyHash
        (rest.filter fun topics => !topics.isEmpty)
      topicsToPeers := Function.update s.topicsToPeers topic
        ((s.topicsToPeers topic).map (List.filter (· ≠ publicKeyHash))) },
    (s.topics topic).bind fun peers => peers publicKeyHash)

/-- The body of the loop of two handlers: `deletePeerFromTopic`, with the
topics so far that the peer was listed under. -/
def deletePeer (publicKeyHash : PeerHash) (acc : DirectSub × List String)
    (topic : String) : DirectSub × List String :=
  let r := acc.1.deletePeerFromTopic topic publicKeyHash
  (r.1, if r.2.isSome then acc.2 ++ [topic] else acc.2)

def deletePeerFromTopics (s : DirectSub) (topics : List String)
    (publicKeyHash : PeerHash) : DirectSub × List String :=
  topics.foldl (deletePeer publicKeyHash) (s, [])

def removeSubscriptions (s : DirectSub) (publicKey : PeerHash) : DirectSub :=
  let r := s.deletePeerFromTopics ((s.peerToTopic publicKey).getD []) publicKey
  { r.1 with
    lastSubscriptionMessages :=
      Function.update r.1.lastSubscriptionMessages publicKey none
    dispatched :=
      if r.2.length > 0 then
        r.1.dispatched ++ [.unsubscribe publicKey r.2]
      else r.1.dispatched }

/-- The timestamp of the last message of a peer that named a topic. -/
def lastTimestamp (s : DirectSub) (peer : PeerHash) (topic : String) :
    Option Nat :=
  (s.lastSubscriptionMessages peer).bind fun lastOfTopic => lastOfTopic topic

/-- The test of `subscriptionMessageIsLatest`. -/
def isLatest (s : DirectSub) (message : SubscriptionMessage) : Bool :=
  message.content.topics.all fun topic =>
    match s.lastTimestamp message.sender topic with
    | some lastTimestamp => !decide (lastTimestamp > message.timestamp)
    | none => true

/-- What `subscriptionMessageIsLatest` stores when the test is passed. -/
def rememberMessage (s : DirectSub) (message : SubscriptionMessage) :
    DirectSub :=
  { s with
    lastSubscriptionMessages :=
      if message.content.topics = [] then s.lastSubscriptionMessages
      else
        Function.update s.lastSubscriptionMessages message.sender
          (some fun topic =>
            if topic ∈ message.content.topics then some message.timestamp
            else s.lastTimestamp message.sender topic) }

/-- The body of the loop over the topics of a `Subscribe`, with the topics that
have changed. -/
def subscribePeer (message : SubscriptionMessage)
    (acc : DirectSub × List String) (topic : String) :
    DirectSub × List String :=
  match acc.1.topics topic with
  | none => acc
  | some peers =>
      let s := acc.1.initializePeer message.sender
      match peers message.sender with
      | none =>
          ({ s with
              topics := Function.update s.topics topic
                (some (Function.update peers message.sender
                  (some
                    { publicKey := message.sender
                      session := message.session
                      timestamp := message.timestamp })))
              topicsToPeers := Function.update s.topicsToPeers topic
                ((s.topicsToPeers topic).map (addToSet · message.sender))
              peerToTopic := Function.update s.peerToTopic message.sender
                ((s.peerToTopic message.sender).map (addToSet · topic)) },
            acc.2 ++ [topic])
      | some existingSubscription =>
          if existingSubscription.session < message.session then
            ({ s with
                topics := Function.update s.topics topic
                  (some (Function.update peers message.sender
                    (some
                      { publicKey := message.sender
                        session := message.session
                        timestamp := message.timestamp }))) },
              acc.2 ++ [topic])
          else (s, acc.2)

def getSubscriptionOverlap (s : DirectSub) (topics : List String) :
    List String :=
  topics.filter fun topic => (s.subscriptions topic).isSome

/-- The response to a `Subscribe` that asks for one. -/
def respond (s : DirectSub) (message : SubscriptionMessage) : DirectSub :=
  let mySubscriptions := s.getSubscriptionOverlap message.content.topics
  if mySubscriptions.length > 0 then
    s.publishMessage (.Subscribe mySubscriptions false) (some message.sender)
  else s

def onSubscribe (s : DirectSub) (message : SubscriptionMessage)
    (requestSubscribers : Bool) : DirectSub :=
  let r := message.content.topics.foldl (subscribePeer message) (s, [])
  let s :=
    if r.2.length > 0 then
      { r.1 with
        dispatched := r.1.dispatched ++ [.subscribe message.sender r.2] }
    else r.1
  if requestSubscribers then s.respond message else s

def onUnsubscribe (s : DirectSub) (message : SubscriptionMessage)
    (seenBefore : Nat) : DirectSub :=
  let r := s.deletePeerFromTopics message.content.topics message.sender
  if r.2.length > 0 ∧ seenBefore = 0 then
    { r.1 with
      dispatched := r.1.dispatched ++ [.unsubscribe message.sender r.2] }
  else r.1

/-- The part of `onDataMessage` for messages about subscriptions. -/
def onDataMessage (s : DirectSub) (message : SubscriptionMessage)
    (seenBefore : Nat) : DirectSub :=
  match message.content with
  | .Subscribe topics requestSubscribers =>
      if seenBefore = 0 then
        if s.isLatest message then
          let s := s.rememberMessage message
          if topics.length > 0 then s.onSubscribe message requestSubscribers
          else s
        else s
      else s
  | .Unsubscribe _ =>
      if s.isLatest message then
        (s.rememberMessage message).onUnsubscribe message seenBefore
      else s
  | .GetSubscribers topics =>
      let subscriptionsToSend := s.getSubscriptionOverlap topics
      if subscriptionsToSend.length > 0 then
        s.publishMessage (.Subscribe subscriptionsToSend false)
          (some message.sender)
      else s

/-! ### The tables as relations -/

/-- The peer is listed under the topic in `topics`. -/
def Listed (s : DirectSub) (topic : String) (peer : PeerHash) : Prop :=
  ((s.topics topic).bind fun peers => peers peer).isSome = true

/-- The peer is in `topicsToPeers.get(topic)`. -/
def PeerOf (s : DirectSub) (topic : String) (peer : PeerHash) : Prop :=
  peer ∈ (s.topicsToPeers topic).getD []

/-- The topic is in `peerToTopic.get(peer)`. -/
def TopicOf (s : DirectSub) (topic : String) (peer : PeerHash) : Prop :=
  topic ∈ (s.peerToTopic peer).getD []

/-- The node tracks the topic. -/
def Tracks (s : DirectSub) (topic : String) : Prop :=
  (s.topics topic).isSome = true

instance (s : DirectSub) (topic : String) (peer : PeerHash) :
    Decidable (s.Listed topic peer) :=
  inferInstanceAs (Decidable (_ = true))

instance (s : DirectSub) (topic : String) (peer : PeerHash) :
    Decidable (s.PeerOf topic peer) :=
  inferInstanceAs (Decidable (_ ∈ _))

instance (s : DirectSub) (topic : String) (peer : PeerHash) :
    Decidable (s.TopicOf topic peer) :=
  inferInstanceAs (Decidable (_ ∈ _))

instance (s : DirectSub) (topic : String) : Decidable (s.Tracks topic) :=
  inferInstanceAs (Decidable (_ = true))

/-- The three tables are the same. -/
structure SameTables (s s' : DirectSub) : Prop where
  topics : s'.topics = s.topics
  topicsToPeers : s'.topicsToPeers = s.topicsToPeers
  peerToTopic : s'.peerToTopic = s.peerToTopic

theorem SameTables.refl (s : DirectSub) : SameTables s s :=
  ⟨rfl, rfl, rfl⟩

/-- A response changes no table. -/
theorem sameTables_respond (s : DirectSub) (message : SubscriptionMessage) :
    SameTables s (s.respond message) := by
  rw [respond]
  split
  · exact ⟨rfl, rfl, rfl⟩
  · exact .refl s

/-- What a `Subscribe` does to the tables is done by its loop. -/
theorem sameTables_onSubscribe (s : DirectSub) (message : SubscriptionMessage)
    (requestSubscribers : Bool) :
    SameTables (message.content.topics.foldl (subscribePeer message) (s, [])).1
      (s.onSubscribe message requestSubscribers) := by
  rw [onSubscribe]
  generalize message.content.topics.foldl (subscribePeer message) (s, []) = r
  simp only
  split_ifs
  · have h := sameTables_respond
      { r.1 with
        dispatched := r.1.dispatched ++ [.subscribe message.sender r.2] } message
    exact ⟨h.topics, h.topicsToPeers, h.peerToTopic⟩
  · exact sameTables_respond r.1 message
  · exact ⟨rfl, rfl, rfl⟩
  · exact .refl r.1

theorem sameTables_onUnsubscribe (s : DirectSub) (message : SubscriptionMessage)
    (seenBefore : Nat) :
    SameTables
      (message.content.topics.foldl (deletePeer message.sender) (s, [])).1
      (s.onUnsubscribe message seenBefore) := by
  rw [onUnsubscribe, deletePeerFromTopics]
  generalize message.content.topics.foldl (deletePeer message.sender) (s, []) = r
  split_ifs
  · exact ⟨rfl, rfl, rfl⟩
  · exact .refl r.1

/-! ### What the operations do to the relations -/

section Relations

variable {s : DirectSub} {topic t : String} {peer p : PeerHash}

theorem listed_tracks (h : s.Listed t p) : s.Tracks t := by
  cases ht : s.topics t with
  | none => simp [Listed, ht] at h
  | some peers => simp [Tracks, ht]

theorem listed_initializeTopic :
    (s.initializeTopic topic).Listed t p ↔ s.Listed t p := by
  by_cases h : t = topic
  · subst h
    cases ht : s.topics t <;> simp [initializeTopic, Listed, ht]
  · simp [initializeTopic, Listed, h]

theorem peerOf_initializeTopic :
    (s.initializeTopic topic).PeerOf t p ↔ s.PeerOf t p := by
  by_cases h : t = topic
  · subst h
    simp [initializeTopic, PeerOf]
  · simp [initializeTopic, PeerOf, h]

theorem topicOf_initializePeer :
    (s.initializePeer peer).TopicOf t p ↔ s.TopicOf t p := by
  by_cases h : p = peer
  · subst h
    simp [initializePeer, TopicOf]
  · simp [initializePeer, TopicOf, h]

theorem tracks_deletePeerFromTopic :
    (s.deletePeerFromTopic topic peer).1.Tracks t ↔ s.Tracks t := by
  by_cases h : t = topic
  · subst h
    simp [deletePeerFromTopic, Tracks]
  · simp [deletePeerFromTopic, Tracks, h]

theorem listed_deletePeerFromTopic :
    (s.deletePeerFromTopic topic peer).1.Listed t p ↔
      s.Listed t p ∧ ¬ (t = topic ∧ p = peer) := by
  by_cases h : t = topic
  · subst h
    cases ht : s.topics t with
    | none => simp [deletePeerFromTopic, Listed, ht]
    | some peers =>
        by_cases hp : p = peer
        · subst hp
          simp [deletePeerFromTopic, Listed, ht]
        · simp [deletePeerFromTopic, Listed, ht, hp]
  · simp [deletePeerFromTopic, Listed, h]

theorem peerOf_deletePeerFromTopic :
    (s.deletePeerFromTopic topic peer).1.PeerOf t p ↔
      s.PeerOf t p ∧ ¬ (t = topic ∧ p = peer) := by
  by_cases h : t = topic
  · subst h
    cases ht : s.topicsToPeers t <;> simp [deletePeerFromTopic, PeerOf, ht]
  · simp [deletePeerFromTopic, PeerOf, h]

/-- Dropping an empty set takes nothing out. -/
theorem mem_getD_filter_nonempty {set : Option (List String)} {x : String} :
    x ∈ (set.filter fun topics => !topics.isEmpty).getD [] ↔
      x ∈ set.getD [] := by
  match set with
  | none => rfl
  | some [] => rfl
  | some (_ :: _) => rfl

theorem topicOf_deletePeerFromTopic :
    (s.deletePeerFromTopic topic peer).1.TopicOf t p ↔
      s.TopicOf t p ∧ ¬ (t = topic ∧ p = peer) := by
  by_cases h : p = peer
  · subst h
    rw [deletePeerFromTopic, TopicOf]
    simp only [Function.update_self]
    rw [mem_getD_filter_nonempty]
    cases hp : s.peerToTopic p <;> simp [TopicOf, hp]
  · simp [deletePeerFromTopic, TopicOf, h]

end Relations

end DirectSub

end PubSub
end Peerbit
