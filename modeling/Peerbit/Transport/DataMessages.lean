import Mathlib

/-!
# Data messages of the direct stream

A node counts the copies of a message as they come in.  What it does with a copy
depends on the number of those before it: it ignores the copy, or dispatches its
data, acknowledges it and sends it on.  The pubsub node handles the messages
that carry data of topics in its own way, and the others as the stream does.

Keys are known by their hashes.  Of a relay only the message and the chosen
neighbours are told.
-/

namespace Peerbit
namespace Transport

abbrev KeyHash := String

abbrev Bytes := List UInt8

inductive DeliveryMode where
  | silent (to_ : List KeyHash) (redundancy : Nat)
  | acknowledge (to_ : List KeyHash) (redundancy : Nat)
  | seek (to_ : Option (List KeyHash)) (redundancy : Nat)
  | anyWhere
deriving Repr, DecidableEq

/-- `mode.to`. -/
def DeliveryMode.receivers : DeliveryMode → Option (List KeyHash)
  | .silent to_ _ => some to_
  | .acknowledge to_ _ => some to_
  | .seek to_ _ => to_
  | .anyWhere => none

/-- The mode with other receivers. -/
def DeliveryMode.withReceivers (to_ : List KeyHash) :
    DeliveryMode → DeliveryMode
  | .silent _ redundancy => .silent to_ redundancy
  | .acknowledge _ redundancy => .acknowledge to_ redundancy
  | .seek _ redundancy => .seek (some to_) redundancy
  | .anyWhere => .anyWhere

/-- The fields of the header that are signed. -/
structure MessageHeader where
  id : Bytes
  timestamp : Nat
  session : Nat
  expires : Nat
  priority : Option Nat
  origin : Option (List String)
deriving Repr, DecidableEq

structure SignatureWithKey where
  publicKey : KeyHash
  signature : Bytes
deriving Repr, DecidableEq

structure DataMessage where
  header : MessageHeader
  mode : DeliveryMode
  signatures : Option (List SignatureWithKey)
  data : Option Bytes
deriving Repr, DecidableEq

/-- The bytes whose hash `getMsgId` takes after the two discriminators: the last
byte of the id is not among them. -/
def getMsgId (message : DataMessage) : Bytes :=
  message.header.id.take 31

def DataMessage.publicKeys (message : DataMessage) : List KeyHash :=
  (message.signatures.getD []).map (fun s => s.publicKey)

/-- `verify(true)` at a time, given whether a signature is one of the header and
the data. -/
def DataMessage.verify
    (signs : SignatureWithKey → MessageHeader → Option Bytes → Bool) (time : Nat)
    (message : DataMessage) : Bool :=
  decide (time ≤ message.header.expires) &&
    match message.signatures with
    | none => false
    | some signatures =>
        !signatures.isEmpty &&
          signatures.all (fun s => signs s message.header message.data)

/-- What `PubSubMessage.from` reads; the messages about subscriptions dispatch
no data. -/
inductive PubSubMessage where
  | data (topics : List String) (strict : Bool) (data : Bytes)
  | subscriptions
deriving Repr, DecidableEq

/-- The part of a pubsub node that handles messages of topics. -/
structure DirectSub where
  subscriptions : List String
  /-- The keys of `topics`. -/
  topics : List String
  topicsToPeers : String → Option (List KeyHash)
  /-- `PubSubMessage.from`, or that it throws. -/
  decode : Bytes → Option PubSubMessage

structure DirectStream where
  publicKey : KeyHash
  peers : List KeyHash
  pubsub : Option DirectSub

/-- A copy of a message that a neighbour has sent, and when it is verified. -/
structure Copy where
  sender : KeyHash
  time : Nat
  message : DataMessage
deriving Repr, DecidableEq

/-- What handling a copy does for others to see. -/
inductive Effect where
  /-- The event `data`. -/
  | dispatch (copy : Copy)
  | acknowledge (to_ : KeyHash) (seenCounter : Nat) (trace : List KeyHash)
  | relay (message : DataMessage) (to_ : Option (List KeyHash))
deriving Repr, DecidableEq

/-! ### Handling a copy -/

section Handling

variable (signs : SignatureWithKey → MessageHeader → Option Bytes → Bool)
variable (node : DirectStream)

def shouldIgnore (message : DataMessage) (seenBefore : Nat) : Bool :=
  node.publicKey ∈ message.publicKeys ||
    match message.mode with
    | .seek _ redundancy => redundancy ≤ seenBefore
    | _ => 0 < seenBefore

/-- The acknowledgement of a copy that is among the first; it throws, and the
rest is not done, when it must list the signers of a message without
signatures. -/
def acknowledge (copy : Copy) (seenBefore redundancy : Nat)
    (rest : List Effect) : List Effect :=
  if seenBefore < redundancy ∧
      copy.message.mode.receivers.all (fun to_ => node.publicKey ∈ to_) then
    match copy.message.signatures with
    | none => []
    | some _ =>
        .acknowledge copy.sender (min 255 seenBefore)
          copy.message.publicKeys :: rest
  else
    rest

def maybeAcknowledgeMessage (copy : Copy) (seenBefore : Nat)
    (rest : List Effect) : List Effect :=
  match copy.message.mode with
  | .seek _ redundancy => acknowledge node copy seenBefore redundancy rest
  | .acknowledge _ redundancy => acknowledge node copy seenBefore redundancy rest
  | _ => rest

/-- `isForMe` of the stream. -/
def streamIsForMe (copy : Copy) : Bool :=
  match copy.message.mode with
  | .anyWhere => true
  | mode =>
      copy.sender ≠ node.publicKey &&
        mode.receivers.all (fun to_ => node.publicKey ∈ to_)

/-- The mode has this node as its only receiver. -/
def onlyForMe (mode : DeliveryMode) : Bool :=
  match mode with
  | .silent to_ _ => to_ = [node.publicKey]
  | .acknowledge to_ _ => to_ = [node.publicKey]
  | _ => false

/-- The forwarding at the end of `onDataMessage`. -/
def forward (copy : Copy) (seenBefore : Nat) : List Effect :=
  if onlyForMe node copy.message.mode then
    []
  else
    match copy.message.mode with
    | .seek _ redundancy =>
        let to_ := node.peers.filter
          (fun x => x ∉ copy.message.publicKeys ∧ x ≠ copy.sender)
        if seenBefore < redundancy ∧ to_ ≠ [] then
          [.relay copy.message (some to_)]
        else
          []
    | _ => if seenBefore = 0 then [.relay copy.message none] else []

/-- `DirectStream.onDataMessage`. -/
def streamOnDataMessage (copy : Copy) (seenBefore : Nat) : List Effect :=
  if shouldIgnore node copy.message seenBefore then
    []
  else if streamIsForMe node copy then
    if copy.message.verify signs copy.time then
      maybeAcknowledgeMessage node copy seenBefore
        ((if seenBefore = 0 ∧ copy.message.data.isSome then
            [.dispatch copy]
          else
            []) ++ forward node copy seenBefore)
    else
      []
  else
    forward node copy seenBefore

variable (sub : DirectSub)

/-- `isForMe` of `PubSubData`. -/
def subIsForMe (message : DataMessage) (topics : List String)
    (strict : Bool) : Bool :=
  let meInTOs := (message.mode.receivers.getD []).contains node.publicKey
  let subscribed := topics.any (fun topic => topic ∈ sub.subscriptions)
  if strict then subscribed && meInTOs
  else subscribed || (topics.isEmpty && meInTOs)

def getPeersOnTopics (topics : List String) : List KeyHash :=
  (topics.flatMap (fun topic => (sub.topicsToPeers topic).getD [])).eraseDups

/-- `addPeersOnTopic`. -/
def addPeersOnTopic (message : DataMessage) (topics : List String) :
    DataMessage :=
  let existingPeers := message.mode.receivers.getD []
  let to_ := (getPeersOnTopics sub topics ++ existingPeers).eraseDups.filter
    (fun peer => peer ≠ node.publicKey)
  { message with mode := message.mode.withReceivers to_ }

/-- The forwarding of `PubSubData`. -/
def subForward (message : DataMessage) (topics : List String)
    (strict : Bool) : List Effect :=
  let message := if strict then message else addPeersOnTopic node sub message topics
  let seek :=
    match message.mode with
    | .seek _ _ => true
    | _ => false
  if message.mode.receivers.getD [] ≠ [] ∨
      ¬ topics.any (fun topic => topic ∈ sub.topics) ∨ seek = true then
    [.relay message none]
  else
    []

/-- `DirectSub.onDataMessage`; a message of mode `AnyWhere`, and one that cannot
be read, throws. -/
def subOnDataMessage (copy : Copy) (seenBefore : Nat) : List Effect :=
  match copy.message.data with
  | none | some [] => streamOnDataMessage signs node copy seenBefore
  | some data =>
      if shouldIgnore node copy.message seenBefore then
        []
      else
        match sub.decode data with
        | some (.data topics strict _) =>
            if copy.message.mode = .anyWhere then
              []
            else
              let isForMe := subIsForMe node sub copy.message topics strict
              if isForMe ∧ ¬ copy.message.verify signs copy.time then
                []
              else
                maybeAcknowledgeMessage node copy seenBefore
                  ((if isForMe ∧ seenBefore = 0 then [.dispatch copy] else []) ++
                    subForward node sub copy.message topics strict)
        | _ => []

def onDataMessage (copy : Copy) (seenBefore : Nat) : List Effect :=
  match node.pubsub with
  | none => streamOnDataMessage signs node copy seenBefore
  | some sub => subOnDataMessage signs node sub copy seenBefore

/-- The number of copies before this one, and the cache with this one.  The source's cache
also forgets: it has at most 10^6 entries, for at most 10 minutes. -/
def modifySeenCache (seenCache : Bytes → Option Nat) (message : DataMessage) :
    Nat × (Bytes → Option Nat) :=
  let seenBefore := (seenCache (getMsgId message)).getD 0
  (seenBefore,
    Function.update seenCache (getMsgId message) (some (seenBefore + 1)))

/-- `_onDataMessage` for one copy after the other, while the cache forgets
nothing.  A handler uses only its copy and the number it was given, so that it
does not matter when it ends. -/
def onDataMessages (seenCache : Bytes → Option Nat) : List Copy → List Effect
  | [] => []
  | copy :: copies =>
      let seen := modifySeenCache seenCache copy.message
      onDataMessage signs node copy seen.1 ++
        onDataMessages seen.2 copies

end Handling

end Transport
end Peerbit
