import Peerbit.Transport.Fanout
import Peerbit.Transport.TamperedCopies

/-!
# A network of direct streams

The nodes of a network write data messages and acknowledgements to their neighbours.
A node that relays a message which wants acknowledgements adds its signature, so that
the signatures of a copy tell the way that it has come.  Its receiver sends them back as
the trace of an acknowledgement, which goes the same way in the other direction; every
node on the way learns a route from it.

What is in flight arrives in any order, or is lost.  A node handles what arrives in one
step: when its handler waits for something, what it sends is in flight for longer.
Timers and what other messages do to routes, sessions and promises are actions of their
own, which may occur at any time; so is that a node forgets what it has seen.
-/

namespace Peerbit
namespace Transport

open Lib (InsertionMap Machine)

/-- An acknowledgement.  Its mode is `TracedDelivery`. -/
structure Ack where
  header : MessageHeader
  trace : List KeyHash
  signature : SignatureWithKey
  messageIdToAcknowledge : Bytes
  seenCounter : Nat
deriving Repr, DecidableEq

inductive Packet where
  | data (message : DataMessage)
  | ack (ack : Ack)
deriving Repr, DecidableEq

/-- What one node has written to the stream of another. -/
structure Transit where
  sender : KeyHash
  receiver : KeyHash
  packet : Packet
deriving Repr, DecidableEq

/-- The signature scheme. -/
structure Signing where
  sign : KeyHash → MessageHeader → Option Bytes → Bytes
  verify : SignatureWithKey → MessageHeader → Option Bytes → Bool
  signAck : KeyHash → MessageHeader → Bytes → Nat → Bytes
  verifyAck : Ack → Bool

namespace DeliveryMode

def isSeek : DeliveryMode → Bool
  | .seek _ _ => true
  | _ => false

def isAcknowledge : DeliveryMode → Bool
  | .acknowledge _ _ => true
  | _ => false

def isSilent : DeliveryMode → Bool
  | .silent _ _ => true
  | _ => false

/-- The modes whose messages are acknowledged, and signed by relays. -/
def isAcknowledged (mode : DeliveryMode) : Bool := mode.isSeek || mode.isAcknowledge

def redundancy : DeliveryMode → Nat
  | .silent _ redundancy => redundancy
  | .acknowledge _ redundancy => redundancy
  | .seek _ redundancy => redundancy
  | .anyWhere => 0

end DeliveryMode

/-- `DEFAULT_SEEK_MESSAGE_REDUDANCY`. -/
def DEFAULT_SEEK_MESSAGE_REDUDANCY : Nat := 2

/-- The number of signatures is written as one byte. -/
def MAX_SIGNATURES : Nat := 255

def DataMessage.sign (signing : Signing) (signer : KeyHash) (message : DataMessage) :
    DataMessage :=
  { message with
    signatures := some (message.signatures.getD [] ++
      [{ publicKey := signer
         signature := signing.sign signer message.header message.data }]) }

/-- What the callback of a promise uses when an acknowledgement comes in. -/
structure AckCallback where
  seek : Bool
  session : Int
deriving Repr, DecidableEq

structure StreamNode extends DirectStream where
  canRelayMessage : Bool
  routeSeekInterval : Int
  seenCache : Bytes → Option Nat
  /-- The acknowledgements that have been seen; they are in `seenCache` by the hash of
  all their bytes. -/
  seenAcks : List Ack
  _ackCallbacks : InsertionMap Bytes AckCallback
  routes : Routes

namespace Routes

def isUpToDate (r : Routes) (target : KeyHash) (route : RouteInfo) : Bool :=
  match r.remoteInfo.get target with
  | some session => decide (session ≤ route.remoteSession)
  | none => false

end Routes

namespace StreamNode

/-- A node that has started. -/
def new (publicKey : KeyHash) (canRelayMessage : Bool)
    (routeSeekInterval routeMaxRetentionPeriod : Int) : StreamNode where
  publicKey := publicKey
  peers := []
  pubsub := none
  canRelayMessage := canRelayMessage
  routeSeekInterval := routeSeekInterval
  seenCache := fun _ => none
  seenAcks := []
  _ackCallbacks := .empty
  routes := .empty publicKey routeMaxRetentionPeriod

variable (node : StreamNode)

/-! ### Neighbours -/

def addRouteConnection (from_ target : KeyHash) (report : RouteReport) : StreamNode :=
  { node with routes := (node.routes.add from_ target report).2.2 }

def addPeer (peer : KeyHash) (now : Int) : StreamNode :=
  if peer ∈ node.peers then node
  else
    let node := { node with
      peers := node.peers ++ [peer]
      routes := (node.routes.updateSession peer (some (-1))).2 }
    node.addRouteConnection node.publicKey peer
      { now := now, neighbour := peer, distance := -1, session := now, remoteSession := -1 }

/-- `_removePeer`. -/
def removePeer (peer : KeyHash) : StreamNode :=
  { node with peers := node.peers.filter (fun x => x ≠ peer) }

def removePeerFromRoutes (hash : KeyHash) (deleteIfNeighbour : Bool) : StreamNode :=
  if hash ∈ node.peers ∧ deleteIfNeighbour = false then node
  else { node with routes := (node.routes.remove hash).2 }

/-- `onPeerDisconnected`; the message that tells others, and the question whether the
peer is alive, are published on their own. -/
def onPeerDisconnected (peer : KeyHash) : StreamNode :=
  if peer ∈ node.peers then (node.removePeer peer).removePeerFromRoutes peer true else node

/-! ### Publishing -/

/-- The loop over the receivers that looks for a route which is not good enough. -/
def needsSeek (now : Int) (tos : List KeyHash) : Bool :=
  tos.any (fun hash =>
    match node.routes.findNeighbor node.publicKey hash with
    | none => true
    | some neighbourRoutes =>
        decide (neighbourRoutes.list.length * node.routeSeekInterval <
            now - neighbourRoutes.session) ||
          !node.routes.isUpToDate hash neighbourRoutes)

/-- The mode that `createMessage` gives to a message. -/
def createMode (mode : DeliveryMode) (now : Int) : DeliveryMode :=
  let mode :=
    match mode.receivers with
    | some tos => mode.withReceivers (tos.filter (fun x => x ≠ node.publicKey))
    | none => mode
  if (mode.isAcknowledge || mode.isSilent) &&
      node.needsSeek now (mode.receivers.getD []) then
    .seek mode.receivers DEFAULT_SEEK_MESSAGE_REDUDANCY
  else mode

def createMessage (signing : Signing) (header : MessageHeader) (mode : DeliveryMode)
    (data : Option Bytes) (now : Int) : DataMessage :=
  DataMessage.sign signing node.publicKey
    { header := header, mode := node.createMode mode now, signatures := none, data := data }

/-- What `createDeliveryPromise` puts into `_ackCallbacks`. -/
def createDeliveryPromise (from_ : KeyHash) (message : DataMessage) (session : Int) :
    StreamNode :=
  if (node._ackCallbacks.get message.header.id).isSome then node
  else if (message.mode.receivers.getD []).any (fun to_ => to_ ≠ from_) ∧
      node.peers = [] then node
  else
    { node with
      _ackCallbacks := node._ackCallbacks.set message.header.id
        { seek := message.mode.isSeek, session := session } }

/-- Neither back to the sender nor to a signer. -/
def flood (from_ : KeyHash) (message : DataMessage) (peers : List KeyHash) :
    List KeyHash :=
  peers.filter (fun x => x ≠ from_ ∧ x ∉ message.publicKeys)

/-- The neighbours that a message is written to. -/
def chooseStreams (from_ : KeyHash) (message : DataMessage)
    (to_ : Option (List KeyHash)) (relayed : Bool) : List KeyHash :=
  let receivers := message.mode.receivers.getD []
  if (message.mode.isAcknowledge || message.mode.isSilent) && to_.isNone &&
      !receivers.isEmpty then
    match node.routes.getFanout from_ receivers message.mode.redundancy with
    | some fanout => fanout.keys.filter (fun neighbour => neighbour ∈ node.peers)
    | none => if relayed then [] else flood from_ message node.peers
  else flood from_ message (to_.getD node.peers)

/-- The node when it has counted a copy. -/
def count (message : DataMessage) : StreamNode :=
  { node with seenCache := (modifySeenCache node.seenCache message).2 }

/-- `seenCache` is a cache of limited size, and holds what it has seen for a limited time
only. -/
def forget (id : Bytes) : StreamNode :=
  { node with seenCache := Function.update node.seenCache id none }

def forgetAck (ack : Ack) : StreamNode :=
  { node with seenAcks := node.seenAcks.filter (fun x => x ≠ ack) }

/-- `publishMessage` for data messages: the node, and the neighbours that it writes the
message to. -/
def publishMessage (from_ : KeyHash) (message : DataMessage)
    (to_ : Option (List KeyHash)) (relayed : Bool) (now : Int) :
    StreamNode × List KeyHash :=
  if message.publicKeys = [] ∧ message.mode.isSilent = false then
    -- "Missing signature"
    (node, [])
  else
    let to_ := if message.mode.isSeek && !relayed then some node.peers else to_
    let to_ := if message.mode.isAcknowledge then none else to_
    let node :=
      if message.mode.isAcknowledged then node.createDeliveryPromise from_ message now
      else node
    -- such a message cannot be serialized
    if MAX_SIGNATURES < message.publicKeys.length then (node, [])
    else
      let node := if relayed then node else node.count message
      (node, node.chooseStreams from_ message to_ relayed)

/-- The peers that are asked for with `to` besides a mode, when there are all of them. -/
def pickPeers (withTo : Option (List KeyHash)) : Option (List KeyHash) :=
  withTo.filter (fun peers => peers.all (fun peer => peer ∈ node.peers))

def write (message : DataMessage) (streams : List KeyHash) : List Transit :=
  streams.map (fun stream =>
    { sender := node.publicKey, receiver := stream, packet := .data message })

variable (signing : Signing)

def publish (header : MessageHeader) (mode : DeliveryMode) (data : Option Bytes)
    (withTo : Option (List KeyHash)) (now : Int) : StreamNode × List Transit :=
  let message := node.createMessage signing header mode data now
  let published := node.publishMessage node.publicKey message (node.pickPeers withTo)
    false now
  (published.1, node.write message published.2)

/-- The message that `relayMessage` publishes. -/
def relayed (me : KeyHash) (message : DataMessage) : Option DataMessage :=
  let message :=
    if message.mode.isAcknowledged then message.sign signing me else message
  match message.mode.receivers.getD [] with
  | [] => some message
  | receivers =>
      let tos := receivers.filter (fun x => x ≠ me)
      if tos = [] then none
      else some { message with mode := message.mode.withReceivers tos }

def relayMessage (from_ : KeyHash) (message : DataMessage)
    (to_ : Option (List KeyHash)) (now : Int) : StreamNode × List Transit :=
  if node.canRelayMessage then
    match relayed signing node.publicKey message with
    | none => (node, [])
    | some message =>
        let published := node.publishMessage from_ message to_ true now
        (published.1, node.write message published.2)
  else (node, [])

/-! ### Handling -/

/-- The acknowledgement that is written to the peer which a copy came from. -/
def acknowledgement (me : KeyHash) (header : MessageHeader) (copy : Copy) (to_ : KeyHash)
    (seenCounter : Nat) (trace : List KeyHash) : List Transit :=
  if to_ = me then []
  else
    let id := copy.message.header.id
    [{ sender := me
       receiver := to_
       packet := .ack
        { header := header
          trace := trace
          signature :=
            { publicKey := me
              signature := signing.signAck me header id seenCounter }
          messageIdToAcknowledge := id
          seenCounter := seenCounter } }]

/-- What comes of an effect, and the node after it. -/
def perform (ackHeader : MessageHeader) (copy : Copy) :
    Effect → StreamNode × List Transit
  | .dispatch _ => (node, [])
  | .acknowledge to_ seenCounter trace =>
      (node, acknowledgement signing node.publicKey ackHeader copy to_ seenCounter trace)
  | .relay message to_ => node.relayMessage signing copy.sender message to_ copy.time

def performAll (ackHeader : MessageHeader) (copy : Copy) :
    StreamNode → List Effect → StreamNode × List Transit
  | node, [] => (node, [])
  | node, effect :: effects =>
      let first := node.perform signing ackHeader copy effect
      let rest := performAll ackHeader copy first.1 effects
      (rest.1, first.2 ++ rest.2)

/-- The effects of a copy. -/
def effects (copy : Copy) : List Effect :=
  onDataMessage signing.verify node.toDirectStream copy
    (modifySeenCache node.seenCache copy.message).1

/-- `_onDataMessage`: the copy is counted, and then handled. -/
def handleData (ackHeader : MessageHeader) (copy : Copy) : StreamNode × List Transit :=
  performAll signing ackHeader copy (node.count copy.message)
    (node.effects signing copy)

/-- The peer in front of this node in the trace, if there is a stream to it. -/
def nextStream (ack : Ack) : Option KeyHash :=
  let next :=
    match ack.trace.findIdx? (fun x => x == node.publicKey) with
    | some (i + 1) => ack.trace[i]?
    | _ => none
  next.filter (fun next => next ∈ node.peers)

/-- The callback of the promise, if it is still there. -/
def ackCallback (sender : KeyHash) (ack : Ack) (now : Int) : StreamNode :=
  match node._ackCallbacks.get ack.messageIdToAcknowledge with
  | some callback =>
      if callback.seek then
        node.addRouteConnection ((node.nextStream ack).getD node.publicKey)
          ack.signature.publicKey
          { now := now, neighbour := sender, distance := ack.seenCounter
            session := callback.session, remoteSession := ack.header.session }
      else node
  | none => node

/-- `onAck`. -/
def handleAck (sender : KeyHash) (ack : Ack) (time : Nat) : StreamNode × List Transit :=
  if ack ∈ node.seenAcks then (node, [])
  else
    let node := { node with seenAcks := ack :: node.seenAcks }
    if decide (time ≤ ack.header.expires) && signing.verifyAck ack then
      (node.ackCallback sender ack time,
        match node.nextStream ack with
        | some next =>
            if next = node.publicKey ∨ next = ack.signature.publicKey then []
            else [{ sender := node.publicKey, receiver := next, packet := .ack ack }]
        | none => [])
    else (node, [])

end StreamNode

/-! ### The network -/

structure Network where
  nodes : KeyHash → StreamNode
  inFlight : List Transit
  /-- The connections that there have been, for the proofs only, as what follows. -/
  links : List (KeyHash × KeyHash)
  sent : List Transit
  dispatches : List (KeyHash × Copy)
  published : List (KeyHash × Bytes)

inductive NetworkAction where
  | addPeer (node peer : KeyHash) (now : Int)
  | removePeer (node peer : KeyHash)
  | onPeerDisconnected (node peer : KeyHash)
  /-- A health check has run out. -/
  | removePeerFromRoutes (node hash : KeyHash)
  | cleanup (node : KeyHash) (now : Int) (from_ to_ : KeyHash)
  | updateSession (node remote : KeyHash) (session : Option Int)
  /-- A promise is settled. -/
  | clear (node : KeyHash) (id : Bytes)
  | forget (node : KeyHash) (id : Bytes)
  | forgetAck (node : KeyHash) (ack : Ack)
  | setPubsub (node : KeyHash) (pubsub : Option DirectSub)
  | publish (node : KeyHash) (header : MessageHeader) (mode : DeliveryMode)
      (data : Option Bytes) (withTo : Option (List KeyHash)) (now : Int)
  | deliver (i time : Nat) (ackHeader : MessageHeader)
  | lose (i : Nat)

namespace Network

variable (signing : Signing) (s : Network)

def setNode (key : KeyHash) (node : StreamNode) : Network :=
  { s with nodes := Function.update s.nodes key node }

def send (transits : List Transit) : Network :=
  { s with inFlight := s.inFlight ++ transits, sent := s.sent ++ transits }

/-- A packet arrives. -/
def deliver (transit : Transit) (time : Nat) (ackHeader : MessageHeader) : Network :=
  let node := s.nodes transit.receiver
  match transit.packet with
  | .data message =>
      let copy : Copy := { sender := transit.sender, time := time, message := message }
      let handled := node.handleData signing ackHeader copy
      { (s.setNode transit.receiver handled.1).send handled.2 with
        dispatches := s.dispatches ++
          (dispatched (node.effects signing copy)).map (fun copy => (transit.receiver, copy)) }
  | .ack ack =>
      let handled := node.handleAck signing transit.sender ack time
      (s.setNode transit.receiver handled.1).send handled.2

def step : NetworkAction → Option Network
  | .addPeer node peer now =>
      if node = peer then none
      else some { s.setNode node ((s.nodes node).addPeer peer now) with
        links := (node, peer) :: s.links }
  | .removePeer node peer => some (s.setNode node ((s.nodes node).removePeer peer))
  | .onPeerDisconnected node peer =>
      some (s.setNode node ((s.nodes node).onPeerDisconnected peer))
  | .removePeerFromRoutes node hash =>
      some (s.setNode node ((s.nodes node).removePeerFromRoutes hash false))
  | .cleanup node now from_ to_ =>
      let n := s.nodes node
      some (s.setNode node { n with routes := n.routes.cleanup now from_ to_ })
  | .updateSession node remote session =>
      let n := s.nodes node
      some (s.setNode node { n with routes := (n.routes.updateSession remote session).2 })
  | .clear node id =>
      let n := s.nodes node
      some (s.setNode node { n with _ackCallbacks := n._ackCallbacks.delete id })
  | .forget node id => some (s.setNode node ((s.nodes node).forget id))
  | .forgetAck node ack => some (s.setNode node ((s.nodes node).forgetAck ack))
  | .setPubsub node pubsub =>
      let n := s.nodes node
      some (s.setNode node { n with pubsub := pubsub })
  | .publish node header mode data withTo now =>
      let published := (s.nodes node).publish signing header mode data withTo now
      some { (s.setNode node published.1).send published.2 with
        published := (node, header.id.take 31) :: s.published }
  | .deliver i time ackHeader =>
      s.inFlight[i]?.map (fun transit =>
        deliver signing { s with inFlight := s.inFlight.eraseIdx i } transit time ackHeader)
  | .lose i => some { s with inFlight := s.inFlight.eraseIdx i }

/-- The nodes have started, and no one is connected. -/
def init (canRelayMessage : KeyHash → Bool)
    (routeSeekInterval routeMaxRetentionPeriod : Int) : Network where
  nodes key := .new key (canRelayMessage key) routeSeekInterval routeMaxRetentionPeriod
  inFlight := []
  links := []
  sent := []
  dispatches := []
  published := []

def machine (canRelayMessage : KeyHash → Bool)
    (routeSeekInterval routeMaxRetentionPeriod : Int) : Machine Network NetworkAction where
  init := init canRelayMessage routeSeekInterval routeMaxRetentionPeriod
  step := step signing

end Network

end Transport
end Peerbit
