import Peerbit.SharedLog.SyncQueue

/-!
# A network of simple synchronizers

Peers offer each other entries by their hashes.  Who does not have an offered entry
requests it, and who holds it sends it, in messages that are cut by their size.

Messages arrive in any order, or are lost.  What a node does between two waits is one
step; and so is an answer, which takes a node as long as its last message is in flight.
An entry comes into a log and leaves it apart from the synchronizer, which hears of it
in steps of its own, and the answer whether a key is there may be older than the step
that makes use of it.

No rateless synchronizer takes part, so that all keys are hashes.
-/

namespace Peerbit
namespace SharedLog

/-- What a peer sends to another one. -/
inductive SyncPacket
  | RequestMaybeSync (hashes : List String)
  | ResponseMaybeSync (hashes : List SyncableKey)
  | ExchangeHeads (heads : List String)
deriving Repr, DecidableEq

structure SyncTransit (Peer : Type) where
  sender : Peer
  receiver : Peer
  packet : SyncPacket
deriving Repr, DecidableEq

/-- A log, by the hashes of its entries, and its synchronizer. -/
structure SyncNode (Peer : Type) where
  log : List String
  syncronizer : SimpleSyncronizer Peer

/-- `MAX_EXCHANGE_MESSAGE_SIZE` -/
def MAX_EXCHANGE_MESSAGE_SIZE : Nat := 100000

/-- The loop of `createExchangeHeadsMessages`; it counts the bytes of the entries that
are in the current message. -/
def exchangeHeadsLoop (size : String → Nat) (log : List String) :
    Nat → List String → List String → List (List String)
  | _, current, [] => if current.isEmpty then [] else [current]
  | bytes, current, head :: heads =>
      if head ∈ log then
        if MAX_EXCHANGE_MESSAGE_SIZE < bytes + size head then
          (current ++ [head]) :: exchangeHeadsLoop size log 0 [] heads
        else exchangeHeadsLoop size log (bytes + size head) (current ++ [head]) heads
      else exchangeHeadsLoop size log bytes current heads

/-- `createExchangeHeadsMessages`, without the gids of the references of an entry. -/
def createExchangeHeadsMessages (size : String → Nat) (log heads : List String) :
    List (List String) :=
  exchangeHeadsLoop size log 0 [] heads

def SyncableKey.hash? : SyncableKey → Option String
  | .hash h => some h
  | .coordinate _ => none

/-- `onReceivedEntries` -/
def SimpleSyncronizer.onReceivedEntries {Peer : Type} [DecidableEq Peer]
    (s : SimpleSyncronizer Peer) (entries : List String) (from_ : Peer) :
    SimpleSyncronizer Peer :=
  { s with
    syncInFlight := entries.foldl
      (fun inFlight entry =>
        match inFlight.get from_ with
        | none => inFlight
        | some set =>
            if (set.delete (.hash entry)).keys.isEmpty then inFlight.delete from_
            else inFlight.set from_ (set.delete (.hash entry)))
      s.syncInFlight }

namespace SyncNode

variable {Peer : Type} (node : SyncNode Peer)

/-- The entries come into the log. -/
def add (hashes : List String) : SyncNode Peer :=
  { node with log := node.log ++ hashes.filter (fun hash => decide (hash ∉ node.log)) }

/-- The part of `onMessage` for heads.  Which entries the join then brings in, is up to
the log and its leaders. -/
def receiveHeads [DecidableEq Peer] (from_ : Peer) (heads joined : List String) :
    SyncNode Peer :=
  let filteredHeads := heads.filter (fun head => decide (head ∉ node.log))
  if filteredHeads.isEmpty then node
  else
    { node with syncronizer := node.syncronizer.onReceivedEntries filteredHeads from_ }.add
      joined

end SyncNode

structure SyncNetwork (Peer : Type) where
  nodes : Peer → SyncNode Peer
  inFlight : List (SyncTransit Peer)

/-- `offer` is `onMaybeMissingEntries` for one target; `sync` is anything that happens to
a synchronizer but the arrival of an offer. -/
inductive SyncNetworkAction (Peer : Type)
  | offer (from_ to_ : Peer) (hashes : List String)
  | deliver (i : Nat) (joined : List String) (now : Int)
  | lose (i : Nat)
  | sync (peer : Peer) (action : SynchronizerAction Peer)
  | add (peer : Peer) (hashes : List String)
  | delete (peer : Peer) (hash : String)
deriving Repr, DecidableEq

namespace SyncNetwork

variable {Peer : Type} [DecidableEq Peer] (network : SyncNetwork Peer)

def setNode (peer : Peer) (node : SyncNode Peer) : SyncNetwork Peer :=
  { network with nodes := Function.update network.nodes peer node }

def send (transits : List (SyncTransit Peer)) : SyncNetwork Peer :=
  { network with inFlight := network.inFlight ++ transits }

/-- A request goes to each of its receivers. -/
def requestsOf (sender : Peer) : SyncRequest Peer → List (SyncTransit Peer)
  | .RequestMaybeSyncCoordinate _ _ => []
  | .ResponseMaybeSync hashes to_ => to_.map fun receiver =>
      { sender := sender, receiver := receiver, packet := .ResponseMaybeSync hashes }

/-- The synchronizer of a peer has gone on, and what it has sent since is in flight. -/
def setSyncronizer (peer : Peer) (s : SimpleSyncronizer Peer) : SyncNetwork Peer :=
  let node := network.nodes peer
  (network.setNode peer { node with syncronizer := s }).send
    ((s.sent.drop node.syncronizer.sent.length).flatMap (requestsOf peer))

/-- `onMessage` -/
def onMessage (size : String → Nat) (transit : SyncTransit Peer) (joined : List String)
    (now : Int) : SyncNetwork Peer :=
  let node := network.nodes transit.receiver
  match transit.packet with
  | .RequestMaybeSync hashes =>
      network.setSyncronizer transit.receiver
        (SimpleSyncronizer.queueSync transit.sender false now node.syncronizer
          (hashes.map .hash) [])
  | .ResponseMaybeSync hashes =>
      network.send ((createExchangeHeadsMessages size node.log
        (hashes.filterMap SyncableKey.hash?)).map fun heads =>
          { sender := transit.receiver, receiver := transit.sender
            packet := .ExchangeHeads heads })
  | .ExchangeHeads heads =>
      network.setNode transit.receiver (node.receiveHeads transit.sender heads joined)

def step (size : String → Nat) : SyncNetworkAction Peer → Option (SyncNetwork Peer)
  | .offer from_ to_ hashes =>
      some (network.send
        [{ sender := from_, receiver := to_, packet := .RequestMaybeSync hashes }])
  | .deliver i joined now =>
      network.inFlight[i]?.map fun transit =>
        { network with inFlight := network.inFlight.eraseIdx i }.onMessage size transit
          joined now
  | .lose i => some { network with inFlight := network.inFlight.eraseIdx i }
  | .sync _ (.queueSync ..) => none
  | .sync peer action =>
      (synchronizerStep (network.nodes peer).syncronizer action).map
        (network.setSyncronizer peer)
  | .add peer hashes => some (network.setNode peer ((network.nodes peer).add hashes))
  | .delete peer hash =>
      let node := network.nodes peer
      some (network.setNode peer { node with log := node.log.filter (fun x => x ≠ hash) })

def init : SyncNetwork Peer where
  nodes := fun _ => { log := [], syncronizer := .init }
  inFlight := []

variable {network} {peer other : Peer}

@[simp] theorem nodes_setNode_self (node : SyncNode Peer) :
    (network.setNode peer node).nodes peer = node :=
  Function.update_self ..

theorem nodes_setNode_of_ne (h : other ≠ peer) (node : SyncNode Peer) :
    (network.setNode peer node).nodes other = network.nodes other :=
  Function.update_of_ne h ..

@[simp] theorem nodes_setSyncronizer_self (s : SimpleSyncronizer Peer) :
    (network.setSyncronizer peer s).nodes peer = { network.nodes peer with syncronizer := s } :=
  nodes_setNode_self _

theorem nodes_setSyncronizer_of_ne (h : other ≠ peer) (s : SimpleSyncronizer Peer) :
    (network.setSyncronizer peer s).nodes other = network.nodes other :=
  nodes_setNode_of_ne h _

def machine (Peer : Type) [DecidableEq Peer] (size : String → Nat) :
    Lib.Machine (SyncNetwork Peer) (SyncNetworkAction Peer) where
  init := init
  step := fun network action => network.step size action

end SyncNetwork

end SharedLog
end Peerbit
