import Mathlib.Logic.Function.Basic
import Peerbit.Lib.InsertionMap
import Peerbit.Lib.LiveMap
import Peerbit.Lib.Machines

/-!
# The queue of the simple synchronizer

The synchronizer notes for each key which peers can be asked for it, and for each
peer the keys that it is noted under.  A loop asks the peers of a key one after
the other, until the key is there.

Both `queueSync` and the loop wait for the answer whether a key is there, and the
other operations run while they wait.  The loop holds the list of its key
meanwhile: a list is an object of its own, and when a peer leaves, its keys get
new ones.

A public key stands for its hash code.  `close` and `onReceivedEntries` are left
out: the one empties both maps, the other touches `syncInFlight` only.
-/

namespace Peerbit
namespace SharedLog

/-- `SyncableKey` -/
inductive SyncableKey
  | hash (h : String)
  | coordinate (c : Int)
deriving Repr, DecidableEq

/-- What `requestSync` sends. -/
inductive SyncRequest (Peer : Type)
  | RequestMaybeSyncCoordinate (coordinates : List SyncableKey) (to_ : List Peer)
  | ResponseMaybeSync (hashes : List SyncableKey) (to_ : List Peer)
deriving Repr, DecidableEq

/-- A call of `queueSync` that waits to hear whether `key` is there. -/
structure QueueCall (Peer : Type) where
  key : SyncableKey
  keys : List SyncableKey
  from_ : Peer
  requestHashes : List SyncableKey
deriving Repr, DecidableEq

/-- The request loop, while it waits to hear whether `key` is there: it has got the
list `value` for the key, and goes on at `place`. -/
structure RequestLoop (Peer : Type) where
  place : Nat
  key : SyncableKey
  value : Nat
  requestHashes : List SyncableKey
  from_ : List Peer
deriving Repr, DecidableEq

/-- The lists of peers are objects: `lists` holds what they contain, and those from
`fresh` on are not in use yet. -/
structure SimpleSyncronizer (Peer : Type) where
  lists : Nat → List Peer
  fresh : Nat
  syncInFlightQueue : Lib.LiveMap SyncableKey Nat
  syncInFlightQueueInverted : Lib.InsertionMap Peer (List SyncableKey)
  syncInFlight : Lib.InsertionMap Peer (Lib.InsertionMap SyncableKey Int)
  sent : List (SyncRequest Peer)
  calls : List (QueueCall Peer)
  loop : Option (RequestLoop Peer)

/-- `Set.add` -/
def setAdd {α : Type} [DecidableEq α] (set : List α) (x : α) : List α :=
  if x ∈ set then set else set ++ [x]

/-- `Set.delete` -/
def setDelete {α : Type} [DecidableEq α] (set : List α) (x : α) : List α :=
  set.filter (fun y => decide (y ≠ x))

namespace SimpleSyncronizer

variable {Peer : Type}

def init : SimpleSyncronizer Peer where
  lists := fun _ => []
  fresh := 0
  syncInFlightQueue := .empty
  syncInFlightQueueInverted := .empty
  syncInFlight := .empty
  sent := []
  calls := []
  loop := none

/-- A new list is put under a key. -/
def setPeers (s : SimpleSyncronizer Peer) (key : SyncableKey) (peers : List Peer) :
    SimpleSyncronizer Peer :=
  { s with
    lists := Function.update s.lists s.fresh peers
    fresh := s.fresh + 1
    syncInFlightQueue := s.syncInFlightQueue.set key s.fresh }

def deleteKey (s : SimpleSyncronizer Peer) (key : SyncableKey) : SimpleSyncronizer Peer :=
  { s with syncInFlightQueue := s.syncInFlightQueue.delete key }

/-- The peers that are noted under a key. -/
def peersOf (s : SimpleSyncronizer Peer) (key : SyncableKey) : List Peer :=
  ((s.syncInFlightQueue.get key).map s.lists).getD []

variable [DecidableEq Peer]

/-- The keys that are noted for a peer. -/
def keysOf (s : SimpleSyncronizer Peer) (peer : Peer) : List SyncableKey :=
  (s.syncInFlightQueueInverted.get peer).getD []

/-- `requestSync` -/
def requestSync (s : SimpleSyncronizer Peer) (hashes : List SyncableKey)
    (to_ : List Peer) (now : Int) : SimpleSyncronizer Peer :=
  match hashes with
  | [] => s
  | first :: _ =>
      { s with
        syncInFlight := to_.foldl
          (fun inFlight node => inFlight.set node
            (hashes.foldl (fun map hash => map.set hash now)
              ((inFlight.get node).getD .empty)))
          s.syncInFlight
        sent := s.sent ++
          [match first with
            | .coordinate _ => .RequestMaybeSyncCoordinate hashes to_
            | .hash _ => .ResponseMaybeSync hashes to_] }

/-- The peer can be asked for a key that is queued. -/
def addPeer (s : SimpleSyncronizer Peer) (key : SyncableKey) (inFlight : Nat)
    (from_ : Peer) : SimpleSyncronizer Peer :=
  if from_ ∈ s.lists inFlight then s
  else
    { s with
      lists := Function.update s.lists inFlight (s.lists inFlight ++ [from_])
      syncInFlightQueueInverted := s.syncInFlightQueueInverted.set from_
        (setAdd (s.keysOf from_) key) }

/-- The loop of `queueSync`, up to its next wait or its end. -/
def queueSync (from_ : Peer) (skipCheck : Bool) (now : Int) :
    SimpleSyncronizer Peer → List SyncableKey → List SyncableKey → SimpleSyncronizer Peer
  | s, [], requestHashes => s.requestSync requestHashes [from_] now
  | s, key :: keys, requestHashes =>
      match s.syncInFlightQueue.get key with
      | some inFlight =>
          queueSync from_ skipCheck now (s.addPeer key inFlight from_) keys requestHashes
      | none =>
          if skipCheck then
            queueSync from_ skipCheck now (s.setPeers key []) keys (requestHashes ++ [key])
          else
            { s with
              calls := s.calls ++
                [{ key := key, keys := keys, from_ := from_, requestHashes := requestHashes }] }

/-- A waiting call of `queueSync` goes on. -/
def queueSyncChecked (s : SimpleSyncronizer Peer) (call : QueueCall Peer) (has : Bool)
    (now : Int) : SimpleSyncronizer Peer :=
  if has then queueSync call.from_ false now s call.keys call.requestHashes
  else
    queueSync call.from_ false now (s.setPeers call.key []) call.keys
      (call.requestHashes ++ [call.key])

/-- The key is taken out of the set of a peer, and the set out of the map when it is
empty. -/
def removeKey (inverted : Lib.InsertionMap Peer (List SyncableKey)) (peer : Peer)
    (key : SyncableKey) : Lib.InsertionMap Peer (List SyncableKey) :=
  match inverted.get peer with
  | none => inverted
  | some keys =>
      if (setDelete keys key).isEmpty then inverted.delete peer
      else inverted.set peer (setDelete keys key)

/-- "cleanup "old" missing syncs" -/
def dropOld (inFlight : Lib.InsertionMap Peer (Lib.InsertionMap SyncableKey Int))
    (now : Int) : Lib.InsertionMap Peer (Lib.InsertionMap SyncableKey Int) :=
  inFlight.keys.foldl
    (fun inFlight peer =>
      match inFlight.get peer with
      | none => inFlight
      | some map =>
          let map := map.filter (fun _ timestamp => decide (now - 20000 ≤ timestamp))
          if map.keys.isEmpty then inFlight.delete peer else inFlight.set peer map)
    inFlight

/-- The loop goes to the next key of the queue, or ends. -/
def visitNext (s : SimpleSyncronizer Peer) (place : Nat)
    (requestHashes : List SyncableKey) (from_ : List Peer) (now : Int) :
    SimpleSyncronizer Peer :=
  match s.syncInFlightQueue.next place with
  | some (place, key, value) =>
      { s with
        loop := some
          { place := place, key := key, value := value, requestHashes := requestHashes,
            from_ := from_ } }
  | none =>
      requestSync { s with loop := none, syncInFlight := dropOld s.syncInFlight now }
        requestHashes from_ now

/-- The first peer of the list is asked. -/
def askPeer (s : SimpleSyncronizer Peer) (key : SyncableKey) (value : Nat)
    (publicKeyHash : Peer) (rest : List Peer) : SimpleSyncronizer Peer :=
  { s with
    lists := Function.update s.lists value rest
    syncInFlightQueueInverted :=
      if key ∈ s.keysOf publicKeyHash then
        removeKey s.syncInFlightQueueInverted publicKeyHash key
      else s.syncInFlightQueueInverted }

/-- The loop hears whether its key is there, and goes on. -/
def loopChecked (s : SimpleSyncronizer Peer) (l : RequestLoop Peer) (has : Bool)
    (now : Int) : SimpleSyncronizer Peer :=
  if has then
    (s.deleteKey l.key).visitNext l.place l.requestHashes l.from_ now
  else
    match s.lists l.value with
    | [] => (s.deleteKey l.key).visitNext l.place l.requestHashes l.from_ now
    | publicKeyHash :: rest =>
        let s := s.askPeer l.key l.value publicKeyHash rest
        (if rest.isEmpty then s.deleteKey l.key else s).visitNext l.place
          (l.requestHashes ++ [l.key]) (setAdd l.from_ publicKeyHash) now

/-- `clearSyncProcess` -/
def clearSyncProcess (s : SimpleSyncronizer Peer) (hash : String) :
    SimpleSyncronizer Peer :=
  match s.syncInFlightQueue.get (.hash hash) with
  | none => s
  | some inflight =>
      { s with
        syncInFlightQueueInverted := (s.lists inflight).foldl
          (fun inverted peer => removeKey inverted peer (.hash hash))
          s.syncInFlightQueueInverted
        syncInFlightQueue := s.syncInFlightQueue.delete (.hash hash) }

/-- The list of a key is replaced by one without the peer. -/
def filterPeer (publicKey : Peer) (s : SimpleSyncronizer Peer) (hash : SyncableKey) :
    SimpleSyncronizer Peer :=
  match s.syncInFlightQueue.get hash with
  | none => s
  | some arr =>
      let filtered := (s.lists arr).filter (fun x => decide (x ≠ publicKey))
      if filtered.isEmpty then s.deleteKey hash else s.setPeers hash filtered

/-- `clearSyncProcessPublicKey` -/
def clearSyncProcessPublicKey (s : SimpleSyncronizer Peer) (publicKey : Peer) :
    SimpleSyncronizer Peer :=
  let s := { s with syncInFlight := s.syncInFlight.delete publicKey }
  match s.syncInFlightQueueInverted.get publicKey with
  | none => s
  | some map =>
      let s := map.foldl (filterPeer publicKey) s
      { s with
        syncInFlightQueueInverted := s.syncInFlightQueueInverted.delete publicKey }

end SimpleSyncronizer

/-! ### Runs -/

/-- What happens to a synchronizer.  Whether a key is there is asked outside. -/
inductive SynchronizerAction (Peer : Type)
  | queueSync (keys : List SyncableKey) (from_ : Peer) (skipCheck : Bool) (now : Int)
  | queueSyncChecked (i : Nat) (has : Bool) (now : Int)
  | requestSyncLoop (now : Int)
  | loopChecked (has : Bool) (now : Int)
  | onEntryAdded (hash : String)
  | onEntryRemoved (hash : String)
  | onPeerDisconnected (publicKey : Peer)
deriving Repr, DecidableEq

section Machine

variable {Peer : Type} [DecidableEq Peer]

/-- There is one request loop: it starts anew when it has ended. -/
def synchronizerStep (s : SimpleSyncronizer Peer) :
    SynchronizerAction Peer → Option (SimpleSyncronizer Peer)
  | .queueSync keys from_ skipCheck now =>
      some (SimpleSyncronizer.queueSync from_ skipCheck now s keys [])
  | .queueSyncChecked i has now =>
      s.calls[i]?.map fun call =>
        { s with calls := s.calls.eraseIdx i }.queueSyncChecked call has now
  | .requestSyncLoop now =>
      if s.loop.isNone then some (s.visitNext 0 [] [] now) else none
  | .loopChecked has now => s.loop.map fun l => s.loopChecked l has now
  | .onEntryAdded hash => some (s.clearSyncProcess hash)
  | .onEntryRemoved hash => some (s.clearSyncProcess hash)
  | .onPeerDisconnected publicKey => some (s.clearSyncProcessPublicKey publicKey)

def synchronizerMachine (Peer : Type) [DecidableEq Peer] :
    Lib.Machine (SimpleSyncronizer Peer) (SynchronizerAction Peer) where
  init := .init
  step := synchronizerStep

end Machine

end SharedLog
end Peerbit
