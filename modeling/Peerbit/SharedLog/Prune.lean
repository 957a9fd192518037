import Peerbit.Lib.Machines
import Peerbit.Log.Entry
import Peerbit.SharedLog.Ranges
import Mathlib.Data.Finset.Card

/-!
# Checked pruning

A node that is no leader of an entry asks the leaders whether they have it.  It
counts the peers that answer, after it has seen each of them among the leaders,
and when there are enough it removes the entry, a short delay later.

The functions of the source run up to their next `await`; what follows is a step
of its own.  In between, any other step may come: messages, subscription
changes, timers, and changes of the leaders.

Left out is what no step here reads: the messages that the node sends, its
answers to others, and the history of the peers of a graph.
-/

namespace Peerbit
namespace SharedLog

open Log (Hash)

/-- What the node is given, and what it decodes from the entries. -/
structure PruneConfig where
  me : PeerHash
  /-- `replicas.min` and `replicas.max`. -/
  min : Nat
  max : Option Nat
  /-- `decodeReplicas`, by the hash of the entry. -/
  decodeReplicas : Hash → Nat

/-- `getClampedReplicas`. -/
def PruneConfig.getClampedReplicas (cfg : PruneConfig) (hash : Hash) : Nat :=
  let maxValue := Nat.max cfg.min (cfg.decodeReplicas hash)
  match cfg.max with
  | some max => Nat.min maxValue max
  | none => maxValue

/-- A value of `_pendingDeletes`.  The id is that of its promise; the batch is
the call of `prune` that made it. -/
structure PendingDelete where
  id : Nat
  hash : Hash
  batch : Nat
deriving Repr, DecidableEq

/-- A confirmation whose peer is waited for to be among the leaders. -/
structure Waiting where
  pending : PendingDelete
  peer : PeerHash
deriving Repr, DecidableEq

/-- A handler of a `RequestIPrune` message that has hashes left. -/
structure Asking where
  peer : PeerHash
  hashes : List Hash
deriving Repr, DecidableEq

/-- What the node hears from a peer. -/
inductive Heard where
  | request (peer : PeerHash) (hashes : List Hash)
  | response (peer : PeerHash) (hashes : List Hash)
  | unsubscribed (peer : PeerHash)
deriving Repr, DecidableEq

/-- The peers that confirmed the entry, and since their last confirmation neither
asked to prune it themselves nor unsubscribed.  The latest is first. -/
def standing (hash : Hash) : List Heard → Finset PeerHash
  | [] => ∅
  | .response peer hashes :: heard =>
      if hash ∈ hashes then insert peer (standing hash heard)
      else standing hash heard
  | .request peer hashes :: heard =>
      if hash ∈ hashes then (standing hash heard).erase peer
      else standing hash heard
  | .unsubscribed peer :: heard => (standing hash heard).erase peer

/-- The leaders of an entry at the default role age, for a number of
replicas. -/
abbrev Leaders := Hash → Nat → Finset PeerHash

structure PruneState where
  pendingDeletes : Hash → Option PendingDelete
  requestIPruneSent : Hash → Option (Finset PeerHash)
  requestIPruneResponseReplicatorSet : Hash → Option (Finset PeerHash)
  /-- The pending deletes whose timeout was not cleared. -/
  timeouts : List PendingDelete
  waiting : List Waiting
  asking : List Asking
  /-- `cleanupTimer` of all batches: removals after the delay. -/
  scheduled : List PendingDelete
  /-- Removals whose timer fired, up to the check whether the node leads. -/
  checking : List PendingDelete
  /-- Removals after a check that found the node not to lead. -/
  checked : List PendingDelete
  /-- Removals whose call of `log.remove` has not returned. -/
  removing : List PendingDelete
  /-- The promises of a batch. -/
  promises : Nat → List Nat
  settled : List Nat
  nextId : Nat
  nextBatch : Nat
  leaders : Leaders
  /-- All that the node heard, latest first.  No step reads it. -/
  heard : List Heard

/-- An element of the map that `prune` is given. -/
structure PruneEntry where
  hash : Hash
  leaders : List PeerHash
deriving Repr, DecidableEq

namespace PruneState

def init (leaders : Leaders) : PruneState where
  pendingDeletes _ := none
  requestIPruneSent _ := none
  requestIPruneResponseReplicatorSet _ := none
  timeouts := []
  waiting := []
  asking := []
  scheduled := []
  checking := []
  checked := []
  removing := []
  promises _ := []
  settled := []
  nextId := 0
  nextBatch := 0
  leaders := leaders
  heard := []

/-- The peers that were counted for an entry. -/
def counted (s : PruneState) (hash : Hash) : Finset PeerHash :=
  (s.requestIPruneResponseReplicatorSet hash).getD ∅

/-! ### The maps -/

/-- `removePruneRequestSent` without a peer. -/
def removePruneRequestsSent (s : PruneState) (hash : Hash) : PruneState :=
  { s with
    requestIPruneSent := Function.update s.requestIPruneSent hash none }

/-- `removePruneRequestSent` with a peer. -/
def removePruneRequestSent (s : PruneState) (hash : Hash) (to_ : PeerHash) :
    PruneState :=
  match s.requestIPruneSent hash with
  | none => s
  | some set =>
      { s with
        requestIPruneSent :=
          Function.update s.requestIPruneSent hash
            (if set.erase to_ = ∅ then none else some (set.erase to_)) }

/-- `_requestIPruneResponseReplicatorSet.delete`. -/
def deleteCounted (s : PruneState) (hash : Hash) : PruneState :=
  { s with
    requestIPruneResponseReplicatorSet :=
      Function.update s.requestIPruneResponseReplicatorSet hash none }

/-- A peer is no longer counted for an entry. -/
def uncount (s : PruneState) (hash : Hash) (peer : PeerHash) : PruneState :=
  { s with
    requestIPruneResponseReplicatorSet :=
      Function.update s.requestIPruneResponseReplicatorSet hash
        ((s.requestIPruneResponseReplicatorSet hash).map (·.erase peer)) }

/-! ### A pending delete -/

/-- `clear`. -/
def clear (s : PruneState) (pending : PendingDelete) : PruneState :=
  { s with
    pendingDeletes :=
      if (s.pendingDeletes pending.hash).map PendingDelete.id =
          some pending.id then
        Function.update s.pendingDeletes pending.hash none
      else
        s.pendingDeletes
    timeouts := s.timeouts.filter (· ≠ pending) }

/-- The promise of a pending delete is resolved or rejected.  When all promises
of a batch are, the timers of the batch are cleared. -/
def settle (s : PruneState) (pending : PendingDelete) : PruneState :=
  let settled := pending.id :: s.settled
  { s with
    settled := settled
    scheduled :=
      s.scheduled.filter (fun r => ¬ ∀ id ∈ s.promises r.batch, id ∈ settled) }

/-- `reject`. -/
def reject (s : PruneState) (pending : PendingDelete) : PruneState :=
  (((s.clear pending).removePruneRequestsSent pending.hash).deleteCounted
    pending.hash).settle pending

/-- The inner function `resolve`. -/
def schedule (s : PruneState) (pending : PendingDelete) : PruneState :=
  let s := s.clear pending
  { s with scheduled := pending :: s.scheduled }

/-- The `resolve` of a pending delete, after the wait for the peer. -/
def confirm (cfg : PruneConfig) (s : PruneState) (w : Waiting) : PruneState :=
  let existCounter := insert w.peer (s.counted w.pending.hash)
  let s :=
    { s with
      requestIPruneResponseReplicatorSet :=
        Function.update s.requestIPruneResponseReplicatorSet w.pending.hash
          (some existCounter) }
  if cfg.getClampedReplicas w.pending.hash ≤ existCounter.card then
    s.schedule w.pending
  else
    s

/-! ### Pruning -/

/-- The body of the loop of `prune` for one entry; the promise that it adds is
returned with the state. -/
def pruneEntry (s : PruneState) (batch : Nat) (entry : PruneEntry) :
    PruneState :=
  match s.pendingDeletes entry.hash with
  | some pendingPrev =>
      { s with
        promises :=
          Function.update s.promises batch
            (s.promises batch ++ [pendingPrev.id]) }
  | none =>
      let pending : PendingDelete :=
        { id := s.nextId, hash := entry.hash, batch := batch }
      { s with
        pendingDeletes :=
          Function.update s.pendingDeletes entry.hash (some pending)
        timeouts := pending :: s.timeouts
        promises :=
          Function.update s.promises batch (s.promises batch ++ [pending.id])
        nextId := s.nextId + 1 }

/-- `emitMessages` for one entry. -/
def emitMessages (s : PruneState) (entry : PruneEntry) : PruneState :=
  if entry.leaders = [] then
    s
  else
    { s with
      requestIPruneSent :=
        Function.update s.requestIPruneSent entry.hash
          (some
            ((s.requestIPruneSent entry.hash).getD ∅ ∪
              entry.leaders.toFinset)) }

/-- `prune` with a check. -/
def prune (s : PruneState) (entries : List PruneEntry) : PruneState :=
  let pruned := entries.foldl (fun s e => s.pruneEntry s.nextBatch e) s
  let sent := entries.foldl emitMessages pruned
  { sent with nextBatch := s.nextBatch + 1 }

/-- `prune` without a check, up to `log.remove`. -/
def pruneUnchecked (s : PruneState) (hashes : List Hash) : PruneState :=
  hashes.foldl
    (fun s hash => (s.removePruneRequestsSent hash).deleteCounted hash) s

/-! ### Messages -/

/-- The handler of `RequestIPrune` for one hash, up to its first `await`; the
other hashes come after. -/
def askedToPrune (s : PruneState) (peer : PeerHash) : List Hash → PruneState
  | [] => s
  | hash :: hashes =>
      let s := (s.removePruneRequestSent hash peer).uncount hash peer
      { s with asking := { peer := peer, hashes := hashes } :: s.asking }

def onRequestIPrune (s : PruneState) (peer : PeerHash) (hashes : List Hash) :
    PruneState :=
  { s.askedToPrune peer hashes with heard := .request peer hashes :: s.heard }

def onResponseIPrune (s : PruneState) (peer : PeerHash) (hashes : List Hash) :
    PruneState :=
  { s with
    waiting :=
      hashes.filterMap (fun hash =>
        (s.pendingDeletes hash).map
          (fun pending => { pending := pending, peer := peer })) ++ s.waiting
    heard := .response peer hashes :: s.heard }

/-- The maps in `handleSubscriptionChange` when a peer unsubscribed.  A set of
confirmations that became empty is kept; what is deleted in its place is the set
of requests. -/
def unsubscribed (s : PruneState) (peer : PeerHash) : PruneState :=
  let sent : Hash → Option (Finset PeerHash) := fun hash =>
    match s.requestIPruneSent hash with
    | some set => if set.erase peer = ∅ then none else some (set.erase peer)
    | none => none
  { s with
    requestIPruneSent := fun hash =>
      match s.requestIPruneResponseReplicatorSet hash with
      | some set => if set.erase peer = ∅ then none else sent hash
      | none => sent hash
    requestIPruneResponseReplicatorSet := fun hash =>
      (s.requestIPruneResponseReplicatorSet hash).map (·.erase peer)
    heard := .unsubscribed peer :: s.heard }

end PruneState

/-! ### Steps -/

inductive PruneAction where
  | prune (entries : List PruneEntry)
  | pruneUnchecked (hashes : List Hash)
  | requestIPrune (peer : PeerHash) (hashes : List Hash)
  | responseIPrune (peer : PeerHash) (hashes : List Hash)
  | unsubscribed (peer : PeerHash)
  /-- The leaders change. -/
  | assign (leaders : Leaders)
  /-- The handler of a request goes on to the next hash. -/
  | goOn (asking : Asking)
  /-- The peer of a confirmation is among the leaders, and the node is not. -/
  | confirm (waiting : Waiting)
  /-- The wait for the peer ends without that. -/
  | giveUp (waiting : Waiting)
  | timeout (pending : PendingDelete)
  /-- `onReplicationChange` finds the node to lead the entry. -/
  | leaderAgain (hash : Hash)
  /-- Heads are received that the node leads. -/
  | leadsReceived (hash : Hash)
  /-- The delay is over. -/
  | fire (pending : PendingDelete)
  /-- The leaders are looked up. -/
  | check (pending : PendingDelete)
  /-- `log.remove` is called. -/
  | remove (pending : PendingDelete)
  /-- `log.remove` has returned. -/
  | removed (pending : PendingDelete)

variable (cfg : PruneConfig)

def pruneStep (s : PruneState) : PruneAction → Option PruneState
  | .prune entries => some (s.prune entries)
  | .pruneUnchecked hashes => some (s.pruneUnchecked hashes)
  | .requestIPrune peer hashes => some (s.onRequestIPrune peer hashes)
  | .responseIPrune peer hashes => some (s.onResponseIPrune peer hashes)
  | .unsubscribed peer => some (s.unsubscribed peer)
  | .assign leaders => some { s with leaders := leaders }
  | .goOn asking =>
      if asking ∈ s.asking then
        some ({ s with asking := s.asking.erase asking }.askedToPrune
          asking.peer asking.hashes)
      else none
  | .confirm w =>
      let leaders :=
        s.leaders w.pending.hash (cfg.getClampedReplicas w.pending.hash)
      if w ∈ s.waiting ∧ w.peer ∈ leaders ∧ cfg.me ∉ leaders then
        some ({ s with waiting := s.waiting.erase w }.confirm cfg w)
      else none
  | .giveUp w =>
      if w ∈ s.waiting then some { s with waiting := s.waiting.erase w }
      else none
  | .timeout pending =>
      if pending ∈ s.timeouts then some (s.reject pending) else none
  | .leaderAgain hash =>
      let s :=
        match s.pendingDeletes hash with
        | some pending => s.reject pending
        | none => s
      some (s.removePruneRequestsSent hash)
  | .leadsReceived hash =>
      some ((s.removePruneRequestsSent hash).deleteCounted hash)
  | .fire r =>
      if r ∈ s.scheduled then
        let s :=
          { s with
            scheduled := s.scheduled.erase r, checking := r :: s.checking }
        some ((s.removePruneRequestsSent r.hash).deleteCounted r.hash)
      else none
  | .check r =>
      if r ∈ s.checking then
        let s := { s with checking := s.checking.erase r }
        if cfg.me ∈ s.leaders r.hash (cfg.decodeReplicas r.hash) then
          some (s.settle r)
        else
          some { s with checked := r :: s.checked }
      else none
  | .remove r =>
      if r ∈ s.checked then
        some
          { s with
            checked := s.checked.erase r, removing := r :: s.removing }
      else none
  | .removed r =>
      if r ∈ s.removing then
        let s := { s with removing := s.removing.erase r }.settle r
        some ((s.removePruneRequestsSent r.hash).deleteCounted r.hash)
      else none

/-- The prune protocol of a node, from an empty state. -/
def pruneMachine (leaders : Leaders) : Lib.Machine PruneState PruneAction where
  init := .init leaders
  step := pruneStep cfg

end SharedLog
end Peerbit
