import Peerbit.Transport.NetworkRoutes

/-!
# How often a relay writes a message

A node writes to a neighbour at most one copy of a message for each copy that it has got,
and none any more when it has got as many as the redundancy of the message says.  So
whatever the network looks like, in whatever order copies arrive, and whatever else the
nodes do, a relay whose cache does not forget a message writes it to a neighbour once, or as
often as the redundancy of the messages that seek (`copiesSent_le_of_run`).
-/

namespace Peerbit
namespace Transport

open Lib (InsertionMap Machine)

/-! ### Relays among the effects of a copy -/

def Effect.isRelay : Effect → Bool
  | .relay _ _ => true
  | _ => false

section Effects

variable {signs : SignatureWithKey → MessageHeader → Option Bytes → Bool}
variable {node : DirectStream} {copy : Copy} {seenBefore : Nat}

/-- A copy that may still be relayed. -/
def Early (message : DataMessage) (seenBefore : Nat) : Prop :=
  seenBefore = 0 ∨ message.mode.isSeek = true ∧ seenBefore < message.mode.redundancy

theorem early_of_shouldIgnore {message : DataMessage}
    (h : shouldIgnore node message seenBefore = false) : Early message seenBefore := by
  rw [shouldIgnore, Bool.or_eq_false_iff] at h
  have hseen := h.2
  unfold Early
  cases hmode : message.mode with
  | seek tos redundancy =>
      rw [hmode] at hseen
      exact Or.inr ⟨rfl, by simpa [DeliveryMode.redundancy] using hseen⟩
  | silent tos redundancy =>
      rw [hmode] at hseen
      exact Or.inl (by simpa using hseen)
  | acknowledge tos redundancy =>
      rw [hmode] at hseen
      exact Or.inl (by simpa using hseen)
  | anyWhere =>
      rw [hmode] at hseen
      exact Or.inl (by simpa using hseen)

/-- There is one relay at most, to peers that are all different. -/
structure RelaysOnce (effects : List Effect) : Prop where
  once : effects.countP Effect.isRelay ≤ 1
  nodup : ∀ message tos, Effect.relay message (some tos) ∈ effects → tos.Nodup

theorem RelaysOnce.nil : RelaysOnce [] :=
  ⟨by simp, by simp⟩

theorem RelaysOnce.cons {effects : List Effect} {effect : Effect}
    (h : RelaysOnce effects) (heffect : effect.isRelay = false) :
    RelaysOnce (effect :: effects) := by
  refine ⟨?_, fun message tos hmem => ?_⟩
  · rw [List.countP_cons, heffect]
    exact h.once
  · rcases List.mem_cons.mp hmem with rfl | hmem
    · cases heffect
    · exact h.nodup message tos hmem

theorem RelaysOnce.dispatch {effects : List Effect} (h : RelaysOnce effects) (c : Prop)
    [Decidable c] (copy : Copy) :
    RelaysOnce ((if c then [Effect.dispatch copy] else []) ++ effects) := by
  split
  · exact h.cons rfl
  · exact h

theorem relaysOnce_relay (c : Prop) [Decidable c] {message : DataMessage}
    {to_ : Option (List KeyHash)} (hto : ∀ tos, to_ = some tos → tos.Nodup) :
    RelaysOnce (if c then [.relay message to_] else []) := by
  split
  · refine ⟨le_rfl, fun message' tos hmem => ?_⟩
    cases List.mem_singleton.mp hmem
    exact hto tos rfl
  · exact .nil

theorem relaysOnce_forward (hpeers : node.peers.Nodup) :
    RelaysOnce (forward node copy seenBefore) := by
  unfold forward
  split
  · exact .nil
  · split
    · refine relaysOnce_relay _ fun tos htos => ?_
      obtain rfl := Option.some.inj htos
      exact hpeers.filter _
    · exact relaysOnce_relay _ fun tos htos => by cases htos

theorem relaysOnce_subForward (sub : DirectSub) (message : DataMessage)
    (topics : List String) (strict : Bool) :
    RelaysOnce (subForward node sub message topics strict) := by
  exact relaysOnce_relay _ fun tos htos => by cases htos

theorem RelaysOnce.maybeAcknowledgeMessage {rest : List Effect} (h : RelaysOnce rest) :
    RelaysOnce (maybeAcknowledgeMessage node copy seenBefore rest) := by
  have hacknowledge : ∀ redundancy,
      RelaysOnce (acknowledge node copy seenBefore redundancy rest) := by
    intro redundancy
    unfold acknowledge
    split
    · split
      · exact .nil
      · exact h.cons rfl
    · exact h
  unfold Transport.maybeAcknowledgeMessage
  split
  · exact hacknowledge _
  · exact hacknowledge _
  · exact h

theorem relaysOnce_streamOnDataMessage (hpeers : node.peers.Nodup) :
    RelaysOnce (streamOnDataMessage signs node copy seenBefore) := by
  unfold streamOnDataMessage
  split
  · exact .nil
  · split
    · split
      · exact ((relaysOnce_forward hpeers).dispatch _ copy).maybeAcknowledgeMessage
      · exact .nil
    · exact relaysOnce_forward hpeers

theorem relaysOnce_onDataMessage (hpeers : node.peers.Nodup) :
    RelaysOnce (onDataMessage signs node copy seenBefore) := by
  unfold onDataMessage
  split
  · exact relaysOnce_streamOnDataMessage hpeers
  · unfold subOnDataMessage
    split
    · exact relaysOnce_streamOnDataMessage hpeers
    · exact relaysOnce_streamOnDataMessage hpeers
    · split
      · exact .nil
      · split
        · split
          · exact .nil
          · simp only
            split
            · exact .nil
            · exact ((relaysOnce_subForward _ _ _ _).dispatch _ copy).maybeAcknowledgeMessage
        · exact .nil

end Effects

/-! ### Copies among what a node writes -/

def Packet.isCopy (id : Bytes) : Packet → Bool
  | .data message => decide (getMsgId message = id)
  | .ack _ => false

/-- A copy from one node to another. -/
def Transit.isCopy (id : Bytes) (a b : KeyHash) (transit : Transit) : Bool :=
  decide (transit.sender = a ∧ transit.receiver = b) && transit.packet.isCopy id

section Writing

variable {signing : Signing} {node : StreamNode} {from_ : KeyHash}
variable {message : DataMessage} {to_ : Option (List KeyHash)} {now : Int}
variable {id : Bytes} {a b : KeyHash} {copy : Copy} {ackHeader : MessageHeader}

theorem nodup_chooseStreams {relayed : Bool} (hpeers : node.peers.Nodup)
    (hto : ∀ tos, to_ = some tos → tos.Nodup) :
    (node.chooseStreams from_ message to_ relayed).Nodup := by
  unfold StreamNode.chooseStreams
  simp only
  split
  · split
    · rename_i fanout _
      exact fanout.nodup.filter _
    · split
      · exact List.nodup_nil
      · exact hpeers.filter _
  · refine List.Nodup.filter _ ?_
    cases hto' : to_ with
    | none => exact hpeers
    | some tos => exact hto tos hto'

/-- The streams that are chosen for a message that is relayed. -/
theorem nodup_publishMessage (hpeers : node.peers.Nodup)
    (hto : ∀ tos, to_ = some tos → tos.Nodup) :
    (node.publishMessage from_ message to_ true now).2.Nodup := by
  obtain ⟨callbacks, hcallbacks⟩ :=
    onlyCallbacks_createDeliveryPromise node from_ message now
  unfold StreamNode.publishMessage
  simp only [Bool.not_true, Bool.and_false, Bool.false_eq_true, if_false, if_true,
    hcallbacks]
  split
  · exact List.nodup_nil
  · split
    · exact List.nodup_nil
    · refine nodup_chooseStreams (by split <;> exact hpeers) fun tos htos => ?_
      split at htos
      · cases htos
      · exact hto tos htos

theorem countP_write (streams : List KeyHash) (hnodup : streams.Nodup) :
    (node.write message streams).countP (Transit.isCopy id a b) ≤ 1 := by
  rw [StreamNode.write, List.countP_map]
  calc streams.countP _
      ≤ streams.countP (fun stream => stream == b) :=
        List.countP_mono_left fun stream _ hcopy => by
          simp only [Function.comp_apply, Transit.isCopy, Bool.and_eq_true,
            decide_eq_true_eq] at hcopy
          simpa using hcopy.1.2
    _ ≤ 1 := List.nodup_iff_count_le_one.mp hnodup b

/-- An effect writes a copy to a neighbour at most if it is a relay. -/
theorem countP_perform (hpeers : node.peers.Nodup) {effect : Effect}
    (hto : ∀ message tos, effect = .relay message (some tos) → tos.Nodup) :
    (node.perform signing ackHeader copy effect).2.countP (Transit.isCopy id a b) ≤
      [effect].countP Effect.isRelay := by
  cases effect with
  | dispatch copy' => exact Nat.zero_le _
  | acknowledge to_ seenCounter trace =>
      unfold StreamNode.perform StreamNode.acknowledgement
      simp only
      split
      · exact Nat.zero_le _
      · simp [Transit.isCopy, Packet.isCopy]
  | relay message to_ =>
      unfold StreamNode.perform StreamNode.relayMessage
      simp only
      split
      · split
        · exact Nat.zero_le _
        · refine countP_write _ (nodup_publishMessage hpeers fun tos htos => ?_)
          exact hto message tos (by rw [htos])
      · exact Nat.zero_le _

theorem countP_performAll (hpeers : node.peers.Nodup) {effects : List Effect}
    (hto : ∀ message tos, Effect.relay message (some tos) ∈ effects → tos.Nodup) :
    (StreamNode.performAll signing ackHeader copy node effects).2.countP
        (Transit.isCopy id a b) ≤ effects.countP Effect.isRelay := by
  induction effects generalizing node with
  | nil => exact Nat.zero_le _
  | cons effect effects ih =>
      have hsame : OnlyCallbacks node (node.perform signing ackHeader copy effect).1 :=
        onlyCallbacks_perform effect
      have hpeers' : (node.perform signing ackHeader copy effect).1.peers.Nodup := by
        obtain ⟨callbacks, hcallbacks⟩ := hsame
        rw [hcallbacks]
        exact hpeers
      rw [StreamNode.performAll, List.countP_append]
      calc _ ≤ [effect].countP Effect.isRelay + effects.countP Effect.isRelay :=
            Nat.add_le_add
              (countP_perform hpeers fun message tos heq =>
                hto message tos (heq ▸ List.mem_cons_self))
              (ih hpeers' fun message tos hmem =>
                hto message tos (List.mem_cons_of_mem _ hmem))
        _ = (effect :: effects).countP Effect.isRelay := by
            rw [← List.countP_append, List.singleton_append]

/-- What a node writes to a neighbour for a copy. -/
theorem countP_handleData (hpeers : node.peers.Nodup) :
    (node.handleData signing ackHeader copy).2.countP (Transit.isCopy id a b) ≤ 1 := by
  have honce : RelaysOnce (node.effects signing copy) := relaysOnce_onDataMessage hpeers
  have hcounted : (node.count copy.message).peers.Nodup := hpeers
  exact (countP_performAll hcounted honce.nodup).trans honce.once

theorem early_of_handleData
    (h : 0 < (node.handleData signing ackHeader copy).2.countP (Transit.isCopy id a b)) :
    getMsgId copy.message = id ∧
      Early copy.message ((node.seenCache (getMsgId copy.message)).getD 0) := by
  obtain ⟨⟨sender, receiver, packet⟩, hmem, hcopy⟩ := List.countP_pos_iff.mp h
  refine ⟨?_, early_of_shouldIgnore (shouldIgnore_of_handleData hmem)⟩
  have hpacket := (Bool.and_eq_true_iff.mp hcopy).2
  cases packet with
  | data message =>
      rw [← getMsgId_of_handleData hmem]
      exact of_decide_eq_true hpacket
  | ack ack => cases hpacket

theorem countP_eq_zero_of_sender {key : KeyHash} {written : List Transit}
    (hsender : ∀ transit ∈ written, transit.sender = key) (ha : a ≠ key) :
    written.countP (Transit.isCopy id a b) = 0 := by
  rw [List.countP_eq_zero]
  intro transit htransit
  have hne : transit.sender ≠ a := fun heq => ha (heq.symm.trans (hsender _ htransit))
  simp [Transit.isCopy, hne]

theorem countP_eq_zero_of_other {written : List Transit}
    (hother : ∀ sender receiver message,
      (⟨sender, receiver, .data message⟩ : Transit) ∈ written → getMsgId message ≠ id) :
    written.countP (Transit.isCopy id a b) = 0 := by
  rw [List.countP_eq_zero]
  rintro ⟨sender, receiver, packet⟩ htransit
  cases packet with
  | data message => simp [Transit.isCopy, Packet.isCopy, hother _ _ _ htransit]
  | ack ack => simp [Transit.isCopy, Packet.isCopy]

end Writing

/-! ### All runs -/

namespace Network

/-- How often one node has written a message to another one. -/
def copiesSent (s : Network) (id : Bytes) (a b : KeyHash) : Nat :=
  s.sent.countP (Transit.isCopy id a b)

/-- The copies of a message that seeks have at most this redundancy. -/
def SeeksWithin (id : Bytes) (redundancy : Nat) (sent : List Transit) : Prop :=
  ∀ sender receiver message, (⟨sender, receiver, .data message⟩ : Transit) ∈ sent →
    getMsgId message = id → message.mode.isSeek = true →
      message.mode.redundancy ≤ redundancy

/-- No more copies than the node has got, and no more than what is relayed. -/
def Within (id : Bytes) (redundancy : Nat) (a b : KeyHash) (s : Network) : Prop :=
  s.copiesSent id a b ≤ ((s.nodes a).seenCache id).getD 0 ∧
    s.copiesSent id a b ≤ max 1 redundancy

structure RelayInv (id : Bytes) (redundancy : Nat) (a : KeyHash) (s : Network) : Prop where
  publicKey : ∀ key, (s.nodes key).publicKey = key
  peers : ∀ key, (s.nodes key).peers.Nodup
  inFlight : s.inFlight ⊆ s.sent
  within : SeeksWithin id redundancy s.sent →
    (a, id) ∉ s.published → ∀ b, Within id redundancy a b s

/-- The cache of the node does not forget the id. -/
def Remembers (id : Bytes) (a : KeyHash) (_ : Network) (action : NetworkAction) : Prop :=
  action ≠ .forget a id

variable {signing : Signing} {id : Bytes} {redundancy : Nat} {a : KeyHash} {s s' : Network}

/-- One node acts. -/
theorem RelayInv.act (h : RelayInv id redundancy a s) (key : KeyHash)
    {written : List Transit}
    (hnodes : ∀ other, other ≠ key → s'.nodes other = s.nodes other)
    (hkey : (s'.nodes key).publicKey = key) (hpeers : (s'.nodes key).peers.Nodup)
    (hflight : s'.inFlight ⊆ s.inFlight ++ written) (hsent : s'.sent = s.sent ++ written)
    (hpublished : s.published ⊆ s'.published)
    (hsender : a ≠ key → ∀ b, written.countP (Transit.isCopy id a b) = 0)
    (hwithin : key = a → SeeksWithin id redundancy s.sent → (a, id) ∉ s'.published → ∀ b,
      Within id redundancy a b s → Within id redundancy a b s') :
    RelayInv id redundancy a s' := by
  constructor
  case publicKey =>
    intro other
    by_cases hother : other = key
    · rw [hother, hkey]
    · rw [hnodes other hother, h.publicKey]
  case peers =>
    intro other
    by_cases hother : other = key
    · rw [hother]
      exact hpeers
    · rw [hnodes other hother]
      exact h.peers other
  case inFlight =>
    rw [hsent]
    exact fun transit htransit => List.mem_append.mpr
      ((List.mem_append.mp (hflight htransit)).imp_left fun hold => h.inFlight hold)
  case within =>
    intro hseeks hnot b
    have hseeks' : SeeksWithin id redundancy s.sent := by
      intro sender receiver message hmem
      exact hseeks sender receiver message (by rw [hsent]; exact List.mem_append_left _ hmem)
    have hold := h.within hseeks' (fun hmem => hnot (hpublished hmem)) b
    by_cases ha : a = key
    · exact hwithin ha.symm hseeks' hnot b hold
    · have hcopies : s'.copiesSent id a b = s.copiesSent id a b := by
        rw [copiesSent, copiesSent, hsent, List.countP_append, hsender ha b, Nat.add_zero]
      unfold Within
      rw [hcopies, hnodes a ha]
      exact hold

/-- No copy of the message is written. -/
theorem RelayInv.keeps (h : RelayInv id redundancy a s) (key : KeyHash)
    {written : List Transit} (hkeeps : Keeps id (s.nodes key) (s'.nodes key))
    (hnodes : ∀ other, other ≠ key → s'.nodes other = s.nodes other)
    (hflight : s'.inFlight ⊆ s.inFlight ++ written) (hsent : s'.sent = s.sent ++ written)
    (hpublished : s.published ⊆ s'.published)
    (hother : ∀ sender receiver message,
      (⟨sender, receiver, .data message⟩ : Transit) ∈ written → getMsgId message ≠ id) :
    RelayInv id redundancy a s' := by
  refine h.act key hnodes (hkeeps.publicKey.trans (h.publicKey key))
    (by rw [hkeeps.peers]; exact h.peers key) hflight hsent hpublished
    (fun _ _ => countP_eq_zero_of_other hother) fun ha _ _ b hold => ?_
  subst ha
  have hcopies : s'.copiesSent id key b = s.copiesSent id key b := by
    rw [copiesSent, copiesSent, hsent, List.countP_append, countP_eq_zero_of_other hother,
      Nat.add_zero]
  unfold Within
  rw [hcopies, hkeeps.seenCache]
  exact hold

/-- Nothing is written, but the peers may change. -/
theorem RelayInv.setNode (h : RelayInv id redundancy a s) (key : KeyHash) {node : StreamNode}
    (hkey : node.publicKey = key) (hpeers : node.peers.Nodup)
    (hseen : key = a → node.seenCache id = (s.nodes key).seenCache id) :
    RelayInv id redundancy a (s.setNode key node) := by
  have hnode : (s.setNode key node).nodes key = node := Function.update_self ..
  refine h.act key (fun other hother => Function.update_of_ne hother ..)
    (by rw [hnode, hkey]) (by rw [hnode]; exact hpeers) (by simp [Network.setNode])
    (List.append_nil _).symm (List.Subset.refl _) (by simp) fun ha _ _ b hold => ?_
  subst ha
  unfold Within
  rw [hnode, hseen rfl]
  exact hold

theorem RelayInv.eraseIdx (h : RelayInv id redundancy a s) (i : Nat) :
    RelayInv id redundancy a { s with inFlight := s.inFlight.eraseIdx i } :=
  ⟨h.publicKey, h.peers, List.Subset.trans List.eraseIdx_subset h.inFlight, h.within⟩

/-- A copy is handled: its copies are relayed only while there are few. -/
theorem RelayInv.deliverData (h : RelayInv id redundancy a s) {sender receiver : KeyHash}
    {message : DataMessage}
    (htransit : (⟨sender, receiver, .data message⟩ : Transit) ∈ s.sent) (time : Nat)
    (ackHeader : MessageHeader) :
    RelayInv id redundancy a
      (s.deliver signing ⟨sender, receiver, .data message⟩ time ackHeader) := by
  obtain ⟨⟨callbacks, hnode⟩, hwritten⟩ := handleData_spec signing (s.nodes receiver)
    ackHeader ⟨sender, time, message⟩
  have hself : (s.deliver signing ⟨sender, receiver, .data message⟩ time
      ackHeader).nodes receiver = ((s.nodes receiver).handleData signing ackHeader
        ⟨sender, time, message⟩).1 := Function.update_self ..
  have hsender : ∀ transit ∈ ((s.nodes receiver).handleData signing ackHeader
      ⟨sender, time, message⟩).2, transit.sender = receiver := fun transit hmem =>
    (sender_of_writtenFor (hwritten transit hmem).2).trans (h.publicKey receiver)
  refine h.act receiver (fun other hother => Function.update_of_ne hother ..)
    (by rw [hself, hnode]; exact h.publicKey receiver)
    (by rw [hself, hnode]; exact h.peers receiver) (List.Subset.refl _) rfl
    (List.Subset.refl _) (fun ha b => countP_eq_zero_of_sender hsender ha)
    fun ha hseeks _ b hold => ?_
  subst ha
  have hone : ((s.nodes receiver).handleData signing ackHeader
      ⟨sender, time, message⟩).2.countP (Transit.isCopy id receiver b) ≤ 1 :=
    countP_handleData (h.peers receiver)
  have hearly : 0 < ((s.nodes receiver).handleData signing ackHeader
      ⟨sender, time, message⟩).2.countP (Transit.isCopy id receiver b) → _ :=
    early_of_handleData
  have hseen : ((s.deliver signing ⟨sender, receiver, .data message⟩ time
      ackHeader).nodes receiver).seenCache = Function.update (s.nodes receiver).seenCache
        (getMsgId message)
        (some (((s.nodes receiver).seenCache (getMsgId message)).getD 0 + 1)) := by
    rw [hself, hnode]
    rfl
  have hsent : (s.deliver signing ⟨sender, receiver, .data message⟩ time
      ackHeader).copiesSent id receiver b = s.copiesSent id receiver b +
        ((s.nodes receiver).handleData signing ackHeader
          ⟨sender, time, message⟩).2.countP (Transit.isCopy id receiver b) :=
    List.countP_append
  obtain ⟨hcount, hmax⟩ := hold
  generalize ((s.nodes receiver).handleData signing ackHeader
    ⟨sender, time, message⟩).2.countP (Transit.isCopy id receiver b) = new at *
  unfold Within
  rw [hsent, hseen, Function.update_apply]
  by_cases hid : id = getMsgId message
  · rw [if_pos hid, Option.getD_some, ← hid]
    refine ⟨by omega, ?_⟩
    rcases Nat.eq_zero_or_pos new with hzero | hpos
    · omega
    · obtain ⟨-, hfew⟩ := hearly hpos
      simp only [← hid] at hfew
      rcases hfew with hfirst | ⟨hseek, hless⟩
      · omega
      · have hbound := hseeks _ _ _ htransit hid.symm hseek
        omega
  · have hnone : new = 0 := by
      by_contra hne
      exact hid (hearly (Nat.pos_of_ne_zero hne)).1.symm
    rw [if_neg hid, hnone]
    exact ⟨hcount, hmax⟩

theorem RelayInv.deliver (h : RelayInv id redundancy a s) {transit : Transit}
    (htransit : transit ∈ s.sent) (time : Nat) (ackHeader : MessageHeader) :
    RelayInv id redundancy a (s.deliver signing transit time ackHeader) := by
  obtain ⟨sender, receiver, packet⟩ := transit
  cases packet with
  | data message => exact h.deliverData htransit time ackHeader
  | ack ack =>
      obtain ⟨hkeeps, hdata⟩ := keeps_handleAck signing (s.nodes receiver) sender ack time id
      have hself : (s.deliver signing ⟨sender, receiver, .ack ack⟩ time ackHeader).nodes
          receiver = ((s.nodes receiver).handleAck signing sender ack time).1 :=
        Function.update_self ..
      exact h.keeps receiver (by rw [hself]; exact hkeeps)
        (fun other hother => Function.update_of_ne hother ..) (List.Subset.refl _) rfl
        (List.Subset.refl _) fun _ _ _ hmem => absurd hmem (hdata _ _ _)

theorem RelayInv.step (h : RelayInv id redundancy a s) {action : NetworkAction}
    (hguard : Remembers id a s action) (hstep : s.step signing action = some s') :
    RelayInv id redundancy a s' := by
  cases action with
  | addPeer node peer now =>
      simp only [Network.step] at hstep
      split at hstep
      · cases hstep
      · obtain rfl := Option.some.inj hstep
        have hadd : ((s.nodes node).addPeer peer now).publicKey = node ∧
            ((s.nodes node).addPeer peer now).peers.Nodup ∧
            ((s.nodes node).addPeer peer now).seenCache = (s.nodes node).seenCache := by
          unfold StreamNode.addPeer
          split
          · exact ⟨h.publicKey node, h.peers node, rfl⟩
          · rename_i hnew
            exact ⟨h.publicKey node, (List.perm_append_singleton _ _).nodup_iff.mpr
              (List.nodup_cons.mpr ⟨hnew, h.peers node⟩), rfl⟩
        have hset := h.setNode node hadd.1 hadd.2.1 fun _ => congrFun hadd.2.2 id
        exact ⟨hset.publicKey, hset.peers, hset.inFlight, hset.within⟩
  | removePeer node peer =>
      obtain rfl := Option.some.inj hstep
      exact h.setNode node (h.publicKey node) ((h.peers node).filter _) fun _ => rfl
  | onPeerDisconnected node peer =>
      obtain rfl := Option.some.inj hstep
      have hgone : ((s.nodes node).onPeerDisconnected peer).publicKey = node ∧
          ((s.nodes node).onPeerDisconnected peer).peers.Nodup ∧
          ((s.nodes node).onPeerDisconnected peer).seenCache =
            (s.nodes node).seenCache := by
        unfold StreamNode.onPeerDisconnected StreamNode.removePeerFromRoutes
        split
        · split
          · exact ⟨h.publicKey node, (h.peers node).filter _, rfl⟩
          · exact ⟨h.publicKey node, (h.peers node).filter _, rfl⟩
        · exact ⟨h.publicKey node, h.peers node, rfl⟩
      exact h.setNode node hgone.1 hgone.2.1 fun _ => congrFun hgone.2.2 id
  | removePeerFromRoutes node hash =>
      obtain rfl := Option.some.inj hstep
      unfold StreamNode.removePeerFromRoutes
      split
      · exact h.setNode node (h.publicKey node) (h.peers node) fun _ => rfl
      · exact h.setNode node (h.publicKey node) (h.peers node) fun _ => rfl
  | cleanup node now from_ to_ =>
      obtain rfl := Option.some.inj hstep
      exact h.setNode node (h.publicKey node) (h.peers node) fun _ => rfl
  | updateSession node remote session =>
      obtain rfl := Option.some.inj hstep
      exact h.setNode node (h.publicKey node) (h.peers node) fun _ => rfl
  | clear node id =>
      obtain rfl := Option.some.inj hstep
      exact h.setNode node (h.publicKey node) (h.peers node) fun _ => rfl
  | forget node forgotten =>
      obtain rfl := Option.some.inj hstep
      refine h.setNode node (h.publicKey node) (h.peers node) fun ha =>
        Function.update_of_ne (fun hid => hguard ?_) ..
      rw [ha, hid]
  | forgetAck node ack =>
      obtain rfl := Option.some.inj hstep
      exact h.setNode node (h.publicKey node) (h.peers node) fun _ => rfl
  | setPubsub node pubsub =>
      obtain rfl := Option.some.inj hstep
      exact h.setNode node (h.publicKey node) (h.peers node) fun _ => rfl
  | publish node header mode data withTo now =>
      obtain rfl := Option.some.inj hstep
      by_cases hid : header.id.take 31 = id
      · have hstays := stays_publish signing (s.nodes node) header mode data withTo now
        have hsender : ∀ transit ∈ ((s.nodes node).publish signing header mode data withTo
            now).2, transit.sender = node := by
          intro transit hmem
          obtain ⟨stream, -, rfl⟩ := List.mem_map.mp hmem
          exact h.publicKey node
        have hnode : Function.update s.nodes node ((s.nodes node).publish signing header mode
            data withTo now).1 node = _ := Function.update_self ..
        refine h.act node (fun other hother => Function.update_of_ne hother ..)
          ?_ ?_ (List.Subset.refl _) rfl (List.subset_cons_self _ _)
          (fun ha b => countP_eq_zero_of_sender hsender ha) fun ha _ hnot => ?_
        · exact (congrArg (fun n => n.publicKey) hnode).trans
            (hstays.publicKey.trans (h.publicKey node))
        · refine (congrArg (fun n => n.peers) hnode).trans hstays.peers ▸ h.peers node
        · exact absurd (by rw [← ha, ← hid]; exact List.mem_cons_self) hnot
      · obtain ⟨hkeeps, hother⟩ := keeps_publish signing (s.nodes node) hid mode data withTo
          now
        refine h.keeps node ?_ (fun other hother => Function.update_of_ne hother ..)
          (List.Subset.refl _) rfl (List.subset_cons_self _ _) hother
        change Keeps id (s.nodes node) (Function.update s.nodes node _ node)
        rw [Function.update_self]
        exact hkeeps
  | deliver i time ackHeader =>
      obtain ⟨transit, hget, rfl⟩ := Option.map_eq_some_iff.mp hstep
      exact (h.eraseIdx i).deliver (h.inFlight (List.mem_of_getElem? hget)) time ackHeader
  | lose i =>
      obtain rfl := Option.some.inj hstep
      exact h.eraseIdx i

variable {canRelayMessage : KeyHash → Bool}
  {routeSeekInterval routeMaxRetentionPeriod : Int}

/-- A node that has not published a message itself, and does not forget its id, writes it to
a neighbour no more often than it has got it, and once, or as often as the redundancy of the
copies that seek. -/
theorem copiesSent_le_of_run
    (hrun : (machine signing canRelayMessage routeSeekInterval
      routeMaxRetentionPeriod).Run (Remembers id a) s)
    (hseeks : SeeksWithin id redundancy s.sent) (hrelay : (a, id) ∉ s.published) (b : KeyHash) :
    s.copiesSent id a b ≤ ((s.nodes a).seenCache id).getD 0 ∧
      s.copiesSent id a b ≤ max 1 redundancy := by
  have hinit : RelayInv id redundancy a (machine signing canRelayMessage routeSeekInterval
      routeMaxRetentionPeriod).init :=
    ⟨fun _ => rfl, fun _ => List.nodup_nil, List.Subset.refl _, fun _ _ _ =>
      ⟨Nat.zero_le _, Nat.zero_le _⟩⟩
  have hinv : RelayInv id redundancy a s :=
    hrun.invariant hinit fun _ _ _ h hguard hstep => h.step hguard hstep
  exact hinv.within hseeks hrelay b

/-- No node forgets a message. -/
def remembersAll (_ : Network) : NetworkAction → Bool
  | .forget _ _ => false
  | _ => true

/-- `b` relays what `a` seeks. -/
theorem copiesSent_le_of_run_seekThroughB :
    ∃ s, plainMachine.Run (Remembers [1] "b") s ∧ s.copiesSent [1] "b" "c" = 1 ∧
      (s.copiesSent [1] "b" "c" ≤ ((s.nodes "b").seenCache [1]).getD 0 ∧
        s.copiesSent [1] "b" "c" ≤ max 1 1) := by
  have hexec : (plainMachine.execIf remembersAll plainMachine.init (seekThroughB 0)).map (fun s =>
      (s.copiesSent [1] "b" "c", s.published, s.sent.all (fun transit =>
        match transit.packet with
        | .data message => decide (message.mode.redundancy ≤ 1)
        | .ack _ => true))) = some (1, [("a", [1])], true) := by
    decide +kernel
  obtain ⟨s, hexec, hs⟩ := Option.map_eq_some_iff.mp hexec
  rw [Prod.mk.injEq, Prod.mk.injEq] at hs
  obtain ⟨hone, hpublished, hall⟩ := hs
  have hrun : plainMachine.Run (Remembers [1] "b") s :=
    (Machine.Run.of_execIf .init _ hexec).imp fun s action hkeeps => by
      rintro rfl
      cases hkeeps
  refine ⟨s, hrun, hone, copiesSent_le_of_run hrun ?_ (by rw [hpublished]; decide) "c"⟩
  intro sender receiver message hmem _ _
  exact of_decide_eq_true (List.all_eq_true.mp hall _ hmem)

end Network

end Transport
end Peerbit
