import Peerbit.Lib.Trails
import Peerbit.Transport.NetworkHandling

/-!
# Routes in a network are real

The signatures of a copy on its way are a trail: every signer has had a connection to
the next one, the last one has sent the copy, and none has signed twice, for a node
ignores what it has signed.  So an acknowledgement goes back along a trail, from its
target to the origin, and a node that it passes learns a route along the part of the
trail that lies ahead.

Whatever the nodes do, and however messages are delayed and lost, all routes in the
network are of this kind (`routeVia_of_run`), and an acknowledgement is on the way that
the copy came which it is for (`ack_onItsWay_of_run`).
-/

namespace Peerbit
namespace Transport

open Lib (InsertionMap Machine Trail)

/-! ### Routes that are real -/

section Real

variable {Linked Linked' : KeyHash → KeyHash → Prop}

/-- A way from the neighbour to the target that does not come back to the node; a node
that relays has it from another node, which is not on the way either. -/
def RouteVia (Linked : KeyHash → KeyHash → Prop) (me from_ target neighbour : KeyHash) :
    Prop :=
  ∃ way : List KeyHash, way.head? = some neighbour ∧ way.getLast? = some target ∧
    Trail Linked (me :: way) ∧ (from_ ≠ me → Trail Linked (from_ :: me :: way))

theorem RouteVia.imp (himp : ∀ a b, Linked a b → Linked' a b)
    {me from_ target neighbour : KeyHash} (h : RouteVia Linked me from_ target neighbour) :
    RouteVia Linked' me from_ target neighbour := by
  obtain ⟨way, hhead, hlast, htrail, hfrom⟩ := h
  exact ⟨way, hhead, hlast, htrail.imp himp, fun hne => (hfrom hne).imp himp⟩

/-- All routes of a node have a property of source, target and neighbour. -/
def AllRoutes (P : KeyHash → KeyHash → KeyHash → Prop) (r : Routes) : Prop :=
  ∀ from_ target info, r.findNeighbor from_ target = some info →
    ∀ route ∈ info.list, P from_ target route.hash

namespace AllRoutes

variable {P : KeyHash → KeyHash → KeyHash → Prop} {r r' : Routes}

theorem of_thins (h : AllRoutes P r) (hthins : r.Thins r') : AllRoutes P r' := by
  intro from_ target info hinfo route hroute
  obtain ⟨before, hbefore, hsublist, -⟩ := hthins from_ target info hinfo
  exact h from_ target before hbefore route (hsublist.subset hroute)

theorem add (h : AllRoutes P r) {from_ target : KeyHash} {report : RouteReport}
    (hnew : P from_ target report.neighbour) :
    AllRoutes P (r.add from_ target report).2.2 := by
  intro f t info hinfo route hroute
  rw [Routes.findNeighbor_add] at hinfo
  split at hinfo
  · rename_i hpair
    obtain ⟨rfl, rfl⟩ := hpair
    obtain rfl := Option.some.inj hinfo
    have hmem := (RouteReport.mem_map_hash_updateList _ _ _ _ _ route.hash).mp
      (List.mem_map_of_mem hroute)
    rcases hmem with hneighbour | hold
    · rwa [hneighbour, Routes.directed_neighbour]
    · cases hbefore : r.findNeighbor f t with
      | none =>
          rw [hbefore] at hold
          cases hold
      | some before =>
          rw [hbefore, Option.getD_some] at hold
          obtain ⟨old, hmemOld, hhash⟩ := List.mem_map.mp hold
          rw [← hhash]
          exact h f t before hbefore old hmemOld
  · exact h f t info hinfo route hroute

end AllRoutes

/-- What the signatures of a copy, and the trace of an acknowledgement, say of the way
that it is on. -/
def OnItsWay (Linked : KeyHash → KeyHash → Prop) (transit : Transit) : Prop :=
  match transit.packet with
  | .data message =>
      message.mode.isAcknowledged = true →
        Trail Linked message.publicKeys ∧
          message.publicKeys.getLast? = some transit.sender ∧
          Linked transit.sender transit.receiver
  | .ack ack =>
      Trail Linked (ack.trace ++ [ack.signature.publicKey]) ∧
        ∃ before after, ack.trace = before ++ transit.receiver :: after ∧
          (after ++ [ack.signature.publicKey]).head? = some transit.sender

theorem OnItsWay.imp (himp : ∀ a b, Linked a b → Linked' a b) {transit : Transit}
    (h : OnItsWay Linked transit) : OnItsWay Linked' transit := by
  unfold OnItsWay at h ⊢
  split
  · rename_i hpacket
    rw [hpacket] at h
    intro hmode
    obtain ⟨htrail, hlast, hlinked⟩ := h hmode
    exact ⟨htrail.imp himp, hlast, himp _ _ hlinked⟩
  · rename_i hpacket
    rw [hpacket] at h
    exact ⟨h.1.imp himp, h.2⟩

/-- A node that knows itself, its peers and real routes. -/
structure Placed (Linked : KeyHash → KeyHash → Prop) (me : KeyHash) (node : StreamNode) :
    Prop where
  publicKey : node.publicKey = me
  peers : ∀ peer ∈ node.peers, peer ≠ me ∧ Linked me peer
  routes : AllRoutes (RouteVia Linked me) node.routes

namespace Placed

variable {me : KeyHash} {node node' : StreamNode}

theorem imp (himp : ∀ a b, Linked a b → Linked' a b) (h : Placed Linked me node) :
    Placed Linked' me node where
  publicKey := h.publicKey
  peers peer hpeer := ⟨(h.peers peer hpeer).1, himp _ _ (h.peers peer hpeer).2⟩
  routes from_ target info hinfo route hroute :=
    (h.routes from_ target info hinfo route hroute).imp himp

theorem of_onlyCallbacks (h : Placed Linked me node) (hnode : OnlyCallbacks node node') :
    Placed Linked me node' := by
  obtain ⟨callbacks, rfl⟩ := hnode
  exact ⟨h.publicKey, h.peers, h.routes⟩

theorem count (h : Placed Linked me node) (message : DataMessage) :
    Placed Linked me (node.count message) :=
  ⟨h.publicKey, h.peers, h.routes⟩

/-- Routes that are only taken away. -/
theorem of_thins (h : Placed Linked me node) {routes : Routes}
    (hthins : node.routes.Thins routes) : Placed Linked me { node with routes := routes } :=
  ⟨h.publicKey, h.peers, h.routes.of_thins hthins⟩

theorem addRouteConnection (h : Placed Linked me node) {from_ target : KeyHash}
    {report : RouteReport} (hvia : RouteVia Linked me from_ target report.neighbour) :
    Placed Linked me (node.addRouteConnection from_ target report) :=
  ⟨h.publicKey, h.peers, h.routes.add hvia⟩

/-- A neighbour is reached directly. -/
theorem addPeer (h : Placed Linked me node) {peer : KeyHash} (hne : peer ≠ me)
    (hlinked : Linked me peer) (now : Int) : Placed Linked me (node.addPeer peer now) := by
  unfold StreamNode.addPeer
  split
  · exact h
  · refine addRouteConnection ?_ ?_
    · refine ⟨h.publicKey, fun other hother => ?_, ?_⟩
      · rcases List.mem_append.mp hother with hother | hother
        · exact h.peers other hother
        · rw [List.mem_singleton.mp hother]
          exact ⟨hne, hlinked⟩
      · exact h.routes.of_thins (Routes.thins_updateSession _ _)
    · refine ⟨[peer], rfl, rfl, ⟨List.isChain_pair.mpr hlinked, ?_⟩, fun hfrom => ?_⟩
      · simpa using hne.symm
      · exact absurd h.publicKey hfrom

theorem removePeer (h : Placed Linked me node) (peer : KeyHash) :
    Placed Linked me (node.removePeer peer) :=
  ⟨h.publicKey, fun other hother => h.peers other (List.mem_filter.mp hother).1, h.routes⟩

theorem removePeerFromRoutes (h : Placed Linked me node) (hash : KeyHash)
    (deleteIfNeighbour : Bool) :
    Placed Linked me (node.removePeerFromRoutes hash deleteIfNeighbour) := by
  unfold StreamNode.removePeerFromRoutes
  split
  · exact h
  · exact h.of_thins (Routes.thins_remove hash)

theorem onPeerDisconnected (h : Placed Linked me node) (peer : KeyHash) :
    Placed Linked me (node.onPeerDisconnected peer) := by
  unfold StreamNode.onPeerDisconnected
  split
  · exact (h.removePeer peer).removePeerFromRoutes peer true
  · exact h

/-! The messages of a node are on their way, and it learns real routes. -/

variable {signing : Signing} {transit : Transit}

variable (signing) in
theorem publish (h : Placed Linked me node) (header : MessageHeader) (mode : DeliveryMode)
    (data : Option Bytes) (withTo : Option (List KeyHash)) (now : Int) :
    Placed Linked me (node.publish signing header mode data withTo now).1 ∧
      ∀ transit ∈ (node.publish signing header mode data withTo now).2,
        OnItsWay Linked transit := by
  constructor
  · rcases publishMessage_own node node.publicKey
      (node.createMessage signing header mode data now) (node.pickPeers withTo) now with
      hnode | hnode
    · exact h.of_onlyCallbacks hnode
    · exact (h.count _).of_onlyCallbacks hnode
  · intro transit htransit
    obtain ⟨stream, hstream, rfl⟩ := List.mem_map.mp htransit
    have hpick : ∀ tos, node.pickPeers withTo = some tos → tos ⊆ node.peers := by
      intro tos htos peer hpeer
      have hall := (Option.filter_eq_some_iff.mp htos).2
      exact of_decide_eq_true (List.all_eq_true.mp hall peer hpeer)
    have hpeer := publishMessage_subset node _ _ _ hpick false hstream
    have hkeys : (node.createMessage signing header mode data now).publicKeys =
        [node.publicKey] := rfl
    intro _
    rw [hkeys]
    refine ⟨.singleton _, rfl, ?_⟩
    rw [h.publicKey]
    exact (h.peers stream hpeer).2

variable (signing) in
theorem handleData (h : Placed Linked me node) (copy : Copy)
    (hcopy : OnItsWay Linked ⟨copy.sender, me, .data copy.message⟩)
    (ackHeader : MessageHeader) :
    Placed Linked me (node.handleData signing ackHeader copy).1 ∧
      ∀ transit ∈ (node.handleData signing ackHeader copy).2, OnItsWay Linked transit := by
  obtain ⟨hnode, hwritten⟩ := handleData_spec signing node ackHeader copy
  refine ⟨(h.count copy.message).of_onlyCallbacks hnode, fun transit htransit => ?_⟩
  obtain ⟨hnew, hfor⟩ := hwritten transit htransit
  rw [h.publicKey] at hnew
  -- the way so far, and this node
  have hway : copy.message.mode.isAcknowledged = true →
      Trail Linked (copy.message.publicKeys ++ [me]) := by
    intro hmode
    obtain ⟨htrail, hlast, hlinked⟩ := hcopy hmode
    refine htrail.concat (fun x hx => ?_) hnew
    rw [hlast] at hx
    obtain rfl := Option.some.inj hx
    exact hlinked
  rcases hfor with ⟨hmode, seenCounter, hack⟩ | hrelayed
  · unfold StreamNode.acknowledgement at hack
    split at hack
    · cases hack
    · obtain rfl := List.mem_singleton.mp hack
      refine ⟨by rw [h.publicKey]; exact hway hmode, ?_⟩
      obtain ⟨-, hlast, -⟩ := hcopy hmode
      obtain ⟨before, hbefore⟩ := List.getLast?_eq_some_iff.mp hlast
      exact ⟨before, [], hbefore, rfl⟩
  · obtain ⟨message, hpacket, hrelays⟩ := hrelayed.exists_relays
    unfold OnItsWay
    rw [hpacket, hrelayed.sender]
    intro hmode
    rw [hrelays.isAcknowledged] at hmode
    rw [hrelays.publicKeys, relayedKeys, if_pos hmode, h.publicKey]
    exact ⟨hway hmode, List.getLast?_concat, (h.peers _ hrelayed.receiver).2⟩

/-- The peer that comes before this node in the trace. -/
theorem of_nextStream (h : Placed Linked me node) {ack : Ack} {before after : List KeyHash}
    (htrail : Trail Linked (ack.trace ++ [ack.signature.publicKey]))
    (htrace : ack.trace = before ++ me :: after) {next : KeyHash}
    (hnext : node.nextStream ack = some next) : ∃ earlier, before = earlier ++ [next] := by
  have hidx : ack.trace.findIdx? (fun x => x == node.publicKey) = some before.length := by
    rw [h.publicKey]
    have hfirst := htrail.left_of_append
    rw [htrace] at hfirst ⊢
    exact hfirst.findIdx?_eq
  unfold StreamNode.nextStream at hnext
  rw [hidx] at hnext
  have hget := (Option.filter_eq_some_iff.mp hnext).1
  rcases List.eq_nil_or_concat before with rfl | ⟨earlier, last, rfl⟩
  · cases hget
  · rw [List.concat_eq_append] at hget htrace ⊢
    simp only [List.length_append, List.length_singleton] at hget
    rw [htrace, List.append_assoc, List.getElem?_append_right (Nat.le_refl _),
      Nat.sub_self] at hget
    exact ⟨earlier, by rw [Option.some.inj hget]⟩

variable (signing) in
theorem handleAck (h : Placed Linked me node) {sender : KeyHash} {ack : Ack}
    (hack : OnItsWay Linked ⟨sender, me, .ack ack⟩) (time : Nat) :
    Placed Linked me (node.handleAck signing sender ack time).1 ∧
      ∀ transit ∈ (node.handleAck signing sender ack time).2, OnItsWay Linked transit := by
  obtain ⟨htrail, before, after, htrace, hhead⟩ := hack
  have hseen : Placed Linked me { node with seenAcks := ack :: node.seenAcks } :=
    ⟨h.publicKey, h.peers, h.routes⟩
  have hwhole : Trail Linked (before ++ me :: (after ++ [ack.signature.publicKey])) := by
    rw [htrace] at htrail
    simpa using htrail
  unfold StreamNode.handleAck
  split
  · exact ⟨h, by simp⟩
  · simp only
    generalize { node with seenAcks := ack :: node.seenAcks } = seen at hseen
    split
    · constructor
      · unfold StreamNode.ackCallback
        split
        · split
          · refine hseen.addRouteConnection ⟨after ++ [ack.signature.publicKey], hhead,
              List.getLast?_concat, hwhole.right_of_append, fun hfrom => ?_⟩
            cases hnext : seen.nextStream ack with
            | none =>
                rw [hnext, Option.getD_none] at hfrom
                exact absurd hseen.publicKey hfrom
            | some next =>
                obtain ⟨earlier, rfl⟩ := hseen.of_nextStream htrail htrace hnext
                rw [List.append_assoc] at hwhole
                exact hwhole.right_of_append
          · exact hseen
        · exact hseen
      · intro transit htransit
        split at htransit
        · rename_i next hnext
          split at htransit
          · cases htransit
          · obtain rfl := List.mem_singleton.mp htransit
            obtain ⟨earlier, rfl⟩ := hseen.of_nextStream htrail htrace hnext
            refine ⟨htrail, earlier, me :: after, by simp [htrace], ?_⟩
            rw [h.publicKey]
            rfl
        · cases htransit
    · exact ⟨hseen, by simp⟩

end Placed

end Real

/-! ### All runs -/

namespace Network

/-- A node has had a connection to another one. -/
def Linked (s : Network) (a b : KeyHash) : Prop := (a, b) ∈ s.links

structure NetworkInv (s : Network) : Prop where
  nodes : ∀ key, Placed s.Linked key (s.nodes key)
  inFlight : ∀ transit ∈ s.inFlight, OnItsWay s.Linked transit

variable {signing : Signing} {s s' : Network}

/-- A node has changed, and has written something. -/
theorem NetworkInv.act (h : NetworkInv s) {key : KeyHash} {node : StreamNode}
    {written : List Transit} (hnode : Placed s.Linked key node)
    (hwritten : ∀ transit ∈ written, OnItsWay s.Linked transit) :
    NetworkInv ((s.setNode key node).send written) where
  nodes other := by
    change Placed s.Linked other (Function.update s.nodes key node other)
    by_cases hother : other = key
    · rw [hother, Function.update_self]
      exact hnode
    · rw [Function.update_of_ne hother]
      exact h.nodes other
  inFlight transit htransit := by
    rcases List.mem_append.mp htransit with htransit | htransit
    · exact h.inFlight transit htransit
    · exact hwritten transit htransit

theorem NetworkInv.setNode (h : NetworkInv s) {key : KeyHash} {node : StreamNode}
    (hnode : Placed s.Linked key node) : NetworkInv (s.setNode key node) := by
  have hact : NetworkInv ((s.setNode key node).send []) := h.act hnode (by simp)
  exact ⟨hact.nodes, h.inFlight⟩

theorem NetworkInv.eraseIdx (h : NetworkInv s) (i : Nat) :
    NetworkInv { s with inFlight := s.inFlight.eraseIdx i } :=
  ⟨h.nodes, fun transit htransit => h.inFlight transit (List.mem_of_mem_eraseIdx htransit)⟩

theorem NetworkInv.deliver (h : NetworkInv s) {transit : Transit}
    (htransit : OnItsWay s.Linked transit) (time : Nat) (ackHeader : MessageHeader) :
    NetworkInv (s.deliver signing transit time ackHeader) := by
  obtain ⟨sender, receiver, packet⟩ := transit
  cases packet with
  | data message =>
      have hhandled := (h.nodes receiver).handleData signing ⟨sender, time, message⟩
        htransit ackHeader
      have hact := h.act hhandled.1 hhandled.2
      exact ⟨hact.nodes, hact.inFlight⟩
  | ack ack =>
      have hhandled := (h.nodes receiver).handleAck signing htransit time
      exact h.act hhandled.1 hhandled.2

theorem NetworkInv.step (h : NetworkInv s) {action : NetworkAction}
    (hstep : s.step signing action = some s') : NetworkInv s' := by
  cases action with
  | addPeer node peer now =>
      simp only [Network.step] at hstep
      split at hstep
      · cases hstep
      · rename_i hne
        obtain rfl := Option.some.inj hstep
        have hmore : ∀ a b, s.Linked a b → (a, b) ∈ (node, peer) :: s.links :=
          fun a b hab => List.mem_cons_of_mem _ hab
        have hwider : NetworkInv { s with links := (node, peer) :: s.links } :=
          ⟨fun key => (h.nodes key).imp hmore,
            fun transit htransit => (h.inFlight transit htransit).imp hmore⟩
        have hset := hwider.setNode ((hwider.nodes node).addPeer
          (fun heq : peer = node => hne heq.symm) List.mem_cons_self now)
        exact ⟨hset.nodes, hset.inFlight⟩
  | removePeer node peer =>
      obtain rfl := Option.some.inj hstep
      exact h.setNode ((h.nodes node).removePeer peer)
  | onPeerDisconnected node peer =>
      obtain rfl := Option.some.inj hstep
      exact h.setNode ((h.nodes node).onPeerDisconnected peer)
  | removePeerFromRoutes node hash =>
      obtain rfl := Option.some.inj hstep
      exact h.setNode ((h.nodes node).removePeerFromRoutes hash false)
  | cleanup node now from_ to_ =>
      obtain rfl := Option.some.inj hstep
      exact h.setNode ((h.nodes node).of_thins (Routes.thins_cleanup now from_ to_))
  | updateSession node remote session =>
      obtain rfl := Option.some.inj hstep
      exact h.setNode ((h.nodes node).of_thins (Routes.thins_updateSession remote session))
  | clear node id =>
      obtain rfl := Option.some.inj hstep
      exact h.setNode ((h.nodes node).of_onlyCallbacks ⟨_, rfl⟩)
  | forget node id =>
      obtain rfl := Option.some.inj hstep
      have hnode := h.nodes node
      exact h.setNode ⟨hnode.publicKey, hnode.peers, hnode.routes⟩
  | forgetAck node ack =>
      obtain rfl := Option.some.inj hstep
      have hnode := h.nodes node
      exact h.setNode ⟨hnode.publicKey, hnode.peers, hnode.routes⟩
  | setPubsub node pubsub =>
      obtain rfl := Option.some.inj hstep
      have hnode := h.nodes node
      exact h.setNode ⟨hnode.publicKey, hnode.peers, hnode.routes⟩
  | publish node header mode data withTo now =>
      obtain rfl := Option.some.inj hstep
      have hpublished := (h.nodes node).publish signing header mode data withTo now
      have hact := h.act hpublished.1 hpublished.2
      exact ⟨hact.nodes, hact.inFlight⟩
  | deliver i time ackHeader =>
      obtain ⟨transit, hget, rfl⟩ := Option.map_eq_some_iff.mp hstep
      exact (h.eraseIdx i).deliver (h.inFlight transit (List.mem_of_getElem? hget)) time
        ackHeader
  | lose i =>
      obtain rfl := Option.some.inj hstep
      exact h.eraseIdx i

variable {canRelayMessage : KeyHash → Bool}
  {routeSeekInterval routeMaxRetentionPeriod : Int}

theorem networkInv_init : NetworkInv
    (machine signing canRelayMessage routeSeekInterval routeMaxRetentionPeriod).init where
  nodes key :=
    { publicKey := rfl
      peers := fun peer hpeer => by cases hpeer
      routes := fun from_ target info hinfo => by cases hinfo }
  inFlight transit htransit := by cases htransit

theorem networkInv_of_run
    (hrun : (machine signing canRelayMessage routeSeekInterval
      routeMaxRetentionPeriod).Run Machine.Free s) : NetworkInv s :=
  hrun.invariant networkInv_init fun _ _ _ h _ hstep => h.step hstep

/-- All routes in the network are real: one from `from_` to `target` at a node starts a
way over connections that there have been, which comes to no node twice. -/
theorem routeVia_of_run
    (hrun : (machine signing canRelayMessage routeSeekInterval
      routeMaxRetentionPeriod).Run Machine.Free s)
    {me from_ target : KeyHash} {info : RouteInfo} {route : RelayInfo}
    (hinfo : (s.nodes me).routes.findNeighbor from_ target = some info)
    (hroute : route ∈ info.list) : RouteVia s.Linked me from_ target route.hash :=
  ((networkInv_of_run hrun).nodes me).routes from_ target info hinfo route hroute

/-! ### The way that a copy came -/

/-- A copy with this id came along the way: the first node on it has published the id, and
each one has written a copy to the next, signed by those up to itself. -/
structure Came (s : Network) (id : Bytes) (way : List KeyHash) : Prop where
  published : ∃ origin, way.head? = some origin ∧ (origin, id.take 31) ∈ s.published
  sent : ∀ before a b after, way = before ++ a :: b :: after → ∃ message,
    (⟨a, b, .data message⟩ : Transit) ∈ s.sent ∧ message.header.id = id ∧
      message.publicKeys = before ++ [a]

namespace Came

variable {id : Bytes} {way : List KeyHash} {a b : KeyHash} {message : DataMessage}

theorem mono (h : Came s id way) (hsent : s.sent ⊆ s'.sent)
    (hpublished : s.published ⊆ s'.published) : Came s' id way where
  published := by
    obtain ⟨origin, hhead, hmem⟩ := h.published
    exact ⟨origin, hhead, hpublished hmem⟩
  sent before a b after hway := by
    obtain ⟨message, hmem, hmessage⟩ := h.sent before a b after hway
    exact ⟨message, hsent hmem, hmessage⟩

theorem singleton (h : (a, id.take 31) ∈ s.published) : Came s id [a] where
  published := ⟨a, rfl, h⟩
  sent before x y after hway := by
    have hlength := congrArg List.length hway
    simp only [List.length_append, List.length_cons, List.length_nil] at hlength
    omega

/-- The last node writes a copy to another one. -/
theorem concat (h : Came s id (way ++ [a]))
    (hmem : (⟨a, b, .data message⟩ : Transit) ∈ s.sent) (hid : message.header.id = id)
    (hkeys : message.publicKeys = way ++ [a]) : Came s id (way ++ [a] ++ [b]) where
  published := by
    obtain ⟨origin, hhead, hpublished⟩ := h.published
    exact ⟨origin, by rw [List.head?_append, hhead, Option.some_or], hpublished⟩
  sent before x y after hway := by
    rcases List.eq_nil_or_concat after with rfl | ⟨after, last, rfl⟩
    · have hsplit : way ++ [a] ++ [b] = before ++ [x] ++ [y] := by simpa using hway
      obtain ⟨hfront, hb⟩ := List.append_inj' hsplit rfl
      obtain ⟨rfl, ha⟩ := List.append_inj' hfront rfl
      obtain rfl := List.singleton_inj.mp ha
      obtain rfl := List.singleton_inj.mp hb
      exact ⟨message, hmem, hid, hkeys⟩
    · have hsplit : way ++ [a] ++ [b] = (before ++ x :: y :: after) ++ [last] := by
        simpa using hway
      exact h.sent before x y after (List.append_inj' hsplit rfl).1

end Came

/-- The signers of a copy, and the trace of an acknowledgement, are the way that the copy
came. -/
def HasCome (s : Network) (transit : Transit) : Prop :=
  match transit.packet with
  | .data message =>
      message.mode.isAcknowledged = true →
        Came s message.header.id (message.publicKeys ++ [transit.receiver])
  | .ack ack =>
      Came s ack.messageIdToAcknowledge (ack.trace ++ [ack.signature.publicKey])

theorem HasCome.mono {transit : Transit} (h : HasCome s transit) (hsent : s.sent ⊆ s'.sent)
    (hpublished : s.published ⊆ s'.published) : HasCome s' transit := by
  unfold HasCome at h ⊢
  split
  · rename_i hpacket
    rw [hpacket] at h
    exact fun hmode => (h hmode).mono hsent hpublished
  · rename_i hpacket
    rw [hpacket] at h
    exact h.mono hsent hpublished

/-- Why a packet is written in a step. -/
inductive WrittenIn (signing : Signing) (s s' : Network) (transit : Transit) : Prop
  | published (message : DataMessage) (packet : transit.packet = .data message)
      (publicKeys : message.publicKeys = [transit.sender])
      (id : (transit.sender, message.header.id.take 31) ∈ s'.published)
  | handled (copy : Copy) (receiver : KeyHash) (ackHeader : MessageHeader)
      (arrived : ⟨copy.sender, receiver, .data copy.message⟩ ∈ s.inFlight)
      (writtenFor : WrittenFor signing (s.nodes receiver).toDirectStream ackHeader copy
        transit)
  | forwarded (arrived : Transit) (ack : Ack) (hack : arrived.packet = .ack ack)
      (mem : arrived ∈ s.inFlight) (packet : transit.packet = .ack ack)

structure Writes (signing : Signing) (s s' : Network) (written : List Transit) : Prop where
  inFlight : s'.inFlight ⊆ s.inFlight ++ written
  sent : s'.sent = s.sent ++ written
  published : s.published ⊆ s'.published
  writtenIn : ∀ transit ∈ written, WrittenIn signing s s' transit

theorem Writes.nothing (hflight : s'.inFlight ⊆ s.inFlight) (hsent : s'.sent = s.sent)
    (hpublished : s'.published = s.published) : Writes signing s s' [] where
  inFlight := by rwa [List.append_nil]
  sent := by rw [hsent, List.append_nil]
  published := by rw [hpublished]; exact List.Subset.refl _
  writtenIn transit htransit := by cases htransit

theorem packet_of_handleAck {node : StreamNode} {sender : KeyHash} {ack : Ack} {time : Nat}
    {transit : Transit} (h : transit ∈ (node.handleAck signing sender ack time).2) :
    transit.packet = .ack ack := by
  unfold StreamNode.handleAck at h
  split at h
  · cases h
  · simp only at h
    split at h
    · split at h
      · split at h
        · cases h
        · rw [List.mem_singleton.mp h]
      · cases h
    · cases h

theorem writes_deliver {transit : Transit} (hmem : transit ∈ s.inFlight) (i time : Nat)
    (ackHeader : MessageHeader) : ∃ written, Writes signing s
      (deliver signing { s with inFlight := s.inFlight.eraseIdx i } transit time ackHeader)
      written := by
  have hflight (written : List Transit) :
      s.inFlight.eraseIdx i ++ written ⊆ s.inFlight ++ written := fun transit htransit =>
    List.mem_append.mpr
      ((List.mem_append.mp htransit).imp_left fun hmem => List.mem_of_mem_eraseIdx hmem)
  obtain ⟨sender, receiver, packet⟩ := transit
  cases packet with
  | data message =>
      refine ⟨((s.nodes receiver).handleData signing ackHeader ⟨sender, time, message⟩).2,
        hflight _, rfl, List.Subset.refl _, fun transit htransit => ?_⟩
      obtain ⟨-, hfor⟩ := (handleData_spec signing (s.nodes receiver) ackHeader
        ⟨sender, time, message⟩).2 transit htransit
      exact .handled _ receiver ackHeader hmem hfor
  | ack ack =>
      exact ⟨((s.nodes receiver).handleAck signing sender ack time).2, hflight _, rfl,
        List.Subset.refl _, fun transit htransit =>
          .forwarded _ ack rfl hmem (packet_of_handleAck htransit)⟩

theorem writes_of_step (hkeys : ∀ key, (s.nodes key).publicKey = key)
    {action : NetworkAction} (hstep : s.step signing action = some s') :
    ∃ written, Writes signing s s' written := by
  have hquiet (hflight : s'.inFlight ⊆ s.inFlight) (hsent : s'.sent = s.sent)
      (hpublished : s'.published = s.published) : ∃ written, Writes signing s s' written :=
    ⟨[], .nothing hflight hsent hpublished⟩
  cases action with
  | addPeer node peer now =>
      simp only [Network.step] at hstep
      split at hstep
      · cases hstep
      · obtain rfl := Option.some.inj hstep
        exact hquiet (List.Subset.refl _) rfl rfl
  | publish node header mode data withTo now =>
      obtain rfl := Option.some.inj hstep
      refine ⟨((s.nodes node).publish signing header mode data withTo now).2,
        List.Subset.refl _, rfl, List.subset_cons_self .., fun transit htransit => ?_⟩
      obtain ⟨stream, -, rfl⟩ := List.mem_map.mp htransit
      refine .published _ rfl rfl ?_
      rw [hkeys node]
      exact List.mem_cons_self
  | deliver i time ackHeader =>
      obtain ⟨transit, hget, rfl⟩ := Option.map_eq_some_iff.mp hstep
      exact writes_deliver (List.mem_of_getElem? hget) i time ackHeader
  | lose i =>
      obtain rfl := Option.some.inj hstep
      exact hquiet List.eraseIdx_subset rfl rfl
  | removePeer | onPeerDisconnected | removePeerFromRoutes | cleanup | updateSession
  | clear | forget | forgetAck | setPubsub =>
      obtain rfl := Option.some.inj hstep
      exact hquiet (List.Subset.refl _) rfl rfl

structure CameInv (s : Network) : Prop where
  inFlight : s.inFlight ⊆ s.sent
  hasCome : ∀ transit ∈ s.sent, HasCome s transit

/-- What is written for a copy that came continues its way, or goes back along it. -/
theorem hasCome_of_writtenFor {copy : Copy} {receiver : KeyHash} {ackHeader : MessageHeader}
    {transit : Transit} (hkey : (s.nodes receiver).publicKey = receiver)
    (hcopy : HasCome s' ⟨copy.sender, receiver, .data copy.message⟩)
    (hfor : WrittenFor signing (s.nodes receiver).toDirectStream ackHeader copy transit)
    (hsent : transit ∈ s'.sent) : HasCome s' transit := by
  rcases hfor with ⟨hmode, seenCounter, hack⟩ | hrelayed
  · unfold StreamNode.acknowledgement at hack
    split at hack
    · cases hack
    · obtain rfl := List.mem_singleton.mp hack
      change Came s' copy.message.header.id
        (copy.message.publicKeys ++ [(s.nodes receiver).publicKey])
      rw [hkey]
      exact hcopy hmode
  · obtain ⟨message, hpacket, hrelays⟩ := hrelayed.exists_relays
    obtain ⟨sender, next, packet⟩ := transit
    obtain rfl : packet = .data message := hpacket
    obtain rfl : sender = receiver := hrelayed.sender.trans hkey
    intro hmode
    rw [hrelays.isAcknowledged] at hmode
    have hkeys : message.publicKeys = copy.message.publicKeys ++ [sender] := by
      rw [hrelays.publicKeys, relayedKeys, if_pos hmode, hkey]
    rw [hkeys, hrelays.header]
    exact (hcopy hmode).concat hsent (by rw [hrelays.header]) hkeys

theorem CameInv.step (h : CameInv s) (hkeys : ∀ key, (s.nodes key).publicKey = key)
    {action : NetworkAction} (hstep : s.step signing action = some s') : CameInv s' := by
  obtain ⟨written, hwrites⟩ := writes_of_step hkeys hstep
  have hmore : s.sent ⊆ s'.sent := by
    rw [hwrites.sent]
    exact List.subset_append_left _ _
  have hold : ∀ transit ∈ s.sent, HasCome s' transit := fun transit htransit =>
    (h.hasCome transit htransit).mono hmore hwrites.published
  constructor
  · intro transit htransit
    rw [hwrites.sent]
    exact List.mem_append.mpr
      ((List.mem_append.mp (hwrites.inFlight htransit)).imp_left fun hmem => h.inFlight hmem)
  · intro transit htransit
    rw [hwrites.sent] at htransit
    rcases List.mem_append.mp htransit with hmem | hmem
    · exact hold transit hmem
    have hsent : transit ∈ s'.sent := by
      rw [hwrites.sent]
      exact List.mem_append_right _ hmem
    cases hwrites.writtenIn transit hmem with
    | published message hpacket hpublicKeys hid =>
        obtain ⟨sender, receiver, packet⟩ := transit
        obtain rfl : packet = .data message := hpacket
        intro _
        have hfirst : Came s' message.header.id ([] ++ [sender]) := .singleton hid
        rw [hpublicKeys]
        exact hfirst.concat hsent rfl hpublicKeys
    | handled copy receiver ackHeader harrived hfor =>
        exact hasCome_of_writtenFor (hkeys receiver) (hold _ (h.inFlight harrived)) hfor hsent
    | forwarded arrived ack hack harrived hpacket =>
        have hcame := hold arrived (h.inFlight harrived)
        unfold HasCome at hcame ⊢
        rw [hack] at hcame
        rw [hpacket]
        exact hcame

theorem cameInv_of_run
    (hrun : (machine signing canRelayMessage routeSeekInterval
      routeMaxRetentionPeriod).Run Machine.Free s) : CameInv s := by
  induction hrun with
  | init => exact ⟨List.Subset.refl _, fun transit htransit => by cases htransit⟩
  | step hrun _ hstep ih =>
      exact ih.step (fun key => ((networkInv_of_run hrun).nodes key).publicKey) hstep

/-- The trace of an acknowledgement is the way that the copy came which it is for, from
the node that published it to the one that signs the acknowledgement, over connections and
to no node twice; and the acknowledgement is on its way back between two nodes that come
after each other there. -/
theorem ack_onItsWay_of_run
    (hrun : (machine signing canRelayMessage routeSeekInterval
      routeMaxRetentionPeriod).Run Machine.Free s)
    {sender receiver : KeyHash} {ack : Ack}
    (hack : (⟨sender, receiver, .ack ack⟩ : Transit) ∈ s.inFlight) :
    Came s ack.messageIdToAcknowledge (ack.trace ++ [ack.signature.publicKey]) ∧
      Trail s.Linked (ack.trace ++ [ack.signature.publicKey]) ∧
      ∃ before after, ack.trace = before ++ receiver :: after ∧
        (after ++ [ack.signature.publicKey]).head? = some sender := by
  have hcame := cameInv_of_run hrun
  exact ⟨hcame.hasCome _ (hcame.inFlight hack), (networkInv_of_run hrun).inFlight _ hack⟩

/-- A scheme that trusts everyone. -/
def trusting : Signing where
  sign := fun _ _ _ => []
  verify := fun _ _ _ => true
  signAck := fun _ _ _ _ => []
  verifyAck := fun _ => true

def plainHeader (id : Bytes) : MessageHeader where
  id := id
  timestamp := 0
  session := 0
  expires := 9
  priority := none
  origin := none

def plainMachine : Machine Network NetworkAction :=
  machine trusting (fun _ => true) 10 10

/-- `a` seeks `c` through `b`; the acknowledgement has come to `b`, or to `a` as well. -/
def seekThroughB (acks : Nat) : List NetworkAction :=
  [.addPeer "a" "b" 0, .addPeer "b" "a" 0, .addPeer "b" "c" 0, .addPeer "c" "b" 0,
    .publish "a" (plainHeader [1]) (.seek (some ["c"]) 1) (some [7]) none 1,
    .deliver 0 1 (plainHeader [2]), .deliver 0 1 (plainHeader [3])] ++
    List.replicate acks (.deliver 0 2 (plainHeader []))

theorem routeVia_of_run_seekThroughB :
    ∃ s, plainMachine.Run Machine.Free s ∧ RouteVia s.Linked "a" "a" "c" "b" := by
  have hroute : ((plainMachine.exec plainMachine.init (seekThroughB 2)).bind (fun s =>
      (s.nodes "a").routes.findNeighbor "a" "c")).map (fun info =>
        info.list.map RelayInfo.hash) = some ["b"] := by
    decide +kernel
  obtain ⟨info, hinfo, hlist⟩ := Option.map_eq_some_iff.mp hroute
  obtain ⟨s, hexec, hs⟩ := Option.bind_eq_some_iff.mp hinfo
  have hrun := Machine.Run.of_exec .init _ hexec
  have hmem : "b" ∈ info.list.map RelayInfo.hash := by
    rw [hlist]
    exact List.mem_singleton_self _
  obtain ⟨route, hmemRoute, hhash⟩ := List.mem_map.mp hmem
  have hvia := routeVia_of_run hrun hs hmemRoute
  rw [hhash] at hvia
  exact ⟨s, hrun, hvia⟩

/-- The acknowledgement of `c`. -/
def ackOfC : Ack where
  header := plainHeader [3]
  trace := ["a", "b"]
  signature := { publicKey := "c", signature := [] }
  messageIdToAcknowledge := [1]
  seenCounter := 0

theorem ack_onItsWay_of_run_seekThroughB :
    ∃ s, plainMachine.Run Machine.Free s ∧
      Came s [1] (ackOfC.trace ++ ["c"]) ∧ Trail s.Linked (ackOfC.trace ++ ["c"]) ∧
        ∃ before after, ackOfC.trace = before ++ "a" :: after ∧
          (after ++ ["c"]).head? = some "b" := by
  have hflight : (plainMachine.exec plainMachine.init (seekThroughB 1)).map (fun s =>
      s.inFlight) = some [⟨"b", "a", .ack ackOfC⟩] := by
    decide +kernel
  obtain ⟨s, hexec, hs⟩ := Option.map_eq_some_iff.mp hflight
  have hrun := Machine.Run.of_exec .init _ hexec
  have hmem : (⟨"b", "a", .ack ackOfC⟩ : Transit) ∈ s.inFlight := by
    rw [hs]
    exact List.mem_singleton_self _
  exact ⟨s, hrun, ack_onItsWay_of_run hrun hmem⟩

end Network

end Transport
end Peerbit
