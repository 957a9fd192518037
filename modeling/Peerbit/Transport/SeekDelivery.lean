import Peerbit.Lib.Spreading
import Peerbit.Transport.NetworkRoutes

/-!
# A sought node gets the message

A message of mode `SeekDelivery` goes from its origin to all peers, and from every relay
to all peers that have neither sent nor signed the copy.  Since these have had it, the
message spreads: it has reached, or is coming to, every peer of a relay that it has
reached.  A relay takes itself out of the receivers of its copy, and ends where none is
left; that does not happen before the sought node has signed.

So when no copy is on its way any more, a sought node to which relays lead has
dispatched the message, once (`seek_delivers`).
-/

namespace Peerbit
namespace Transport

open Lib (InsertionMap Machine Spreads)

/-- A message that is published once, and one of the nodes that it is for. -/
structure Seek where
  header : MessageHeader
  data : Bytes
  redundancy : Nat
  origin : KeyHash
  target : KeyHash
  /-- The nodes around the origin. -/
  keys : List KeyHash

namespace Seek

variable (signing : Signing) (q : Seek) (s : Network)

/-- What `getMsgId` takes of the header. -/
def id : Bytes := q.header.id.take 31

/-- A node has counted a copy. -/
def Seen (key : KeyHash) : Prop := (s.nodes key).seenCache q.id ≠ none

/-- A copy is on its way to a node. -/
def Coming (key : KeyHash) : Prop :=
  ∃ sender message, (⟨sender, key, .data message⟩ : Transit) ∈ s.inFlight ∧
    getMsgId message = q.id

/-- The copies that a node has dispatched. -/
def dispatchedAt (key : KeyHash) : List Copy :=
  (s.dispatches.filter (fun d =>
    decide (d.1 = key) && decide (getMsgId d.2.message = q.id))).map Prod.snd

/-- A node that relays has another one as a peer. -/
def Next (a b : KeyHash) : Prop :=
  b ∈ (s.nodes a).peers ∧ (a = q.origin ∨ (s.nodes a).canRelayMessage = true)

/-- The receivers that a copy has left. -/
def Wanted (target : KeyHash) (tos : Option (List KeyHash)) : Prop :=
  tos.all (fun tos => decide (target ∈ tos)) = true

/-- A copy as the nodes make it; the sought node is one of its receivers unless it has
signed. -/
structure Sound (signing : Signing) (q : Seek) (Seen : KeyHash → Prop) (sender : KeyHash)
    (message : DataMessage) : Prop where
  header : message.header = q.header
  data : message.data = some q.data
  mode : ∃ tos, message.mode = .seek tos q.redundancy ∧
    (q.target ∉ message.publicKeys → Wanted q.target tos)
  signed : ∃ signatures, message.signatures = some signatures ∧ signatures ≠ [] ∧
    ∀ signature ∈ signatures, signing.verify signature q.header (some q.data) = true
  nodup : message.publicKeys.Nodup
  known : message.publicKeys ⊆ q.keys
  seen : ∀ key ∈ message.publicKeys, Seen key
  sender : Seen sender

/-- The nodes as they are all the time. -/
structure Standing (peers : KeyHash → List KeyHash) (canRelay : KeyHash → Bool)
    (s : Network) : Prop where
  publicKey : ∀ key, (s.nodes key).publicKey = key
  peers : ∀ key, (s.nodes key).peers = peers key
  canRelay : ∀ key, (s.nodes key).canRelayMessage = canRelay key
  pubsub : ∀ key, (s.nodes key).pubsub = none

/-- What does not touch the connections, nor the copies of the message, nor what nodes have
seen of it. -/
def Undisturbed (id : Bytes) (s : Network) : NetworkAction → Prop
  | .addPeer _ _ _ | .removePeer _ _ | .onPeerDisconnected _ _ | .setPubsub _ _ => False
  | .forget _ forgotten => forgotten ≠ id
  | .publish _ header _ _ _ _ => header.id.take 31 ≠ id
  | .deliver i time _ => ∀ sender receiver message,
      s.inFlight[i]? = some ⟨sender, receiver, .data message⟩ → getMsgId message = id →
        time ≤ message.header.expires
  | .lose i => ∀ sender receiver message,
      s.inFlight[i]? = some ⟨sender, receiver, .data message⟩ → getMsgId message ≠ id
  | _ => True

/-- No one has heard of the message. -/
structure Fresh (id : Bytes) (s : Network) : Prop where
  seenCache : ∀ key, (s.nodes key).seenCache id = none
  inFlight : ∀ sender receiver message,
    (⟨sender, receiver, .data message⟩ : Transit) ∈ s.inFlight → getMsgId message ≠ id
  dispatches : ∀ d ∈ s.dispatches, getMsgId d.2.message ≠ id

/-! ### What a node does with a copy -/

section Handling

variable {signing q s} {Reached Reached' : KeyHash → Prop} {sender me : KeyHash}
variable {message message' : DataMessage}

theorem Sound.imp (himp : ∀ key, Reached key → Reached' key)
    (h : Sound signing q Reached sender message) : Sound signing q Reached' sender message :=
  { h with
    seen := fun key hkey => himp key (h.seen key hkey)
    sender := himp sender h.sender }

theorem Sound.getMsgId_eq (h : Sound signing q Reached sender message) :
    getMsgId message = q.id := by
  rw [getMsgId, h.header, id]

/-- The scheme accepts what its nodes have signed. -/
def Accepts (signing : Signing) : Prop :=
  ∀ key header data, signing.verify ⟨key, signing.sign key header data⟩ header data = true

/-- What is relayed of a message that seeks: the signed one, to the receivers that are
left. -/
theorem relayed_seek {tos : Option (List KeyHash)} {redundancy : Nat}
    (hmode : message.mode = .seek tos redundancy) :
    StreamNode.relayed signing me message =
      match tos with
      | none => some (message.sign signing me)
      | some [] => some (message.sign signing me)
      | some tos =>
          if tos.filter (fun x => x ≠ me) = [] then none
          else some { message.sign signing me with
            mode := .seek (some (tos.filter (fun x => x ≠ me))) redundancy } := by
  have hacknowledged : message.mode.isAcknowledged = true := by
    rw [hmode]
    rfl
  have hsigned : (message.sign signing me).mode = .seek tos redundancy := hmode
  unfold StreamNode.relayed
  simp only [hacknowledged, if_true, hsigned]
  cases tos with
  | none => rfl
  | some tos =>
      cases tos with
      | nil => rfl
      | cons to_ tos => rfl

/-- The copy that a relay makes of a sound one. -/
theorem Sound.relayed (hsigning : Accepts signing)
    (h : Sound signing q Reached sender message) (hnew : me ∉ message.publicKeys)
    (hkey : me ∈ q.keys) (hme : Reached me)
    (hrelayed : StreamNode.relayed signing me message = some message') :
    Sound signing q Reached me message' := by
  obtain ⟨tos, hmode, hwanted⟩ := h.mode
  obtain ⟨signatures, hsignatures, -, hverify⟩ := h.signed
  have hacknowledged : message.mode.isAcknowledged = true := by
    rw [hmode]
    rfl
  have hrelays := relays_of_relayed hrelayed
  have hkeys : message'.publicKeys = message.publicKeys ++ [me] := by
    rw [hrelays.publicKeys, relayedKeys, if_pos hacknowledged]
  have hshape : message'.signatures =
        some (signatures ++ [⟨me, signing.sign me message.header message.data⟩]) ∧
      ∃ tos', message'.mode = .seek tos' q.redundancy ∧
        (q.target ≠ me → Wanted q.target tos → Wanted q.target tos') := by
    have hsign : (message.sign signing me).signatures =
        some (signatures ++ [⟨me, signing.sign me message.header message.data⟩]) := by
      simp [DataMessage.sign, hsignatures]
    rw [relayed_seek hmode] at hrelayed
    rcases tos with - | - | ⟨to_, tos⟩
    · obtain rfl := Option.some.inj hrelayed
      exact ⟨hsign, none, hmode, fun _ hold => hold⟩
    · obtain rfl := Option.some.inj hrelayed
      exact ⟨hsign, some [], hmode, fun _ hold => hold⟩
    · simp only at hrelayed
      split at hrelayed
      · cases hrelayed
      · obtain rfl := Option.some.inj hrelayed
        refine ⟨hsign, _, rfl, fun htarget hold => ?_⟩
        simpa [Wanted, htarget] using hold
  obtain ⟨hsigned, tos', hmode', hwanted'⟩ := hshape
  constructor
  case header => exact hrelays.header.trans h.header
  case data => exact hrelays.data.trans h.data
  case mode =>
    refine ⟨tos', hmode', fun htarget => ?_⟩
    rw [hkeys, List.mem_append, List.mem_singleton, not_or] at htarget
    exact hwanted' htarget.2 (hwanted htarget.1)
  case signed =>
    refine ⟨_, hsigned, by simp, fun signature hsignature => ?_⟩
    rcases List.mem_append.mp hsignature with hsignature | hsignature
    · exact hverify signature hsignature
    · rw [List.mem_singleton.mp hsignature, h.header, h.data]
      exact hsigning me _ _
  case nodup =>
    rw [hkeys]
    exact (List.perm_append_singleton _ _).nodup_iff.mpr
      (List.nodup_cons.mpr ⟨hnew, h.nodup⟩)
  case known =>
    rw [hkeys]
    exact List.append_subset.mpr ⟨h.known, by simpa using hkey⟩
  case seen =>
    intro key hmem
    rw [hkeys, List.mem_append, List.mem_singleton] at hmem
    rcases hmem with hmem | rfl
    · exact h.seen key hmem
    · exact hme
  case sender => exact hme

/-- A relay that is not sought relays. -/
theorem Sound.exists_relayed (h : Sound signing q Reached sender message)
    (htarget : q.target ∉ message.publicKeys) (hne : q.target ≠ me) :
    ∃ message', StreamNode.relayed signing me message = some message' := by
  obtain ⟨tos, hmode, hwanted⟩ := h.mode
  rw [relayed_seek hmode]
  rcases tos with - | - | ⟨to_, tos⟩
  · exact ⟨_, rfl⟩
  · exact ⟨_, rfl⟩
  · have hmem : q.target ∈ to_ :: tos := by simpa [Wanted] using hwanted htarget
    have hleft : (to_ :: tos).filter (fun x => x ≠ me) ≠ [] :=
      List.ne_nil_of_mem (List.mem_filter.mpr ⟨hmem, by simpa using hne⟩)
    exact ⟨_, if_neg hleft⟩

/-- A first copy is not ignored, and it verifies. -/
theorem Sound.handled (h : Sound signing q Reached sender message) (node : DirectStream)
    (hred : 1 ≤ q.redundancy) (hnew : node.publicKey ∉ message.publicKeys) {time : Nat}
    (htime : time ≤ q.header.expires) :
    shouldIgnore node message 0 = false ∧ message.verify signing.verify time = true := by
  obtain ⟨tos, hmode, -⟩ := h.mode
  obtain ⟨signatures, hsignatures, hne, hverify⟩ := h.signed
  constructor
  · simp only [shouldIgnore, hmode, Bool.or_eq_false_iff, decide_eq_false_iff_not]
    exact ⟨hnew, by omega⟩
  · simp only [DataMessage.verify, hsignatures, h.header, h.data, Bool.and_eq_true,
      decide_eq_true_eq, Bool.not_eq_true', List.isEmpty_eq_false_iff, List.all_eq_true]
    exact ⟨htime, hne, hverify⟩

theorem mem_maybeAcknowledgeMessage {node : DirectStream} {copy : Copy} {seenBefore : Nat}
    {rest : List Effect} {effect : Effect} (hsigned : copy.message.signatures ≠ none)
    (h : effect ∈ rest) : effect ∈ maybeAcknowledgeMessage node copy seenBefore rest := by
  have hacknowledge : ∀ redundancy,
      effect ∈ acknowledge node copy seenBefore redundancy rest := by
    intro redundancy
    unfold acknowledge
    split
    · split
      · rename_i hnone
        exact absurd hnone hsigned
      · exact List.mem_cons_of_mem _ h
    · exact h
  unfold maybeAcknowledgeMessage
  split
  · exact hacknowledge _
  · exact hacknowledge _
  · exact h

/-- The relay of a first copy is among its effects. -/
theorem Sound.relay_mem_effects {node : StreamNode} {copy : Copy}
    (h : Sound signing q Reached copy.sender copy.message) (hred : 1 ≤ q.redundancy)
    (hplain : node.pubsub = none) (hnew : node.publicKey ∉ copy.message.publicKeys)
    (hfirst : node.seenCache q.id = none) (htime : copy.time ≤ q.header.expires)
    {peer : KeyHash} (hpeer : peer ∈ node.peers)
    (hsigner : peer ∉ copy.message.publicKeys) (hsender : peer ≠ copy.sender) :
    Effect.relay copy.message
        (some (node.peers.filter
          (fun x => x ∉ copy.message.publicKeys ∧ x ≠ copy.sender))) ∈
      node.effects signing copy := by
  obtain ⟨tos, hmode, -⟩ := h.mode
  obtain ⟨signatures, hsignatures, -, -⟩ := h.signed
  obtain ⟨hignore, hverify⟩ := h.handled node.toDirectStream hred hnew htime
  have hseen : (modifySeenCache node.seenCache copy.message).1 = 0 := by
    simp [modifySeenCache, h.getMsgId_eq, hfirst]
  have hforward : Effect.relay copy.message
      (some (node.peers.filter
        (fun x => x ∉ copy.message.publicKeys ∧ x ≠ copy.sender))) ∈
      forward node.toDirectStream copy 0 := by
    have hleft : node.peers.filter
        (fun x => x ∉ copy.message.publicKeys ∧ x ≠ copy.sender) ≠ [] :=
      List.ne_nil_of_mem (List.mem_filter.mpr ⟨hpeer, by simp [hsigner, hsender]⟩)
    have honly : onlyForMe node.toDirectStream copy.message.mode = false := by
      rw [hmode]
      rfl
    unfold forward
    rw [if_neg (by rw [honly]; exact Bool.false_ne_true)]
    simp only [hmode]
    rw [if_pos ⟨hred, hleft⟩]
    exact List.mem_singleton_self _
  unfold StreamNode.effects
  rw [hseen]
  simp only [onDataMessage, hplain, streamOnDataMessage, hignore, hverify,
    Bool.false_eq_true, if_false, if_true]
  split
  · exact mem_maybeAcknowledgeMessage (by rw [hsignatures]; simp)
      (List.mem_append_right _ hforward)
  · exact hforward

variable {node : StreamNode} {copy : Copy} {ackHeader : MessageHeader} {peer : KeyHash}

variable (signing node copy ackHeader) in
/-- What an effect writes is written when the effects are performed one after the other. -/
theorem exists_perform {effects : List Effect} {effect : Effect} (h : effect ∈ effects) :
    ∃ node', OnlyCallbacks node node' ∧
      ∀ transit ∈ (node'.perform signing ackHeader copy effect).2,
        transit ∈ (StreamNode.performAll signing ackHeader copy node effects).2 := by
  induction effects generalizing node with
  | nil => cases h
  | cons first effects ih =>
      rw [StreamNode.performAll]
      rcases List.mem_cons.mp h with rfl | h
      · exact ⟨node, .refl node, fun transit htransit => List.mem_append_left _ htransit⟩
      · obtain ⟨node', hnode', hwritten⟩ :=
          ih (node.perform signing ackHeader copy first).1 h
        exact ⟨node', (onlyCallbacks_perform first).trans hnode', fun transit htransit =>
          List.mem_append_right _ (hwritten transit htransit)⟩

/-- The peers that a relay of a message that seeks writes to. -/
theorem mem_relayMessage {from_ : KeyHash} {tos : List KeyHash} {now : Int}
    (hcan : node.canRelayMessage = true)
    (hrelayed : StreamNode.relayed signing node.publicKey message = some message')
    (hmode : ∃ tos redundancy, message'.mode = .seek tos redundancy)
    (hkeys : message'.publicKeys ≠ []) (hfew : message'.publicKeys.length ≤ MAX_SIGNATURES)
    (hpeer : peer ∈ tos) (hfrom : peer ≠ from_) (hsigner : peer ∉ message'.publicKeys) :
    ⟨node.publicKey, peer, .data message'⟩ ∈
      (node.relayMessage signing from_ message (some tos) now).2 := by
  obtain ⟨receivers, redundancy, hmode⟩ := hmode
  have hstreams : peer ∈ (node.publishMessage from_ message' (some tos) true now).2 := by
    unfold StreamNode.publishMessage
    rw [if_neg (fun h => hkeys h.1)]
    simp only [hmode, DeliveryMode.isSeek, DeliveryMode.isAcknowledge, Bool.not_true,
      Bool.and_false, Bool.false_eq_true, if_false, if_true]
    rw [if_neg (by omega)]
    simp only [StreamNode.chooseStreams, hmode, DeliveryMode.isAcknowledge,
      DeliveryMode.isSilent, Bool.or_self, Bool.false_and, Bool.false_eq_true, if_false,
      Option.getD_some]
    exact List.mem_filter.mpr ⟨hpeer, by simp [hfrom, hsigner]⟩
  have hnode : (node.publishMessage from_ message' (some tos) true now).1.publicKey =
      node.publicKey := by
    obtain ⟨callbacks, hcallbacks⟩ := onlyCallbacks_publishMessage node from_ message'
      (some tos) now
    rw [hcallbacks]
  unfold StreamNode.relayMessage
  rw [if_pos hcan, hrelayed]
  exact List.mem_map.mpr ⟨peer, hstreams, rfl⟩

/-- A relay that is not sought hands a first copy on to all peers that have not had it. -/
theorem Sound.handsOn (hsigning : Accepts signing)
    (h : Sound signing q Reached copy.sender copy.message) (node : StreamNode)
    (ackHeader : MessageHeader) (hred : 1 ≤ q.redundancy)
    (hkeys : q.keys.length ≤ MAX_SIGNATURES) (hkey : node.publicKey ∈ q.keys)
    (hplain : node.pubsub = none) (hcan : node.canRelayMessage = true)
    (hfirst : node.seenCache q.id = none) (hnew : node.publicKey ∉ copy.message.publicKeys)
    (htime : copy.time ≤ q.header.expires) (htarget : q.target ∉ copy.message.publicKeys)
    (hne : q.target ≠ node.publicKey) (hpeer : peer ∈ node.peers)
    (hme : peer ≠ node.publicKey) :
    (peer ∈ copy.message.publicKeys ∨ peer = copy.sender) ∨
      ∃ message', ⟨node.publicKey, peer, .data message'⟩ ∈
          (node.handleData signing ackHeader copy).2 ∧ getMsgId message' = q.id := by
  by_cases hhad : peer ∈ copy.message.publicKeys ∨ peer = copy.sender
  · exact Or.inl hhad
  · rw [not_or] at hhad
    obtain ⟨message', hrelayed⟩ :=
      h.exists_relayed htarget hne
    -- whoever has it already, the copy that goes out is a sound one
    have hsound : Sound signing q (fun _ => True) node.publicKey message' :=
      (h.imp fun _ _ => trivial).relayed hsigning hnew hkey trivial hrelayed
    obtain ⟨signatures, hsignatures, hnonempty, -⟩ := hsound.signed
    have hpublicKeys : message'.publicKeys = copy.message.publicKeys ++ [node.publicKey] := by
      obtain ⟨tos, hmode, -⟩ := h.mode
      rw [(relays_of_relayed hrelayed).publicKeys, relayedKeys, hmode]
      rfl
    have hfew : message'.publicKeys.length ≤ MAX_SIGNATURES :=
      (hsound.nodup.subperm hsound.known).length_le.trans hkeys
    have heffect := h.relay_mem_effects hred hplain hnew hfirst htime hpeer
      hhad.1 hhad.2
    obtain ⟨node', hnode', hwritten⟩ := exists_perform signing (node.count copy.message)
      copy ackHeader heffect
    obtain ⟨callbacks, rfl⟩ := hnode'
    refine Or.inr ⟨message', hwritten _ ?_, hsound.getMsgId_eq⟩
    obtain ⟨tos, hmode, -⟩ := hsound.mode
    refine mem_relayMessage hcan hrelayed ⟨tos, _, hmode⟩ (by simp [hpublicKeys]) hfew
      (List.mem_filter.mpr ⟨hpeer, by simp [hhad.1, hhad.2]⟩) hhad.2 ?_
    rw [hpublicKeys]
    simp [hhad.1, hme]

/-- The sought node dispatches the first copy. -/
theorem Sound.dispatched_first
    (h : Sound signing q Reached copy.sender copy.message) (hred : 1 ≤ q.redundancy)
    (hplain : node.pubsub = none) (hfirst : node.seenCache q.id = none)
    (hnew : node.publicKey ∉ copy.message.publicKeys) (htarget : q.target = node.publicKey)
    (hsender : copy.sender ≠ node.publicKey) (htime : copy.time ≤ q.header.expires) :
    dispatched (node.effects signing copy) = [copy] := by
  obtain ⟨tos, hmode, hwanted⟩ := h.mode
  obtain ⟨hignore, hverify⟩ := h.handled node.toDirectStream hred hnew htime
  have hseen : (modifySeenCache node.seenCache copy.message).1 = 0 := by
    simp [modifySeenCache, h.getMsgId_eq, hfirst]
  have hwants : Wanted node.publicKey tos := by
    rw [htarget] at hwanted
    exact hwanted hnew
  have hforMe : isForMe node.toDirectStream copy = true := by
    simp only [isForMe, hplain, streamIsForMe, hmode, DeliveryMode.receivers]
    simpa [hsender, Wanted] using hwants
  have hdispatches : Dispatches signing.verify node.toDirectStream copy 0 :=
    ⟨rfl, hignore, hforMe, hverify, by rw [h.data]; rfl⟩
  have hsame : isForMe node.toDirectStream copy = streamIsForMe node.toDirectStream copy := by
    simp only [isForMe, hplain]
  unfold StreamNode.effects
  rw [hseen, onDataMessage, hplain]
  exact ((dispatched_streamOnDataMessage hsame).resolve_right fun h => h.1 hdispatches).2

/-- A later copy is not dispatched. -/
theorem dispatched_later (hplain : node.pubsub = none) (counted : Nat)
    (hseen : node.seenCache (getMsgId copy.message) = some (counted + 1)) :
    dispatched (node.effects signing copy) = [] := by
  have hcount : (modifySeenCache node.seenCache copy.message).1 = counted + 1 := by
    simp [modifySeenCache, hseen]
  have hsame : isForMe node.toDirectStream copy = streamIsForMe node.toDirectStream copy := by
    simp only [isForMe, hplain]
  unfold StreamNode.effects
  rw [hcount, onDataMessage, hplain]
  refine ((dispatched_streamOnDataMessage hsame).resolve_left fun h => ?_).2
  exact absurd h.1.first (by omega)

end Handling

/-! ### The invariant -/

/-- The circumstances: the nodes around the origin are few enough for their signatures to
fit, and the sought node is another one. -/
structure Fits (q : Seek) (peers : KeyHash → List KeyHash) : Prop where
  redundancy : 1 ≤ q.redundancy
  target : q.target ≠ q.origin
  few : q.keys.length ≤ MAX_SIGNATURES
  origin : q.origin ∈ q.keys
  closed : ∀ key ∈ q.keys, peers key ⊆ q.keys
  notSelf : ∀ key, key ∉ peers key

/-- The sought node has dispatched one copy, and had not before it saw one. -/
def Delivered (q : Seek) (s : Network) : Prop :=
  (¬ q.Seen s q.target → q.dispatchedAt s q.target = []) ∧
    (q.Seen s q.target → ∃ copy, q.dispatchedAt s q.target = [copy] ∧
      copy.message.header = q.header ∧ copy.message.data = some q.data)

structure SeekInv (signing : Signing) (q : Seek) (peers : KeyHash → List KeyHash)
    (canRelay : KeyHash → Bool) (s : Network) : Prop where
  standing : Standing peers canRelay s
  counted : ∀ key n, (s.nodes key).seenCache q.id = some n → 1 ≤ n
  origin : q.Seen s q.origin
  copies : ∀ sender receiver message,
    (⟨sender, receiver, .data message⟩ : Transit) ∈ s.inFlight → getMsgId message = q.id →
      receiver ∈ q.keys ∧ Sound signing q (q.Seen s) sender message
  spreads : q.Seen s q.target ∨
    Spreads (fun a b => b ∈ peers a ∧ (a = q.origin ∨ canRelay a = true)) (q.Seen s)
      (q.Coming s)
  delivered : q.Delivered s

section Invariant

variable {signing q} {peers : KeyHash → List KeyHash} {canRelay : KeyHash → Bool}
variable {s s' : Network}

/-- Nothing happens to the copies of the message. -/
structure Apart (q : Seek) (s s' : Network) : Prop where
  seenCache : ∀ key, (s'.nodes key).seenCache q.id = (s.nodes key).seenCache q.id
  inFlight : ∀ sender receiver message, getMsgId message = q.id →
    ((⟨sender, receiver, .data message⟩ : Transit) ∈ s'.inFlight ↔
      (⟨sender, receiver, .data message⟩ : Transit) ∈ s.inFlight)
  dispatches : q.dispatchedAt s' q.target = q.dispatchedAt s q.target

theorem Apart.seen (h : q.Apart s s') (key : KeyHash) : q.Seen s' key ↔ q.Seen s key := by
  rw [Seen, Seen, h.seenCache]

theorem SeekInv.of_apart (h : SeekInv signing q peers canRelay s) (hapart : q.Apart s s')
    (hstanding : Standing peers canRelay s') : SeekInv signing q peers canRelay s' := by
  have hseen : q.Seen s' = q.Seen s := funext fun key => propext (hapart.seen key)
  have hcoming : q.Coming s' = q.Coming s := by
    refine funext fun key => propext ⟨?_, ?_⟩
    · rintro ⟨sender, message, hmem, hid⟩
      exact ⟨sender, message, (hapart.inFlight _ _ _ hid).mp hmem, hid⟩
    · rintro ⟨sender, message, hmem, hid⟩
      exact ⟨sender, message, (hapart.inFlight _ _ _ hid).mpr hmem, hid⟩
  constructor
  case standing => exact hstanding
  case counted =>
    intro key n hn
    rw [hapart.seenCache] at hn
    exact h.counted key n hn
  case origin =>
    rw [hseen]
    exact h.origin
  case copies =>
    intro sender receiver message hmem hid
    rw [hseen]
    exact h.copies sender receiver message ((hapart.inFlight _ _ _ hid).mp hmem) hid
  case spreads =>
    rw [hseen, hcoming]
    exact h.spreads
  case delivered =>
    unfold Delivered
    rw [hseen, hapart.dispatches]
    exact h.delivered

theorem Standing.act (h : Standing peers canRelay s) {key : KeyHash} {node' : StreamNode}
    (hkeeps : Stays (s.nodes key) node') :
    Standing peers canRelay (s.setNode key node') := by
  have hnodes : ∀ other, (s.setNode key node').nodes other =
      if other = key then node' else s.nodes other := fun other =>
    Function.update_apply ..
  constructor
  case publicKey =>
    intro other
    rw [hnodes]
    split
    · rename_i heq
      rw [hkeeps.publicKey, h.publicKey, heq]
    · exact h.publicKey other
  case peers =>
    intro other
    rw [hnodes]
    split
    · rename_i heq
      rw [hkeeps.peers, h.peers, heq]
    · exact h.peers other
  case canRelay =>
    intro other
    rw [hnodes]
    split
    · rename_i heq
      rw [hkeeps.canRelayMessage, h.canRelay, heq]
    · exact h.canRelay other
  case pubsub =>
    intro other
    rw [hnodes]
    split
    · rw [hkeeps.pubsub, h.pubsub]
    · exact h.pubsub other

/-- A node has acted that keeps what the message depends on, and writes no copies. -/
theorem apart_act {key : KeyHash} {node' : StreamNode} {written : List Transit}
    (hkeeps : Keeps q.id (s.nodes key) node')
    (hwritten : ∀ sender receiver message,
      (⟨sender, receiver, .data message⟩ : Transit) ∈ written → getMsgId message ≠ q.id) :
    q.Apart s ((s.setNode key node').send written) where
  seenCache other := by
    change (Function.update s.nodes key node' other).seenCache q.id = _
    rw [Function.update_apply]
    split
    · rename_i heq
      rw [hkeeps.seenCache, heq]
    · rfl
  inFlight sender receiver message hid := by
    refine ⟨fun hmem => ?_, fun hmem => List.mem_append_left _ hmem⟩
    rcases List.mem_append.mp hmem with hmem | hmem
    · exact hmem
    · exact absurd hid (hwritten _ _ _ hmem)
  dispatches := rfl

theorem SeekInv.act (h : SeekInv signing q peers canRelay s) {key : KeyHash}
    {node' : StreamNode} {written : List Transit}
    (hkeeps : Keeps q.id (s.nodes key) node')
    (hwritten : ∀ sender receiver message,
      (⟨sender, receiver, .data message⟩ : Transit) ∈ written → getMsgId message ≠ q.id) :
    SeekInv signing q peers canRelay ((s.setNode key node').send written) := by
  have hstanding := h.standing.act hkeeps.toStays
  exact h.of_apart (apart_act hkeeps hwritten)
    ⟨hstanding.publicKey, hstanding.peers, hstanding.canRelay, hstanding.pubsub⟩

theorem SeekInv.setNode (h : SeekInv signing q peers canRelay s) {key : KeyHash}
    {node' : StreamNode} (hkeeps : Keeps q.id (s.nodes key) node') :
    SeekInv signing q peers canRelay (s.setNode key node') := by
  have hact : q.Apart s ((s.setNode key node').send []) := apart_act hkeeps (by simp)
  exact h.of_apart ⟨hact.seenCache, fun _ _ _ _ => Iff.rfl, hact.dispatches⟩
    (h.standing.act hkeeps.toStays)

/-- A packet that is no copy of the message is taken out of flight. -/
theorem SeekInv.eraseIdx (h : SeekInv signing q peers canRelay s) {i : Nat}
    (hother : ∀ sender receiver message,
      s.inFlight[i]? = some ⟨sender, receiver, .data message⟩ → getMsgId message ≠ q.id) :
    SeekInv signing q peers canRelay { s with inFlight := s.inFlight.eraseIdx i } := by
  refine h.of_apart ⟨fun _ => rfl, fun sender receiver message hid => ⟨fun hmem =>
    List.mem_of_mem_eraseIdx hmem, fun hmem => ?_⟩, rfl⟩
    ⟨h.standing.publicKey, h.standing.peers, h.standing.canRelay, h.standing.pubsub⟩
  obtain ⟨j, hj⟩ := List.mem_iff_getElem?.mp hmem
  have hne : j ≠ i := by
    rintro rfl
    exact hother _ _ _ hj hid
  rw [List.mem_eraseIdx_iff_getElem?]
  exact ⟨j, hne, hj⟩

/-! #### Packets that are no copies -/

theorem eq_of_mem_dispatched {node : StreamNode} {copy copy' : Copy}
    (h : copy' ∈ dispatched (node.effects signing copy)) : copy' = copy := by
  obtain ⟨effect, hmem, heffect⟩ := List.mem_filterMap.mp h
  have hof := (effectOf_onDataMessage hmem).2
  cases effect with
  | dispatch c =>
      obtain rfl := Option.some.inj heffect
      exact hof
  | acknowledge to_ seenCounter trace => cases heffect
  | relay message to_ => cases heffect

/-- A copy of another message is handled. -/
theorem SeekInv.deliver_other (h : SeekInv signing q peers canRelay s) {transit : Transit}
    (hother : ∀ message, transit.packet = .data message → getMsgId message ≠ q.id)
    (time : Nat) (ackHeader : MessageHeader) :
    SeekInv signing q peers canRelay (s.deliver signing transit time ackHeader) := by
  obtain ⟨sender, receiver, packet⟩ := transit
  cases packet with
  | data message =>
      have hid := hother message rfl
      have hkeeps := (Keeps.count (s.nodes receiver) hid).of_onlyCallbacks
        (handleData_spec signing (s.nodes receiver) ackHeader ⟨sender, time, message⟩).1
      have hwritten : ∀ from_ to_ message',
          (⟨from_, to_, .data message'⟩ : Transit) ∈ ((s.nodes receiver).handleData signing
            ackHeader ⟨sender, time, message⟩).2 → getMsgId message' ≠ q.id :=
        fun _ _ _ hmem heq => hid ((getMsgId_of_handleData hmem).symm.trans heq)
      have hact := h.act hkeeps hwritten
      refine hact.of_apart ⟨fun _ => rfl, fun _ _ _ _ => Iff.rfl, ?_⟩
        ⟨hact.standing.publicKey, hact.standing.peers, hact.standing.canRelay,
          hact.standing.pubsub⟩
      have hnone : ((dispatched ((s.nodes receiver).effects signing
          ⟨sender, time, message⟩)).map (fun copy => (receiver, copy))).filter
            (fun d => decide (d.1 = q.target) && decide (getMsgId d.2.message = q.id)) =
          [] := by
        rw [List.filter_eq_nil_iff]
        rintro d hd
        obtain ⟨copy, hcopy, rfl⟩ := List.mem_map.mp hd
        rw [eq_of_mem_dispatched hcopy]
        simp [hid]
      simp only [dispatchedAt, Network.deliver, List.filter_append, hnone, List.append_nil]
      rfl
  | ack ack =>
      obtain ⟨hkeeps, hwritten⟩ := keeps_handleAck signing (s.nodes receiver)
        sender ack time q.id
      exact h.act hkeeps fun from_ to_ message hmem => absurd hmem (hwritten _ _ _)

/-! #### Copies of the message -/

/-- The network when a copy has been delivered, seen from the message. -/
structure Received (q : Seek) (s : Network) (i : Nat) (copy : Copy) (receiver : KeyHash)
    (signing : Signing) (ackHeader : MessageHeader) (s' : Network) : Prop where
  inFlight : s'.inFlight = s.inFlight.eraseIdx i ++
    ((s.nodes receiver).handleData signing ackHeader copy).2
  seenCache : ∀ key, (s'.nodes key).seenCache q.id =
    if key = receiver then some (((s.nodes receiver).seenCache q.id).getD 0 + 1)
    else (s.nodes key).seenCache q.id
  dispatches : s'.dispatches = s.dispatches ++
    (dispatched ((s.nodes receiver).effects signing copy)).map (fun copy => (receiver, copy))

theorem received_deliver (i : Nat) {copy : Copy} {receiver : KeyHash}
    (hid : getMsgId copy.message = q.id) (ackHeader : MessageHeader) :
    q.Received s i copy receiver signing ackHeader
      (Network.deliver signing { s with inFlight := s.inFlight.eraseIdx i }
        ⟨copy.sender, receiver, .data copy.message⟩ copy.time ackHeader) where
  inFlight := rfl
  seenCache key := by
    change (Function.update s.nodes receiver _ key).seenCache q.id = _
    rw [Function.update_apply]
    split
    · obtain ⟨callbacks, hnode⟩ :=
        (handleData_spec signing (s.nodes receiver) ackHeader copy).1
      rw [hnode]
      simp [StreamNode.count, modifySeenCache, hid]
    · rfl
  dispatches := rfl

variable {i : Nat} {copy : Copy} {receiver : KeyHash} {ackHeader : MessageHeader}

theorem Received.seen_iff (h : q.Received s i copy receiver signing ackHeader s')
    (key : KeyHash) : q.Seen s' key ↔ q.Seen s key ∨ key = receiver := by
  rw [Seen, Seen, h.seenCache]
  split
  · rename_i heq
    simp [heq]
  · rename_i hne
    simp [hne]

theorem Received.dispatchedAt_eq (h : q.Received s i copy receiver signing ackHeader s')
    (hid : getMsgId copy.message = q.id) (key : KeyHash) :
    q.dispatchedAt s' key = q.dispatchedAt s key ++
      if receiver = key then dispatched ((s.nodes receiver).effects signing copy) else [] := by
  have hall : ∀ copy' ∈ dispatched ((s.nodes receiver).effects signing copy),
      getMsgId copy'.message = q.id := by
    intro copy' hcopy'
    rw [eq_of_mem_dispatched hcopy']
    exact hid
  rw [dispatchedAt, dispatchedAt, h.dispatches, List.filter_append, List.map_append,
    List.append_cancel_left_eq]
  generalize dispatched ((s.nodes receiver).effects signing copy) = copies at hall
  split
  · rename_i heq
    rw [List.filter_eq_self.mpr, List.map_map]
    · exact List.map_id _
    · intro d hd
      obtain ⟨copy', hcopy', rfl⟩ := List.mem_map.mp hd
      simp [heq, hall copy' hcopy']
  · rename_i hne
    rw [List.filter_eq_nil_iff.mpr, List.map_nil]
    intro d hd
    obtain ⟨copy', -, rfl⟩ := List.mem_map.mp hd
    simp [hne]

/-- A copy is on its way to those to whom one was, or it has been received. -/
theorem Received.coming (h : q.Received s i copy receiver signing ackHeader s')
    (hget : s.inFlight[i]? = some ⟨copy.sender, receiver, .data copy.message⟩)
    {key : KeyHash} (hcoming : q.Coming s key) : q.Seen s' key ∨ q.Coming s' key := by
  obtain ⟨sender, message, hmem, hid⟩ := hcoming
  obtain ⟨j, hj⟩ := List.mem_iff_getElem?.mp hmem
  by_cases hij : j = i
  · rw [hij, hget] at hj
    cases hj
    exact Or.inl ((h.seen_iff _).mpr (Or.inr rfl))
  · refine Or.inr ⟨sender, message, ?_, hid⟩
    rw [h.inFlight]
    exact List.mem_append_left _ (List.mem_eraseIdx_iff_getElem?.mpr ⟨j, hij, hj⟩)

/-- The copies that are in flight then are sound. -/
theorem Received.copies (h : q.Received s i copy receiver signing ackHeader s')
    (hsigning : Accepts signing) (hfits : Fits q peers)
    (hinv : SeekInv signing q peers canRelay s)
    (hget : s.inFlight[i]? = some ⟨copy.sender, receiver, .data copy.message⟩)
    (hid : getMsgId copy.message = q.id) (sender to_ : KeyHash) (message : DataMessage)
    (hmem : (⟨sender, to_, .data message⟩ : Transit) ∈ s'.inFlight)
    (hmsg : getMsgId message = q.id) :
    to_ ∈ q.keys ∧ Sound signing q (q.Seen s') sender message := by
  have hlater : ∀ key, q.Seen s key → q.Seen s' key :=
    fun key hkey => (h.seen_iff key).mpr (Or.inl hkey)
  obtain ⟨hkey, hsound⟩ := hinv.copies _ _ _ (List.mem_of_getElem? hget) hid
  rw [h.inFlight] at hmem
  rcases List.mem_append.mp hmem with hmem | hmem
  · obtain ⟨hto, hold⟩ := hinv.copies _ _ _ (List.mem_of_mem_eraseIdx hmem) hmsg
    exact ⟨hto, hold.imp hlater⟩
  · obtain ⟨hnew, hfor⟩ := (handleData_spec signing _ ackHeader copy).2 _ hmem
    have hrelayed := relayed_of_writtenFor hfor
    obtain ⟨source, message', -, hplain, hmade, hpacket⟩ := hrelayed.packet
    obtain rfl := hplain (hinv.standing.pubsub receiver)
    cases hpacket
    have hsender : sender = receiver :=
      hrelayed.sender.trans (hinv.standing.publicKey receiver)
    have hreceiver := hrelayed.receiver
    rw [hinv.standing.publicKey] at hnew hmade
    rw [hinv.standing.peers] at hreceiver
    refine ⟨hfits.closed receiver hkey hreceiver, ?_⟩
    rw [hsender]
    exact (hsound.imp hlater).relayed hsigning hnew hkey
      ((h.seen_iff receiver).mpr (Or.inr rfl)) hmade

theorem SeekInv.receive (hsigning : Accepts signing) (hfits : Fits q peers)
    (hinv : SeekInv signing q peers canRelay s) (copy : Copy)
    (hget : s.inFlight[i]? = some ⟨copy.sender, receiver, .data copy.message⟩)
    (hid : getMsgId copy.message = q.id) (htime : copy.time ≤ q.header.expires)
    (h : q.Received s i copy receiver signing ackHeader s')
    (hstanding : Standing peers canRelay s') : SeekInv signing q peers canRelay s' := by
  have hlater : ∀ key, q.Seen s key → q.Seen s' key :=
    fun key hkey => (h.seen_iff key).mpr (Or.inl hkey)
  obtain ⟨hkey, hsound⟩ := hinv.copies _ _ _ (List.mem_of_getElem? hget) hid
  have hme : (s.nodes receiver).publicKey = receiver := hinv.standing.publicKey receiver
  have hplain := hinv.standing.pubsub receiver
  -- a node that has not seen the message has not signed it
  have hunsigned : ∀ key, ¬ q.Seen s key → key ∉ copy.message.publicKeys :=
    fun key hnot hmem => hnot (hsound.seen key hmem)
  constructor
  case standing => exact hstanding
  case counted =>
    intro key n hn
    rw [h.seenCache] at hn
    split at hn
    · have heq := Option.some.inj hn
      omega
    · exact hinv.counted key n hn
  case origin => exact hlater _ hinv.origin
  case copies => exact h.copies hsigning hfits hinv hget hid
  case spreads =>
    by_cases htarget : q.Seen s' q.target
    · exact Or.inl htarget
    · rw [h.seen_iff, not_or] at htarget
      refine Or.inr ((hinv.spreads.resolve_left htarget.1).arrive h.seen_iff
        (fun key hcoming => h.coming hget hcoming) fun hfirst peer hpeer => ?_)
      have hne : receiver ≠ q.origin := by
        rintro rfl
        exact hfirst hinv.origin
      have hcan := (hpeer.2.resolve_left hne)
      rcases hsound.handsOn hsigning (s.nodes receiver) ackHeader hfits.redundancy hfits.few
        (by rwa [hme]) hplain (by rwa [hinv.standing.canRelay]) (not_not.mp hfirst)
        (by rw [hme]; exact hunsigned _ hfirst) htime (hunsigned _ htarget.1)
        (by rw [hme]; exact htarget.2) (by rw [hinv.standing.peers]; exact hpeer.1)
        (by rw [hme]; rintro rfl; exact hfits.notSelf _ hpeer.1) with
        (hmem | rfl) | ⟨message', hmem, hmsg⟩
      · exact Or.inl (hlater _ (hsound.seen peer hmem))
      · exact Or.inl (hlater _ hsound.sender)
      · refine Or.inr ⟨(s.nodes receiver).publicKey, message', ?_, hmsg⟩
        rw [h.inFlight]
        exact List.mem_append_right _ hmem
  case delivered =>
    obtain ⟨hbefore, hafter⟩ := hinv.delivered
    unfold Delivered
    rw [h.seen_iff, h.dispatchedAt_eq hid]
    by_cases hreceiver : receiver = q.target
    · rw [if_pos hreceiver]
      refine ⟨fun hnot => absurd (Or.inr hreceiver.symm) hnot, fun _ => ?_⟩
      by_cases hseen : q.Seen s q.target
      · obtain ⟨counted, hcounted⟩ := Option.ne_none_iff_exists'.mp hseen
        have hone := hinv.counted _ _ hcounted
        obtain ⟨n, rfl⟩ : ∃ n, counted = n + 1 := ⟨counted - 1, by omega⟩
        rw [dispatched_later hplain n (by rw [hid, hreceiver]; exact hcounted),
          List.append_nil]
        exact hafter hseen
      · rw [hbefore hseen, List.nil_append, hsound.dispatched_first hfits.redundancy hplain
          (by rw [hreceiver]; exact not_not.mp hseen)
          (by rw [hme, hreceiver]; exact hunsigned _ hseen) (by rw [hme, hreceiver])
          (by rw [hme, hreceiver]; rintro heq; exact hseen (heq ▸ hsound.sender)) htime]
        exact ⟨copy, rfl, hsound.header, hsound.data⟩
    · rw [if_neg hreceiver, List.append_nil]
      exact ⟨fun hnot => hbefore fun hseen => hnot (Or.inl hseen),
        fun hseen => hafter (hseen.resolve_right fun heq => hreceiver heq.symm)⟩

/-! ### Steps -/

theorem SeekInv.deliver (hsigning : Accepts signing) (hfits : Fits q peers)
    (h : SeekInv signing q peers canRelay s) {i time : Nat} {transit : Transit}
    (hget : s.inFlight[i]? = some transit) (ackHeader : MessageHeader)
    (htime : ∀ message, transit.packet = .data message → getMsgId message = q.id →
      time ≤ message.header.expires) :
    SeekInv signing q peers canRelay
      (Network.deliver signing { s with inFlight := s.inFlight.eraseIdx i } transit time
        ackHeader) := by
  by_cases hcopy : ∃ message, transit.packet = .data message ∧ getMsgId message = q.id
  · obtain ⟨message, hpacket, hid⟩ := hcopy
    obtain ⟨sender, receiver, packet⟩ := transit
    obtain rfl := hpacket
    obtain ⟨-, hsound⟩ := h.copies _ _ _ (List.mem_of_getElem? hget) hid
    have hlive := htime message rfl hid
    rw [hsound.header] at hlive
    have hnode := (Stays.count (s.nodes receiver) message).of_onlyCallbacks
      (handleData_spec signing (s.nodes receiver) ackHeader ⟨sender, time, message⟩).1
    have hstanding := h.standing.act hnode
    exact h.receive hsigning hfits ⟨sender, time, message⟩ hget hid hlive
      (received_deliver i hid ackHeader)
      ⟨hstanding.publicKey, hstanding.peers, hstanding.canRelay, hstanding.pubsub⟩
  · have hother : ∀ message, transit.packet = .data message → getMsgId message ≠ q.id :=
      fun message hpacket hid => hcopy ⟨message, hpacket, hid⟩
    refine (h.eraseIdx fun sender receiver message hi => ?_).deliver_other hother time
      ackHeader
    rw [hget] at hi
    obtain rfl := Option.some.inj hi
    exact hother message rfl

theorem SeekInv.step (hsigning : Accepts signing) (hfits : Fits q peers)
    (h : SeekInv signing q peers canRelay s) {action : NetworkAction}
    (hguard : Undisturbed q.id s action) (hstep : s.step signing action = some s') :
    SeekInv signing q peers canRelay s' := by
  cases action with
  | addPeer node peer now => exact hguard.elim
  | removePeer node peer => exact hguard.elim
  | onPeerDisconnected node peer => exact hguard.elim
  | setPubsub node pubsub => exact hguard.elim
  | removePeerFromRoutes node hash =>
      obtain rfl := Option.some.inj hstep
      refine h.setNode ?_
      unfold StreamNode.removePeerFromRoutes
      split
      · exact .refl _ _
      · exact ⟨⟨rfl, rfl, rfl, rfl⟩, rfl⟩
  | cleanup node now from_ to_ =>
      obtain rfl := Option.some.inj hstep
      exact h.setNode ⟨⟨rfl, rfl, rfl, rfl⟩, rfl⟩
  | updateSession node remote session =>
      obtain rfl := Option.some.inj hstep
      exact h.setNode ⟨⟨rfl, rfl, rfl, rfl⟩, rfl⟩
  | clear node id =>
      obtain rfl := Option.some.inj hstep
      exact h.setNode ⟨⟨rfl, rfl, rfl, rfl⟩, rfl⟩
  | forget node forgotten =>
      obtain rfl := Option.some.inj hstep
      exact h.setNode ⟨⟨rfl, rfl, rfl, rfl⟩, Function.update_of_ne (Ne.symm hguard) ..⟩
  | forgetAck node ack =>
      obtain rfl := Option.some.inj hstep
      exact h.setNode ⟨⟨rfl, rfl, rfl, rfl⟩, rfl⟩
  | publish node header mode data withTo now =>
      obtain rfl := Option.some.inj hstep
      obtain ⟨hkeeps, hwritten⟩ := keeps_publish signing (s.nodes node) hguard mode data
        withTo now
      have hact := h.act hkeeps hwritten
      exact hact.of_apart ⟨fun _ => rfl, fun _ _ _ _ => Iff.rfl, rfl⟩
        ⟨hact.standing.publicKey, hact.standing.peers, hact.standing.canRelay,
          hact.standing.pubsub⟩
  | deliver i time ackHeader =>
      obtain ⟨transit, hget, rfl⟩ := Option.map_eq_some_iff.mp hstep
      refine h.deliver hsigning hfits hget ackHeader fun message hpacket hid => ?_
      obtain ⟨sender, receiver, packet⟩ := transit
      obtain rfl := hpacket
      exact hguard sender receiver message hget hid
  | lose i =>
      obtain rfl := Option.some.inj hstep
      exact h.eraseIdx hguard

/-! ### The start -/

variable (signing) in
/-- The message that the origin makes. -/
theorem createMessage_seek (node : StreamNode) (header : MessageHeader)
    (tos : Option (List KeyHash)) (redundancy : Nat) (data : Option Bytes) (now : Int) :
    ∃ tos', (node.createMessage signing header (.seek tos redundancy) data now).mode =
        .seek tos' redundancy ∧
      ∀ target, target ≠ node.publicKey → Wanted target tos → Wanted target tos' := by
  cases tos with
  | none => exact ⟨none, rfl, fun _ _ hwanted => hwanted⟩
  | some tos =>
      refine ⟨some (tos.filter (fun x => x ≠ node.publicKey)), rfl,
        fun target hne hwanted => ?_⟩
      simpa [Wanted, hne] using hwanted

variable (signing) in
/-- The origin writes it to all peers. -/
theorem publish_seek {node : StreamNode} (hself : node.publicKey ∉ node.peers)
    (header : MessageHeader) (tos : Option (List KeyHash)) (redundancy : Nat)
    (data : Option Bytes) (withTo : Option (List KeyHash)) (now : Int) :
    OnlyCallbacks
        (node.count (node.createMessage signing header (.seek tos redundancy) data now))
        (node.publish signing header (.seek tos redundancy) data withTo now).1 ∧
      (node.publish signing header (.seek tos redundancy) data withTo now).2 =
        node.write (node.createMessage signing header (.seek tos redundancy) data now)
          node.peers := by
  obtain ⟨tos', hmode, -⟩ := createMessage_seek signing node header tos redundancy
    data now
  have hkeys : (node.createMessage signing header (.seek tos redundancy) data
      now).publicKeys = [node.publicKey] := rfl
  unfold StreamNode.publish
  generalize node.createMessage signing header (.seek tos redundancy) data now = message
    at hmode hkeys
  obtain ⟨callbacks, hpromise⟩ := onlyCallbacks_createDeliveryPromise node node.publicKey
    message now
  have hall : StreamNode.flood node.publicKey message node.peers = node.peers := by
    refine List.filter_eq_self.mpr fun peer hpeer => ?_
    have hne : peer ≠ node.publicKey := fun heq => hself (heq ▸ hpeer)
    simp [hkeys, hne]
  have hpublished : node.publishMessage node.publicKey message (node.pickPeers withTo)
      false now = ({ node.count message with _ackCallbacks := callbacks }, node.peers) := by
    unfold StreamNode.publishMessage
    rw [if_neg (by simp [hkeys]), hkeys, if_neg (by simp [MAX_SIGNATURES])]
    simp only [hmode, DeliveryMode.isSeek, DeliveryMode.isAcknowledge,
      DeliveryMode.isAcknowledged, Bool.not_false, Bool.and_self, Bool.true_or, if_true,
      Bool.false_eq_true, if_false, hpromise]
    refine Prod.ext rfl ?_
    simp only [StreamNode.chooseStreams, hmode, DeliveryMode.isAcknowledge,
      DeliveryMode.isSilent, Bool.or_self, Bool.false_and, Bool.false_eq_true, if_false,
      Option.getD_some]
    exact hall
  simp only [hpublished, and_true]
  exact ⟨callbacks, rfl⟩

/-- The copies that the origin writes are sound. -/
theorem sound_createMessage {Reached : KeyHash → Prop} (hsigning : Accepts signing)
    {node : StreamNode} (hme : node.publicKey = q.origin) (hkey : q.origin ∈ q.keys)
    (htarget : q.target ≠ q.origin) {tos : Option (List KeyHash)}
    (hwanted : Wanted q.target tos) (hreached : Reached q.origin) (now : Int) :
    Sound signing q Reached q.origin (node.createMessage signing q.header
      (.seek tos q.redundancy) (some q.data) now) := by
  obtain ⟨tos', hmode, hwanted'⟩ := createMessage_seek signing node q.header tos
    q.redundancy (some q.data) now
  have hkeys : (node.createMessage signing q.header (.seek tos q.redundancy) (some q.data)
      now).publicKeys = [q.origin] := by
    rw [← hme]
    rfl
  constructor
  case header => rfl
  case data => rfl
  case mode => exact ⟨tos', hmode, fun _ => hwanted' q.target (by rwa [hme]) hwanted⟩
  case signed =>
    refine ⟨[⟨node.publicKey, signing.sign node.publicKey q.header (some q.data)⟩], rfl,
      by simp, fun signature hsignature => ?_⟩
    rw [List.mem_singleton.mp hsignature]
    exact hsigning _ _ _
  case nodup =>
    rw [hkeys]
    exact List.nodup_singleton _
  case known =>
    rw [hkeys]
    simpa using hkey
  case seen =>
    intro key hmem
    rw [hkeys] at hmem
    rwa [List.mem_singleton.mp hmem]
  case sender => exact hreached

theorem seekInv_start (hsigning : Accepts signing) (hfits : Fits q peers)
    (hstanding : Standing peers canRelay s) (hfresh : Fresh q.id s)
    {tos : Option (List KeyHash)} (hwanted : Wanted q.target tos)
    {withTo : Option (List KeyHash)} {now : Int}
    (hpublish : s.step signing (.publish q.origin q.header (.seek tos q.redundancy)
      (some q.data) withTo now) = some s') : SeekInv signing q peers canRelay s' := by
  have hme : (s.nodes q.origin).publicKey = q.origin := hstanding.publicKey q.origin
  have hpeers := hstanding.peers q.origin
  obtain ⟨hnode, hwritten⟩ := publish_seek signing
    (by rw [hme, hpeers]; exact hfits.notSelf q.origin) q.header tos q.redundancy
    (some q.data) withTo now
  obtain rfl := Option.some.inj hpublish
  have hkept := hstanding.act ((Stays.count _ _).of_onlyCallbacks hnode)
  have hseenCache : ∀ key, (Function.update s.nodes q.origin ((s.nodes q.origin).publish
      signing q.header (.seek tos q.redundancy) (some q.data) withTo now).1 key).seenCache
        q.id = if key = q.origin then some 1 else none := by
    intro key
    rw [Function.update_apply]
    split
    · obtain ⟨callbacks, hcallbacks⟩ := hnode
      rw [hcallbacks]
      have hid : getMsgId ((s.nodes q.origin).createMessage signing q.header
        (.seek tos q.redundancy) (some q.data) now) = q.id := rfl
      simp [StreamNode.count, modifySeenCache, hid, hfresh.seenCache]
    · exact hfresh.seenCache key
  have hseen : ∀ key, q.Seen (((s.setNode q.origin ((s.nodes q.origin).publish signing
      q.header (.seek tos q.redundancy) (some q.data) withTo now).1))) key ↔
        key = q.origin := by
    intro key
    rw [Seen]
    change (Function.update s.nodes q.origin _ key).seenCache q.id ≠ none ↔ _
    rw [hseenCache]
    split
    · rename_i heq
      simp [heq]
    · rename_i hne
      simp [hne]
  constructor
  case standing => exact ⟨hkept.publicKey, hkept.peers, hkept.canRelay, hkept.pubsub⟩
  case counted =>
    intro key n hn
    have hcount := (hseenCache key).symm.trans hn
    split at hcount
    · exact (Option.some.inj hcount).le
    · cases hcount
  case origin => exact (hseen q.origin).mpr rfl
  case copies =>
    intro sender receiver message hmem hid
    rcases List.mem_append.mp hmem with hmem | hmem
    · exact absurd hid (hfresh.inFlight _ _ _ hmem)
    · rw [hwritten] at hmem
      obtain ⟨peer, hpeer, heq⟩ := List.mem_map.mp hmem
      cases heq
      rw [hpeers] at hpeer
      refine ⟨hfits.closed _ hfits.origin hpeer, ?_⟩
      rw [hme]
      exact sound_createMessage hsigning hme hfits.origin hfits.target hwanted
        ((hseen q.origin).mpr rfl) now
  case spreads =>
    refine Or.inr fun a ha b hab => Or.inr ?_
    obtain rfl := (hseen a).mp ha
    refine ⟨(s.nodes q.origin).publicKey, (s.nodes q.origin).createMessage signing q.header
      (.seek tos q.redundancy) (some q.data) now, List.mem_append_right _ ?_, rfl⟩
    rw [hwritten]
    exact List.mem_map.mpr ⟨b, by rw [hpeers]; exact hab.1, rfl⟩
  case delivered =>
    have hnone : q.dispatchedAt s q.target = [] := by
      rw [dispatchedAt, List.filter_eq_nil_iff.mpr, List.map_nil]
      intro d hd
      simp [hfresh.dispatches d hd]
    exact ⟨fun _ => hnone, fun htarget => absurd ((hseen _).mp htarget) hfits.target⟩

/-! ### All runs -/

variable {canRelayMessage : KeyHash → Bool}
  {routeSeekInterval routeMaxRetentionPeriod : Int} {s₀ s₁ s₂ : Network}

/-- A message that seeks is published in a network where no one uses the topics, and no
peers come or go from then on, none of its copies is lost or expires, and no node forgets
its id.  When no copy is in flight any more, a sought node that relays lead to has
dispatched the message, and has done so once. -/
theorem seek_delivers (hsigning : Accepts signing)
    (hrun : (Network.machine signing canRelayMessage routeSeekInterval
      routeMaxRetentionPeriod).Run Machine.Free s₀)
    (hplain : ∀ key, (s₀.nodes key).pubsub = none) (hfresh : Fresh q.id s₀)
    (horigin : q.origin ∈ q.keys) (hclosed : ∀ key ∈ q.keys, (s₀.nodes key).peers ⊆ q.keys)
    (hfew : q.keys.length ≤ MAX_SIGNATURES) (hred : 1 ≤ q.redundancy)
    {tos withTo : Option (List KeyHash)} {now : Int} (hwanted : Wanted q.target tos)
    (hne : q.target ≠ q.origin)
    (hpath : Relation.ReflTransGen (q.Next s₀) q.origin q.target)
    (hpublish : s₀.step signing (.publish q.origin q.header (.seek tos q.redundancy)
      (some q.data) withTo now) = some s₁)
    (hlater : ((Network.machine signing canRelayMessage routeSeekInterval
      routeMaxRetentionPeriod).startingAt s₁).Run (Undisturbed q.id) s₂)
    (hstill : ∀ key, ¬ q.Coming s₂ key) :
    ∃ copy, q.dispatchedAt s₂ q.target = [copy] ∧ copy.message.header = q.header ∧
      copy.message.data = some q.data := by
  have hplaced := (Network.networkInv_of_run hrun).nodes
  have hfits : Fits q (fun key => (s₀.nodes key).peers) :=
    { redundancy := hred
      target := hne
      few := hfew
      origin := horigin
      closed := hclosed
      notSelf := fun key hself => ((hplaced key).peers key hself).1 rfl }
  have hstanding : Standing (fun key => (s₀.nodes key).peers)
      (fun key => (s₀.nodes key).canRelayMessage) s₀ :=
    ⟨fun key => (hplaced key).publicKey, fun _ => rfl, fun _ => rfl, hplain⟩
  have hinv : SeekInv signing q (fun key => (s₀.nodes key).peers)
      (fun key => (s₀.nodes key).canRelayMessage) s₂ :=
    hlater.invariant (seekInv_start hsigning hfits hstanding hfresh hwanted hpublish)
      fun _ _ _ h hguard hstep => h.step hsigning hfits hguard hstep
  refine hinv.delivered.2 ?_
  rcases hinv.spreads with htarget | hspreads
  · exact htarget
  · exact hspreads.reached hstill hinv.origin hpath

end Invariant

/-! ### An example -/

/-- Connections only leave the network fresh. -/
theorem fresh_of_connected {signing : Signing} {canRelayMessage : KeyHash → Bool}
    {routeSeekInterval routeMaxRetentionPeriod : Int} {s : Network}
    (hrun : (Network.machine signing canRelayMessage routeSeekInterval
      routeMaxRetentionPeriod).Run
        (fun _ a => ∃ node peer now, a = NetworkAction.addPeer node peer now) s)
    (id : Bytes) : (∀ key, (s.nodes key).pubsub = none) ∧ Fresh id s := by
  have hquiet : (∀ key, (s.nodes key).pubsub = none ∧ (s.nodes key).seenCache id = none) ∧
      s.inFlight = [] ∧ s.dispatches = [] := by
    induction hrun with
    | init => exact ⟨fun _ => ⟨rfl, rfl⟩, rfl, rfl⟩
    | @step s s' a _ hguard hstep ih =>
        obtain ⟨hnodes, hflight, hdispatches⟩ := ih
        obtain ⟨node, peer, now, rfl⟩ := hguard
        simp only [Network.machine, Network.step] at hstep
        split at hstep
        · cases hstep
        · obtain rfl := Option.some.inj hstep
          refine ⟨fun key => ?_, hflight, hdispatches⟩
          have hadd : ((s.nodes node).addPeer peer now).pubsub = none ∧
              ((s.nodes node).addPeer peer now).seenCache id = none := by
            unfold StreamNode.addPeer
            split
            · exact hnodes node
            · exact hnodes node
          change (Function.update s.nodes node _ key).pubsub = none ∧
            (Function.update s.nodes node _ key).seenCache id = none
          rw [Function.update_apply]
          split
          · exact hadd
          · exact hnodes key
  obtain ⟨hnodes, hflight, hdispatches⟩ := hquiet
  refine ⟨fun key => (hnodes key).1, fun key => (hnodes key).2, fun _ _ _ hmem => ?_,
    fun d hd => ?_⟩
  · rw [hflight] at hmem
    cases hmem
  · rw [hdispatches] at hd
    cases hd

/-- `a` seeks `c`, and `b` relays. -/
def throughB : Seek where
  header := Network.plainHeader [1]
  data := [7]
  redundancy := 1
  origin := "a"
  target := "c"
  keys := ["a", "b", "c"]

/-- Only deliveries, of what has not expired. -/
def deliversLive (s : Network) : NetworkAction → Bool
  | .deliver _ time _ => s.inFlight.all (fun transit =>
      match transit.packet with
      | .data message => decide (time ≤ message.header.expires)
      | .ack _ => true)
  | _ => false

def isAddPeer (_ : Network) : NetworkAction → Bool
  | .addPeer _ _ _ => true
  | _ => false

/-- No copies are in flight. -/
def isStill (s : Network) : Bool :=
  s.inFlight.all (fun transit =>
    match transit.packet with
    | .data _ => false
    | .ack _ => true)

theorem seek_delivers_throughB :
    ∃ s₂ copy, throughB.dispatchedAt s₂ "c" = [copy] ∧
      copy.message.header = Network.plainHeader [1] ∧ copy.message.data = some [7] := by
  have hexec : ((Network.plainMachine.execIf isAddPeer Network.plainMachine.init
      [.addPeer "a" "b" 0, .addPeer "b" "a" 0, .addPeer "b" "c" 0,
        .addPeer "c" "b" 0]).bind (fun s₀ =>
      (s₀.step Network.trusting (.publish "a" (Network.plainHeader [1])
        (.seek (some ["c"]) 1) (some [7]) none 1)).bind (fun s₁ =>
      ((Network.plainMachine.startingAt s₁).execIf deliversLive s₁
        [.deliver 0 1 (Network.plainHeader [2]), .deliver 0 1 (Network.plainHeader [3])]).map
      (fun s₂ => (throughB.keys.map (fun key => (s₀.nodes key).peers),
        (s₀.nodes "b").canRelayMessage, isStill s₂))))) =
      some ([["b"], ["a", "c"], ["b"]], true, true) := by
    decide +kernel
  obtain ⟨s₀, hconnect, hexec⟩ := Option.bind_eq_some_iff.mp hexec
  obtain ⟨s₁, hpublish, hexec⟩ := Option.bind_eq_some_iff.mp hexec
  obtain ⟨s₂, hlater, hexec⟩ := Option.map_eq_some_iff.mp hexec
  simp only [throughB, List.map_cons, List.map_nil, Prod.mk.injEq, List.cons.injEq,
    and_true] at hexec
  obtain ⟨⟨ha, hb, hc⟩, hcan, hstill⟩ := hexec
  have hrun := Machine.Run.of_execIf .init _ hconnect
  obtain ⟨hplain, hfresh⟩ := fresh_of_connected (hrun.imp fun s a ha => by
    cases a with
    | addPeer node peer now => exact ⟨node, peer, now, rfl⟩
    | _ => cases ha) throughB.id
  have hkeys : ∀ key ∈ throughB.keys, (s₀.nodes key).peers ⊆ throughB.keys := by
    simp [throughB, ha, hb, hc]
  have hpath : Relation.ReflTransGen (throughB.Next s₀) "a" "c" :=
    (Relation.ReflTransGen.single ⟨by simp [ha], Or.inl rfl⟩).tail
      ⟨by simp [hb], Or.inr hcan⟩
  have hundisturbed : ∀ s a, deliversLive s a = true → Undisturbed throughB.id s a := by
    intro s a hlive
    cases a with
    | deliver i time ackHeader =>
        intro sender receiver message hget hid
        have hlives := List.all_eq_true.mp hlive _ (List.mem_of_getElem? hget)
        exact of_decide_eq_true hlives
    | _ => cases hlive
  have hquiet : ∀ key, ¬ throughB.Coming s₂ key := by
    rintro key ⟨sender, message, hmem, -⟩
    cases List.all_eq_true.mp hstill _ hmem
  exact ⟨s₂, seek_delivers (q := throughB) (fun _ _ _ => rfl) (hrun.imp fun _ _ _ => trivial)
    hplain hfresh (by simp [throughB]) hkeys (by simp [throughB, MAX_SIGNATURES]) le_rfl
    (by simp [Wanted, throughB]) (by simp [throughB]) hpath hpublish
    ((Machine.Run.of_execIf .init _ hlater).imp hundisturbed) hquiet⟩

end Seek

end Transport
end Peerbit
