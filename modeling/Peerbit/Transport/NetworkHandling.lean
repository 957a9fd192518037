import Peerbit.Transport.Network

/-!
# What a node of a network does with a copy

A node that does not ignore a copy acknowledges it to the peer that sent it, and relays
the same message to some of its peers: with the receivers that are left, and with its
signature if the message is acknowledged.  Besides its cache of what it has seen, only
the callbacks of promises change.
-/

namespace Peerbit
namespace Transport

open Lib (InsertionMap Machine)

/-! ### What the effects of a copy are -/

section Receivers

variable (tos : List KeyHash) (mode : DeliveryMode)

@[simp] theorem isSeek_withReceivers : (mode.withReceivers tos).isSeek = mode.isSeek := by
  cases mode <;> rfl

@[simp] theorem isAcknowledge_withReceivers :
    (mode.withReceivers tos).isAcknowledge = mode.isAcknowledge := by
  cases mode <;> rfl

@[simp] theorem isSilent_withReceivers :
    (mode.withReceivers tos).isSilent = mode.isSilent := by
  cases mode <;> rfl

@[simp] theorem redundancy_withReceivers :
    (mode.withReceivers tos).redundancy = mode.redundancy := by
  cases mode <;> rfl

@[simp] theorem isAcknowledged_withReceivers :
    (mode.withReceivers tos).isAcknowledged = mode.isAcknowledged := by
  simp [DeliveryMode.isAcknowledged]

end Receivers

section Effects

variable {signs : SignatureWithKey → MessageHeader → Option Bytes → Bool}
variable {node : DirectStream} {copy : Copy} {seenBefore : Nat} {effect : Effect}

/-- The same message, up to its receivers. -/
structure SameMessage (message message' : DataMessage) : Prop where
  header : message'.header = message.header
  signatures : message'.signatures = message.signatures
  data : message'.data = message.data
  mode : message'.mode = message.mode ∨
    ∃ tos, message'.mode = message.mode.withReceivers tos

theorem SameMessage.refl (message : DataMessage) : SameMessage message message :=
  ⟨rfl, rfl, rfl, Or.inl rfl⟩

theorem SameMessage.isAcknowledged {message message' : DataMessage}
    (h : SameMessage message message') :
    message'.mode.isAcknowledged = message.mode.isAcknowledged := by
  obtain hmode | ⟨tos, hmode⟩ := h.mode
  · rw [hmode]
  · rw [hmode, isAcknowledged_withReceivers]

theorem SameMessage.redundancy {message message' : DataMessage}
    (h : SameMessage message message') :
    message'.mode.redundancy = message.mode.redundancy := by
  obtain hmode | ⟨tos, hmode⟩ := h.mode
  · rw [hmode]
  · rw [hmode, redundancy_withReceivers]

/-- The effects that a copy may have which is not ignored. -/
def EffectOf (node : DirectStream) (copy : Copy) : Effect → Prop
  | .dispatch copy' => copy' = copy
  | .acknowledge to_ _ trace =>
      to_ = copy.sender ∧ trace = copy.message.publicKeys ∧
        copy.message.mode.isAcknowledged = true
  | .relay message to_ =>
      SameMessage copy.message message ∧ (node.pubsub = none → message = copy.message) ∧
        ∀ tos, to_ = some tos → tos ⊆ node.peers

theorem effectOf_forward (h : effect ∈ forward node copy seenBefore) :
    EffectOf node copy effect := by
  unfold forward at h
  split at h
  · cases h
  · split at h
    · obtain rfl := List.mem_singleton.mp (List.mem_ite_nil_right.mp h).2
      refine ⟨.refl _, fun _ => rfl, fun tos htos => ?_⟩
      obtain rfl := Option.some.inj htos
      exact List.filter_subset_self _
    · obtain rfl := List.mem_singleton.mp (List.mem_ite_nil_right.mp h).2
      exact ⟨.refl _, fun _ => rfl, fun tos htos => by cases htos⟩

theorem effectOf_subForward {sub : DirectSub} {topics : List String} {strict : Bool}
    (hsub : node.pubsub = some sub)
    (h : effect ∈ subForward node sub copy.message topics strict) :
    EffectOf node copy effect := by
  have hsame : SameMessage copy.message
      (if strict then copy.message else addPeersOnTopic node sub copy.message topics) := by
    split
    · exact .refl _
    · exact ⟨rfl, rfl, rfl, Or.inr ⟨_, rfl⟩⟩
  unfold subForward at h
  generalize (if strict then copy.message
    else addPeersOnTopic node sub copy.message topics) = message at h hsame
  obtain rfl := List.mem_singleton.mp (List.mem_ite_nil_right.mp h).2
  refine ⟨hsame, fun hplain => ?_, fun tos htos => by cases htos⟩
  cases hplain.symm.trans hsub

theorem effectOf_acknowledge {redundancy : Nat} {rest : List Effect}
    (hmode : copy.message.mode.isAcknowledged = true)
    (hrest : ∀ effect ∈ rest, EffectOf node copy effect)
    (h : effect ∈ acknowledge node copy seenBefore redundancy rest) :
    EffectOf node copy effect := by
  unfold acknowledge at h
  split at h
  · split at h
    · cases h
    · rcases List.mem_cons.mp h with rfl | h
      · exact ⟨rfl, rfl, hmode⟩
      · exact hrest effect h
  · exact hrest effect h

theorem effectOf_maybeAcknowledgeMessage {rest : List Effect}
    (hrest : ∀ effect ∈ rest, EffectOf node copy effect)
    (h : effect ∈ maybeAcknowledgeMessage node copy seenBefore rest) :
    EffectOf node copy effect := by
  unfold maybeAcknowledgeMessage at h
  split at h
  · rename_i hmode
    exact effectOf_acknowledge (by rw [hmode]; rfl) hrest h
  · rename_i hmode
    exact effectOf_acknowledge (by rw [hmode]; rfl) hrest h
  · exact hrest effect h

/-- The dispatch, if there is one. -/
theorem effectOf_dispatch {c : Prop} [Decidable c]
    (h : effect ∈ (if c then [Effect.dispatch copy] else [])) :
    EffectOf node copy effect := by
  obtain rfl := List.mem_singleton.mp (List.mem_ite_nil_right.mp h).2
  rfl

theorem effectOf_streamOnDataMessage
    (h : effect ∈ streamOnDataMessage signs node copy seenBefore) :
    shouldIgnore node copy.message seenBefore = false ∧ EffectOf node copy effect := by
  unfold streamOnDataMessage at h
  split at h
  · cases h
  · rename_i hignore
    refine ⟨by simpa using hignore, ?_⟩
    split at h
    · split at h
      · refine effectOf_maybeAcknowledgeMessage (fun effect heffect => ?_) h
        rcases List.mem_append.mp heffect with heffect | heffect
        · exact effectOf_dispatch heffect
        · exact effectOf_forward heffect
      · cases h
    · exact effectOf_forward h

/-- What a node does with a copy. -/
theorem effectOf_onDataMessage (h : effect ∈ onDataMessage signs node copy seenBefore) :
    shouldIgnore node copy.message seenBefore = false ∧ EffectOf node copy effect := by
  unfold onDataMessage at h
  split at h
  · exact effectOf_streamOnDataMessage h
  · rename_i sub hsub
    unfold subOnDataMessage at h
    split at h
    · exact effectOf_streamOnDataMessage h
    · exact effectOf_streamOnDataMessage h
    · split at h
      · cases h
      · rename_i hignore
        refine ⟨by simpa using hignore, ?_⟩
        split at h
        · split at h
          · cases h
          · simp only at h
            split at h
            · cases h
            · refine effectOf_maybeAcknowledgeMessage (fun effect heffect => ?_) h
              rcases List.mem_append.mp heffect with heffect | heffect
              · exact effectOf_dispatch heffect
              · exact effectOf_subForward hsub heffect
        · cases h

/-- A node ignores what it has signed. -/
theorem notMem_publicKeys_of_shouldIgnore {message : DataMessage}
    (h : shouldIgnore node message seenBefore = false) :
    node.publicKey ∉ message.publicKeys := by
  intro hmem
  simp [shouldIgnore, hmem] at h

end Effects

/-! ### What a node writes to its neighbours -/

section Publishing

variable {signing : Signing} {node node' : StreamNode} {from_ : KeyHash}
variable {message : DataMessage} {to_ : Option (List KeyHash)} {now : Int}
variable {stream : KeyHash} {transit : Transit}

/-- Nothing but the callbacks has changed. -/
def OnlyCallbacks (node node' : StreamNode) : Prop :=
  ∃ callbacks, node' = { node with _ackCallbacks := callbacks }

theorem OnlyCallbacks.refl (node : StreamNode) : OnlyCallbacks node node :=
  ⟨node._ackCallbacks, rfl⟩

theorem OnlyCallbacks.trans {node'' : StreamNode} (h : OnlyCallbacks node node')
    (h' : OnlyCallbacks node' node'') : OnlyCallbacks node node'' := by
  obtain ⟨callbacks, rfl⟩ := h
  obtain ⟨callbacks', rfl⟩ := h'
  exact ⟨callbacks', rfl⟩

theorem onlyCallbacks_createDeliveryPromise (node : StreamNode) (from_ : KeyHash)
    (message : DataMessage) (session : Int) :
    OnlyCallbacks node (node.createDeliveryPromise from_ message session) := by
  unfold StreamNode.createDeliveryPromise
  split
  · exact .refl node
  · split
    · exact .refl node
    · exact ⟨_, rfl⟩

theorem chooseStreams_subset {relayed : Bool}
    (hto : ∀ tos, to_ = some tos → tos ⊆ node.peers) :
    node.chooseStreams from_ message to_ relayed ⊆ node.peers := by
  intro stream h
  unfold StreamNode.chooseStreams at h
  simp only at h
  split at h
  · split at h
    · exact of_decide_eq_true (List.mem_filter.mp h).2
    · split at h
      · cases h
      · exact List.filter_subset_self _ h
  · have hmem := List.filter_subset_self _ h
    cases hto' : to_ with
    | none => rwa [hto', Option.getD_none] at hmem
    | some tos =>
        rw [hto', Option.getD_some] at hmem
        exact hto tos hto' hmem

variable (node from_ message now) in
/-- The streams that are chosen are those of peers. -/
theorem publishMessage_subset (hto : ∀ tos, to_ = some tos → tos ⊆ node.peers)
    (relayed : Bool) :
    (node.publishMessage from_ message to_ relayed now).2 ⊆ node.peers := by
  intro stream h
  unfold StreamNode.publishMessage at h
  split at h
  · cases h
  · simp only at h
    split at h
    · cases h
    · have hpeers : (if relayed then
          (if message.mode.isAcknowledged then node.createDeliveryPromise from_ message now
            else node) else
          (if message.mode.isAcknowledged then node.createDeliveryPromise from_ message now
            else node).count message).peers = node.peers := by
        obtain ⟨callbacks, hcallbacks⟩ :=
          onlyCallbacks_createDeliveryPromise node from_ message now
        rw [hcallbacks]
        split <;> split <;> rfl
      rw [← hpeers]
      refine chooseStreams_subset (fun tos htos => ?_) h
      rw [hpeers]
      split at htos
      · cases htos
      · split at htos
        · obtain rfl := Option.some.inj htos
          exact List.Subset.refl _
        · exact hto tos htos

variable (node from_ message to_ now) in
theorem onlyCallbacks_publishMessage :
    OnlyCallbacks node (node.publishMessage from_ message to_ true now).1 := by
  have hpromise : OnlyCallbacks node
      (if message.mode.isAcknowledged then node.createDeliveryPromise from_ message now
        else node) := by
    split
    · exact onlyCallbacks_createDeliveryPromise ..
    · exact .refl node
  unfold StreamNode.publishMessage
  split
  · exact .refl node
  · simp only [if_true]
    split
    · exact hpromise
    · exact hpromise

variable (node from_ message to_ now) in
/-- An own message is counted, unless nothing is sent. -/
theorem publishMessage_own :
    OnlyCallbacks node (node.publishMessage from_ message to_ false now).1 ∨
      OnlyCallbacks (node.count message)
        (node.publishMessage from_ message to_ false now).1 := by
  obtain ⟨callbacks, hcallbacks⟩ :=
    onlyCallbacks_createDeliveryPromise node from_ message now
  unfold StreamNode.publishMessage
  split
  · exact Or.inl (.refl node)
  · simp only [Bool.false_eq_true, if_false, hcallbacks]
    split
    · exact Or.inl (by split <;> exact ⟨_, rfl⟩)
    · exact Or.inr (by split <;> exact ⟨_, rfl⟩)

theorem publicKeys_sign (signer : KeyHash) (message : DataMessage) :
    (message.sign signing signer).publicKeys = message.publicKeys ++ [signer] := by
  simp [DataMessage.sign, DataMessage.publicKeys]

/-- The signatures of a message that a node relays. -/
def relayedKeys (me : KeyHash) (message : DataMessage) : List KeyHash :=
  if message.mode.isAcknowledged then message.publicKeys ++ [me] else message.publicKeys

/-- The message that a node makes of another when it relays it. -/
structure Relays (me : KeyHash) (message message' : DataMessage) : Prop where
  header : message'.header = message.header
  data : message'.data = message.data
  publicKeys : message'.publicKeys = relayedKeys me message
  isAcknowledged : message'.mode.isAcknowledged = message.mode.isAcknowledged
  redundancy : message'.mode.redundancy = message.mode.redundancy

theorem relays_of_relayed {message' : DataMessage}
    {me : KeyHash} (h : StreamNode.relayed signing me message = some message') :
    Relays me message message' := by
  have hsigned : Relays me message
      (if message.mode.isAcknowledged then message.sign signing me else message) := by
    cases hmode : message.mode.isAcknowledged with
    | false =>
        rw [if_neg Bool.false_ne_true]
        exact ⟨rfl, rfl, by simp [relayedKeys, hmode], rfl, rfl⟩
    | true =>
        rw [if_pos rfl]
        exact ⟨rfl, rfl, by rw [publicKeys_sign]; simp [relayedKeys, hmode], rfl, rfl⟩
  unfold StreamNode.relayed at h
  simp only at h
  generalize (if message.mode.isAcknowledged then message.sign signing me
    else message) = signed at h hsigned
  split at h
  · obtain rfl := Option.some.inj h
    exact hsigned
  · split at h
    · cases h
    · obtain rfl := Option.some.inj h
      exact ⟨hsigned.header, hsigned.data, hsigned.publicKeys,
        (isAcknowledged_withReceivers _ _).trans hsigned.isAcknowledged,
        (redundancy_withReceivers _ _).trans hsigned.redundancy⟩

/-- What a relay writes: what it makes of the message, to some of its peers. -/
structure Relayed (signing : Signing) (node : DirectStream) (message : DataMessage)
    (transit : Transit) : Prop where
  sender : transit.sender = node.publicKey
  receiver : transit.receiver ∈ node.peers
  packet : ∃ source message', SameMessage message source ∧
    (node.pubsub = none → source = message) ∧
    StreamNode.relayed signing node.publicKey source = some message' ∧
    transit.packet = .data message'

theorem relayed_of_relayMessage {source : DataMessage} (hsame : SameMessage message source)
    (hplain : node.pubsub = none → source = message)
    (hto : ∀ tos, to_ = some tos → tos ⊆ node.peers)
    (h : transit ∈ (node.relayMessage signing from_ source to_ now).2) :
    Relayed signing node.toDirectStream message transit := by
  unfold StreamNode.relayMessage at h
  split at h
  · split at h
    · cases h
    · rename_i message' hrelayed
      obtain ⟨stream, hstream, rfl⟩ := List.mem_map.mp h
      exact ⟨rfl, publishMessage_subset node from_ message' now hto true hstream,
        source, message', hsame, hplain, hrelayed, rfl⟩
  · cases h

theorem onlyCallbacks_relayMessage :
    OnlyCallbacks node (node.relayMessage signing from_ message to_ now).1 := by
  unfold StreamNode.relayMessage
  split
  · split
    · exact .refl node
    · exact onlyCallbacks_publishMessage ..
  · exact .refl node

end Publishing

/-! ### What comes of a copy -/

section Handling

variable {signing : Signing} {node : StreamNode} {ackHeader : MessageHeader}
variable {copy : Copy} {transit : Transit}

theorem publicKeys_of_sameMessage {message message' : DataMessage}
    (h : SameMessage message message') : message'.publicKeys = message.publicKeys := by
  rw [DataMessage.publicKeys, DataMessage.publicKeys, h.signatures]

/-- What is relayed of a message, also when it has other receivers first. -/
theorem Relayed.exists_relays {node : DirectStream} {message : DataMessage}
    (h : Relayed signing node message transit) :
    ∃ message', transit.packet = .data message' ∧
      Relays node.publicKey message message' := by
  obtain ⟨source, message', hsame, -, hrelayed, hpacket⟩ := h.packet
  have hrelays := relays_of_relayed hrelayed
  refine ⟨message', hpacket, hrelays.header.trans hsame.header,
    hrelays.data.trans hsame.data, ?_, hrelays.isAcknowledged.trans hsame.isAcknowledged,
    hrelays.redundancy.trans hsame.redundancy⟩
  rw [hrelays.publicKeys, relayedKeys, relayedKeys, hsame.isAcknowledged,
    publicKeys_of_sameMessage hsame]

/-- What a node writes for a copy: an acknowledgement back to its sender, and the copy
to its peers. -/
def WrittenFor (signing : Signing) (node : DirectStream) (ackHeader : MessageHeader)
    (copy : Copy) (transit : Transit) : Prop :=
  (copy.message.mode.isAcknowledged = true ∧ ∃ seenCounter,
      transit ∈ StreamNode.acknowledgement signing node.publicKey ackHeader copy
        copy.sender seenCounter copy.message.publicKeys) ∨
    Relayed signing node copy.message transit

theorem onlyCallbacks_perform (effect : Effect) :
    OnlyCallbacks node (node.perform signing ackHeader copy effect).1 := by
  cases effect with
  | dispatch copy' => exact .refl node
  | acknowledge to_ seenCounter trace => exact .refl node
  | relay message to_ => exact onlyCallbacks_relayMessage

theorem writtenFor_perform {effect : Effect}
    (heffect : EffectOf node.toDirectStream copy effect)
    (h : transit ∈ (node.perform signing ackHeader copy effect).2) :
    WrittenFor signing node.toDirectStream ackHeader copy transit := by
  cases effect with
  | dispatch copy' => cases h
  | acknowledge to_ seenCounter trace =>
      obtain ⟨rfl, rfl, hmode⟩ := heffect
      exact Or.inl ⟨hmode, seenCounter, h⟩
  | relay message to_ =>
      obtain ⟨hsame, hplain, hto⟩ := heffect
      exact Or.inr (relayed_of_relayMessage hsame hplain hto h)

variable (signing node ackHeader) in
theorem performAll_spec {effects : List Effect}
    (heffects : ∀ effect ∈ effects, EffectOf node.toDirectStream copy effect) :
    OnlyCallbacks node (StreamNode.performAll signing ackHeader copy node effects).1 ∧
      ∀ transit ∈ (StreamNode.performAll signing ackHeader copy node effects).2,
        WrittenFor signing node.toDirectStream ackHeader copy transit := by
  induction effects generalizing node with
  | nil => exact ⟨.refl node, by simp [StreamNode.performAll]⟩
  | cons effect effects ih =>
      have hfirst : OnlyCallbacks node (node.perform signing ackHeader copy effect).1 :=
        onlyCallbacks_perform effect
      obtain ⟨callbacks, hcallbacks⟩ := hfirst
      rw [StreamNode.performAll]
      simp only
      obtain ⟨hrest, hwritten⟩ := ih (node.perform signing ackHeader copy effect).1
        (by rw [hcallbacks]; exact fun e he => heffects e (List.mem_cons_of_mem _ he))
      refine ⟨OnlyCallbacks.trans ⟨callbacks, hcallbacks⟩ hrest, fun transit htransit => ?_⟩
      rcases List.mem_append.mp htransit with htransit | htransit
      · exact writtenFor_perform (heffects effect List.mem_cons_self) htransit
      · have hlater := hwritten transit htransit
        rw [hcallbacks] at hlater
        exact hlater

/-- A copy for which something is written is not ignored. -/
theorem shouldIgnore_of_handleData
    (h : transit ∈ (node.handleData signing ackHeader copy).2) :
    shouldIgnore node.toDirectStream copy.message
      (modifySeenCache node.seenCache copy.message).1 = false := by
  cases heq : node.effects signing copy with
  | nil =>
      rw [StreamNode.handleData, heq] at h
      cases h
  | cons effect effects =>
      have hmem : effect ∈ node.effects signing copy := by
        rw [heq]
        exact List.mem_cons_self
      exact (effectOf_onDataMessage hmem).1

/-- The node counts the copy and keeps all but the callbacks; what it writes is for the
copy, which it has not signed. -/
theorem handleData_spec (signing : Signing) (node : StreamNode) (ackHeader : MessageHeader)
    (copy : Copy) :
    OnlyCallbacks (node.count copy.message)
        (node.handleData signing ackHeader copy).1 ∧
      ∀ transit ∈ (node.handleData signing ackHeader copy).2,
        node.publicKey ∉ copy.message.publicKeys ∧
          WrittenFor signing node.toDirectStream ackHeader copy transit := by
  have heffects : ∀ effect ∈ node.effects signing copy,
      EffectOf (node.count copy.message).toDirectStream copy effect :=
    fun effect heffect => (effectOf_onDataMessage heffect).2
  obtain ⟨hnode, hwritten⟩ := performAll_spec signing (node.count copy.message) ackHeader
    heffects
  exact ⟨hnode, fun transit htransit =>
    ⟨notMem_publicKeys_of_shouldIgnore (shouldIgnore_of_handleData htransit),
      hwritten transit htransit⟩⟩

theorem sender_of_writtenFor {node : DirectStream}
    (h : WrittenFor signing node ackHeader copy transit) :
    transit.sender = node.publicKey := by
  rcases h with ⟨-, seenCounter, hack⟩ | hrelayed
  · unfold StreamNode.acknowledgement at hack
    split at hack
    · cases hack
    · rw [List.mem_singleton.mp hack]
  · exact hrelayed.sender

/-- Acknowledgements are no copies. -/
theorem relayed_of_writtenFor {node : DirectStream} {sender receiver : KeyHash}
    {message : DataMessage}
    (h : WrittenFor signing node ackHeader copy ⟨sender, receiver, .data message⟩) :
    Relayed signing node copy.message ⟨sender, receiver, .data message⟩ := by
  rcases h with ⟨-, seenCounter, hack⟩ | hrelayed
  · unfold StreamNode.acknowledgement at hack
    split at hack
    · cases hack
    · cases List.mem_singleton.mp hack
  · exact hrelayed

/-- The copies that handling one writes have its id. -/
theorem getMsgId_of_handleData {sender receiver : KeyHash} {message : DataMessage}
    (h : (⟨sender, receiver, .data message⟩ : Transit) ∈
      (node.handleData signing ackHeader copy).2) :
    getMsgId message = getMsgId copy.message := by
  obtain ⟨-, hfor⟩ := (handleData_spec signing node ackHeader copy).2 _ h
  obtain ⟨message', hpacket, hrelays⟩ := (relayed_of_writtenFor hfor).exists_relays
  cases hpacket
  rw [getMsgId, getMsgId, hrelays.header]

/-! ### What a node keeps -/

/-- A node that has the peers that it had. -/
structure Stays (node node' : StreamNode) : Prop where
  publicKey : node'.publicKey = node.publicKey
  peers : node'.peers = node.peers
  canRelayMessage : node'.canRelayMessage = node.canRelayMessage
  pubsub : node'.pubsub = node.pubsub

/-- A node that has kept what a message depends on. -/
structure Keeps (id : Bytes) (node node' : StreamNode) : Prop extends Stays node node' where
  seenCache : node'.seenCache id = node.seenCache id

theorem Stays.of_onlyCallbacks {node node' node'' : StreamNode} (h : Stays node node')
    (hnode : OnlyCallbacks node' node'') : Stays node node'' := by
  obtain ⟨callbacks, rfl⟩ := hnode
  exact ⟨h.publicKey, h.peers, h.canRelayMessage, h.pubsub⟩

theorem Keeps.of_onlyCallbacks {id : Bytes} {node node' node'' : StreamNode}
    (h : Keeps id node node') (hnode : OnlyCallbacks node' node'') :
    Keeps id node node'' := by
  refine ⟨h.toStays.of_onlyCallbacks hnode, ?_⟩
  obtain ⟨callbacks, rfl⟩ := hnode
  exact h.seenCache

theorem Keeps.refl (id : Bytes) (node : StreamNode) : Keeps id node node :=
  ⟨⟨rfl, rfl, rfl, rfl⟩, rfl⟩

theorem Stays.count (node : StreamNode) (message : DataMessage) :
    Stays node (node.count message) :=
  ⟨rfl, rfl, rfl, rfl⟩

theorem Keeps.count {id : Bytes} (node : StreamNode) {message : DataMessage}
    (hother : getMsgId message ≠ id) : Keeps id node (node.count message) :=
  ⟨.count node message, Function.update_of_ne hother.symm ..⟩

theorem keeps_ackCallback (node : StreamNode) (sender : KeyHash) (ack : Ack) (now : Int)
    (id : Bytes) : Keeps id node (node.ackCallback sender ack now) := by
  unfold StreamNode.ackCallback
  split
  · split
    · exact ⟨⟨rfl, rfl, rfl, rfl⟩, rfl⟩
    · exact .refl id node
  · exact .refl id node

variable (signing) in
theorem keeps_handleAck (node : StreamNode) (sender : KeyHash) (ack : Ack) (time : Nat)
    (id : Bytes) :
    Keeps id node (node.handleAck signing sender ack time).1 ∧
      ∀ from_ receiver message, (⟨from_, receiver, .data message⟩ : Transit) ∉
        (node.handleAck signing sender ack time).2 := by
  unfold StreamNode.handleAck
  split
  · exact ⟨.refl id node, by simp⟩
  · simp only
    split
    · have hkeeps := keeps_ackCallback { node with seenAcks := ack :: node.seenAcks } sender
        ack time id
      refine ⟨⟨⟨hkeeps.publicKey, hkeeps.peers, hkeeps.canRelayMessage, hkeeps.pubsub⟩,
        hkeeps.seenCache⟩, fun from_ receiver message hmem => ?_⟩
      split at hmem
      · split at hmem
        · cases hmem
        · cases List.mem_singleton.mp hmem
      · cases hmem
    · exact ⟨⟨⟨rfl, rfl, rfl, rfl⟩, rfl⟩, by simp⟩

variable (signing) in
theorem stays_publish (node : StreamNode) (header : MessageHeader) (mode : DeliveryMode)
    (data : Option Bytes) (withTo : Option (List KeyHash)) (now : Int) :
    Stays node (node.publish signing header mode data withTo now).1 := by
  rcases publishMessage_own node node.publicKey
    (node.createMessage signing header mode data now) (node.pickPeers withTo) now with
    hnode | hnode
  · exact (Keeps.refl header.id node).toStays.of_onlyCallbacks hnode
  · exact (Stays.count node _).of_onlyCallbacks hnode

variable (signing) in
/-- A node publishes another message. -/
theorem keeps_publish (node : StreamNode) {id : Bytes} {header : MessageHeader}
    (hother : header.id.take 31 ≠ id) (mode : DeliveryMode) (data : Option Bytes)
    (withTo : Option (List KeyHash)) (now : Int) :
    Keeps id node (node.publish signing header mode data withTo now).1 ∧
      ∀ sender receiver message, (⟨sender, receiver, .data message⟩ : Transit) ∈
        (node.publish signing header mode data withTo now).2 → getMsgId message ≠ id := by
  have hid : getMsgId (node.createMessage signing header mode data now) ≠ id := hother
  constructor
  · rcases publishMessage_own node node.publicKey
      (node.createMessage signing header mode data now) (node.pickPeers withTo) now with
      hnode | hnode
    · exact (Keeps.refl id node).of_onlyCallbacks hnode
    · exact (Keeps.count node hid).of_onlyCallbacks hnode
  · intro sender receiver message hmem
    obtain ⟨stream, -, heq⟩ := List.mem_map.mp hmem
    cases heq
    exact hother

end Handling

end Transport
end Peerbit
