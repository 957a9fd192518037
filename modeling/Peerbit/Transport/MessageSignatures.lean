import Peerbit.Lib.PrefixCodes
import Peerbit.Transport.DataMessages

/-!
# Signatures of messages that are relayed

The mode and the signatures of a header are not signed: `sign` and
`verifyMultiSig` take them out of the message, serialize it, and put them back.
So a relay can replace the mode and add its signature, and all signatures are
signatures of the same bytes.

The serialization and the signature scheme are parameters.  Of the former it is
assumed that it starts with the variant of the message and tells messages of one
variant apart; `borsh` is one that does.
-/

namespace Peerbit
namespace StreamInterface

open Lib
open Transport (Bytes KeyHash SignatureWithKey)

/-- `ID_LENGTH` bytes. -/
abbrev MessageId := {bytes : Bytes // bytes.length = 32}

/-- An array has fewer than `2 ^ 32` elements. -/
abbrev Vec (α : Type) := {elements : List α // elements.length < 256 ^ 4}

/-- A string whose UTF-8 bytes can be counted in four bytes. -/
abbrev Text := {text : String // text.toByteArray.data.toList.length < 256 ^ 4}

inductive DeliveryMode where
  | SilentDelivery (to_ : List KeyHash) (redundancy : UInt8)
  | AcknowledgeDelivery (to_ : List KeyHash) (redundancy : UInt8)
  | SeekDelivery (to_ : Option (List KeyHash)) (redundancy : UInt8)
  | TracedDelivery (trace : List KeyHash)
  | AnyWhere
deriving DecidableEq

structure MessageHeader where
  id : MessageId
  timestamp : UInt64
  session : UInt64
  expires : UInt64
  priority : Option UInt32
  /-- `MultiAddrinfo`. -/
  origin : Option (Vec Text)
  mode : Option DeliveryMode
  signatures : Option (List SignatureWithKey)
deriving DecidableEq

/-- What the four kinds of messages have besides a header. -/
inductive MessageBody where
  | DataMessage (data : Option (Vec UInt8))
  | ACK (messageIdToAcknowledge : MessageId) (seenCounter : UInt8)
  | Hello (joined : Vec Text)
  | Goodbye (leaving : Vec Text)
deriving DecidableEq

/-- `DATA_VARIANT` and the others. -/
def MessageBody.variant : MessageBody → UInt8
  | .DataMessage _ => 0
  | .ACK _ _ => 1
  | .Hello _ => 2
  | .Goodbye _ => 3

structure Message where
  header : MessageHeader
  body : MessageBody
deriving DecidableEq

namespace Message

def setMode (obj : Message) (mode : Option DeliveryMode) : Message :=
  { obj with header := { obj.header with mode := mode } }

def setSignatures (obj : Message)
    (signatures : Option (List SignatureWithKey)) : Message :=
  { obj with header := { obj.header with signatures := signatures } }

/-- The signatures there are. -/
def signatures (m : Message) : List SignatureWithKey :=
  m.header.signatures.getD []

/-- The fields that are signed. -/
def signedFields (m : Message) :
    MessageId × UInt64 × UInt64 × UInt64 × Option UInt32 × Option (Vec Text) ×
      MessageBody :=
  (m.header.id, m.header.timestamp, m.header.session, m.header.expires,
    m.header.priority, m.header.origin, m.body)

end Message

section Signing

variable (serialize : Message → Bytes)

/-- `sign`, assignment by assignment. -/
def sign (signer : Bytes → SignatureWithKey) (obj : Message) : Message :=
  let mode := obj.header.mode
  let obj := obj.setMode none
  let signatures := obj.header.signatures
  let obj := obj.setSignatures none
  let bytes := serialize obj
  let obj := obj.setSignatures signatures
  let obj := obj.setMode mode
  let signature := signer bytes
  let obj := obj.setSignatures
    (some
      (match signatures with
      | some signatures => signatures ++ [signature]
      | none => [signature]))
  obj.setMode mode

/-- `verifyMultiSig`, and the message it leaves. -/
def verifyMultiSig (verify : SignatureWithKey → Bytes → Bool)
    (message : Message) (expectSignatures : Bool) : Bool × Message :=
  match message.header.signatures with
  | none => (!expectSignatures, message)
  | some signatures =>
      if signatures.length = 0 then (!expectSignatures, message)
      else
        let to_ := message.header.mode
        let message := message.setMode none
        let message := message.setSignatures none
        let bytes := serialize message
        let message := message.setMode to_
        let message := message.setSignatures (some signatures)
        (signatures.all fun signature => verify signature bytes, message)

/-- The bytes that are signed. -/
def bytesToSign (m : Message) : Bytes :=
  serialize ((m.setMode none).setSignatures none)

/-- What happens to a message on its way. -/
inductive RelayStep where
  | replaceMode (mode : DeliveryMode)
  | sign (signer : Bytes → SignatureWithKey)

def relayStep (m : Message) : RelayStep → Message
  | .replaceMode mode => m.setMode (some mode)
  | .sign signer => sign serialize signer m

def relay (steps : List RelayStep) (m : Message) : Message :=
  steps.foldl (relayStep serialize) m

/-- The signers among the steps. -/
def signersOf (steps : List RelayStep) : List (Bytes → SignatureWithKey) :=
  steps.filterMap fun step =>
    match step with
    | .replaceMode _ => none
    | .sign signer => some signer

end Signing

/-! ### What a node does when it relays -/

section RelayMessage

variable (serialize : Message → Bytes)

/-- `deliveryModeHasReceiver`, with the receivers. -/
def deliveryModeReceivers : DeliveryMode → Option (List KeyHash)
  | .SilentDelivery to_ _ => if to_.length > 0 then some to_ else none
  | .SeekDelivery (some to_) _ => if to_.length > 0 then some to_ else none
  | .AcknowledgeDelivery to_ _ => if to_.length > 0 then some to_ else none
  | _ => none

def DeliveryMode.withReceivers (to_ : List KeyHash) :
    DeliveryMode → DeliveryMode
  | .SilentDelivery _ redundancy => .SilentDelivery to_ redundancy
  | .AcknowledgeDelivery _ redundancy => .AcknowledgeDelivery to_ redundancy
  | .SeekDelivery _ redundancy => .SeekDelivery (some to_) redundancy
  | mode => mode

/-- The messages that a relay signs. -/
def signedByRelay (message : Message) : Bool :=
  match message.body, message.header.mode with
  | .DataMessage _, some (.AcknowledgeDelivery _ _) => true
  | .DataMessage _, some (.SeekDelivery _ _) => true
  | _, _ => false

/-- `relayMessage` up to the publication: the message that is published, if one
is. -/
def relayMessage (canRelayMessage : Bool) (publicKeyHash : KeyHash)
    (signer : Bytes → SignatureWithKey) (message : Message) : Option Message :=
  if canRelayMessage then
    let message :=
      if signedByRelay message then sign serialize signer message else message
    match message.header.mode with
    | none => some message
    | some mode =>
        match deliveryModeReceivers mode with
        | none => some message
        | some to_ =>
            let to_ := to_.filter (· ≠ publicKeyHash)
            if to_.length = 0 then none
            else some (message.setMode (some (mode.withReceivers to_)))
  else none

/-- A relay replaces the mode and adds its own signature, and does nothing
else. -/
theorem exists_relay_of_relayMessage {canRelayMessage : Bool}
    {publicKeyHash : KeyHash} {signer : Bytes → SignatureWithKey}
    {message message' : Message}
    (h : relayMessage serialize canRelayMessage publicKeyHash signer message =
      some message') :
    ∃ steps, message' = relay serialize steps message ∧
      ∀ other ∈ signersOf steps, other = signer := by
  rw [relayMessage] at h
  split at h
  · obtain ⟨steps, hsteps, hsigners⟩ : ∃ steps,
        (if signedByRelay message then sign serialize signer message
          else message) = relay serialize steps message ∧
        ∀ other ∈ signersOf steps, other = signer := by
      split
      · exact ⟨[.sign signer], rfl, by simp [signersOf]⟩
      · exact ⟨[], rfl, by simp [signersOf]⟩
    rw [hsteps] at h
    simp only at h
    split at h
    · exact ⟨steps, (Option.some.inj h).symm, hsigners⟩
    · rename_i mode _
      split at h
      · exact ⟨steps, (Option.some.inj h).symm, hsigners⟩
      · rename_i to_ _
        split at h
        · exact (nomatch h)
        · refine ⟨steps ++ [.replaceMode (mode.withReceivers
            (to_.filter (· ≠ publicKeyHash)))], ?_, ?_⟩
          · rw [relay, List.foldl_concat]
            exact (Option.some.inj h).symm
          · simpa [signersOf] using hsigners
  · exact (nomatch h)

end RelayMessage

/-! ### All signatures are of the same bytes -/

section Survival

variable {serialize : Message → Bytes}
  {verify : SignatureWithKey → Bytes → Bool}

/-- What `sign` changes. -/
theorem sign_eq (signer : Bytes → SignatureWithKey) (m : Message) :
    sign serialize signer m =
      m.setSignatures
        (some (m.signatures ++ [signer (bytesToSign serialize m)])) := by
  obtain ⟨header, body⟩ := m
  cases hsignatures : header.signatures with
  | none =>
      simp [sign, Message.setMode, Message.setSignatures, Message.signatures,
        bytesToSign, hsignatures]
  | some signatures =>
      simp [sign, Message.setMode, Message.setSignatures, Message.signatures,
        bytesToSign, hsignatures]

/-- `verifyMultiSig` leaves the message as it was. -/
theorem verifyMultiSig_snd (m : Message) (expectSignatures : Bool) :
    (verifyMultiSig serialize verify m expectSignatures).2 = m := by
  obtain ⟨header, body⟩ := m
  rw [verifyMultiSig]
  split
  · rfl
  · rename_i signatures hsignatures
    split
    · rfl
    · simp only [Message.setMode, Message.setSignatures]
      rw [← hsignatures]

theorem verifyMultiSig_fst (m : Message) (expectSignatures : Bool) :
    (verifyMultiSig serialize verify m expectSignatures).1 =
      if m.signatures = [] then !expectSignatures
      else m.signatures.all fun signature =>
        verify signature (bytesToSign serialize m) := by
  rw [verifyMultiSig, Message.signatures]
  split
  · rename_i hsignatures
    simp [hsignatures]
  · rename_i signatures hsignatures
    split
    · rename_i hlength
      simp [hsignatures, List.length_eq_zero_iff.mp hlength]
    · rename_i hlength
      simp only [hsignatures, Option.getD_some,
        if_neg fun hnil => hlength (List.length_eq_zero_iff.mpr hnil)]
      rfl

/-- No step changes the bytes that are signed. -/
theorem bytesToSign_relay (steps : List RelayStep) (m : Message) :
    bytesToSign serialize (relay serialize steps m) =
      bytesToSign serialize m := by
  induction steps generalizing m with
  | nil => rfl
  | cons step steps ih =>
      rw [relay, List.foldl_cons, ← relay, ih]
      cases step with
      | replaceMode mode => rfl
      | sign signer =>
          rw [relayStep, sign_eq]
          rfl

theorem signatures_relay (steps : List RelayStep) (m : Message) :
    (relay serialize steps m).signatures =
      m.signatures ++
        (signersOf steps).map fun signer =>
          signer (bytesToSign serialize m) := by
  induction steps generalizing m with
  | nil => simp [relay, signersOf]
  | cons step steps ih =>
      rw [relay, List.foldl_cons, ← relay, ih]
      cases step with
      | replaceMode mode => rfl
      | sign signer =>
          have hbytes : bytesToSign serialize (relayStep serialize m
              (.sign signer)) = bytesToSign serialize m :=
            bytesToSign_relay [.sign signer] m
          rw [hbytes, relayStep, sign_eq]
          simp [Message.setSignatures, Message.signatures, signersOf]

/-- A serialization begins with the variant, and tells messages of one variant
apart that have neither a mode nor signatures. -/
structure Serializes (serialize : Message → Bytes) : Prop where
  variant : ∀ m, (serialize m).head? = some m.body.variant
  injective : ∀ m m' : Message, m.body.variant = m'.body.variant →
    serialize ((m.setMode none).setSignatures none) =
      serialize ((m'.setMode none).setSignatures none) →
    (m.setMode none).setSignatures none = (m'.setMode none).setSignatures none

/-- Messages that differ in what is signed have different bytes. -/
theorem bytesToSign_ne (hserialize : Serializes serialize) {m m' : Message}
    (h : m.signedFields ≠ m'.signedFields) :
    bytesToSign serialize m ≠ bytesToSign serialize m' := by
  intro hbytes
  have hvariant : m.body.variant = m'.body.variant := by
    have hhead := congrArg List.head? hbytes
    rw [bytesToSign, bytesToSign, hserialize.variant, hserialize.variant] at hhead
    exact Option.some.inj hhead
  have hfields := congrArg Message.signedFields
    (hserialize.injective m m' hvariant hbytes)
  exact h hfields

/-- The message has the signatures of no one, or only ones that verify. -/
theorem verify_of_verifyMultiSig {m : Message}
    (h : (verifyMultiSig serialize verify m false).1 = true) :
    ∀ signature ∈ m.signatures,
      verify signature (bytesToSign serialize m) = true := by
  rw [verifyMultiSig_fst] at h
  split at h
  · rename_i hnil
    intro signature hsignature
    rw [hnil] at hsignature
    exact absurd hsignature List.not_mem_nil
  · exact List.all_eq_true.mp h

/-- **Signatures survive relaying.**  A message whose signatures verify keeps
them on its way, and those that are added verify with them; the bytes that are
signed tell messages apart that differ elsewhere than in mode and signatures;
and neither signing nor verifying changes anything else. -/
theorem signatures_survive_relaying (hserialize : Serializes serialize)
    (steps : List RelayStep)
    (hscheme : ∀ signer ∈ signersOf steps, ∀ bytes,
      verify (signer bytes) bytes = true)
    (m : Message)
    (hm : (verifyMultiSig serialize verify m false).1 = true) :
    ((relay serialize steps m).signatures =
        m.signatures ++
          (signersOf steps).map fun signer =>
            signer (bytesToSign serialize m)) ∧
      (∀ expectSignatures,
        (expectSignatures = true → (relay serialize steps m).signatures ≠ []) →
        (verifyMultiSig serialize verify (relay serialize steps m)
          expectSignatures).1 = true) ∧
      (∀ m₁ m₂ : Message, m₁.signedFields ≠ m₂.signedFields →
        bytesToSign serialize m₁ ≠ bytesToSign serialize m₂) ∧
      (∀ (signer : Bytes → SignatureWithKey) (m₁ : Message),
        (sign serialize signer m₁).header.mode = m₁.header.mode ∧
          (sign serialize signer m₁).signedFields = m₁.signedFields) ∧
      ∀ (m₁ : Message) (expectSignatures : Bool),
        (verifyMultiSig serialize verify m₁ expectSignatures).2 = m₁ := by
  refine ⟨signatures_relay steps m, ?_, fun _ _ => bytesToSign_ne hserialize,
    fun signer m₁ => ?_, verifyMultiSig_snd⟩
  · intro expectSignatures hexpected
    rw [verifyMultiSig_fst]
    split
    · rename_i hnil
      cases expectSignatures with
      | false => rfl
      | true => exact absurd hnil (hexpected rfl)
    · rw [List.all_eq_true, bytesToSign_relay, signatures_relay]
      intro signature hsignature
      rcases List.mem_append.mp hsignature with hsignature | hsignature
      · exact verify_of_verifyMultiSig hm signature hsignature
      · obtain ⟨signer, hsigner, rfl⟩ := List.mem_map.mp hsignature
        exact hscheme signer hsigner _
  · rw [sign_eq]
    exact ⟨rfl, rfl⟩

end Survival

/-! ### Borsh -/

section Borsh

/-- The number of bytes, and the bytes. -/
def countedBytes (bytes : Bytes) : Bytes :=
  littleEndian 4 bytes.length ++ bytes

def stringBytes (text : String) : Bytes :=
  countedBytes text.toByteArray.data.toList

def stringsBytes (texts : List String) : Bytes :=
  littleEndian 4 texts.length ++ texts.flatMap stringBytes

def textCode : PrefixCode Text :=
  (PrefixCode.list 4 .byte).comap
    (fun text => ⟨text.1.toByteArray.data.toList, text.2⟩)
    fun _ _ h => Subtype.ext (String.toByteArray_inj.mp
      (ByteArray.ext (Array.toList_inj.mp (Subtype.mk.inj h))))

def textsCode : PrefixCode (Vec Text) := .list 4 textCode

def idCode : PrefixCode MessageId :=
  .fixed (fun id => id.1) 32 (fun id => id.2) Subtype.val_injective

/-- The header up to the mode; `MultiAddrinfo` has a variant of its own. -/
def headerCode : PrefixCode
    (MessageId × UInt64 × UInt64 × UInt64 × Option UInt32 ×
      Option (UInt8 × Vec Text)) :=
  idCode.pair (.pair .u64 (.pair .u64 (.pair .u64 (.pair (.option .u32)
    (.option (.pair .byte textsCode))))))

def DeliveryMode.bytes : DeliveryMode → Bytes
  | .SilentDelivery to_ redundancy => 0 :: stringsBytes to_ ++ [redundancy]
  | .AcknowledgeDelivery to_ redundancy => 1 :: stringsBytes to_ ++ [redundancy]
  | .SeekDelivery none redundancy => [2, 0, redundancy]
  | .SeekDelivery (some to_) redundancy =>
      2 :: 1 :: stringsBytes to_ ++ [redundancy]
  | .TracedDelivery trace => 3 :: stringsBytes trace
  | .AnyWhere => [4]

def modeBytes : Option DeliveryMode → Bytes
  | none => [0]
  | some mode => 1 :: mode.bytes

/-- The fields of a signature that are modelled. -/
def signaturesBytes : Option (List SignatureWithKey) → Bytes
  | none => [0]
  | some signatures =>
      1 :: 0 :: UInt8.ofNat signatures.length ::
        signatures.flatMap fun s =>
          countedBytes s.signature ++ stringBytes s.publicKey

def MessageBody.bytes : MessageBody → Bytes
  | .DataMessage data => (PrefixCode.option (.list 4 .byte)).encode data
  | .ACK id seenCounter => (idCode.pair .byte).encode (id, seenCounter)
  | .Hello joined => textsCode.encode joined
  | .Goodbye leaving => textsCode.encode leaving

def borsh (m : Message) : Bytes :=
  m.body.variant :: 0 ::
    headerCode.encode
      (m.header.id, m.header.timestamp, m.header.session, m.header.expires,
        m.header.priority, m.header.origin.map fun origin => (0, origin)) ++
      (modeBytes m.header.mode ++
        (signaturesBytes m.header.signatures ++ m.body.bytes))

theorem MessageBody.bytes_inj {body body' : MessageBody}
    (hvariant : body.variant = body'.variant) (h : body.bytes = body'.bytes) :
    body = body' := by
  cases body with
  | DataMessage data =>
      cases body' with
      | DataMessage data' => rw [PrefixCode.injective _ h]
      | _ => simp [MessageBody.variant] at hvariant
  | ACK id seenCounter =>
      cases body' with
      | ACK id' seenCounter' =>
          obtain ⟨rfl, rfl⟩ := Prod.mk.inj (PrefixCode.injective _ h)
          rfl
      | _ => simp [MessageBody.variant] at hvariant
  | Hello joined =>
      cases body' with
      | Hello joined' => rw [PrefixCode.injective _ h]
      | _ => simp [MessageBody.variant] at hvariant
  | Goodbye leaving =>
      cases body' with
      | Goodbye leaving' => rw [PrefixCode.injective _ h]
      | _ => simp [MessageBody.variant] at hvariant

theorem serializes_borsh : Serializes borsh where
  variant := fun _ => rfl
  injective := by
    rintro ⟨header, body⟩ ⟨header', body'⟩ hvariant h
    obtain ⟨_, h⟩ := List.cons.inj h
    obtain ⟨_, h⟩ := List.cons.inj h
    obtain ⟨hheader, h⟩ := headerCode.splits _ _ _ _ h
    obtain rfl := MessageBody.bytes_inj hvariant
      (List.append_cancel_left (List.append_cancel_left h))
    simp only [Message.setMode, Message.setSignatures, Prod.mk.injEq] at hheader
    obtain ⟨hid, htimestamp, hsession, hexpires, hpriority, horigin⟩ := hheader
    have horigin : header.origin = header'.origin :=
      Option.map_injective (fun _ _ h => (Prod.mk.inj h).2) horigin
    simp [Message.setMode, Message.setSignatures, hid, htimestamp, hsession,
      hexpires, hpriority, horigin]

end Borsh

section TwoRelays

/-- A new message of one byte of data. -/
def newMessage : Message where
  header :=
    { id := ⟨List.replicate 32 7, rfl⟩, timestamp := 1, session := 1
      expires := 2, priority := some 1, origin := none
      mode := some (.SeekDelivery none 2), signatures := some [] }
  body := .DataMessage (some ⟨[42], by decide⟩)

/-- A signer whose signature is the message. -/
def plainSigner (publicKey : KeyHash) (bytes : Bytes) : SignatureWithKey :=
  { publicKey := publicKey, signature := bytes }

def plainVerify (signature : SignatureWithKey) (bytes : Bytes) : Bool :=
  decide (signature.signature = bytes)

/-- The sender signs, and two relays replace the mode and sign. -/
theorem signatures_survive_two_relays :
    ((relay borsh
        [.sign (plainSigner "sender"),
          .replaceMode (.AcknowledgeDelivery ["receiver"] 1),
          .sign (plainSigner "relay"), .replaceMode .AnyWhere,
          .sign (plainSigner "other")] newMessage).signatures.map
            fun s => s.publicKey) = ["sender", "relay", "other"] ∧
      (verifyMultiSig borsh plainVerify
        (relay borsh
          [.sign (plainSigner "sender"),
            .replaceMode (.AcknowledgeDelivery ["receiver"] 1),
            .sign (plainSigner "relay"), .replaceMode .AnyWhere,
            .sign (plainSigner "other")] newMessage) true).1 = true := by
  have h := @signatures_survive_relaying borsh plainVerify serializes_borsh
    [.sign (plainSigner "sender"),
      .replaceMode (.AcknowledgeDelivery ["receiver"] 1),
      .sign (plainSigner "relay"), .replaceMode .AnyWhere,
      .sign (plainSigner "other")]
    (by simp [signersOf, plainSigner, plainVerify]) newMessage rfl
  refine ⟨?_, h.2.1 true fun _ => ?_⟩
  · rw [h.1]
    rfl
  · rw [h.1]
    exact List.append_ne_nil_of_right_ne_nil _ (by simp [signersOf])

end TwoRelays

end StreamInterface
end Peerbit
