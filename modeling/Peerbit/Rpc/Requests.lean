import Peerbit.Lib.Machines
import Peerbit.Rpc.QueryAll
import Mathlib.Logic.Function.Basic

/-!
# Requests and responses on a topic

A peer that requests something publishes it with a random id and a key made for this
request alone.  Who gets it may publish a response, with this id and encrypted to this
key.  The peer keeps a handler for each of its requests until the call returns; a handler
that has been called may end later than that.

Messages are published to all peers of the topic, which may get each of them never, late
and more than once.
-/

namespace Peerbit
namespace Rpc

/-- The random bytes of a message. -/
abbrev MessageId := Nat

/-- `X25519PublicKey`. -/
abbrev EncryptionKey := Nat

/-- What reading or opening something throws: an `AccessError`, a `BorshError`, or any other
error. -/
inductive ReadError where
  | access
  | borsh
  | other
deriving Repr, DecidableEq

/-- `DecryptedThing` and `EncryptedThing` with the receivers of its envelope.  The content is
what a reader gets that has a key; from a peer that follows the protocol this is the value
that was sealed. -/
inductive MaybeEncrypted (T : Type) where
  | decrypted (content : Except ReadError T)
  | encrypted (content : Except ReadError T) (receivers : List EncryptionKey)
deriving Repr, DecidableEq

/-- `decrypt` with a keychain, which knows the keypairs of some keys: one of them is enough. -/
def MaybeEncrypted.decrypt {T : Type} (exportByKey : EncryptionKey → Bool) :
    MaybeEncrypted T → Except ReadError T
  | .decrypted content => content
  | .encrypted content receivers =>
      if receivers.any exportByKey then content else .error .access

/-- `decrypt` with a keypair.  The resolver throws for any other key, so only the first
receiver counts. -/
def MaybeEncrypted.decryptWith {T : Type} (keypair : EncryptionKey) :
    MaybeEncrypted T → Except ReadError T
  | .decrypted content => content
  | .encrypted _ [] => .error .access
  | .encrypted content (receiver :: _) =>
      if receiver = keypair then content else .error .other

inductive RPCMessage (Q R : Type) where
  | request (respondTo : Option EncryptionKey) (request : MaybeEncrypted Q)
  | response (requestId : MessageId) (response : MaybeEncrypted R)
deriving Repr, DecidableEq

/-- A message on the topic, with the key that has signed it. -/
structure TopicMessage (Q R : Type) where
  id : MessageId
  from_ : PeerHash
  message : RPCMessage Q R
deriving Repr, DecidableEq

/-- Of the options, `isTrusted` and `onResponse` are whether there are such functions, `to_`
are the receivers of the delivery mode (empty if it has none), and `responders` the keys of
`encryption`. -/
structure RPCRequestOptions where
  amount : Option Nat
  isTrusted : Bool
  onResponse : Bool
  to_ : List PeerHash
  responders : List EncryptionKey
deriving Repr, DecidableEq

/-- What a promise is settled by: the handler resolves it, or rejects it over a response that
it cannot open or over an error of `isTrusted` or `onResponse`; the timeout resolves it, and
the signal or the end of the program rejects it. -/
inductive Settled where
  | answered
  | failed
  | threw
  | timedOut
  | aborted
deriving Repr, DecidableEq

/-- A call of `request` with its variables. -/
structure RequestCall (Q R : Type) where
  owner : PeerHash
  id : MessageId
  keypair : EncryptionKey
  request : Q
  options : RPCRequestOptions
  allResults : List (R × PeerHash)
  responders : List PeerHash
  settled : Option Settled
deriving Repr, DecidableEq

/-- What a response handler has returned, and for what. -/
structure Answer (Q R : Type) where
  by_ : PeerHash
  id : MessageId
  asker : PeerHash
  respondTo : Option EncryptionKey
  request : Q
  response : R
deriving Repr, DecidableEq

/-- The peers of a topic: all messages that were published, all calls that were made, for
each peer its `_responseResolver` (the place of the call), and the handlers that have
been called and have not ended.  The answers are a record for the proofs. -/
structure Topic (Q R : Type) where
  messages : List (TopicMessage Q R)
  calls : List (RequestCall Q R)
  responseResolver : PeerHash → MessageId → Option Nat
  running : List (Nat × PeerHash × MaybeEncrypted R)
  answers : List (Answer Q R)

section Requests

variable {Q R : Type}

def seal_ (request : Q) (respondTo : Option EncryptionKey) (responders : List EncryptionKey) :
    RPCMessage Q R :=
  .request respondTo
    (if responders.length > 0 then .encrypted (.ok request) responders
      else .decrypted (.ok request))

namespace RequestCall

variable (c : RequestCall Q R)

/-- The first to settle the promise does. -/
def settle (how : Settled) : RequestCall Q R :=
  { c with settled := c.settled.or (some how) }

def expectedResponders : Option (List PeerHash) :=
  if c.options.to_.length > 0 then some c.options.to_.dedup else none

/-- The handler resolves the promise, if there are enough results. -/
def settleIf (enough : Bool) : RequestCall Q R :=
  if enough then c.settle .answered else c

/-- The result of a responder. -/
def push (from_ : PeerHash) (response : R) : RequestCall Q R :=
  { c with allResults := c.allResults ++ [(response, from_)] }

/-- The result of an expected responder. -/
def collect (from_ : PeerHash) (response : R) : RequestCall Q R :=
  { c.push from_ response with
    responders := if from_ ∈ c.responders then c.responders else c.responders ++ [from_] }

/-- The `catch` of the handler. -/
def caught (error : ReadError) (how : Settled) : RequestCall Q R :=
  match error with
  | .access | .borsh => c
  | .other => c.settle how

/-- The function that `createResponseHandler` makes, with what `isTrusted` answers or rejects
with, and what `onResponse` throws, if there are such functions. -/
def handle (from_ : PeerHash) (response : MaybeEncrypted R) (isTrusted : Except ReadError Bool)
    (onResponse : Option ReadError) : RequestCall Q R :=
  match if c.options.isTrusted then isTrusted else .ok true with
  | .error error => c.caught error .threw
  | .ok false => c
  | .ok true =>
      match response.decryptWith c.keypair with
      | .error error => c.caught error .failed
      | .ok resultData =>
          let thrown := if c.options.onResponse then onResponse else none
          match c.expectedResponders with
          | some expectedResponders =>
              if from_ ∈ expectedResponders then
                match thrown with
                | some error => c.caught error .threw
                | none =>
                    let c := c.collect from_ resultData
                    c.settleIf (decide (c.responders.length = expectedResponders.length))
              else c
          | none =>
              match thrown with
              | some error => c.caught error .threw
              | none =>
                  let c := c.push from_ resultData
                  c.settleIf (c.options.amount.any
                    (fun amount => decide (c.allResults.length ≥ amount)))

end RequestCall

namespace Topic

variable (keychain : PeerHash → EncryptionKey → Bool) (s : Topic Q R)

def init : Topic Q R where
  messages := []
  calls := []
  responseResolver := fun _ _ => none
  running := []
  answers := []

def publish (m : TopicMessage Q R) : Topic Q R :=
  { s with messages := s.messages ++ [m] }

/-- `send`. -/
def send (owner : PeerHash) (id : MessageId) (message : Q) (responders : List EncryptionKey) :
    Topic Q R :=
  s.publish ⟨id, owner, seal_ message none responders⟩

def setResolver (peer : PeerHash) (id : MessageId) (c : Option Nat) : Topic Q R :=
  { s with
    responseResolver := Function.update s.responseResolver peer
      (Function.update (s.responseResolver peer) id c) }

/-- `request`, up to where it waits. -/
def request (owner : PeerHash) (id : MessageId) (keypair : EncryptionKey) (request : Q)
    (options : RPCRequestOptions) : Topic Q R :=
  let call : RequestCall Q R :=
    { owner, id, keypair, request, options
      allResults := []
      responders := []
      settled := none }
  let s := s.setResolver owner id (some s.calls.length)
  { s with calls := s.calls ++ [call] }.publish
    ⟨id, owner, seal_ request (some keypair) options.responders⟩

/-- `_onMessage` for a request, with what the response handler returns and the id of the
message that is published with it. -/
def onRequest (peer : PeerHash) (message : TopicMessage Q R) (respondTo : Option EncryptionKey)
    (request : MaybeEncrypted Q) (response : Option R) (id : MessageId) : Topic Q R :=
  match request.decrypt (keychain peer), response with
  | .ok request, some response =>
      let s := { s with
        answers := s.answers ++
          [⟨peer, message.id, message.from_, respondTo, request, response⟩] }
      match respondTo with
      | none => s
      | some respondTo =>
          s.publish ⟨id, peer, .response message.id (.encrypted (.ok response) [respondTo])⟩
  | _, _ => s

/-- `_onMessage` for a response. -/
def onResponse (peer from_ : PeerHash) (requestId : MessageId)
    (response : MaybeEncrypted R) : Topic Q R :=
  match s.responseResolver peer requestId with
  | none => s
  | some c => { s with running := s.running ++ [(c, from_, response)] }

def modifyCall (c : Nat) (f : RequestCall Q R → RequestCall Q R) : Topic Q R :=
  { s with calls := s.calls.modify c f }

end Topic

inductive TopicAction (Q R : Type) where
  | send (owner : PeerHash) (id : MessageId) (message : Q) (responders : List EncryptionKey)
  | request (owner : PeerHash) (id : MessageId) (keypair : EncryptionKey) (request : Q)
      (options : RPCRequestOptions)
  | onRequest (peer : PeerHash) (message : Nat) (response : Option R) (id : MessageId)
  | onResponse (peer : PeerHash) (message : Nat)
  | handle (running : Nat) (isTrusted : Except ReadError Bool) (onResponse : Option ReadError)
  | timeout (call : Nat)
  | abort (call : Nat)
  /-- The call goes on when its promise is settled. -/
  | returns (call : Nat)
  /-- Someone publishes any message. -/
  | inject (message : TopicMessage Q R)

open Topic in
def topicStep (keychain : PeerHash → EncryptionKey → Bool) (s : Topic Q R) :
    TopicAction Q R → Option (Topic Q R)
  | .send owner id message responders => some (s.send owner id message responders)
  | .request owner id keypair request options =>
      some (s.request owner id keypair request options)
  | .onRequest peer message response id =>
      match s.messages[message]? with
      | some ⟨i, from_, .request respondTo request⟩ =>
          some (s.onRequest keychain peer ⟨i, from_, .request respondTo request⟩ respondTo
            request response id)
      | _ => none
  | .onResponse peer message =>
      match s.messages[message]? with
      | some ⟨_, from_, .response requestId response⟩ =>
          some (s.onResponse peer from_ requestId response)
      | _ => none
  | .handle running isTrusted onResponse =>
      match s.running[running]? with
      | some (c, from_, response) =>
          some ({ s with running := s.running.eraseIdx running }.modifyCall c
            (fun call => call.handle from_ response isTrusted onResponse))
      | none => none
  | .timeout call => some (s.modifyCall call (fun c => c.settle .timedOut))
  | .abort call => some (s.modifyCall call (fun c => c.settle .aborted))
  | .returns call =>
      match s.calls[call]? with
      | some c => if c.settled.isSome then some (s.setResolver c.owner c.id none) else none
      | none => none
  | .inject message => some (s.publish message)

def topicMachine (keychain : PeerHash → EncryptionKey → Bool) :
    Lib.Machine (Topic Q R) (TopicAction Q R) where
  init := .init
  step := topicStep keychain

end Requests

end Rpc
end Peerbit
