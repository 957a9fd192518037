import Peerbit.Rpc.ResponseHandler

/-!
# What comes back for a request

Some peers may publish whatever they like, under any id and encrypted to any key.  The
ids of all other messages are new.

A result that is attributed to any other peer is then the answer of this peer under the id
of the request; and where it has answered a message of such a peer, it is the request
itself that it has answered, and could open (`results_of_run`).  The promise of a request
is resolved as soon as there is a result from each of the expected responders, or the
demanded number of results, and the handlers resolve it not sooner (`settled_of_run`).

A handler rejects the promise over a response only if one of the others has published a
message under the id of the request (`failed_of_run`), apart from what the functions of the
caller throw; and one such message is enough, if the caller trusts its peer
(`forged_fails_of_run`).
-/

namespace Peerbit
namespace Rpc

open Lib

section RequestRuns

variable {Q R : Type} {B : PeerHash → Prop} {keychain : PeerHash → EncryptionKey → Bool}

namespace Topic

variable {s : Topic Q R} {peer peer' : PeerHash} {id id' : MessageId} {i : Option Nat}

theorem setResolver_self : (s.setResolver peer id i).responseResolver peer id = i := by
  change Function.update s.responseResolver peer
    (Function.update (s.responseResolver peer) id i) peer id = i
  rw [Function.update_self, Function.update_self]

theorem setResolver_of_ne (hne : peer' ≠ peer ∨ id' ≠ id) :
    (s.setResolver peer id i).responseResolver peer' id' = s.responseResolver peer' id' := by
  change Function.update s.responseResolver peer
    (Function.update (s.responseResolver peer) id i) peer' id' = _
  by_cases hpeer : peer' = peer
  · subst hpeer
    rw [Function.update_self, Function.update_of_ne (hne.resolve_left (fun hne => hne rfl))]
  · rw [Function.update_of_ne hpeer]

theorem setResolver_cases {j : Nat}
    (hj : (s.setResolver peer id i).responseResolver peer' id' = some j) :
    peer' = peer ∧ id' = id ∧ i = some j ∨ s.responseResolver peer' id' = some j := by
  by_cases hsame : peer' = peer ∧ id' = id
  · obtain ⟨rfl, rfl⟩ := hsame
    rw [setResolver_self] at hj
    exact Or.inl ⟨rfl, rfl, hj⟩
  · rw [setResolver_of_ne (not_and_or.mp hsame)] at hj
    exact Or.inr hj

end Topic

/-- Peers that follow the protocol give each message a new id; the others publish what they
like. -/
def Fresh (B : PeerHash → Prop) (s : Topic Q R) : TopicAction Q R → Prop
  | .send _ id _ _ | .request _ id _ _ _ | .onRequest _ _ _ id => ∀ m ∈ s.messages, m.id ≠ id
  | .inject m => B m.from_
  | .onResponse _ _ | .handle _ _ _ | .timeout _ | .abort _ | .returns _ => True

/-- An answer to a message that the peer could open. -/
def Answer.To (keychain : PeerHash → EncryptionKey → Bool) (a : Answer Q R)
    (m : TopicMessage Q R) : Prop :=
  m.id = a.id ∧ m.from_ = a.asker ∧ ∃ request, m.message = .request a.respondTo request ∧
    request.decrypt (keychain a.by_) = .ok a.request

/-- A response that gives an answer. -/
def Answer.GivenBy (a : Answer Q R) (from_ : PeerHash) (id : MessageId)
    (response : MaybeEncrypted R) : Prop :=
  a.by_ = from_ ∧ a.id = id ∧
    ∃ key, a.respondTo = some key ∧ response = .encrypted (.ok a.response) [key]

structure MessagesInv (B : PeerHash → Prop) (keychain : PeerHash → EncryptionKey → Bool)
    (s : Topic Q R) : Prop where
  distinct : ∀ m ∈ s.messages, ∀ m' ∈ s.messages, ¬ B m.from_ → ¬ B m'.from_ → m.id = m'.id →
    m = m'
  responses : ∀ m ∈ s.messages, ¬ B m.from_ → ∀ id r, m.message = .response id r →
    ∃ a ∈ s.answers, a.GivenBy m.from_ id r
  answered : ∀ a ∈ s.answers, ∃ m ∈ s.messages, a.To keychain m

/-- The message of a call. -/
def RequestCall.sealed (c : RequestCall Q R) : TopicMessage Q R :=
  ⟨c.id, c.owner, seal_ c.request (some c.keypair) c.options.responders⟩

/-- One of the others has published a message under an id, or a response to it. -/
def Forged (B : PeerHash → Prop) (s : Topic Q R) (id : MessageId) : Prop :=
  ∃ m ∈ s.messages, B m.from_ ∧ (m.id = id ∨ ∃ response, m.message = .response id response)

/-- What there is of a call on the topic. -/
structure Traced (B : PeerHash → Prop) (s : Topic Q R) (c : RequestCall Q R) : Prop where
  asked : c.sealed ∈ s.messages
  expected : ∀ x ∈ c.allResults, ∀ e, c.expectedResponders = some e → x.2 ∈ e
  results : ∀ x ∈ c.allResults, ¬ B x.2 →
    ∃ a ∈ s.answers, a.by_ = x.2 ∧ a.id = c.id ∧ a.response = x.1
  failed : c.settled = some .failed → Forged B s c.id

/-- The calls, their handlers and where to find these. -/
structure CallsInv (s : Topic Q R) : Prop where
  collected : ∀ c ∈ s.calls, c.Collected
  ids : ∀ (i j : Nat) (c d : RequestCall Q R), s.calls[i]? = some c → s.calls[j]? = some d →
    c.id = d.id → i = j
  resolver : ∀ peer id i, s.responseResolver peer id = some i →
    ∃ c, s.calls[i]? = some c ∧ c.id = id
  listening : ∀ (i : Nat) (c : RequestCall Q R), s.calls[i]? = some c → c.settled = none →
    s.responseResolver c.owner c.id = some i
  running : ∀ x ∈ s.running, ∃ c, s.calls[x.1]? = some c ∧
    ∃ m ∈ s.messages, m.from_ = x.2.1 ∧ m.message = .response c.id x.2.2

structure TopicInv (B : PeerHash → Prop) (keychain : PeerHash → EncryptionKey → Bool)
    (s : Topic Q R) : Prop where
  messages : MessagesInv B keychain s
  traced : ∀ c ∈ s.calls, Traced B s c
  calls : CallsInv s

theorem topicInv_init : TopicInv B keychain (.init : Topic Q R) where
  messages := ⟨nofun, nofun, nofun⟩
  traced := nofun
  calls := ⟨nofun, by simp [Topic.init], nofun, by simp [Topic.init], nofun⟩

variable {s : Topic Q R}

/-- More messages and answers leave no call without a trace. -/
theorem Traced.mono {s' : Topic Q R} {c : RequestCall Q R} (h : Traced B s c)
    (hmessages : s.messages ⊆ s'.messages) (hanswers : s.answers ⊆ s'.answers) :
    Traced B s' c where
  asked := hmessages h.asked
  expected := h.expected
  results := by
    intro x hx hhonest
    obtain ⟨a, ha, hanswer⟩ := h.results x hx hhonest
    exact ⟨a, hanswers ha, hanswer⟩
  failed := by
    intro hfailed
    obtain ⟨m, hm, hforged⟩ := h.failed hfailed
    exact ⟨m, hmessages hm, hforged⟩

/-- A handler that cannot open a response to its request has been handed a forged one, or
the response to a forged request. -/
theorem MessagesInv.forged (h : MessagesInv B keychain s) {c : RequestCall Q R}
    (hasked : c.sealed ∈ s.messages) {m : TopicMessage Q R} (hm : m ∈ s.messages)
    {response : MaybeEncrypted R} (hmessage : m.message = .response c.id response)
    (hother : response.decryptWith c.keypair = .error .other) : Forged B s c.id := by
  by_cases hfrom : B m.from_
  · exact ⟨m, hm, hfrom, Or.inr ⟨response, hmessage⟩⟩
  · obtain ⟨a, ha, _, hid, key, hkey, rfl⟩ := h.responses m hm hfrom c.id response hmessage
    obtain ⟨m', hm', hid', _, request, hrequest, _⟩ := h.answered a ha
    by_cases hasker : B m'.from_
    · exact ⟨m', hm', hasker, Or.inl (hid'.trans hid)⟩
    by_cases howner : B c.owner
    · exact ⟨c.sealed, hasked, howner, Or.inl rfl⟩
    · -- the answered message is that of the call, so the response is to its key
      have hsame := h.distinct m' hm' _ hasked hasker howner (hid'.trans hid)
      rw [hsame] at hrequest
      obtain ⟨hkeypair, _⟩ := RPCMessage.request.inj hrequest
      obtain rfl : c.keypair = key := Option.some.inj (hkeypair.trans hkey)
      simp [MaybeEncrypted.decryptWith] at hother

namespace TopicInv

variable (h : TopicInv B keychain s)

include h

/-- A message is published, by one of the others, or with a new id; and if it is a response,
then it gives an answer. -/
theorem publish {m : TopicMessage Q R} (hfresh : B m.from_ ∨ ∀ m' ∈ s.messages, m'.id ≠ m.id)
    (hresponse : ¬ B m.from_ → ∀ id r, m.message = .response id r →
      ∃ a ∈ s.answers, a.GivenBy m.from_ id r) :
    TopicInv B keychain (s.publish m) := by
  have hsub : s.messages ⊆ (s.publish m).messages := List.subset_append_left _ _
  refine ⟨⟨?_, ?_, ?_⟩, ?_, { h.calls with running := ?_ }⟩
  · intro m₁ h₁ m₂ h₂ hhonest₁ hhonest₂ hid
    have hnew : ∀ m' ∈ s.messages, ¬ B m.from_ → m'.id ≠ m.id :=
      fun m' hm' hhonest => hfresh.resolve_left hhonest m' hm'
    rcases List.mem_append.mp h₁ with hold₁ | hnew₁
    · rcases List.mem_append.mp h₂ with hold₂ | hnew₂
      · exact h.messages.distinct m₁ hold₁ m₂ hold₂ hhonest₁ hhonest₂ hid
      · obtain rfl := List.mem_singleton.mp hnew₂
        exact absurd hid (hnew m₁ hold₁ hhonest₂)
    · obtain rfl := List.mem_singleton.mp hnew₁
      rcases List.mem_append.mp h₂ with hold₂ | hnew₂
      · exact absurd hid.symm (hnew m₂ hold₂ hhonest₁)
      · exact (List.mem_singleton.mp hnew₂).symm
  · intro m' hm' hhonest
    rcases List.mem_append.mp hm' with hold | hnew
    · exact h.messages.responses m' hold hhonest
    · obtain rfl := List.mem_singleton.mp hnew
      exact hresponse hhonest
  · intro a ha
    obtain ⟨m', hm', hto⟩ := h.messages.answered a ha
    exact ⟨m', hsub hm', hto⟩
  · exact fun c hc => (h.traced c hc).mono hsub (List.Subset.refl _)
  · intro x hx
    obtain ⟨c, hc, m', hm', hmessage⟩ := h.calls.running x hx
    exact ⟨c, hc, m', hsub hm', hmessage⟩

/-- An answer is given to a message. -/
theorem answer {a : Answer Q R} {m : TopicMessage Q R} (hm : m ∈ s.messages)
    (hto : a.To keychain m) :
    TopicInv B keychain { s with answers := s.answers ++ [a] } := by
  have hsub : s.answers ⊆ s.answers ++ [a] := List.subset_append_left _ _
  refine ⟨⟨h.messages.distinct, ?_, ?_⟩, ?_, { h.calls with }⟩
  · intro m' hm' hhonest id r hmessage
    obtain ⟨a', ha', hgiven⟩ := h.messages.responses m' hm' hhonest id r hmessage
    exact ⟨a', hsub ha', hgiven⟩
  · intro a' ha'
    rcases List.mem_append.mp ha' with hold | hnew
    · exact h.messages.answered a' hold
    · obtain rfl := List.mem_singleton.mp hnew
      exact ⟨m, hm, hto⟩
  · exact fun c hc => (h.traced c hc).mono (List.Subset.refl _) hsub

/-- Only the handlers and where to find them change. -/
theorem withCalls {t : Topic Q R} (hmessages : t.messages = s.messages)
    (hanswers : t.answers = s.answers) (htraced : ∀ c ∈ t.calls, Traced B s c)
    (hcalls : CallsInv t) : TopicInv B keychain t where
  messages := by
    refine ⟨?_, ?_, ?_⟩
    · rw [hmessages]
      exact h.messages.distinct
    · rw [hmessages, hanswers]
      exact h.messages.responses
    · rw [hmessages, hanswers]
      exact h.messages.answered
  traced := by
    intro c hc
    exact (htraced c hc).mono (by rw [hmessages]; exact List.Subset.refl _)
      (by rw [hanswers]; exact List.Subset.refl _)
  calls := hcalls

/-- A call is made whose message has been published. -/
theorem call {c : RequestCall Q R} (htraced : Traced B s c) (hcollected : c.Collected)
    (hnew : ∀ d ∈ s.calls, d.id ≠ c.id) :
    TopicInv B keychain { s.setResolver c.owner c.id (some s.calls.length) with
      calls := s.calls ++ [c] } := by
  have hold : ∀ (i : Nat) (d : RequestCall Q R), s.calls[i]? = some d →
      (s.calls ++ [c])[i]? = some d := by
    intro i d hd
    rwa [List.getElem?_append_left (List.getElem?_eq_some_iff.mp hd).1]
  have hcases : ∀ (i : Nat) (d : RequestCall Q R), (s.calls ++ [c])[i]? = some d →
      s.calls[i]? = some d ∨ i = s.calls.length ∧ d = c := by
    intro i d hd
    rcases Nat.lt_or_ge i s.calls.length with hlt | hge
    · rw [List.getElem?_append_left hlt] at hd
      exact Or.inl hd
    · rw [List.getElem?_append_right hge] at hd
      obtain ⟨hi, hdc⟩ := List.getElem?_eq_some_iff.mp hd
      have hi : i - s.calls.length < 1 := hi
      exact Or.inr ⟨by omega, by simpa using hdc.symm⟩
  refine h.withCalls rfl rfl ?_ ⟨?_, ?_, ?_, ?_, ?_⟩
  · intro d hd
    rcases List.mem_append.mp hd with hd | hd
    · exact h.traced d hd
    · rwa [List.mem_singleton.mp hd]
  · intro d hd
    rcases List.mem_append.mp hd with hd | hd
    · exact h.calls.collected d hd
    · rwa [List.mem_singleton.mp hd]
  · intro i j d e hd he hid
    rcases hcases i d hd with hdold | ⟨rfl, rfl⟩
    · rcases hcases j e he with heold | ⟨rfl, rfl⟩
      · exact h.calls.ids i j d e hdold heold hid
      · exact absurd hid (hnew d (List.mem_of_getElem? hdold))
    · rcases hcases j e he with heold | ⟨rfl, rfl⟩
      · exact absurd hid.symm (hnew e (List.mem_of_getElem? heold))
      · rfl
  · intro peer id i hi
    rcases Topic.setResolver_cases hi with ⟨rfl, rfl, hlast⟩ | hbefore
    · obtain rfl := Option.some.inj hlast
      exact ⟨c, List.getElem?_concat_length, rfl⟩
    · obtain ⟨d, hd, hid⟩ := h.calls.resolver peer id i hbefore
      exact ⟨d, hold i d hd, hid⟩
  · intro i d hd hnone
    rcases hcases i d hd with hdold | ⟨rfl, rfl⟩
    · refine (Topic.setResolver_of_ne ?_).trans (h.calls.listening i d hdold hnone)
      exact Or.inr (hnew d (List.mem_of_getElem? hdold))
    · exact Topic.setResolver_self
  · intro x hx
    obtain ⟨d, hd, hmessage⟩ := h.calls.running x hx
    exact ⟨d, hold x.1 d hd, hmessage⟩

/-- The variables of a call change, which stays the same call. -/
theorem modifyCall (i : Nat) {f : RequestCall Q R → RequestCall Q R}
    (hcontinues : ∀ c, RequestCall.Continues c (f c))
    (hsettled : ∀ c : RequestCall Q R, (f c).settled = none → c.settled = none)
    (hf : ∀ c, s.calls[i]? = some c → Traced B s c → c.Collected →
      Traced B s (f c) ∧ (f c).Collected) : TopicInv B keychain (s.modifyCall i f) := by
  have hcalls : ∀ (j : Nat) (c : RequestCall Q R), s.calls[j]? = some c →
      ∃ d, (s.modifyCall i f).calls[j]? = some d ∧ d.id = c.id := by
    intro j c hc
    by_cases hj : i = j
    · subst hj
      exact ⟨f c, by simp [Topic.modifyCall, hc], (hcontinues c).id⟩
    · exact ⟨c, by simp [Topic.modifyCall, hj, hc], rfl⟩
  have hcases : ∀ (j : Nat) (d : RequestCall Q R), (s.modifyCall i f).calls[j]? = some d →
      ∃ c, s.calls[j]? = some c ∧ (d = c ∨ i = j ∧ d = f c) := by
    intro j d hd
    change (s.calls.modify i f)[j]? = some d at hd
    rw [List.getElem?_modify] at hd
    obtain ⟨c, hc, hdc⟩ := Option.map_eq_some_iff.mp hd
    refine ⟨c, hc, ?_⟩
    split at hdc
    · rename_i heq
      exact Or.inr ⟨heq, hdc.symm⟩
    · exact Or.inl hdc.symm
  have hmem : ∀ d ∈ (s.modifyCall i f).calls, Traced B s d ∧ d.Collected := by
    intro d hd
    obtain ⟨j, hj⟩ := List.mem_iff_getElem?.mp hd
    obtain ⟨c, hc, hdc⟩ := hcases j d hj
    have hc' : c ∈ s.calls := List.mem_of_getElem? hc
    rcases hdc with rfl | ⟨rfl, rfl⟩
    · exact ⟨h.traced d hc', h.calls.collected d hc'⟩
    · exact hf c hc (h.traced c hc') (h.calls.collected c hc')
  refine h.withCalls rfl rfl (fun c hc => (hmem c hc).1) ⟨fun c hc => (hmem c hc).2, ?_, ?_, ?_, ?_⟩
  · intro j k d e hd he hid
    obtain ⟨c, hc, hdc⟩ := hcases j d hd
    obtain ⟨c', hc', hec⟩ := hcases k e he
    refine h.calls.ids j k c c' hc hc' ?_
    have hdid : d.id = c.id := by
      rcases hdc with rfl | ⟨_, rfl⟩
      · rfl
      · exact (hcontinues c).id
    have heid : e.id = c'.id := by
      rcases hec with rfl | ⟨_, rfl⟩
      · rfl
      · exact (hcontinues c').id
    rw [← hdid, hid, heid]
  · intro peer id j hj
    obtain ⟨c, hc, rfl⟩ := h.calls.resolver peer id j hj
    exact hcalls j c hc
  · intro j d hd hnone
    obtain ⟨c, hc, rfl | ⟨_, rfl⟩⟩ := hcases j d hd
    · exact h.calls.listening j d hc hnone
    · rw [(hcontinues c).owner, (hcontinues c).id]
      exact h.calls.listening j c hc (hsettled c hnone)
  · intro x hx
    obtain ⟨c, hc, m, hm, hfrom, hmessage⟩ := h.calls.running x hx
    obtain ⟨d, hd, hid⟩ := hcalls x.1 c hc
    exact ⟨d, hd, m, hm, hfrom, by rw [hid]; exact hmessage⟩

theorem onRequest {peer : PeerHash} {m : TopicMessage Q R} (hm : m ∈ s.messages)
    {respondTo : Option EncryptionKey} {request : MaybeEncrypted Q}
    (hmessage : m.message = .request respondTo request) {response : Option R} {id : MessageId}
    (hfresh : ∀ m' ∈ s.messages, m'.id ≠ id) :
    TopicInv B keychain (s.onRequest keychain peer m respondTo request response id) := by
  unfold Topic.onRequest
  split
  · rename_i request' response hdecrypt
    have hanswer := h.answer (a := ⟨peer, m.id, m.from_, respondTo, request', response⟩) hm
      ⟨rfl, rfl, request, hmessage, hdecrypt⟩
    cases respondTo with
    | none => exact hanswer
    | some respondTo =>
        refine hanswer.publish (Or.inr hfresh) ?_
        intro _ id' r hresponse
        obtain ⟨rfl, rfl⟩ := RPCMessage.response.inj hresponse
        exact ⟨_, List.mem_append_right _ (List.mem_singleton.mpr rfl), rfl, rfl, _, rfl, rfl⟩
  · exact h

/-- A response is handed to the handler of its request. -/
theorem onResponse {peer : PeerHash} {m : TopicMessage Q R} (hm : m ∈ s.messages)
    {requestId : MessageId} {response : MaybeEncrypted R}
    (hmessage : m.message = .response requestId response) :
    TopicInv B keychain (s.onResponse peer m.from_ requestId response) := by
  unfold Topic.onResponse
  split
  · exact h
  · rename_i i hi
    refine h.withCalls rfl rfl h.traced { h.calls with running := ?_ }
    intro x hx
    rcases List.mem_append.mp hx with hold | hnew
    · exact h.calls.running x hold
    · obtain rfl := List.mem_singleton.mp hnew
      obtain ⟨c, hc, rfl⟩ := h.calls.resolver peer requestId i hi
      exact ⟨c, hc, m, hm, rfl, hmessage⟩

/-- A handler that has been called ends. -/
theorem handle {k i : Nat} {from_ : PeerHash} {response : MaybeEncrypted R}
    (hk : s.running[k]? = some (i, from_, response)) (isTrusted : Except ReadError Bool)
    (onResponse : Option ReadError) :
    TopicInv B keychain ({ s with running := s.running.eraseIdx k }.modifyCall i
      (fun c => c.handle from_ response isTrusted onResponse)) := by
  obtain ⟨c, hc, m, hm, hfrom, hmessage⟩ := h.calls.running _ (List.mem_of_getElem? hk)
  have hfrom : m.from_ = from_ := hfrom
  have hless : TopicInv B keychain { s with running := s.running.eraseIdx k } :=
    h.withCalls rfl rfl h.traced { h.calls with
      running := fun x hx => h.calls.running x (List.mem_of_mem_eraseIdx hx) }
  refine hless.modifyCall i (fun c => RequestCall.handle_continues)
    (fun c => RequestCall.handle_settled) ?_
  intro c' hc' htraced hcollected
  obtain rfl : c = c' := Option.some.inj (hc.symm.trans hc')
  have hsame : c.Continues (c.handle from_ response isTrusted onResponse) :=
    RequestCall.handle_continues
  refine ⟨⟨?_, ?_, ?_, ?_⟩, hcollected.handle⟩
  · unfold RequestCall.sealed
    rw [hsame.id, hsame.owner, hsame.request, hsame.keypair, hsame.options]
    exact htraced.asked
  · intro x hx e he
    rw [hsame.expectedResponders] at he
    rcases RequestCall.mem_allResults_handle hx with hold | ⟨hx, _, hexpected⟩
    · exact htraced.expected x hold e he
    · rw [hx]
      exact hexpected e he
  · intro x hx hhonest
    rw [hsame.id]
    rcases RequestCall.mem_allResults_handle hx with hold | ⟨hxfrom, hdecrypt, _⟩
    · exact htraced.results x hold hhonest
    · -- the response was published by this peer, so it has given this answer
      rw [hxfrom, ← hfrom] at hhonest
      obtain ⟨a, ha, hby, hid, key, _, rfl⟩ :=
        h.messages.responses m hm hhonest c.id response hmessage
      have hdata : (if key = c.keypair then .ok a.response else .error ReadError.other) =
          Except.ok x.1 := hdecrypt
      split at hdata
      · exact ⟨a, ha, by rw [hby, hfrom, hxfrom], hid, Except.ok.inj hdata⟩
      · cases hdata
  · intro hfailed
    rw [hsame.id]
    rcases RequestCall.handle_failed hfailed with hold | hother
    · exact htraced.failed hold
    · exact h.messages.forged htraced.asked hm hmessage hother

theorem settle (i : Nat) {how : Settled} (hanswered : how ≠ .answered) (hfailed : how ≠ .failed) :
    TopicInv B keychain (s.modifyCall i (fun c => c.settle how)) := by
  refine h.modifyCall i (fun _ => ⟨rfl, rfl, rfl, rfl, rfl⟩)
    (fun c hnone => absurd hnone (RequestCall.settle_settled_ne_none how)) ?_
  intro c _ htraced hcollected
  refine ⟨{ htraced with failed := fun hsettled => htraced.failed ?_ },
    hcollected.settle hanswered⟩
  exact RequestCall.settled_of_settle hsettled (Ne.symm hfailed)

/-- A call that has been settled returns. -/
theorem returns {i : Nat} {c : RequestCall Q R} (hc : s.calls[i]? = some c)
    (hsettled : c.settled.isSome = true) :
    TopicInv B keychain (s.setResolver c.owner c.id none) := by
  refine h.withCalls rfl rfl h.traced { h.calls with resolver := ?_, listening := ?_ }
  · intro peer id j hj
    rcases Topic.setResolver_cases hj with ⟨_, _, hj⟩ | hj
    · cases hj
    · exact h.calls.resolver peer id j hj
  · intro j d hd hnone
    refine (Topic.setResolver_of_ne (Or.inr fun hid => ?_)).trans
      (h.calls.listening j d hd hnone)
    obtain rfl := h.calls.ids j i d c hd hc hid
    obtain rfl := Option.some.inj (hd.symm.trans hc)
    rw [hnone] at hsettled
    cases hsettled

theorem step {t : Topic Q R} {action : TopicAction Q R} (hguard : Fresh B s action)
    (hstep : (topicMachine keychain).step s action = some t) : TopicInv B keychain t := by
  cases action with
  | send owner id message responders =>
      obtain rfl := Option.some.inj hstep
      exact h.publish (Or.inr hguard) nofun
  | request owner id keypair request options =>
      obtain rfl := Option.some.inj hstep
      let c : RequestCall Q R := ⟨owner, id, keypair, request, options, [], [], none⟩
      have hpublished := h.publish (m := c.sealed) (Or.inr hguard) nofun
      refine hpublished.call (c := c)
        ⟨List.mem_append_right _ (List.mem_singleton.mpr rfl), nofun, nofun, nofun⟩
        { nodup := List.nodup_nil
          expected := fun _ _ => List.nil_subset _
          mem := by simp [c]
          answered := nofun
          waiting := fun _ hne => absurd rfl hne } ?_
      exact fun d hd => hguard _ (h.traced d hd).asked
  | onRequest peer k response id =>
      simp only [topicMachine, topicStep] at hstep
      split at hstep
      · rename_i i from_ respondTo request hk
        obtain rfl := Option.some.inj hstep
        exact h.onRequest (List.mem_of_getElem? hk) rfl hguard
      · cases hstep
  | onResponse peer k =>
      simp only [topicMachine, topicStep] at hstep
      split at hstep
      · rename_i i from_ requestId response hk
        obtain rfl := Option.some.inj hstep
        exact h.onResponse (m := ⟨i, from_, .response requestId response⟩)
          (List.mem_of_getElem? hk) rfl
      · cases hstep
  | handle k isTrusted onResponse =>
      simp only [topicMachine, topicStep] at hstep
      split at hstep
      · rename_i hk
        obtain rfl := Option.some.inj hstep
        exact h.handle hk isTrusted onResponse
      · cases hstep
  | timeout i =>
      obtain rfl := Option.some.inj hstep
      exact h.settle i nofun nofun
  | abort i =>
      obtain rfl := Option.some.inj hstep
      exact h.settle i nofun nofun
  | returns i =>
      simp only [topicMachine, topicStep] at hstep
      split at hstep
      · rename_i c hc
        obtain ⟨hsettled, hstep⟩ := Option.ite_none_right_eq_some.mp hstep
        obtain rfl := Option.some.inj hstep
        exact h.returns hc hsettled
      · cases hstep
  | inject m =>
      obtain rfl := Option.some.inj hstep
      exact h.publish (Or.inl hguard) (fun hhonest => absurd hguard hhonest)

end TopicInv

theorem topicInv_of_run (hrun : (topicMachine keychain).Run (Fresh B) s) :
    TopicInv B keychain s :=
  hrun.invariant topicInv_init (fun _ _ _ h hguard hstep => h.step hguard hstep)

/-- In every run in which some peers publish what they like, every result of a request is
from a peer that is expected to respond, and if it is from one of the others, then it is
its answer under the id of the request.  The answer is to the request itself if it is to a
message of one of the others, and the peer had a key that the request was encrypted to, if
any. -/
theorem results_of_run (hrun : (topicMachine keychain).Run (Fresh B) s) {c : RequestCall Q R}
    (hc : c ∈ s.calls) {r : R} {from_ : PeerHash} (hr : (r, from_) ∈ c.allResults) :
    (∀ e, c.expectedResponders = some e → from_ ∈ e) ∧
      (¬ B from_ → ∃ a ∈ s.answers, a.by_ = from_ ∧ a.id = c.id ∧ a.response = r ∧
        (¬ B c.owner → ¬ B a.asker → a.asker = c.owner ∧ a.request = c.request ∧
          (c.options.responders ≠ [] → ∃ key ∈ c.options.responders, keychain from_ key))) := by
  have h := topicInv_of_run hrun
  have htraced := h.traced c hc
  refine ⟨fun e he => htraced.expected _ hr e he, fun hhonest => ?_⟩
  obtain ⟨a, ha, hby, hid, hresponse⟩ := htraced.results _ hr hhonest
  have hby : a.by_ = from_ := hby
  refine ⟨a, ha, hby, hid, hresponse, fun howner hasker => ?_⟩
  obtain ⟨m, hm, hmid, hmfrom, request, hmessage, hdecrypt⟩ := h.messages.answered a ha
  -- the message that was answered is that of the call, since both are by honest peers
  have hsame := h.messages.distinct m hm _ htraced.asked (by rwa [hmfrom]) howner
    (hmid.trans hid)
  subst hsame
  obtain ⟨_, rfl⟩ := RPCMessage.request.inj hmessage
  refine ⟨hmfrom.symm, ?_⟩
  rw [← hby]
  split at hdecrypt
  · change (if c.options.responders.any (keychain a.by_) then .ok c.request
      else .error ReadError.access) = Except.ok a.request at hdecrypt
    split at hdecrypt
    · rename_i hkey
      exact ⟨(Except.ok.inj hdecrypt).symm, fun _ => List.any_eq_true.mp hkey⟩
    · cases hdecrypt
  · rename_i hempty
    refine ⟨(Except.ok.inj hdecrypt).symm, fun hne => ?_⟩
    exact absurd (List.length_pos_iff.mpr hne) hempty

/-- In every run, if a response has settled a request, then there is a result of each
expected responder, or of the demanded number; and as soon as results are in that the
request waits for, it is settled. -/
theorem settled_of_run (hrun : (topicMachine keychain).Run (Fresh B) s) {c : RequestCall Q R}
    (hc : c ∈ s.calls) :
    (c.settled = some .answered → c.Enough) ∧
      (c.allResults ≠ [] → c.Enough → c.settled ≠ none) := by
  have h := (topicInv_of_run hrun).calls.collected c hc
  exact ⟨h.answered, fun hne henough hnone => h.waiting hnone hne henough⟩

/-- In every run a response handler fails a request over a response only if one of the others
has published a message under its id, or a response to it. -/
theorem failed_of_run (hrun : (topicMachine keychain).Run (Fresh B) s) {c : RequestCall Q R}
    (hc : c ∈ s.calls) (hfailed : c.settled = some .failed) : Forged B s c.id :=
  ((topicInv_of_run hrun).traced c hc).failed hfailed

/-- In every run, whoever publishes a response to a request that still waits, encrypted to
another key than its, can make it fail, whatever results it has, unless the request has an
`isTrusted` that does not accept the peer.  The handler does not ignore what it cannot open:
the keypair as a resolver throws. -/
theorem forged_fails_of_run (hrun : (topicMachine keychain).Run (Fresh B) s) {i : Nat}
    {c : RequestCall Q R} (hc : s.calls[i]? = some c) (hwaits : c.settled = none)
    {m : TopicMessage Q R} (hm : B m.from_) {content : Except ReadError R} {key : EncryptionKey}
    {keys : List EncryptionKey} (hkey : key ≠ c.keypair)
    (hmessage : m.message = .response c.id (.encrypted content (key :: keys)))
    {isTrusted : Except ReadError Bool} (htrusted : c.options.isTrusted → isTrusted = .ok true)
    (onResponse : Option ReadError) :
    ∃ t, (topicMachine keychain).Run (Fresh B) t ∧
      (topicMachine keychain).exec s [.inject m, .onResponse c.owner s.messages.length,
        .handle s.running.length isTrusted onResponse] = some t ∧
      t.calls[i]? = some { c with settled := some .failed } := by
  have hresolver := (topicInv_of_run hrun).calls.listening i c hc hwaits
  have hinject : (topicMachine keychain).step s (.inject m) = some (s.publish m) := rfl
  have hresponse : (topicMachine keychain).step (s.publish m)
      (.onResponse c.owner s.messages.length) = some { s.publish m with
        running := s.running ++ [(i, m.from_, .encrypted content (key :: keys))] } := by
    obtain ⟨id, from_, message⟩ := m
    obtain rfl : message = _ := hmessage
    simp only [topicMachine, topicStep, Topic.publish, Topic.onResponse,
      List.getElem?_concat_length, hresolver]
  have hhandle : (topicMachine keychain).step { s.publish m with
        running := s.running ++ [(i, m.from_, .encrypted content (key :: keys))] }
      (.handle s.running.length isTrusted onResponse) = some ({ s.publish m with
        running := s.running }.modifyCall i (fun call =>
          call.handle m.from_ (.encrypted content (key :: keys)) isTrusted onResponse)) := by
    simp only [topicMachine, topicStep, List.getElem?_concat_length]
    rw [List.eraseIdx_append_of_length_le (Nat.le_refl _), Nat.sub_self]
    simp
  have hrun₁ := hrun.step (a := TopicAction.inject m) hm hinject
  have hrun₂ := hrun₁.step (a := TopicAction.onResponse c.owner s.messages.length) trivial hresponse
  refine ⟨_, hrun₂.step (a := TopicAction.handle s.running.length isTrusted onResponse)
    trivial hhandle, ?_, ?_⟩
  · simp only [Machine.exec, hinject, hresponse, hhandle, Option.bind_some]
  · have haccepted : (if c.options.isTrusted then isTrusted else .ok true) = .ok true := by
      split
      · rename_i htrue
        exact htrusted htrue
      · rfl
    have hfailed : c.handle m.from_ (.encrypted content (key :: keys)) isTrusted onResponse =
        { c with settled := some .failed } := by
      simp [RequestCall.handle, haccepted, MaybeEncrypted.decryptWith, RequestCall.caught,
        RequestCall.settle, hkey, hwaits]
    rw [← hfailed]
    change (s.calls.modify i _)[i]? = _
    rw [List.getElem?_modify_eq, hc]
    rfl

end RequestRuns

/-! ### A request to two peers, and another response under its id -/

namespace TwoResponders

/-- All but the intruder give their messages new ids. -/
def fresh (s : Topic String Nat) : TopicAction String Nat → Bool
  | .send _ id _ _ | .request _ id _ _ _ | .onRequest _ _ _ id =>
      s.messages.all (fun m => m.id != id)
  | .inject m => m.from_ == "intruder"
  | _ => true

theorem fresh_of_fresh (s : Topic String Nat) (action : TopicAction String Nat)
    (h : fresh s action = true) : Fresh (· = "intruder") s action := by
  have hall : ∀ id, s.messages.all (fun m => m.id != id) = true → ∀ m ∈ s.messages, m.id ≠ id :=
    fun id h m hm => by simpa using List.all_eq_true.mp h m hm
  cases action with
  | send owner id message responders => exact hall id h
  | request owner id keypair request options => exact hall id h
  | onRequest peer k response id => exact hall id h
  | inject m =>
      change m.from_ = "intruder"
      simpa [fresh] using h
  | onResponse peer k => trivial
  | handle k isTrusted onResponse => trivial
  | timeout i => trivial
  | abort i => trivial
  | returns i => trivial

/-- The keys 1 and 2 are those of `b` and `c`. -/
def keychain (peer : PeerHash) (key : EncryptionKey) : Bool :=
  (peer == "b" && key == 1) || (peer == "c" && key == 2)

def options : RPCRequestOptions := ⟨none, true, false, ["b", "c"], [1, 2]⟩

def actions : List (TopicAction String Nat) :=
  [.request "a" 7 100 "q" options, .onRequest "c" 0 (some 30) 8, .onRequest "b" 0 (some 20) 9,
    .inject ⟨7, "intruder", .response 7 (.encrypted (.ok 0) [100])⟩, .onResponse "a" 2,
    .onResponse "a" 3, .onResponse "a" 1, .handle 1 (.ok true) none, .handle 0 (.ok true) none,
    .handle 0 (.ok true) none, .returns 0]

theorem run_actions :
    ∃ s : Topic String Nat, (topicMachine keychain).Run (Fresh (· = "intruder")) s ∧
      ∃ c ∈ s.calls, (20, "b") ∈ c.allResults ∧ c.settled = some .answered := by
  have hexec : ((topicMachine keychain).execIf fresh (.init : Topic String Nat) actions).map
      (fun s => s.calls.any (fun c => decide ((20, "b") ∈ c.allResults) &&
        decide (c.settled = some .answered))) = some true := by
    decide +kernel
  obtain ⟨s, hs, hany⟩ := Option.map_eq_some_iff.mp hexec
  obtain ⟨c, hc, hholds⟩ := List.any_eq_true.mp hany
  obtain ⟨hmem, hsettled⟩ := (Bool.and_eq_true _ _).mp hholds
  exact ⟨s, (Machine.Run.of_execIf .init actions hs).imp fresh_of_fresh, c, hc,
    of_decide_eq_true hmem, of_decide_eq_true hsettled⟩

theorem results_of_run_actions :
    ∃ s : Topic String Nat, (topicMachine keychain).Run (Fresh (· = "intruder")) s ∧
      ∃ c ∈ s.calls, (20, "b") ∈ c.allResults ∧
        (∀ e, c.expectedResponders = some e → "b" ∈ e) ∧
        (¬ "b" = "intruder" → ∃ a ∈ s.answers, a.by_ = "b" ∧ a.id = c.id ∧ a.response = 20 ∧
          (¬ c.owner = "intruder" → ¬ a.asker = "intruder" →
            a.asker = c.owner ∧ a.request = c.request ∧
              (c.options.responders ≠ [] →
                ∃ key ∈ c.options.responders, keychain "b" key))) := by
  obtain ⟨s, hrun, c, hc, hmem, _⟩ := run_actions
  exact ⟨s, hrun, c, hc, hmem, results_of_run hrun hc hmem⟩

theorem settled_of_run_actions :
    ∃ s : Topic String Nat, (topicMachine keychain).Run (Fresh (· = "intruder")) s ∧
      ∃ c ∈ s.calls, c.settled = some .answered ∧
        (c.settled = some .answered → c.Enough) ∧
        (c.allResults ≠ [] → c.Enough → c.settled ≠ none) := by
  obtain ⟨s, hrun, c, hc, _, hsettled⟩ := run_actions
  exact ⟨s, hrun, c, hc, hsettled, settled_of_run hrun hc⟩

/-- The intruder publishes a response to the request, encrypted to a key of its own. -/
def forged : TopicMessage String Nat := ⟨8, "intruder", .response 7 (.encrypted (.ok 0) [5])⟩

theorem failed_of_run_forged :
    ∃ s : Topic String Nat, (topicMachine keychain).Run (Fresh (· = "intruder")) s ∧
      ∃ c ∈ s.calls, c.settled = some .failed ∧ Forged (· = "intruder") s c.id := by
  have hexec : ((topicMachine keychain).execIf fresh (.init : Topic String Nat)
      [.request "a" 7 100 "q" options, .inject forged, .onResponse "a" 1,
        .handle 0 (.ok true) none]).map
      (fun s => s.calls.any (fun c => decide (c.settled = some .failed))) = some true := by
    decide +kernel
  obtain ⟨s, hs, hany⟩ := Option.map_eq_some_iff.mp hexec
  obtain ⟨c, hc, hfailed⟩ := List.any_eq_true.mp hany
  have hrun : (topicMachine keychain).Run (Fresh (· = "intruder")) s :=
    (Machine.Run.of_execIf .init _ hs).imp fresh_of_fresh
  exact ⟨s, hrun, c, hc, of_decide_eq_true hfailed,
    failed_of_run hrun hc (of_decide_eq_true hfailed)⟩

theorem forged_fails_of_run_request :
    ∃ t : Topic String Nat, (topicMachine keychain).Run (Fresh (· = "intruder")) t ∧
      (topicMachine keychain).exec (Topic.init.request "a" 7 100 "q" options)
        [.inject forged, .onResponse "a" 1, .handle 0 (.ok true) none] = some t ∧
      t.calls[0]? = some ⟨"a", 7, 100, "q", options, [], [], some .failed⟩ :=
  forged_fails_of_run (B := (· = "intruder"))
    (.step (a := TopicAction.request "a" 7 100 "q" options) .init nofun rfl)
    (c := ⟨"a", 7, 100, "q", options, [], [], none⟩) rfl rfl (m := forged) rfl
    (by decide : (5 : EncryptionKey) ≠ 100) rfl (fun _ => rfl) none

end TwoResponders

end Rpc
end Peerbit
