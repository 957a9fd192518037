import Peerbit.Transport.DataMessages

/-!
# Copies that were altered in transit

The counter of a message grows with every copy, also with one that does not
verify.  Since only the copy that finds the counter at zero is dispatched, the
first copy decides whether the data of the message is ever dispatched.
-/

namespace Peerbit
namespace Transport

/-- The copies that were dispatched. -/
def dispatched (effects : List Effect) : List Copy :=
  effects.filterMap (fun effect =>
    match effect with
    | .dispatch copy => some copy
    | _ => none)

@[simp] theorem dispatched_nil : dispatched [] = [] := rfl

@[simp] theorem dispatched_append (xs ys : List Effect) :
    dispatched (xs ++ ys) = dispatched xs ++ dispatched ys :=
  List.filterMap_append

@[simp] theorem dispatched_dispatch (copy : Copy) :
    dispatched [.dispatch copy] = [copy] := rfl

@[simp] theorem dispatched_relay (message : DataMessage)
    (to_ : Option (List KeyHash)) : dispatched [.relay message to_] = [] := rfl

@[simp] theorem dispatched_acknowledge (to_ : KeyHash) (seenCounter : Nat)
    (trace : List KeyHash) (rest : List Effect) :
    dispatched (.acknowledge to_ seenCounter trace :: rest) = dispatched rest :=
  rfl

section Handling

variable (signs : SignatureWithKey → MessageHeader → Option Bytes → Bool)
variable (node : DirectStream)

/-- The code's `isForMe`, for the kind of node and of message. -/
def isForMe (copy : Copy) : Bool :=
  match node.pubsub, copy.message.data with
  | some sub, some (byte :: bytes) =>
      match sub.decode (byte :: bytes) with
      | some (.data topics strict _) =>
          subIsForMe node sub copy.message topics strict
      | _ => false
  | _, _ => streamIsForMe node copy

/-! ### What is dispatched of a copy -/

theorem dispatched_ite_relay (c : Prop) [Decidable c] (message : DataMessage)
    (to_ : Option (List KeyHash)) :
    dispatched (if c then [.relay message to_] else []) = [] := by
  split
  · rfl
  · rfl

theorem dispatched_forward (copy : Copy) (seenBefore : Nat) :
    dispatched (forward node copy seenBefore) = [] := by
  unfold forward
  split
  · rfl
  · split
    · exact dispatched_ite_relay ..
    · exact dispatched_ite_relay ..

theorem dispatched_subForward (sub : DirectSub) (message : DataMessage)
    (topics : List String) (strict : Bool) :
    dispatched (subForward node sub message topics strict) = [] := by
  unfold subForward
  exact dispatched_ite_relay ..

theorem dispatched_acknowledge_or (copy : Copy) (seenBefore redundancy : Nat)
    (rest : List Effect) :
    dispatched (acknowledge node copy seenBefore redundancy rest) =
        dispatched rest ∨
      copy.message.signatures = none ∧
        dispatched (acknowledge node copy seenBefore redundancy rest) = [] := by
  unfold acknowledge
  split
  · cases copy.message.signatures with
    | none => exact .inr ⟨rfl, rfl⟩
    | some signatures => exact .inl rfl
  · exact .inl rfl

/-- An acknowledgement dispatches nothing, and what comes after it is done
unless the message has no signatures. -/
theorem dispatched_maybeAcknowledgeMessage (copy : Copy) (seenBefore : Nat)
    (rest : List Effect) :
    dispatched (maybeAcknowledgeMessage node copy seenBefore rest) =
        dispatched rest ∨
      copy.message.signatures = none ∧
        dispatched (maybeAcknowledgeMessage node copy seenBefore rest) = [] := by
  unfold maybeAcknowledgeMessage
  cases copy.message.mode with
  | silent to_ redundancy => exact .inl rfl
  | acknowledge to_ redundancy => exact dispatched_acknowledge_or ..
  | seek to_ redundancy => exact dispatched_acknowledge_or ..
  | anyWhere => exact .inl rfl

variable {signs node} {copy : Copy} {seenBefore : Nat}

theorem signatures_of_verify (h : copy.message.verify signs copy.time = true) :
    copy.message.signatures ≠ none := by
  intro hnone
  simp [DataMessage.verify, hnone] at h

/-- The condition under which a copy is dispatched. -/
structure Dispatches
    (signs : SignatureWithKey → MessageHeader → Option Bytes → Bool)
    (node : DirectStream) (copy : Copy) (seenBefore : Nat) : Prop where
  first : seenBefore = 0
  shouldIgnore : shouldIgnore node copy.message seenBefore = false
  isForMe : isForMe node copy = true
  verify : copy.message.verify signs copy.time = true
  data : copy.message.data.isSome = true

theorem dispatched_maybeAcknowledgeMessage_of_verify
    (h : copy.message.verify signs copy.time = true) (rest : List Effect) :
    dispatched (maybeAcknowledgeMessage node copy seenBefore rest) =
      dispatched rest :=
  (dispatched_maybeAcknowledgeMessage node copy seenBefore rest).resolve_right
    (fun hnone => signatures_of_verify h hnone.1)

theorem dispatched_streamOnDataMessage
    (hme : isForMe node copy = streamIsForMe node copy) :
    (Dispatches signs node copy seenBefore ∧
        dispatched (streamOnDataMessage signs node copy seenBefore) = [copy]) ∨
      (¬ Dispatches signs node copy seenBefore ∧
        dispatched (streamOnDataMessage signs node copy seenBefore) = []) := by
  unfold streamOnDataMessage
  split
  · rename_i hignore
    exact .inr ⟨fun h => (nomatch hignore.symm.trans h.shouldIgnore), rfl⟩
  · rename_i hignore
    split
    · rename_i hfor
      split
      · rename_i hverify
        rw [dispatched_maybeAcknowledgeMessage_of_verify hverify,
          dispatched_append, dispatched_forward, List.append_nil]
        by_cases hfirst : seenBefore = 0 ∧ copy.message.data.isSome = true
        · rw [if_pos hfirst]
          exact .inl ⟨⟨hfirst.1, Bool.eq_false_iff.mpr hignore, hme.trans hfor,
            hverify, hfirst.2⟩, rfl⟩
        · rw [if_neg hfirst]
          exact .inr ⟨fun h => hfirst ⟨h.first, h.data⟩, rfl⟩
      · rename_i hverify
        exact .inr ⟨fun h => hverify h.verify, rfl⟩
    · rename_i hfor
      exact .inr ⟨fun h => hfor (hme.symm.trans h.isForMe),
        dispatched_forward ..⟩

/-- A message with data of topics; one of mode `AnyWhere` throws. -/
theorem dispatched_subOnDataMessage {sub : DirectSub} {byte : UInt8}
    {bytes : Bytes} (hsub : node.pubsub = some sub)
    (hdata : copy.message.data = some (byte :: bytes)) :
    (Dispatches signs node copy seenBefore ∧ copy.message.mode ≠ .anyWhere ∧
        dispatched (subOnDataMessage signs node sub copy seenBefore) =
          [copy]) ∨
      ((¬ Dispatches signs node copy seenBefore ∨
          copy.message.mode = .anyWhere) ∧
        dispatched (subOnDataMessage signs node sub copy seenBefore) = []) := by
  simp only [subOnDataMessage, hdata]
  split
  · rename_i hignore
    refine .inr ⟨.inl fun h => ?_, rfl⟩
    cases hignore.symm.trans h.shouldIgnore
  · rename_i hignore
    split
    · rename_i topics strict data hdecode
      have hme : isForMe node copy =
          subIsForMe node sub copy.message topics strict := by
        simp only [isForMe, hsub, hdata, hdecode]
      split
      · rename_i hmode
        exact .inr ⟨.inr hmode, rfl⟩
      · rename_i hmode
        split
        · rename_i hnot
          exact .inr ⟨.inl fun h => hnot.2 h.verify, rfl⟩
        · rename_i hverify
          by_cases hfirst :
              subIsForMe node sub copy.message topics strict = true ∧
                seenBefore = 0
          · have hverified : copy.message.verify signs copy.time = true := by
              by_contra hnot
              exact hverify ⟨hfirst.1, hnot⟩
            rw [dispatched_maybeAcknowledgeMessage_of_verify hverified,
              dispatched_append, dispatched_subForward, List.append_nil,
              if_pos hfirst]
            exact .inl ⟨⟨hfirst.2, Bool.eq_false_iff.mpr hignore,
              hme.trans hfirst.1, hverified, by rw [hdata]; rfl⟩, hmode, rfl⟩
          · refine .inr ⟨.inl fun h => hfirst ⟨hme.symm.trans h.isForMe,
              h.first⟩, ?_⟩
            rw [if_neg hfirst, List.nil_append]
            rcases dispatched_maybeAcknowledgeMessage node copy seenBefore
              (subForward node sub copy.message topics strict) with h | h
            · rw [h, dispatched_subForward]
            · exact h.2
    · rename_i hdecode
      refine .inr ⟨.inl fun h => ?_, rfl⟩
      have hme := h.isForMe
      simp only [isForMe, hsub, hdata] at hme
      cases hme

theorem dispatched_onDataMessage
    (signs : SignatureWithKey → MessageHeader → Option Bytes → Bool)
    (node : DirectStream) (copy : Copy) (seenBefore : Nat) :
    (Dispatches signs node copy seenBefore ∧
        dispatched (onDataMessage signs node copy seenBefore) = [copy]) ∨
      ((¬ Dispatches signs node copy seenBefore ∨
          copy.message.mode = .anyWhere) ∧
        dispatched (onDataMessage signs node copy seenBefore) = []) := by
  have hstream : isForMe node copy = streamIsForMe node copy →
      (Dispatches signs node copy seenBefore ∧
          dispatched (streamOnDataMessage signs node copy seenBefore) =
            [copy]) ∨
        ((¬ Dispatches signs node copy seenBefore ∨
            copy.message.mode = .anyWhere) ∧
          dispatched (streamOnDataMessage signs node copy seenBefore) = []) :=
    fun hme => (dispatched_streamOnDataMessage hme).imp_right
      (fun h => ⟨.inl h.1, h.2⟩)
  unfold onDataMessage
  cases hsub : node.pubsub with
  | none => exact hstream (by simp only [isForMe, hsub])
  | some sub =>
      cases hdata : copy.message.data with
      | none =>
          simp only [subOnDataMessage, hdata]
          exact hstream (by simp only [isForMe, hsub, hdata])
      | some data =>
          cases data with
          | nil =>
              simp only [subOnDataMessage, hdata]
              exact hstream (by simp only [isForMe, hsub, hdata])
          | cons byte bytes =>
              exact (dispatched_subOnDataMessage hsub hdata).imp_left
                (fun h => ⟨h.1, h.2.2⟩)

/-- Copies that find their counter above zero are not dispatched. -/
theorem dispatched_onDataMessages_of_seen {seenCache : Bytes → Option Nat}
    {key : Bytes} {copies : List Copy} {n : Nat}
    (hkey : ∀ copy ∈ copies, getMsgId copy.message = key)
    (hseen : seenCache key = some (n + 1)) :
    dispatched (onDataMessages signs node seenCache copies) = [] := by
  induction copies generalizing seenCache n with
  | nil => rfl
  | cons copy copies ih =>
      have hcopy := hkey copy List.mem_cons_self
      rw [onDataMessages, modifySeenCache, hcopy, hseen, dispatched_append]
      rw [ih (fun c hc => hkey c (List.mem_cons_of_mem _ hc))
        (Function.update_self ..), List.append_nil]
      rcases dispatched_onDataMessage signs node copy (n + 1) with h | h
      · exact nomatch h.1.first
      · exact h.2

end Handling

/-! ### All copies of a message -/

section Survival

variable (signs : SignatureWithKey → MessageHeader → Option Bytes → Bool)
variable (node : DirectStream) (m : DataMessage)

/-- The copy is the message for this node: what is signed is the same, and the
kind of delivery.  Nodes on the way add signatures and change the receivers. -/
structure Unaltered (copy : Copy) : Prop where
  header : copy.message.header = m.header
  data : copy.message.data = m.data
  mode : copy.message.mode.withReceivers [] = m.mode.withReceivers []
  isForMe : isForMe node copy = true

/-- An unaltered copy verifies, and has not passed through this node. -/
structure Genuine (copy : Copy) : Prop where
  verify : copy.message.verify signs copy.time = true
  unaltered : Unaltered node m copy
  path : node.publicKey ∉ copy.message.publicKeys

/-- The copies come under the id of the message, and those that verify are
unaltered. -/
structure CopiesOf (copies : List Copy) : Prop where
  id : ∀ copy ∈ copies, copy.message.header.id = m.header.id
  verify : ∀ copy ∈ copies, copy.message.verify signs copy.time = true →
    Unaltered node m copy

/-- A `SeekDelivery` of redundancy zero. -/
def seeksNone : DeliveryMode → Prop
  | .seek _ redundancy => redundancy = 0
  | _ => False

/-- The data is dispatched once when a genuine copy comes, and no copy is
dispatched that does not verify. -/
structure SurvivesTampering (seenCache : Bytes → Option Nat)
    (copies : List Copy) : Prop where
  once : (∃ copy ∈ copies, Genuine signs node m copy) →
    ∃ copy, dispatched (onDataMessages signs node seenCache copies) = [copy] ∧
      copy.message.data = m.data
  verified : ∀ copy ∈ dispatched (onDataMessages signs node seenCache copies),
    copy.message.verify signs copy.time = true

variable {signs node m} {copies : List Copy} {seenCache : Bytes → Option Nat}

/-- Only the first copy can be dispatched. -/
theorem dispatched_onDataMessages {copy : Copy}
    (hcopies : CopiesOf signs node m (copy :: copies))
    (hnew : seenCache (getMsgId m) = none) :
    dispatched (onDataMessages signs node seenCache (copy :: copies)) =
      dispatched (onDataMessage signs node copy 0) := by
  have hkey : ∀ c ∈ copy :: copies, getMsgId c.message = getMsgId m := by
    intro c hc
    rw [getMsgId, getMsgId, hcopies.id c hc]
  have hcopy := hkey copy List.mem_cons_self
  rw [onDataMessages, modifySeenCache, hcopy, hnew, dispatched_append]
  rw [dispatched_onDataMessages_of_seen
    (fun c hc => hkey c (List.mem_cons_of_mem _ hc)) (Function.update_self ..)]
  exact List.append_nil _

theorem shouldIgnore_first {copy : Copy} :
    shouldIgnore node copy.message 0 = false ↔
      node.publicKey ∉ copy.message.publicKeys ∧
        ¬ seeksNone copy.message.mode := by
  unfold shouldIgnore seeksNone
  cases copy.message.mode <;> simp

theorem seeksNone_withReceivers {a b : DeliveryMode}
    (h : a.withReceivers [] = b.withReceivers []) :
    seeksNone a ↔ seeksNone b := by
  have hkept : ∀ mode : DeliveryMode,
      seeksNone (mode.withReceivers []) ↔ seeksNone mode := by
    intro mode
    cases mode with
    | silent to_ redundancy => exact Iff.rfl
    | acknowledge to_ redundancy => exact Iff.rfl
    | seek to_ redundancy => exact Iff.rfl
    | anyWhere => exact Iff.rfl
  rw [← hkept a, h, hkept b]

/-- The message survives exactly when the first copy is genuine and can be
sought, unless no genuine copy comes. -/
theorem survivesTampering_iff (hmode : m.mode ≠ .anyWhere)
    (hdata : m.data ≠ none) (hcopies : CopiesOf signs node m copies)
    (hnew : seenCache (getMsgId m) = none) :
    SurvivesTampering signs node m seenCache copies ↔
      ((∃ copy ∈ copies, Genuine signs node m copy) →
        ¬ seeksNone m.mode ∧
          ∃ copy, copies.head? = some copy ∧ Genuine signs node m copy) := by
  cases copies with
  | nil =>
      refine ⟨fun _ h => ?_, fun _ => ⟨fun h => ?_, fun c hc => ?_⟩⟩
      · obtain ⟨copy, hmem, _⟩ := h
        exact absurd hmem List.not_mem_nil
      · obtain ⟨copy, hmem, _⟩ := h
        exact absurd hmem List.not_mem_nil
      · exact absurd hc List.not_mem_nil
  | cons first copies =>
      have hall := dispatched_onDataMessages hcopies hnew
      have hverify := hcopies.verify first List.mem_cons_self
      constructor
      · intro hsurvives hgenuine
        obtain ⟨copy, hcopy, _⟩ := hsurvives.once hgenuine
        rw [hall] at hcopy
        rcases dispatched_onDataMessage signs node first 0 with h | h
        · have hunaltered := hverify h.1.verify
          obtain ⟨hpath, hseek⟩ := shouldIgnore_first.mp h.1.shouldIgnore
          exact ⟨fun hnone => hseek
            ((seeksNone_withReceivers hunaltered.mode).mpr hnone),
            first, rfl, h.1.verify, hunaltered, hpath⟩
        · exact nomatch h.2.symm.trans hcopy
      · intro hfirst
        refine ⟨fun hgenuine => ?_, fun copy hcopy => ?_⟩
        · obtain ⟨hseek, copy, hhead, h⟩ := hfirst hgenuine
          obtain rfl := Option.some.inj hhead
          have hdispatches : Dispatches signs node first 0 :=
            { first := rfl
              shouldIgnore := shouldIgnore_first.mpr ⟨h.path, fun hnone =>
                hseek ((seeksNone_withReceivers h.unaltered.mode).mp hnone)⟩
              isForMe := h.unaltered.isForMe
              verify := h.verify
              data := by
                rw [h.unaltered.data]
                exact Option.isSome_iff_ne_none.mpr hdata }
          refine ⟨first, ?_, h.unaltered.data⟩
          rw [hall]
          rcases dispatched_onDataMessage signs node first 0 with hd | hd
          · exact hd.2
          · rcases hd.1 with hnot | hany
            · exact absurd hdispatches hnot
            · refine absurd ?_ hmode
              have hkind := h.unaltered.mode
              rw [hany] at hkind
              cases hm : m.mode with
              | anyWhere => rfl
              | silent to_ redundancy => exact nomatch hm ▸ hkind
              | acknowledge to_ redundancy => exact nomatch hm ▸ hkind
              | seek to_ redundancy => exact nomatch hm ▸ hkind
        · rw [hall] at hcopy
          rcases dispatched_onDataMessage signs node first 0 with h | h
          · rw [h.2] at hcopy
            obtain rfl := List.mem_singleton.mp hcopy
            exact h.1.verify
          · rw [h.2] at hcopy
            exact absurd hcopy List.not_mem_nil

end Survival

/-! ### A tampered copy that comes first -/

namespace TamperedFirst

/-- The signature of a key is the data it signs. -/
def signs (s : SignatureWithKey) (_ : MessageHeader) (data : Option Bytes) :
    Bool :=
  data = some s.signature

def node : DirectStream where
  publicKey := "b"
  peers := ["a", "c"]
  pubsub := none

def message (mode : DeliveryMode) (data : Bytes) : DataMessage where
  header :=
    { id := [7], timestamp := 1, session := 1, expires := 100, priority := none
      origin := none }
  mode := mode
  signatures := some [{ publicKey := "s", signature := [1] }]
  data := some data

def genuine (mode : DeliveryMode) : Copy :=
  { sender := "a", time := 2, message := message mode [1] }

def tampered (mode : DeliveryMode) : Copy :=
  { sender := "c", time := 2, message := message mode [2] }

theorem genuine_genuine (mode : DeliveryMode)
    (hme : streamIsForMe node (genuine mode) = true) :
    Genuine signs node (message mode [1]) (genuine mode) :=
  ⟨rfl, ⟨rfl, rfl, rfl, hme⟩, by simp [genuine, message, node,
    DataMessage.publicKeys]⟩

theorem copiesOf (mode : DeliveryMode)
    (hme : streamIsForMe node (genuine mode) = true) {copies : List Copy}
    (hmem : ∀ copy ∈ copies, copy = genuine mode ∨ copy = tampered mode) :
    CopiesOf signs node (message mode [1]) copies where
  id := by
    intro copy hcopy
    rcases hmem copy hcopy with rfl | rfl
    · rfl
    · rfl
  verify := by
    intro copy hcopy hverify
    rcases hmem copy hcopy with rfl | rfl
    · exact (genuine_genuine mode hme).unaltered
    · exact absurd hverify
        (by simp [tampered, message, DataMessage.verify, signs])

def silent : DeliveryMode := .silent ["b"] 1

/-- The altered copy comes first; the unaltered one is then ignored. -/
theorem not_survivesTampering :
    CopiesOf signs node (message silent [1])
        [tampered silent, genuine silent] ∧
      ¬ SurvivesTampering signs node (message silent [1]) (fun _ => none)
        [tampered silent, genuine silent] := by
  refine ⟨copiesOf silent rfl (by simp), fun h => ?_⟩
  obtain ⟨copy, hcopy, _⟩ := h.once
    ⟨genuine silent, by simp, genuine_genuine silent rfl⟩
  have hnone : dispatched (onDataMessages signs node (fun _ => none)
      [tampered silent, genuine silent]) = [] := rfl
  exact nomatch hnone.symm.trans hcopy

/-- When the message is sought, the unaltered copy is acknowledged, but not
dispatched either. -/
example :
    onDataMessages signs node (fun _ => none)
      [tampered (.seek (some ["b"]) 2), genuine (.seek (some ["b"]) 2)] =
    [.acknowledge "a" 1 ["s"],
      .relay (genuine (.seek (some ["b"]) 2)).message (some ["c"])] := by
  decide

/-- In the other order the message survives. -/
theorem survivesTampering_genuineFirst :
    SurvivesTampering signs node (message silent [1]) (fun _ => none)
      [genuine silent, tampered silent] :=
  (survivesTampering_iff (by decide) (by decide)
    (copiesOf silent rfl (by simp)) rfl).mpr
    (fun _ => ⟨fun h => h, genuine silent, rfl, genuine_genuine silent rfl⟩)

end TamperedFirst

end Transport
end Peerbit
