import Peerbit.Rpc.Requests
import Mathlib.Data.List.Nodup
import Mathlib.Data.List.Perm.Subperm

/-!
# The handler of a response

The handlers of one request share its variables, each may run when others have already
settled it.  Whatever they are handed, and in whichever order they run: the responders are
those of the results, and the promise is resolved by a handler as soon as the request has
what it waits for, and not sooner (`RequestCall.Collected`).
-/

namespace Peerbit
namespace Rpc

section ResponseHandler

variable {Q R : Type}

/-- The same call, later. -/
structure RequestCall.Continues (c d : RequestCall Q R) : Prop where
  owner : d.owner = c.owner
  id : d.id = c.id
  request : d.request = c.request
  keypair : d.keypair = c.keypair
  options : d.options = c.options

namespace RequestCall

theorem Continues.refl (c : RequestCall Q R) : c.Continues c := ⟨rfl, rfl, rfl, rfl, rfl⟩

variable {c d : RequestCall Q R} {from_ : PeerHash} {response : MaybeEncrypted R}

theorem Continues.expectedResponders (h : c.Continues d) :
    d.expectedResponders = c.expectedResponders := by
  unfold RequestCall.expectedResponders
  rw [h.options]

theorem settle_settled_ne_none (how : Settled) : (c.settle how).settled ≠ none := by
  unfold settle
  cases c.settled with
  | none => simp
  | some how => simp

/-- The first to settle the promise does. -/
theorem settled_of_settle {how how' : Settled} (h : (c.settle how).settled = some how')
    (hne : how' ≠ how) : c.settled = some how' := by
  change c.settled.or (some how) = some how' at h
  cases hold : c.settled with
  | none =>
      rw [hold] at h
      exact absurd (Option.some.inj h).symm hne
  | some _ =>
      rw [hold] at h
      exact h

@[simp] theorem settleIf_allResults (enough : Bool) :
    (c.settleIf enough).allResults = c.allResults := by
  cases enough with
  | false => rfl
  | true => rfl

theorem settleIf_continues (enough : Bool) : c.Continues (c.settleIf enough) := by
  cases enough with
  | false => exact Continues.refl c
  | true => exact ⟨rfl, rfl, rfl, rfl, rfl⟩

theorem caught_cases (error : ReadError) (how : Settled) :
    c.caught error how = c ∨ error = .other ∧ c.caught error how = c.settle how := by
  cases error with
  | access => exact Or.inl rfl
  | borsh => exact Or.inl rfl
  | other => exact Or.inr ⟨rfl, rfl⟩

/-- What the response handler does to the variables of its call: it ignores the response, or
rejects the promise over it or over an error of the caller's functions, or it has a result. -/
theorem handle_cases (c : RequestCall Q R) (from_ : PeerHash) (response : MaybeEncrypted R)
    (isTrusted : Except ReadError Bool) (onResponse : Option ReadError) :
    c.handle from_ response isTrusted onResponse = c ∨
      (∃ how, (how = .threw ∨ how = .failed ∧ response.decryptWith c.keypair = .error .other) ∧
        c.handle from_ response isTrusted onResponse = c.settle how) ∨
      ∃ r, response.decryptWith c.keypair = .ok r ∧
        ((∃ e, c.expectedResponders = some e ∧ from_ ∈ e ∧
            c.handle from_ response isTrusted onResponse = (c.collect from_ r).settleIf
              (decide ((c.collect from_ r).responders.length = e.length))) ∨
          c.expectedResponders = none ∧
            c.handle from_ response isTrusted onResponse = (c.push from_ r).settleIf
              (c.options.amount.any
                (fun amount => decide ((c.push from_ r).allResults.length ≥ amount)))) := by
  have hthrew : ∀ error, c.caught error .threw = c ∨
      ∃ how, (how = .threw ∨ how = .failed ∧ response.decryptWith c.keypair = .error .other) ∧
        c.caught error .threw = c.settle how := by
    intro error
    rcases c.caught_cases error .threw with h | ⟨_, h⟩
    · exact Or.inl h
    · exact Or.inr ⟨_, Or.inl rfl, h⟩
  unfold handle
  split
  · exact (hthrew _).imp_right Or.inl
  · exact Or.inl rfl
  · split
    · rename_i error hdecrypt
      rcases c.caught_cases error .failed with h | ⟨rfl, h⟩
      · exact Or.inl h
      · exact Or.inr (Or.inl ⟨_, Or.inr ⟨rfl, hdecrypt⟩, h⟩)
    · rename_i r hdecrypt
      simp only
      split
      · rename_i e he
        split
        · rename_i hfrom
          split
          · exact (hthrew _).imp_right Or.inl
          · exact Or.inr (Or.inr ⟨r, hdecrypt, Or.inl ⟨e, he, hfrom, rfl⟩⟩)
        · exact Or.inl rfl
      · rename_i he
        split
        · exact (hthrew _).imp_right Or.inl
        · exact Or.inr (Or.inr ⟨r, hdecrypt, Or.inr ⟨he, rfl⟩⟩)

variable {isTrusted : Except ReadError Bool} {onResponse : Option ReadError}

theorem handle_continues :
    c.Continues (c.handle from_ response isTrusted onResponse) := by
  rcases c.handle_cases from_ response isTrusted onResponse with
    h | ⟨_, _, h⟩ | ⟨r, _, ⟨e, _, _, h⟩ | ⟨_, h⟩⟩
  all_goals rw [h]
  · exact Continues.refl c
  · exact ⟨rfl, rfl, rfl, rfl, rfl⟩
  · exact { settleIf_continues (c := c.collect from_ r) _ with }
  · exact { settleIf_continues (c := c.push from_ r) _ with }

/-- The handler adds one result at most: what it could open. -/
theorem mem_allResults_handle {x : R × PeerHash}
    (hx : x ∈ (c.handle from_ response isTrusted onResponse).allResults) :
    x ∈ c.allResults ∨
      x.2 = from_ ∧ response.decryptWith c.keypair = .ok x.1 ∧
        ∀ e, c.expectedResponders = some e → from_ ∈ e := by
  rcases c.handle_cases from_ response isTrusted onResponse with
    h | ⟨_, _, h⟩ | ⟨r, hdecrypt, ⟨e, he, hfrom, h⟩ | ⟨he, h⟩⟩
  all_goals rw [h] at hx
  · exact Or.inl hx
  · exact Or.inl hx
  all_goals rw [settleIf_allResults] at hx
  · rcases List.mem_append.mp hx with hold | hnew
    · exact Or.inl hold
    · obtain rfl := List.mem_singleton.mp hnew
      refine Or.inr ⟨rfl, hdecrypt, ?_⟩
      intro e' he'
      obtain rfl := Option.some.inj (he.symm.trans he')
      exact hfrom
  · rcases List.mem_append.mp hx with hold | hnew
    · exact Or.inl hold
    · obtain rfl := List.mem_singleton.mp hnew
      refine Or.inr ⟨rfl, hdecrypt, ?_⟩
      intro e' he'
      exact absurd (he.symm.trans he') nofun

theorem settleIf_settled {enough : Bool} {how : Settled}
    (h : (c.settleIf enough).settled = some how) : c.settled = some how ∨ how = .answered := by
  cases enough with
  | false => exact Or.inl h
  | true =>
      by_cases hhow : how = .answered
      · exact Or.inr hhow
      · exact Or.inl (settled_of_settle h hhow)

/-- The handler fails the request over what it could not open only. -/
theorem handle_failed
    (h : (c.handle from_ response isTrusted onResponse).settled = some .failed) :
    c.settled = some .failed ∨ response.decryptWith c.keypair = .error .other := by
  rcases c.handle_cases from_ response isTrusted onResponse with
    heq | ⟨how, rfl | ⟨_, hother⟩, heq⟩ | ⟨r, _, ⟨e, _, _, heq⟩ | ⟨_, heq⟩⟩
  · rw [heq] at h
    exact Or.inl h
  · rw [heq] at h
    exact Or.inl (settled_of_settle h nofun)
  · exact Or.inr hother
  all_goals
    rw [heq] at h
    exact Or.inl ((settleIf_settled h).resolve_right nofun)

/-- What is settled stays so. -/
theorem handle_settled
    (h : (c.handle from_ response isTrusted onResponse).settled = none) : c.settled = none := by
  rcases c.handle_cases from_ response isTrusted onResponse with
    heq | ⟨how, _, heq⟩ | ⟨r, _, ⟨e, _, _, heq⟩ | ⟨_, heq⟩⟩
  all_goals rw [heq] at h
  · exact h
  · exact absurd h (settle_settled_ne_none how)
  all_goals
    unfold settleIf at h
    split at h
    · exact absurd h (settle_settled_ne_none _)
    · exact h

/-- The results that the call waits for are there. -/
def Enough (c : RequestCall Q R) : Prop :=
  match c.expectedResponders with
  | some expectedResponders => ∀ p ∈ expectedResponders, ∃ r, (r, p) ∈ c.allResults
  | none => ∃ amount, c.options.amount = some amount ∧ amount ≤ c.allResults.length

/-- The responders are those of the results, each once. -/
structure Tracked (c : RequestCall Q R) : Prop where
  nodup : c.responders.Nodup
  expected : ∀ e, c.expectedResponders = some e → c.responders ⊆ e
  mem : ∀ e, c.expectedResponders = some e →
    ∀ p, p ∈ c.responders ↔ ∃ r, (r, p) ∈ c.allResults

structure Collected (c : RequestCall Q R) : Prop extends Tracked c where
  answered : c.settled = some .answered → c.Enough
  waiting : c.settled = none → c.allResults ≠ [] → ¬ c.Enough

theorem nodup_of_expectedResponders {e : List PeerHash} (he : c.expectedResponders = some e) :
    e.Nodup := by
  obtain ⟨_, hdedup⟩ := Option.ite_none_right_eq_some.mp he
  rw [← Option.some.inj hdedup]
  exact List.nodup_dedup _

theorem enough_iff_expected {e : List PeerHash} (he : c.expectedResponders = some e) :
    c.Enough ↔ ∀ p ∈ e, ∃ r, (r, p) ∈ c.allResults := by
  unfold Enough
  rw [he]

theorem enough_iff_amount (he : c.expectedResponders = none) :
    c.Enough ↔ ∃ amount, c.options.amount = some amount ∧ amount ≤ c.allResults.length := by
  unfold Enough
  rw [he]

/-- As many responders as are expected are all of them. -/
theorem Tracked.length_eq_iff (h : Tracked c) {e : List PeerHash}
    (he : c.expectedResponders = some e) : c.responders.length = e.length ↔ c.Enough := by
  rw [enough_iff_expected he]
  have hsub : c.responders.Subperm e := h.nodup.subperm (h.expected e he)
  constructor
  · intro hlength p hp
    have hperm : c.responders.Perm e := hsub.perm_of_length_le (Nat.le_of_eq hlength.symm)
    exact (h.mem e he p).mp (hperm.mem_iff.mpr hp)
  · intro hall
    have hsub' : e.Subperm c.responders :=
      (nodup_of_expectedResponders he).subperm (fun p hp => (h.mem e he p).mpr (hall p hp))
    exact Nat.le_antisymm hsub.length_le hsub'.length_le

/-- Another result does not take away from what there is. -/
theorem Enough.push (h : c.Enough) (from_ : PeerHash) (r : R) : (c.push from_ r).Enough := by
  cases he : c.expectedResponders with
  | some e =>
      refine (enough_iff_expected (c := c.push from_ r) he).mpr fun p hp => ?_
      obtain ⟨x, hx⟩ := (enough_iff_expected he).mp h p hp
      exact ⟨x, List.mem_append_left _ hx⟩
  | none =>
      refine (enough_iff_amount (c := c.push from_ r) he).mpr ?_
      obtain ⟨amount, hamount, hle⟩ := (enough_iff_amount he).mp h
      exact ⟨amount, hamount, hle.trans (List.prefix_append _ _).length_le⟩

theorem Tracked.collect (h : Tracked c) {e : List PeerHash}
    (he : c.expectedResponders = some e) (hfrom : from_ ∈ e) (r : R) :
    Tracked (c.collect from_ r) := by
  have hmem : ∀ p, p ∈ (c.collect from_ r).responders ↔ p ∈ c.responders ∨ p = from_ := by
    intro p
    change p ∈ (if from_ ∈ c.responders then c.responders else c.responders ++ [from_]) ↔ _
    split
    · rename_i hold
      constructor
      · exact Or.inl
      · rintro (hp | rfl)
        · exact hp
        · exact hold
    · simp
  refine ⟨?_, ?_, ?_⟩
  · change (if from_ ∈ c.responders then c.responders else c.responders ++ [from_]).Nodup
    split
    · exact h.nodup
    · rename_i hnew
      exact List.nodup_append_comm.mp (List.nodup_cons.mpr ⟨hnew, h.nodup⟩)
  · intro e' he' p hp
    obtain rfl := Option.some.inj (he.symm.trans he')
    rcases (hmem p).mp hp with hold | rfl
    · exact h.expected e he hold
    · exact hfrom
  · intro e' he' p
    obtain rfl := Option.some.inj (he.symm.trans he')
    rw [hmem, h.mem e he]
    constructor
    · rintro (⟨x, hx⟩ | rfl)
      · exact ⟨x, List.mem_append_left _ hx⟩
      · exact ⟨r, List.mem_append_right _ (List.mem_singleton.mpr rfl)⟩
    · rintro ⟨x, hx⟩
      rcases List.mem_append.mp hx with hold | hnew
      · exact Or.inl ⟨x, hold⟩
      · exact Or.inr (Prod.mk.inj (List.mem_singleton.mp hnew)).2

/-- The promise is settled by the handler when there is enough. -/
theorem Tracked.settleIf (h : Tracked c) {enough : Bool} (henough : enough = true ↔ c.Enough)
    (hanswered : c.settled = some .answered → c.Enough) : Collected (c.settleIf enough) := by
  cases enough with
  | false =>
      exact { h with
        answered := hanswered
        waiting := fun _ _ hall => absurd (henough.mpr hall) (by simp) }
  | true =>
      exact { h with
        answered := fun _ => henough.mp rfl
        waiting := fun hnone => absurd hnone (settle_settled_ne_none _) }

theorem Collected.settle (h : Collected c) {how : Settled} (hhow : how ≠ .answered) :
    Collected (c.settle how) where
  nodup := h.nodup
  expected := h.expected
  mem := h.mem
  answered := fun hsettled => h.answered (settled_of_settle hsettled (Ne.symm hhow))
  waiting := fun hnone => absurd hnone (settle_settled_ne_none _)

theorem Collected.handle (h : Collected c) :
    Collected (c.handle from_ response isTrusted onResponse) := by
  rcases c.handle_cases from_ response isTrusted onResponse with
    heq | ⟨how, hhow, heq⟩ | ⟨r, _, ⟨e, he, hfrom, heq⟩ | ⟨he, heq⟩⟩
  all_goals rw [heq]
  · exact h
  · refine h.settle ?_
    rcases hhow with rfl | ⟨rfl, _⟩
    · nofun
    · nofun
  · have htracked := h.toTracked.collect he hfrom r
    refine htracked.settleIf ?_ ?_
    · rw [decide_eq_true_iff]
      exact htracked.length_eq_iff he
    · intro hsettled
      exact (h.answered hsettled).push from_ r
  · have htracked : Tracked (c.push from_ r) :=
      { nodup := h.nodup
        expected := fun e he' => absurd (he.symm.trans he') nofun
        mem := fun e he' => absurd (he.symm.trans he') nofun }
    refine htracked.settleIf ?_ ?_
    · rw [enough_iff_amount (c := c.push from_ r) he, Option.any_eq_true]
      exact exists_congr fun amount => and_congr Iff.rfl decide_eq_true_iff
    · intro hsettled
      exact (h.answered hsettled).push from_ r

end RequestCall

end ResponseHandler

end Rpc
end Peerbit
