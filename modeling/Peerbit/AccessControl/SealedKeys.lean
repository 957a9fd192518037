import Peerbit.AccessControl.AccessController
import Peerbit.TrustedNetwork.TrustSearch

/-!
# Keys that nobody lets in

The root of trust is not among some keys, no key outside them signs a relation to one of
them, or signs access rights that allow one of them, and no other peer answers a search
with such documents.  Then none of them is ever trusted, may ever read, or performs an
operation on the trust graph or the access rights, whatever they sign themselves and in
whatever order entries come in and are indexed (`sealed_of_run`).
-/

namespace Peerbit
namespace AccessControl

open Lib TrustedNetwork

section SealedKeys

variable {K ι : Type} [DecidableEq K] (A : K → Prop)

/-- Other peers answer nothing that lets one of the keys in: for one of them they name no
relation from outside, and no access rights that allow one. -/
structure Harmless (remote : Remote K ι) : Prop where
  trustGraph : ∀ key, A key.1 → ∀ r ∈ remote.trustGraph key, A r.from_.1
  relationGraph : ∀ key, A key.1 → ∀ r ∈ remote.relationGraph key, A r.from_.1
  access : ∀ type, ∀ access ∈ remote.access type, ∀ a, A a →
    access.accessCondition.allowed a = false

/-- Who is not among the keys signs nothing that puts a relation to one of them. -/
def OutsideRelation (properties : Properties K (IdentityRelation (WrittenKey K ι)) ι) : Prop :=
  ∀ relation, properties.operation = .put relation → ∀ key ∈ properties.publicKeys,
    ¬ A key → relation.from_.1 = key → ¬ A relation.to_.1

/-- Who is not among the keys signs nothing that lets one of them in, nor answers it. -/
def Outside (_ : IdentityAccessController K ι) : AccessAction K ι → Prop
  | .appendTrust properties _ remote => OutsideRelation A properties ∧ Harmless A remote
  | .appendRelation properties => OutsideRelation A properties
  | .appendAccess properties _ remote =>
      (∀ access, properties.operation = .put access →
        (∃ key ∈ properties.publicKeys, ¬ A key) →
          ∀ a, A a → access.accessCondition.allowed a = false) ∧
        Harmless A remote
  | .indexTrust _ | .indexRelations _ | .indexAccess _ => True

structure Sealed (c : IdentityAccessController K ι) : Prop where
  trust : ∀ r ∈ c.trustLog, ¬ A r.to_.1
  relations : ∀ r ∈ c.relationLog, A r.to_.1 → A r.from_.1
  rights : ∀ access ∈ c.accessLog, ∀ a, A a → access.accessCondition.allowed a = false
  trust_indexed : c.trustGraph.relations ⊆ c.trustLog
  relations_indexed : c.relationGraph.relations ⊆ c.relationLog
  rights_indexed : c.access ⊆ c.accessLog

variable {A} {c d : IdentityAccessController K ι} {remote : Remote K ι} {rootTrust : K}

omit [DecidableEq K] in
/-- What a search finds is an own document or an answer. -/
theorem mem_of_mem_search {D κ : Type} [DecidableEq κ] {indexByResolver : D → κ}
    {own answers : List D} {x : D} (hx : x ∈ search indexByResolver own answers) :
    x ∈ own ∨ x ∈ answers := by
  have hloop : ∀ (results : List D) (unique : List κ),
      x ∈ Documents.dedupLoop indexByResolver unique results → x ∈ results := by
    intro results
    induction results with
    | nil => exact fun _ h => h
    | cons result results ih =>
        intro unique h
        unfold Documents.dedupLoop at h
        split at h
        · exact List.mem_cons_of_mem _ (ih _ h)
        · rcases List.mem_cons.mp h with rfl | h
          · exact List.mem_cons_self
          · exact List.mem_cons_of_mem _ (ih _ h)
  exact List.mem_append.mp (hloop _ _ hx)

omit [DecidableEq K] in
theorem checkKeys_eq_true {check : K → Option Bool} {keys : List K}
    (h : checkKeys check keys = some true) : ∃ key ∈ keys, check key = some true := by
  induction keys with
  | nil => cases h
  | cons key keys ih =>
      unfold checkKeys at h
      split at h
      · cases h
      · rename_i hcheck
        exact ⟨key, List.mem_cons_self, hcheck⟩
      · obtain ⟨key', hmem, hcheck⟩ := ih h
        exact ⟨key', List.mem_cons_of_mem _ hmem, hcheck⟩

/-- What is put by relation comes from a signer that is trusted, if trust is asked for. -/
theorem canPerformByRelation_put {isTrusted : Option (K → Option Bool)}
    {properties : Properties K (IdentityRelation (WrittenKey K ι)) ι}
    {relation : IdentityRelation (WrittenKey K ι)} (hput : properties.operation = .put relation)
    (h : canPerformByRelation isTrusted properties = some true) :
    relation.from_.1 ∈ properties.publicKeys ∧
      ∀ f, isTrusted = some f → f relation.from_.1 = some true := by
  obtain ⟨key, hmem, hcheck⟩ := checkKeys_eq_true h
  rw [hput] at hcheck
  simp only at hcheck
  split at hcheck
  · cases hcheck
  · rename_i hfrom
    have hfrom : relation.from_.1 = key := by simpa using hfrom
    rw [hfrom]
    refine ⟨hmem, ?_⟩
    rintro f rfl
    exact hcheck

/-- Whoever asks for trust lets only trusted signers perform anything. -/
theorem canPerformByRelation_trusted {f : K → Option Bool}
    {properties : Properties K (IdentityRelation (WrittenKey K ι)) ι}
    (h : canPerformByRelation (some f) properties = some true) :
    ∃ key ∈ properties.publicKeys, f key = some true := by
  obtain ⟨key, hmem, hcheck⟩ := checkKeys_eq_true h
  refine ⟨key, hmem, ?_⟩
  split at hcheck
  · split at hcheck
    · cases hcheck
    · exact hcheck
  · exact hcheck

/-- No access right allows one of the keys. -/
theorem Sealed.not_accessCheck (h : Sealed A c) (hremote : Harmless A remote) {a : K} (ha : A a)
    (type : AccessType) : c.accessCheck remote type a = false := by
  unfold IdentityAccessController.accessCheck
  refine List.any_eq_false.mpr fun access haccess => ?_
  have hnot : access.accessCondition.allowed a = false := by
    rcases mem_of_mem_search haccess with hown | hanswer
    · exact h.rights access (h.rights_indexed (List.mem_of_mem_filter hown)) a ha
    · exact hremote.access type access hanswer a ha
  simp [hnot]

variable [DecidableEq ι]

/-- A search from one of the keys does not leave them, where no relation does. -/
theorem mem_of_generated {db : RelationStore (WrittenKey K ι)}
    {answers : WrittenKey K ι → List (IdentityRelation (WrittenKey K ι))}
    (hdb : ∀ r ∈ db.relations, A r.to_.1 → A r.from_.1)
    (hanswers : ∀ key, A key.1 → ∀ r ∈ answers key, A r.from_.1) {start : WrittenKey K ι}
    (hstart : A start.1) {fuel : Nat} {r : IdentityRelation (WrittenKey K ι)}
    (hr : r ∈ (getPathGenerator db (getFromByTo answers) fuel [start] []).1) : A r.from_.1 := by
  have hreached : Reached (follow db (getFromByTo answers))
      ((getFromByTo answers).resolve start db) r := by
    obtain ⟨hread, _⟩ := untilAgain_nil (walks db (getFromByTo answers) start fuel)
    rw [(getPathGenerator_eq (getFromByTo answers) start fuel).1] at hr
    exact reached_of_mem_levelsUpTo (hread.mem hr)
  clear hr
  have hresolve : ∀ (key : WrittenKey K ι) x, x ∈ (getFromByTo answers).resolve key db →
      A key.1 → A x.from_.1 := by
    intro key x hx hkey
    rcases mem_of_mem_search hx with hown | hanswer
    · obtain ⟨hmem, hto⟩ := List.mem_filter.mp hown
      exact hdb x hmem (by rwa [of_decide_eq_true hto])
    · exact hanswers key hkey x hanswer
  induction hreached with
  | root h => exact hresolve start _ h hstart
  | step _ h ih => exact hresolve _ _ h ih

namespace Sealed

variable (h : Sealed A c) (hremote : Harmless A remote) {a : K} (ha : A a)

include h hremote ha

/-- None of the keys is trusted. -/
theorem not_trusted (hroot : ¬ A rootTrust) (fuel : Nat) :
    c.isTrusted remote rootTrust fuel a ≠ some true := by
  have hne : a ≠ rootTrust := by
    rintro rfl
    exact hroot ha
  have hfrom : ∀ r ∈ (getPathGenerator c.trustGraph (getFromByTo remote.trustGraph) fuel
      [(a, none)] []).1, rootTrust ≠ r.from_.1 := by
    rintro r hr rfl
    exact hroot (mem_of_generated
      (fun r hr hto => absurd hto (h.trust r (h.trust_indexed hr))) hremote.trustGraph ha hr)
  unfold IdentityAccessController.isTrusted hasPathToTarget
  rw [if_neg hne, if_neg (by simpa using Ne.symm hne)]
  simp only
  rw [if_neg (by simpa using hfrom)]
  split
  · simp
  · simp

theorem not_allowedByKey (hroot : ¬ A rootTrust) (type : AccessType) (fuel : Nat) :
    c.allowedByKey remote rootTrust type fuel a ≠ some true := by
  have htrusted := h.not_trusted hremote ha hroot fuel
  have hvouched : (getPathGenerator c.relationGraph (getFromByTo remote.relationGraph) fuel
      [(a, none)] []).1.any
        (fun trustedByKey => c.accessCheck remote type trustedByKey.from_.1) = false := by
    refine List.any_eq_false.mpr fun r hr => ?_
    have hfrom : A r.from_.1 :=
      mem_of_generated (fun r hr => h.relations r (h.relations_indexed hr))
        hremote.relationGraph ha hr
    simp [h.not_accessCheck hremote hfrom]
  unfold IdentityAccessController.allowedByKey
  split
  · simp
  · rename_i heq
    exact absurd heq htrusted
  · rw [if_neg (by simp [h.not_accessCheck hremote ha])]
    simp only
    rw [if_neg (by simp [hvouched])]
    split
    · simp
    · simp

end Sealed

omit [DecidableEq ι] in
theorem sealed_init : Sealed A (.init : IdentityAccessController K ι) where
  trust := nofun
  relations := nofun
  rights := nofun
  trust_indexed := nofun
  relations_indexed := nofun
  rights_indexed := nofun

omit [DecidableEq K] [DecidableEq ι] in
/-- Taking in an operation adds its document at most. -/
theorem mem_append {D : Type} {operation : Operation D ι} {log : List D} {x : D} :
    x ∈ operation.append log ↔ x ∈ log ∨ operation = .put x := by
  cases operation with
  | put value =>
      simp only [Operation.append, List.mem_append, List.mem_singleton]
      exact or_congr Iff.rfl ⟨fun h => by rw [h], fun h => (Operation.put.inj h).symm⟩
  | delete key => simp [Operation.append]

theorem Sealed.step (hroot : ¬ A rootTrust) (h : Sealed A c) {action : AccessAction K ι}
    (hguard : Outside A c action) (hstep : (machine rootTrust).step c action = some d) :
    Sealed A d := by
  cases action with
  | appendTrust properties fuel remote =>
      obtain ⟨hperform, hd⟩ := Option.ite_none_right_eq_some.mp hstep
      obtain rfl := Option.some.inj hd
      obtain ⟨hsigns, hremote⟩ := hguard
      refine { h with
        trust := fun r hr => ?_
        trust_indexed := fun r hr => mem_append.mpr (Or.inl (h.trust_indexed hr)) }
      rcases mem_append.mp hr with hold | hput
      · exact h.trust r hold
      · obtain ⟨hsigned, htrusted⟩ := canPerformByRelation_put hput hperform
        refine hsigns r hput _ hsigned (fun ha => ?_) rfl
        exact h.not_trusted hremote ha hroot fuel (htrusted _ rfl)
  | appendRelation properties =>
      obtain ⟨hperform, hd⟩ := Option.ite_none_right_eq_some.mp hstep
      obtain rfl := Option.some.inj hd
      refine { h with
        relations := fun r hr hto => ?_
        relations_indexed := fun r hr => mem_append.mpr (Or.inl (h.relations_indexed hr)) }
      rcases mem_append.mp hr with hold | hput
      · exact h.relations r hold hto
      · obtain ⟨hsigned, _⟩ := canPerformByRelation_put hput hperform
        by_contra hfrom
        exact hguard r hput _ hsigned hfrom rfl hto
  | appendAccess properties fuel remote =>
      obtain ⟨hperform, hd⟩ := Option.ite_none_right_eq_some.mp hstep
      obtain rfl := Option.some.inj hd
      obtain ⟨hsigns, hremote⟩ := hguard
      refine { h with
        rights := fun access haccess => ?_
        rights_indexed := fun access haccess =>
          mem_append.mpr (Or.inl (h.rights_indexed haccess)) }
      rcases mem_append.mp haccess with hold | hput
      · exact h.rights access hold
      · obtain ⟨key, hsigned, hallowed⟩ := checkKeys_eq_true hperform
        refine hsigns access hput ⟨key, hsigned, fun ha => ?_⟩
        exact h.not_allowedByKey hremote ha hroot .Write fuel hallowed
  | indexTrust db =>
      obtain ⟨hsub, hd⟩ := Option.ite_none_right_eq_some.mp hstep
      obtain rfl := Option.some.inj hd
      exact { h with trust_indexed := hsub }
  | indexRelations db =>
      obtain ⟨hsub, hd⟩ := Option.ite_none_right_eq_some.mp hstep
      obtain rfl := Option.some.inj hd
      exact { h with relations_indexed := hsub }
  | indexAccess access =>
      obtain ⟨hsub, hd⟩ := Option.ite_none_right_eq_some.mp hstep
      obtain rfl := Option.some.inj hd
      exact { h with rights_indexed := hsub }

/-- In every run in which nobody outside some keys lets one of them in, none of them is
trusted or may read, and what only they have signed is performed neither on the trust
graph nor on the access rights, if no other peer answers what lets one of them in. -/
theorem sealed_of_run (hroot : ¬ A rootTrust) (hrun : (machine rootTrust).Run (Outside A) c)
    (hremote : Harmless A remote) :
    (∀ a, A a → ∀ fuel, c.isTrusted remote rootTrust fuel a ≠ some true ∧
        c.canRead remote rootTrust fuel (some a) ≠ some true) ∧
      (∀ properties, (∀ key ∈ properties.publicKeys, A key) → ∀ fuel,
        c.canPerformTrust remote rootTrust fuel properties ≠ some true) ∧
      ∀ properties, (∀ key ∈ properties.publicKeys, A key) → ∀ fuel,
        c.canPerform remote rootTrust fuel properties ≠ some true := by
  have h : Sealed A c :=
    hrun.invariant sealed_init (fun _ _ _ h hguard hstep => h.step hroot hguard hstep)
  refine ⟨fun a ha fuel => ⟨h.not_trusted hremote ha hroot fuel, ?_⟩,
    fun properties hkeys fuel hperform => ?_, fun properties hkeys fuel hperform => ?_⟩
  · exact h.not_allowedByKey hremote ha hroot .Read fuel
  · obtain ⟨key, hmem, htrusted⟩ := canPerformByRelation_trusted hperform
    exact h.not_trusted hremote (hkeys key hmem) hroot fuel htrusted
  · obtain ⟨key, hmem, hallowed⟩ := checkKeys_eq_true hperform
    exact h.not_allowedByKey hremote (hkeys key hmem) hroot .Write fuel hallowed

end SealedKeys

/-! ### An intruder that signs a relation to itself -/

namespace Intruder

def rootTrusts : IdentityRelation (WrittenKey String Nat) :=
  relationDocument 0 "root" "friend"

def intruderIs : IdentityRelation (WrittenKey String Nat) :=
  relationDocument 1 "intruder" "intruder"

/-- The other peers have the relation of the root. -/
def remote : Remote String Nat where
  trustGraph key := if key.1 = "friend" then [rootTrusts] else []
  relationGraph _ := []
  access _ := []

theorem harmless : Harmless (· = "intruder") remote where
  trustGraph := by
    rintro ⟨_, _⟩ rfl r hr
    exact absurd hr List.not_mem_nil
  relationGraph _ _ _ hr := absurd hr List.not_mem_nil
  access _ _ haccess := absurd haccess List.not_mem_nil

/-- The friend, whom the other peers know to be trusted, may read; and the intruder signs a
relation to itself. -/
def actions : List (AccessAction String Nat) :=
  [.appendTrust ⟨.put rootTrusts, ["root"]⟩ 1 .none,
    .appendAccess ⟨.put ⟨none, [.Read], .publicKey "friend"⟩, ["friend"]⟩ 2 remote,
    .appendRelation ⟨.put intruderIs, ["intruder"]⟩,
    .indexRelations ⟨[intruderIs], fun _ => true, List.nodup_singleton _⟩]

theorem outside (c : IdentityAccessController String Nat) :
    ∀ action ∈ actions, Outside (· = "intruder") c action := by
  have hrelation : OutsideRelation (ι := Nat) (· = "intruder") ⟨.put rootTrusts, ["root"]⟩ := by
    rintro relation ⟨⟩ key _ _ _
    decide
  have hnone : Harmless (· = "intruder") (.none : Remote String Nat) :=
    ⟨fun _ _ _ hr => absurd hr List.not_mem_nil, fun _ _ _ hr => absurd hr List.not_mem_nil,
      fun _ _ haccess => absurd haccess List.not_mem_nil⟩
  intro action haction
  simp only [actions, List.mem_cons, List.not_mem_nil, or_false] at haction
  rcases haction with rfl | rfl | rfl | rfl
  · exact ⟨hrelation, hnone⟩
  · refine ⟨?_, harmless⟩
    rintro access ⟨⟩ _ a rfl
    decide
  · intro relation _ key hkey hne
    exact absurd (List.mem_singleton.mp hkey) hne
  · trivial

theorem sealed_of_run_actions :
    ∃ c : IdentityAccessController String Nat, (machine "root").Run (Outside (· = "intruder")) c ∧
      c.isTrusted remote "root" 2 "friend" = some true ∧
      (∀ a, a = "intruder" → ∀ fuel, c.isTrusted remote "root" fuel a ≠ some true ∧
        c.canRead remote "root" fuel (some a) ≠ some true) ∧
      (∀ properties, (∀ key ∈ properties.publicKeys, key = "intruder") → ∀ fuel,
        c.canPerformTrust remote "root" fuel properties ≠ some true) ∧
      ∀ properties, (∀ key ∈ properties.publicKeys, key = "intruder") → ∀ fuel,
        c.canPerform remote "root" fuel properties ≠ some true := by
  have hexec : ((machine "root").exec
      (.init : IdentityAccessController String Nat) actions).map
      (fun c => decide (c.isTrusted remote "root" 2 "friend" = some true)) = some true := by
    decide +kernel
  obtain ⟨c, hc, hholds⟩ := Option.map_eq_some_iff.mp hexec
  obtain ⟨c₁, h₁, hc⟩ := Option.bind_eq_some_iff.mp hc
  obtain ⟨c₂, h₂, hc⟩ := Option.bind_eq_some_iff.mp hc
  obtain ⟨c₃, h₃, hc⟩ := Option.bind_eq_some_iff.mp hc
  obtain ⟨c₄, h₄, hc⟩ := Option.bind_eq_some_iff.mp hc
  obtain rfl := Option.some.inj hc
  have hrun : (machine "root").Run (Outside (· = "intruder")) c₄ :=
    (((Machine.Run.init.step (outside _ _ (by simp [actions])) h₁).step
      (outside _ _ (by simp [actions])) h₂).step (outside _ _ (by simp [actions])) h₃).step
        (outside _ _ (by simp [actions])) h₄
  exact ⟨c₄, hrun, of_decide_eq_true hholds, sealed_of_run (by decide) hrun harmless⟩

end Intruder

end AccessControl
end Peerbit
