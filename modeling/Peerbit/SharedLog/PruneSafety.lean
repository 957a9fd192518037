import Peerbit.SharedLog.Prune

/-!
# What a checked prune is sure of

When the count is reached, the peers that are counted have confirmed the entry
and stand by it.  The removal comes later, and nothing is counted again: a peer
may have withdrawn in the meantime, by asking to prune the entry itself or by
leaving.  The check whether the node leads is made again, but for the number of
replicas that the entry asks for, which may be out of bounds.

A removal is safe in all runs in which no peer withdraws at the wrong time.
-/

namespace Peerbit
namespace SharedLog

open Log (Hash)

section PruneSafety

variable (cfg : PruneConfig)

/-! ### Clean steps -/

/-- The removals that are about to be made. -/
def PruneState.removals (s : PruneState) : List PendingDelete :=
  s.scheduled ++ s.checking ++ s.checked

/-- The peer may ask to prune the entry, or leave. -/
structure MayWithdraw (s : PruneState) (peer : PeerHash) (hash : Hash) :
    Prop where
  /-- No confirmation of the entry by the peer waits to be counted. -/
  notWaiting : ∀ w ∈ s.waiting, w.pending.hash = hash → w.peer ≠ peer
  /-- When the entry is about to be removed, enough other peers stand by it. -/
  enough : ∀ r ∈ s.removals, r.hash = hash →
    cfg.getClampedReplicas hash ≤ ((standing hash s.heard).erase peer).card

/-- The condition on the steps of a run. -/
def PruneClean (s : PruneState) : PruneAction → Prop
  | .requestIPrune peer hashes =>
      ∀ hash ∈ hashes, MayWithdraw cfg s peer hash ∧
        -- the handler is late for all hashes but the first
        (peer ∈ s.counted hash → hashes.head? = some hash)
  | .unsubscribed peer => ∀ hash, MayWithdraw cfg s peer hash
  | .assign leaders =>
      ∀ r ∈ s.checked, cfg.me ∉ leaders r.hash (cfg.getClampedReplicas r.hash)
  | .check r =>
      cfg.me ∉ s.leaders r.hash (cfg.decodeReplicas r.hash) →
        cfg.me ∉ s.leaders r.hash (cfg.getClampedReplicas r.hash)
  | _ => True

/-! ### The peers that stand by an entry -/

theorem standing_response (hash : Hash) (heard : List Heard) (peer : PeerHash)
    (hashes : List Hash) :
    standing hash (.response peer hashes :: heard) =
      if hash ∈ hashes then insert peer (standing hash heard)
      else standing hash heard :=
  rfl

theorem subset_standing_response (hash : Hash) (heard : List Heard)
    (peer : PeerHash) (hashes : List Hash) :
    standing hash heard ⊆ standing hash (.response peer hashes :: heard) := by
  rw [standing_response]
  split
  · exact Finset.subset_insert _ _
  · exact Finset.Subset.refl _

theorem mem_standing_response {hash : Hash} {heard : List Heard}
    {peer : PeerHash} {hashes : List Hash} (h : hash ∈ hashes) :
    peer ∈ standing hash (.response peer hashes :: heard) := by
  rw [standing_response, if_pos h]
  exact Finset.mem_insert_self _ _

theorem standing_request_of_mem {hash : Hash} {heard : List Heard}
    {peer : PeerHash} {hashes : List Hash} (h : hash ∈ hashes) :
    standing hash (.request peer hashes :: heard) =
      (standing hash heard).erase peer :=
  if_pos h

theorem standing_request_of_notMem {hash : Hash} {heard : List Heard}
    {peer : PeerHash} {hashes : List Hash} (h : hash ∉ hashes) :
    standing hash (.request peer hashes :: heard) = standing hash heard :=
  if_neg h

/-! ### Steps that take away -/

/-- Pending deletes are found under their hash. -/
def PruneState.Keyed (s : PruneState) : Prop :=
  ∀ hash pending, s.pendingDeletes hash = some pending → pending.hash = hash

/-- The second state has no more of what a removal rests on than the first, and
the same is known and led in both. -/
structure Shrinks (s t : PruneState) : Prop where
  keyed : s.Keyed → t.Keyed
  counted : ∀ hash, t.counted hash ⊆ s.counted hash
  waiting : ∀ w ∈ t.waiting, w ∈ s.waiting
  removals : ∀ r ∈ t.removals, r ∈ s.removals
  checked : ∀ r ∈ t.checked, r ∈ s.checked
  leaders : t.leaders = s.leaders
  heard : t.heard = s.heard

namespace Shrinks

variable {s t u : PruneState}

theorem refl (s : PruneState) : Shrinks s s where
  keyed h := h
  counted _ := Finset.Subset.refl _
  waiting _ hw := hw
  removals _ hr := hr
  checked _ hr := hr
  leaders := rfl
  heard := rfl

theorem trans (h : Shrinks s t) (h' : Shrinks t u) : Shrinks s u where
  keyed hs := h'.keyed (h.keyed hs)
  counted hash := Finset.Subset.trans (h'.counted hash) (h.counted hash)
  waiting w hw := h.waiting w (h'.waiting w hw)
  removals r hr := h.removals r (h'.removals r hr)
  checked r hr := h.checked r (h'.checked r hr)
  leaders := h'.leaders.trans h.leaders
  heard := h'.heard.trans h.heard

theorem foldl {β : Type} {f : PruneState → β → PruneState}
    (hf : ∀ s b, Shrinks s (f s b)) (l : List β) (s : PruneState) :
    Shrinks s (l.foldl f s) := by
  induction l generalizing s with
  | nil => exact .refl s
  | cons b l ih => exact (hf s b).trans (ih (f s b))

end Shrinks

namespace PruneState

variable (s : PruneState)

variable {s} in
theorem counted_of_update
    {t : PruneState} {hash : Hash} {set : Option (Finset PeerHash)}
    (h : t.requestIPruneResponseReplicatorSet =
      Function.update s.requestIPruneResponseReplicatorSet hash set)
    (hash' : Hash) :
    t.counted hash' = if hash' = hash then set.getD ∅ else s.counted hash' := by
  unfold counted
  rw [h, Function.update_apply]
  split <;> rfl

theorem shrinks_removePruneRequestsSent (hash : Hash) :
    Shrinks s (s.removePruneRequestsSent hash) :=
  { Shrinks.refl s with }

theorem shrinks_removePruneRequestSent (hash : Hash) (peer : PeerHash) :
    Shrinks s (s.removePruneRequestSent hash peer) := by
  unfold removePruneRequestSent
  split
  · exact .refl s
  · exact { Shrinks.refl s with }

theorem shrinks_deleteCounted (hash : Hash) :
    Shrinks s (s.deleteCounted hash) :=
  { Shrinks.refl s with
    counted := fun hash' => by
      rw [counted_of_update (t := s.deleteCounted hash) rfl]
      split
      · exact Finset.empty_subset _
      · exact Finset.Subset.refl _ }

theorem counted_uncount (hash hash' : Hash) (peer : PeerHash) :
    (s.uncount hash peer).counted hash' =
      if hash' = hash then (s.counted hash).erase peer
      else s.counted hash' := by
  rw [counted_of_update (t := s.uncount hash peer) rfl]
  split
  · unfold counted
    cases s.requestIPruneResponseReplicatorSet hash with
    | none => rfl
    | some set => rfl
  · rfl

theorem shrinks_uncount (hash : Hash) (peer : PeerHash) :
    Shrinks s (s.uncount hash peer) :=
  { Shrinks.refl s with
    counted := fun hash' => by
      rw [counted_uncount]
      split
      · rename_i heq
        exact heq ▸ Finset.erase_subset _ _
      · exact Finset.Subset.refl _ }

theorem shrinks_clear (pending : PendingDelete) :
    Shrinks s (s.clear pending) :=
  { Shrinks.refl s with
    keyed := by
      intro hs hash p hp
      unfold clear at hp
      simp only at hp
      split at hp
      · rw [Function.update_apply] at hp
        split at hp
        · cases hp
        · exact hs hash p hp
      · exact hs hash p hp }

theorem shrinks_settle (pending : PendingDelete) :
    Shrinks s (s.settle pending) :=
  { Shrinks.refl s with
    removals := by
      intro r hr
      simp only [settle, removals, List.mem_append] at hr ⊢
      exact hr.imp_left (Or.imp_left (fun hr => (List.mem_filter.mp hr).1)) }

theorem shrinks_reject (pending : PendingDelete) :
    Shrinks s (s.reject pending) :=
  (((shrinks_clear s pending).trans (shrinks_removePruneRequestsSent _ _)).trans
    (shrinks_deleteCounted _ _)).trans (shrinks_settle _ _)

theorem shrinks_pruneEntry (batch : Nat) (entry : PruneEntry) :
    Shrinks s (s.pruneEntry batch entry) := by
  unfold pruneEntry
  split
  · exact { Shrinks.refl s with }
  · refine { Shrinks.refl s with keyed := ?_ }
    intro hs hash p hp
    simp only [Function.update_apply] at hp
    split at hp
    · rename_i heq
      obtain rfl := Option.some.inj hp
      exact heq.symm
    · exact hs hash p hp

theorem shrinks_emitMessages (entry : PruneEntry) :
    Shrinks s (s.emitMessages entry) := by
  unfold emitMessages
  split
  · exact .refl s
  · exact { Shrinks.refl s with }

theorem shrinks_prune (entries : List PruneEntry) :
    Shrinks s (s.prune entries) := by
  have hpruned := Shrinks.foldl
    (fun s e => shrinks_pruneEntry s s.nextBatch e) entries s
  have hsent := Shrinks.foldl shrinks_emitMessages entries
    (entries.foldl (fun s e => s.pruneEntry s.nextBatch e) s)
  exact { hpruned.trans hsent with }

theorem shrinks_pruneUnchecked (hashes : List Hash) :
    Shrinks s (s.pruneUnchecked hashes) :=
  Shrinks.foldl
    (fun s hash => (shrinks_removePruneRequestsSent s hash).trans
      (shrinks_deleteCounted _ hash)) hashes s

theorem shrinks_askedToPrune (peer : PeerHash) (hashes : List Hash) :
    Shrinks s (s.askedToPrune peer hashes) := by
  cases hashes with
  | nil => exact .refl s
  | cons hash hashes =>
      exact { (shrinks_removePruneRequestSent s hash peer).trans
        (shrinks_uncount _ hash peer) with }

/-- The first entry of a request is no longer counted at once. -/
theorem notMem_counted_askedToPrune (peer : PeerHash) (hash : Hash)
    (hashes : List Hash) :
    peer ∉ (s.askedToPrune peer (hash :: hashes)).counted hash := by
  change peer ∉ ((s.removePruneRequestSent hash peer).uncount hash
    peer).counted hash
  rw [counted_uncount, if_pos rfl]
  exact Finset.notMem_erase _ _

end PruneState

/-! ### The invariant -/

/-- What counts, and what is about to be removed, rests on peers that stand by
it. -/
structure PruneInv (s : PruneState) : Prop where
  keyed : s.Keyed
  counted : ∀ hash, s.counted hash ⊆ standing hash s.heard
  waiting : ∀ w ∈ s.waiting, w.peer ∈ standing w.pending.hash s.heard
  enough : ∀ r ∈ s.removals,
    cfg.getClampedReplicas r.hash ≤ (standing r.hash s.heard).card
  follows : ∀ r ∈ s.checked,
    cfg.me ∉ s.leaders r.hash (cfg.getClampedReplicas r.hash)

namespace PruneInv

variable {cfg} {s t : PruneState}

theorem init (leaders : Leaders) : PruneInv cfg (.init leaders) where
  keyed _ _ hp := nomatch hp
  counted _ := Finset.empty_subset _
  waiting _ hw := nomatch hw
  enough _ hr := nomatch hr
  follows _ hr := nomatch hr

theorem shrinks (h : PruneInv cfg s) (hst : Shrinks s t) : PruneInv cfg t where
  keyed := hst.keyed h.keyed
  counted hash := by
    rw [hst.heard]
    exact Finset.Subset.trans (hst.counted hash) (h.counted hash)
  waiting w hw := by
    rw [hst.heard]
    exact h.waiting w (hst.waiting w hw)
  enough r hr := by
    rw [hst.heard]
    exact h.enough r (hst.removals r hr)
  follows r hr := by
    rw [hst.leaders]
    exact h.follows r (hst.checked r hr)

/-- A withdrawal, after which the peer is counted no more. -/
theorem withdraw
    (h : PruneInv cfg s) (peer : PeerHash)
    (hst : Shrinks s { t with heard := s.heard })
    (hheard : ∀ hash, standing hash t.heard = standing hash s.heard ∨
      standing hash t.heard = (standing hash s.heard).erase peer ∧
        MayWithdraw cfg s peer hash ∧ peer ∉ t.counted hash) :
    PruneInv cfg t := by
  have hkept := h.shrinks hst
  refine
    { keyed := hkept.keyed, counted := ?_, waiting := ?_, enough := ?_
      follows := hkept.follows }
  · intro hash
    have hcounted : t.counted hash ⊆ standing hash s.heard := hkept.counted hash
    rcases hheard hash with heq | ⟨heq, _, hnot⟩
    · rw [heq]
      exact hcounted
    · rw [heq]
      exact Finset.subset_erase.mpr ⟨hcounted, hnot⟩
  · intro w hw
    have hstands : w.peer ∈ standing w.pending.hash s.heard := hkept.waiting w hw
    rcases hheard w.pending.hash with heq | ⟨heq, hmay, _⟩
    · rw [heq]
      exact hstands
    · rw [heq]
      exact Finset.mem_erase.mpr
        ⟨hmay.notWaiting w (hst.waiting w hw) rfl, hstands⟩
  · intro r hr
    rcases hheard r.hash with heq | ⟨heq, hmay, _⟩
    · rw [heq]
      exact hkept.enough r hr
    · rw [heq]
      exact hmay.enough r (hst.removals r hr) rfl

theorem requestIPrune
    (h : PruneInv cfg s) {peer : PeerHash} {hashes : List Hash}
    (hclean : PruneClean cfg s (.requestIPrune peer hashes)) :
    PruneInv cfg (s.onRequestIPrune peer hashes) := by
  have hshrinks := s.shrinks_askedToPrune peer hashes
  refine h.withdraw peer { hshrinks with heard := rfl } ?_
  intro hash
  by_cases hmem : hash ∈ hashes
  · obtain ⟨hmay, hfirst⟩ := hclean hash hmem
    refine Or.inr ⟨standing_request_of_mem hmem, hmay, ?_⟩
    change peer ∉ (s.askedToPrune peer hashes).counted hash
    intro hcounted
    have hhead := hfirst (hshrinks.counted hash hcounted)
    obtain ⟨rest, rfl⟩ := List.head?_eq_some_iff.mp hhead
    exact s.notMem_counted_askedToPrune peer hash rest hcounted
  · exact Or.inl (standing_request_of_notMem hmem)

theorem unsubscribed
    (h : PruneInv cfg s) {peer : PeerHash}
    (hclean : PruneClean cfg s (.unsubscribed peer)) :
    PruneInv cfg (s.unsubscribed peer) := by
  have hcounted : ∀ hash,
      (s.unsubscribed peer).counted hash = (s.counted hash).erase peer := by
    intro hash
    unfold PruneState.counted PruneState.unsubscribed
    simp only
    cases s.requestIPruneResponseReplicatorSet hash with
    | none => rfl
    | some set => rfl
  refine h.withdraw peer
    { Shrinks.refl s with
      counted := fun hash => by
        change (s.unsubscribed peer).counted hash ⊆ _
        rw [hcounted]
        exact Finset.erase_subset _ _ } ?_
  intro hash
  refine Or.inr ⟨rfl, hclean hash, ?_⟩
  rw [hcounted]
  exact Finset.notMem_erase _ _

theorem responseIPrune
    (h : PruneInv cfg s) (peer : PeerHash) (hashes : List Hash) :
    PruneInv cfg (s.onResponseIPrune peer hashes) := by
  have hgrows := fun hash =>
    subset_standing_response hash s.heard peer hashes
  refine
    { keyed := h.keyed, counted := ?_, waiting := ?_, enough := ?_
      follows := h.follows }
  · exact fun hash => Finset.Subset.trans (h.counted hash) (hgrows hash)
  · intro w hw
    rcases List.mem_append.mp hw with hw | hw
    · obtain ⟨hash, hhash, hsome⟩ := List.mem_filterMap.mp hw
      obtain ⟨pending, hpending, rfl⟩ := Option.map_eq_some_iff.mp hsome
      refine mem_standing_response ?_
      rwa [h.keyed hash pending hpending]
    · exact hgrows _ (h.waiting w hw)
  · exact fun r hr => (h.enough r hr).trans (Finset.card_le_card (hgrows _))

/-- A confirmation is counted, and the removal is scheduled when there are
enough. -/
theorem confirm
    (h : PruneInv cfg s) {w : Waiting} (hw : w ∈ s.waiting) :
    PruneInv cfg
      ({ s with waiting := s.waiting.erase w }.confirm cfg w) := by
  let existCounter := insert w.peer (s.counted w.pending.hash)
  have hexist : existCounter ⊆ standing w.pending.hash s.heard :=
    Finset.insert_subset (h.waiting w hw) (h.counted w.pending.hash)
  let t : PruneState :=
    { s with
      waiting := s.waiting.erase w
      requestIPruneResponseReplicatorSet :=
        Function.update s.requestIPruneResponseReplicatorSet w.pending.hash
          (some existCounter) }
  have ht : PruneInv cfg t :=
    { h with
      counted := by
        intro hash
        rw [PruneState.counted_of_update (t := t) rfl]
        split
        · rename_i heq
          exact heq ▸ hexist
        · exact h.counted hash
      waiting := fun v hv => h.waiting v (List.mem_of_mem_erase hv) }
  change PruneInv cfg
    (if cfg.getClampedReplicas w.pending.hash ≤ existCounter.card then
      t.schedule w.pending else t)
  split
  · rename_i henough
    have hclear := ht.shrinks (t.shrinks_clear w.pending)
    exact
      { hclear with
        enough := by
          intro r hr
          rcases List.mem_cons.mp hr with rfl | hr
          · exact henough.trans (Finset.card_le_card hexist)
          · exact hclear.enough r hr }
  · exact ht

theorem check
    (h : PruneInv cfg s) {r : PendingDelete} (hr : r ∈ s.checking)
    (hfollows : cfg.me ∉ s.leaders r.hash (cfg.getClampedReplicas r.hash)) :
    PruneInv cfg
      { s with checking := s.checking.erase r, checked := r :: s.checked } where
  keyed := h.keyed
  counted := h.counted
  waiting := h.waiting
  enough q hq := by
    refine h.enough q ?_
    simp only [PruneState.removals, List.mem_append, List.mem_cons] at hq ⊢
    rcases hq with (hq | hq) | rfl | hq
    · exact Or.inl (Or.inl hq)
    · exact Or.inl (Or.inr (List.mem_of_mem_erase hq))
    · exact Or.inl (Or.inr hr)
    · exact Or.inr hq
  follows q hq := by
    rcases List.mem_cons.mp hq with rfl | hq
    · exact hfollows
    · exact h.follows q hq

end PruneInv

/-- Every clean step keeps the invariant. -/
theorem pruneInv_step
    (s : PruneState) (a : PruneAction) (s' : PruneState) (h : PruneInv cfg s)
    (hclean : PruneClean cfg s a) (hstep : pruneStep cfg s a = some s') :
    PruneInv cfg s' := by
  cases a with
  | prune entries =>
      obtain rfl := Option.some.inj hstep
      exact h.shrinks (s.shrinks_prune entries)
  | pruneUnchecked hashes =>
      obtain rfl := Option.some.inj hstep
      exact h.shrinks (s.shrinks_pruneUnchecked hashes)
  | requestIPrune peer hashes =>
      obtain rfl := Option.some.inj hstep
      exact h.requestIPrune hclean
  | responseIPrune peer hashes =>
      obtain rfl := Option.some.inj hstep
      exact h.responseIPrune peer hashes
  | unsubscribed peer =>
      obtain rfl := Option.some.inj hstep
      exact h.unsubscribed hclean
  | assign leaders =>
      obtain rfl := Option.some.inj hstep
      exact { h with follows := hclean }
  | goOn asking =>
      obtain ⟨_, heq⟩ := Option.ite_none_right_eq_some.mp hstep
      obtain rfl := Option.some.inj heq
      exact PruneInv.shrinks (s := { s with asking := s.asking.erase asking })
        { h with } (PruneState.shrinks_askedToPrune _ _ _)
  | confirm w =>
      obtain ⟨⟨hw, _⟩, heq⟩ := Option.ite_none_right_eq_some.mp hstep
      obtain rfl := Option.some.inj heq
      exact h.confirm hw
  | giveUp w =>
      obtain ⟨_, heq⟩ := Option.ite_none_right_eq_some.mp hstep
      obtain rfl := Option.some.inj heq
      exact { h with waiting := fun v hv => h.waiting v (List.mem_of_mem_erase hv) }
  | timeout pending =>
      obtain ⟨_, heq⟩ := Option.ite_none_right_eq_some.mp hstep
      obtain rfl := Option.some.inj heq
      exact h.shrinks (s.shrinks_reject pending)
  | leaderAgain hash =>
      obtain rfl := Option.some.inj hstep
      refine h.shrinks (Shrinks.trans ?_
        (PruneState.shrinks_removePruneRequestsSent _ hash))
      split
      · exact s.shrinks_reject _
      · exact .refl s
  | leadsReceived hash =>
      obtain rfl := Option.some.inj hstep
      exact h.shrinks ((s.shrinks_removePruneRequestsSent hash).trans
        (PruneState.shrinks_deleteCounted _ hash))
  | fire r =>
      obtain ⟨hr, heq⟩ := Option.ite_none_right_eq_some.mp hstep
      obtain rfl := Option.some.inj heq
      have hmove : Shrinks s
          { s with
            scheduled := s.scheduled.erase r, checking := r :: s.checking } :=
        { Shrinks.refl s with
          removals := by
            intro q hq
            simp only [PruneState.removals, List.mem_append, List.mem_cons]
              at hq ⊢
            rcases hq with (hq | rfl | hq) | hq
            · exact Or.inl (Or.inl (List.mem_of_mem_erase hq))
            · exact Or.inl (Or.inl hr)
            · exact Or.inl (Or.inr hq)
            · exact Or.inr hq }
      exact h.shrinks ((hmove.trans
        (PruneState.shrinks_removePruneRequestsSent _ _)).trans
          (PruneState.shrinks_deleteCounted _ _))
  | check r =>
      obtain ⟨hr, heq⟩ := Option.ite_none_right_eq_some.mp hstep
      simp only at heq
      split at heq
      · obtain rfl := Option.some.inj heq
        have hdrop : Shrinks s { s with checking := s.checking.erase r } :=
          { Shrinks.refl s with
            removals := by
              intro q hq
              simp only [PruneState.removals, List.mem_append] at hq ⊢
              exact hq.imp_left (Or.imp_right List.mem_of_mem_erase) }
        exact h.shrinks (hdrop.trans (PruneState.shrinks_settle _ r))
      · rename_i hfollows
        obtain rfl := Option.some.inj heq
        exact h.check hr (hclean hfollows)
  | remove r =>
      obtain ⟨_, heq⟩ := Option.ite_none_right_eq_some.mp hstep
      obtain rfl := Option.some.inj heq
      refine h.shrinks { Shrinks.refl s with removals := ?_, checked := ?_ }
      · intro q hq
        simp only [PruneState.removals, List.mem_append] at hq ⊢
        exact hq.imp_right List.mem_of_mem_erase
      · exact fun q hq => List.mem_of_mem_erase hq
  | removed r =>
      obtain ⟨_, heq⟩ := Option.ite_none_right_eq_some.mp hstep
      obtain rfl := Option.some.inj heq
      refine PruneInv.shrinks (s := { s with removing := s.removing.erase r })
        { h with } ?_
      exact ((PruneState.shrinks_settle _ r).trans
        (PruneState.shrinks_removePruneRequestsSent _ _)).trans
          (PruneState.shrinks_deleteCounted _ _)

/-- What a removal may rely on. -/
structure SafeRemoval (s : PruneState) (hash : Hash) : Prop where
  confirmed : cfg.getClampedReplicas hash ≤ (standing hash s.heard).card
  follows : cfg.me ∉ s.leaders hash (cfg.getClampedReplicas hash)

/-- In a clean run every removal is safe. -/
theorem safeRemoval_of_cleanRun
    {leaders : Leaders} {s s' : PruneState} {r : PendingDelete}
    (hrun : (pruneMachine cfg leaders).Run (PruneClean cfg) s)
    (hstep : pruneStep cfg s (.remove r) = some s') :
    SafeRemoval cfg s r.hash := by
  have hinv : PruneInv cfg s :=
    hrun.invariant (.init leaders) (fun s a s' => pruneInv_step cfg s a s')
  obtain ⟨hr, _⟩ := Option.ite_none_right_eq_some.mp hstep
  exact
    { confirmed := hinv.enough r (List.mem_append_right _ hr)
      follows := hinv.follows r hr }

end PruneSafety

/-! ### A peer that withdraws in between -/

namespace LateWithdrawal

def cfg : PruneConfig where
  me := "me"
  min := 1
  max := none
  decodeReplicas _ := 1

/-- The other peer leads all entries. -/
def leaders : Leaders := fun _ _ => {"peer"}

def pending : PendingDelete := { id := 0, hash := "entry", batch := 0 }

/-- The peer confirms and the removal is scheduled. -/
def confirmed : List PruneAction :=
  [.prune [{ hash := "entry", leaders := ["peer"] }],
    .responseIPrune "peer" ["entry"],
    .confirm { pending := pending, peer := "peer" }]

/-- The node removes the entry. -/
def removal : List PruneAction := [.fire pending, .check pending]

def state (actions : List PruneAction) : PruneState :=
  ((pruneMachine cfg leaders).exec (.init leaders) actions).getD (.init leaders)

/-- Between the count and the removal the peer asks to prune the entry itself,
and no peer is left that stands by it. -/
theorem not_safeRemoval :
    ∃ s s', (pruneMachine cfg leaders).Run Lib.Machine.Free s ∧
      pruneStep cfg s (.remove pending) = some s' ∧
      ¬ SafeRemoval cfg s pending.hash := by
  refine ⟨state (confirmed ++ .requestIPrune "peer" ["entry"] :: removal), _,
    ?_, rfl, ?_⟩
  · exact .of_exec .init (confirmed ++ .requestIPrune "peer" ["entry"] :: removal)
      rfl
  · intro hsafe
    exact absurd hsafe.confirmed (by decide)

/-- Without the request the run is clean. -/
theorem safeRemoval :
    ∃ s s', (pruneMachine cfg leaders).Run (PruneClean cfg) s ∧
      pruneStep cfg s (.remove pending) = some s' ∧
      SafeRemoval cfg s pending.hash := by
  have hpruned : (pruneMachine cfg leaders).Run (PruneClean cfg)
      (state (confirmed.take 1)) :=
    .step (a := .prune [{ hash := "entry", leaders := ["peer"] }]) .init trivial
      rfl
  have hanswered : (pruneMachine cfg leaders).Run (PruneClean cfg)
      (state (confirmed.take 2)) :=
    .step (a := .responseIPrune "peer" ["entry"]) hpruned trivial rfl
  have hconfirmed : (pruneMachine cfg leaders).Run (PruneClean cfg)
      (state confirmed) :=
    .step (a := .confirm { pending := pending, peer := "peer" }) hanswered
      trivial rfl
  have hfired : (pruneMachine cfg leaders).Run (PruneClean cfg)
      (state (confirmed ++ [.fire pending])) :=
    .step (a := .fire pending) hconfirmed trivial rfl
  have hrun : (pruneMachine cfg leaders).Run (PruneClean cfg)
      (state (confirmed ++ removal)) :=
    .step (a := .check pending) hfired (fun h => h) rfl
  exact ⟨_, _, hrun, rfl, safeRemoval_of_cleanRun cfg hrun rfl⟩

end LateWithdrawal

end SharedLog
end Peerbit
