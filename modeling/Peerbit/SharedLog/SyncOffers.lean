import Peerbit.SharedLog.SyncNetwork
import Peerbit.SharedLog.SyncNotes

/-!
# Offers that are not lost

The offer of a peer that keeps the entry, and whose messages arrive, is enough to get it,
whatever other peers do, and whatever is lost between others (`offer_kept_of_run`): the
receiver asks for the entry at once, or notes the peer, and asks it later.
-/

namespace Peerbit
namespace SharedLog

open SimpleSyncronizer

/-! ### The network -/

/-- An entry that one peer has offered to another one. -/
structure Offer (Peer : Type) where
  from_ : Peer
  to_ : Peer
  hash : String

namespace Offer

variable {Peer : Type} [DecidableEq Peer] (o : Offer Peer)

/-- The message is the offer, a request that answers it, or brings the entry. -/
def CarriedBy (transit : SyncTransit Peer) : Prop :=
  match transit.packet with
  | .RequestMaybeSync hashes =>
      transit.sender = o.from_ ∧ transit.receiver = o.to_ ∧ o.hash ∈ hashes
  | .ResponseMaybeSync hashes =>
      transit.sender = o.to_ ∧ transit.receiver = o.from_ ∧ .hash o.hash ∈ hashes
  | .ExchangeHeads heads =>
      transit.sender = o.from_ ∧ transit.receiver = o.to_ ∧ o.hash ∈ heads

/-- The receiver has the entry, or is still going to ask the sender for it, or a message of
the two is on its way. -/
def Pending (network : SyncNetwork Peer) : Prop :=
  o.hash ∈ (network.nodes o.to_).log ∨
  (∃ transit ∈ network.inFlight, o.CarriedBy transit) ∨
  Noted (network.nodes o.to_).syncronizer o.from_ (.hash o.hash)

/-- The sender keeps the entry, no message of the two is lost, and the receiver takes the
entry and does not drop the sender with the key while it lacks the entry. -/
def Spared (network : SyncNetwork Peer) : SyncNetworkAction Peer → Prop
  | .offer .. => True
  | .deliver i joined _ => ∀ transit ∈ network.inFlight[i]?, o.CarriedBy transit →
      (∃ heads, transit.packet = .ExchangeHeads heads) →
        o.hash ∉ (network.nodes o.to_).log → o.hash ∈ joined
  | .lose i => ∀ transit ∈ network.inFlight[i]?, ¬ o.CarriedBy transit
  | .sync peer action => peer = o.to_ → o.hash ∉ (network.nodes o.to_).log →
      KeepsNote (network.nodes o.to_).syncronizer o.from_ (.hash o.hash) action ∧
        ¬ Finds (network.nodes o.to_).syncronizer (.hash o.hash) action
  | .add .. => True
  | .delete peer hash => hash = o.hash → peer ≠ o.from_ ∧ peer ≠ o.to_

/-- Nothing of the two peers is on its way, and the receiver has nothing to do. -/
structure AtRest (network : SyncNetwork Peer) : Prop where
  inFlight : ∀ transit ∈ network.inFlight, ¬ o.CarriedBy transit
  calls : (network.nodes o.to_).syncronizer.calls = []
  loop : (network.nodes o.to_).syncronizer.loop = none
  queue : o.from_ ∉ (network.nodes o.to_).syncronizer.peersOf (.hash o.hash)

/-- The sender has the entry. -/
def Held (network : SyncNetwork Peer) : Prop := o.hash ∈ (network.nodes o.from_).log

end Offer

/-! ### Messages with entries -/

theorem flatten_exchangeHeadsLoop (size : String → Nat) (log heads : List String)
    (bytes : Nat) (current : List String) :
    (exchangeHeadsLoop size log bytes current heads).flatten =
      current ++ heads.filter (fun head => head ∈ log) := by
  induction heads generalizing bytes current with
  | nil =>
      unfold exchangeHeadsLoop
      split
      · rename_i hempty
        simp [List.isEmpty_iff.mp hempty]
      · simp
  | cons head heads ih =>
      unfold exchangeHeadsLoop
      split
      · rename_i hmem
        split
        · simp [ih, hmem]
        · simp [ih, hmem]
      · rename_i hmem
        simp [ih, hmem]

/-- The messages have the entries that are asked for and are there, in this order. -/
theorem flatten_createExchangeHeadsMessages (size : String → Nat) (log heads : List String) :
    (createExchangeHeadsMessages size log heads).flatten =
      heads.filter (fun head => head ∈ log) :=
  flatten_exchangeHeadsLoop size log heads 0 []

namespace SyncNode

variable {Peer : Type} {node : SyncNode Peer} {h : String}

theorem mem_log_add {hashes : List String} :
    h ∈ (node.add hashes).log ↔ h ∈ node.log ∨ h ∈ hashes := by
  simp only [add, List.mem_append, List.mem_filter, decide_eq_true_eq]
  tauto

theorem log_receiveHeads [DecidableEq Peer] (node : SyncNode Peer) (from_ : Peer)
    (heads joined : List String) : node.log ⊆ (node.receiveHeads from_ heads joined).log := by
  unfold receiveHeads
  dsimp only
  split
  · exact List.Subset.refl _
  · exact List.subset_append_left _ _

/-- An entry that arrives is there, if it is taken. -/
theorem mem_log_receiveHeads [DecidableEq Peer] {from_ : Peer} {heads joined : List String}
    (hmem : h ∈ heads) (htaken : h ∉ node.log → h ∈ joined) :
    h ∈ (node.receiveHeads from_ heads joined).log := by
  by_cases hlog : h ∈ node.log
  · exact log_receiveHeads node from_ heads joined hlog
  · unfold receiveHeads
    dsimp only
    split
    · rename_i hempty
      have hnew : h ∈ heads.filter (fun head => decide (head ∉ node.log)) :=
        List.mem_filter.mpr ⟨hmem, by simpa using hlog⟩
      rw [List.isEmpty_iff.mp hempty] at hnew
      exact absurd hnew List.not_mem_nil
    · exact mem_log_add.mpr (.inr (htaken hlog))

theorem syncronizer_receiveHeads [DecidableEq Peer] (node : SyncNode Peer) (from_ : Peer)
    (heads joined : List String) :
    (node.receiveHeads from_ heads joined).syncronizer = node.syncronizer ∨
      ∃ entries, (node.receiveHeads from_ heads joined).syncronizer =
        node.syncronizer.onReceivedEntries entries from_ := by
  unfold receiveHeads
  dsimp only
  split
  · exact .inl rfl
  · exact .inr ⟨_, rfl⟩

end SyncNode

/-! ### Steps of the network -/

section Network

variable {Peer : Type} [DecidableEq Peer] {o : Offer Peer} {network : SyncNetwork Peer}
variable {peer : Peer} {node : SyncNode Peer} {s : SimpleSyncronizer Peer}

/-- The synchronizer of the receiver, as far as offers go. -/
structure SyncsSame (s t : SimpleSyncronizer Peer) : Prop where
  lists : t.lists = s.lists
  fresh : t.fresh = s.fresh
  queue : t.syncInFlightQueue = s.syncInFlightQueue
  sent : t.sent = s.sent
  calls : t.calls = s.calls
  loop : t.loop = s.loop

theorem syncsSame_receiveHeads (node : SyncNode Peer) (from_ : Peer)
    (heads joined : List String) :
    SyncsSame node.syncronizer (node.receiveHeads from_ heads joined).syncronizer := by
  rcases node.syncronizer_receiveHeads from_ heads joined with h | ⟨entries, h⟩
  · rw [h]
    exact ⟨rfl, rfl, rfl, rfl, rfl, rfl⟩
  · rw [h]
    exact ⟨rfl, rfl, rfl, rfl, rfl, rfl⟩

omit [DecidableEq Peer] in
theorem SyncsSame.noted {t : SimpleSyncronizer Peer} (h : SyncsSame s t) {key : SyncableKey}
    (hnoted : Noted s peer key) : Noted t peer key := by
  have hpeers : t.peersOf key = s.peersOf key := by
    rw [peersOf, peersOf, h.queue, h.lists]
  rcases hnoted with ⟨call, hcall, hcalled⟩ | hpeer | ⟨l, hl, hasked⟩
  · exact .inl ⟨call, h.calls ▸ hcall, hcalled⟩
  · exact .inr (.inl (hpeers ▸ hpeer))
  · exact .inr (.inr ⟨l, h.loop.trans hl, hasked⟩)

/-- A node changes so that nothing gets lost. -/
structure NodeKeeps (o : Offer Peer) (peer : Peer) (before after : SyncNode Peer) : Prop where
  log : (peer = o.from_ ∨ peer = o.to_) → o.hash ∈ before.log → o.hash ∈ after.log
  same : SyncsSame before.syncronizer after.syncronizer

/-- What holds of a node of the two holds of it afterwards. -/
theorem NodeKeeps.mem_log (h : NodeKeeps o peer (network.nodes peer) node) {key : Peer}
    (hkey : key = o.from_ ∨ key = o.to_) (hmem : o.hash ∈ (network.nodes key).log) :
    o.hash ∈ ((network.setNode peer node).nodes key).log := by
  by_cases heq : key = peer
  · subst heq
    rw [SyncNetwork.nodes_setNode_self]
    exact h.log hkey hmem
  · rwa [SyncNetwork.nodes_setNode_of_ne heq]

theorem NodeKeeps.syncsSame (h : NodeKeeps o peer (network.nodes peer) node) (key : Peer) :
    SyncsSame (network.nodes key).syncronizer
      ((network.setNode peer node).nodes key).syncronizer := by
  by_cases heq : key = peer
  · subst heq
    rw [SyncNetwork.nodes_setNode_self]
    exact h.same
  · rw [SyncNetwork.nodes_setNode_of_ne heq]
    exact ⟨rfl, rfl, rfl, rfl, rfl, rfl⟩

/-- The state of every synchronizer is in order. -/
def Orderly (network : SyncNetwork Peer) : Prop :=
  ∀ key, ListsApart (network.nodes key).syncronizer ∧ OnlyHashes (network.nodes key).syncronizer

theorem Orderly.setNode (hs : Orderly network)
    (hsame : SyncsSame (network.nodes peer).syncronizer node.syncronizer) :
    Orderly (network.setNode peer node) := by
  intro key
  by_cases heq : key = peer
  · subst heq
    rw [SyncNetwork.nodes_setNode_self]
    obtain ⟨hlists, hqueue, hcalls, hloop, hsent⟩ := hs key
    refine ⟨hlists.congr hsame.queue hsame.fresh hsame.loop, ?_, ?_, ?_, ?_⟩
    · rwa [hsame.queue]
    · rwa [hsame.calls]
    · rwa [hsame.loop]
    · rwa [hsame.sent]
  · rw [SyncNetwork.nodes_setNode_of_ne heq]
    exact hs key

theorem Orderly.setSyncronizer (hs : Orderly network) (peer : Peer) (hlists : ListsApart s)
    (hhashes : OnlyHashes s) : Orderly (network.setSyncronizer peer s) := by
  intro key
  by_cases heq : key = peer
  · subst heq
    rw [SyncNetwork.nodes_setSyncronizer_self]
    exact ⟨hlists, hhashes⟩
  · rw [SyncNetwork.nodes_setSyncronizer_of_ne heq]
    exact hs key

theorem Offer.Pending.setNode (h : o.Pending network)
    (hkeeps : NodeKeeps o peer (network.nodes peer) node) :
    o.Pending (network.setNode peer node) := by
  rcases h with hmem | hflight | hnoted
  · exact .inl (hkeeps.mem_log (.inr rfl) hmem)
  · exact .inr (.inl hflight)
  · exact .inr (.inr ((hkeeps.syncsSame o.to_).noted hnoted))

omit [DecidableEq Peer] in
theorem Offer.Pending.send (h : o.Pending network) (transits : List (SyncTransit Peer)) :
    o.Pending (network.send transits) := by
  rcases h with hmem | ⟨transit, hflight, hcarried⟩ | hnoted
  · exact .inl hmem
  · exact .inr (.inl ⟨transit, List.mem_append_left _ hflight, hcarried⟩)
  · exact .inr (.inr hnoted)

omit [DecidableEq Peer] in
/-- A message is taken out that does not matter, or it matters. -/
theorem Offer.Pending.eraseIdx (h : o.Pending network) {i : Nat}
    {transit : SyncTransit Peer} (hi : network.inFlight[i]? = some transit) :
    o.CarriedBy transit ∨
      o.Pending { network with inFlight := network.inFlight.eraseIdx i } := by
  rcases h with hmem | ⟨transit', hflight, hcarried⟩ | hnoted
  · exact .inr (.inl hmem)
  · obtain ⟨j, hj⟩ := List.mem_iff_getElem?.mp hflight
    by_cases hij : j = i
    · subst hij
      obtain rfl := Option.some.inj (hj.symm.trans hi)
      exact .inl hcarried
    · refine .inr (.inr (.inl ⟨transit', ?_, hcarried⟩))
      exact List.mem_eraseIdx_iff_getElem?.mpr ⟨j, hij, hj⟩
  · exact .inr (.inr (.inr hnoted))

/-- What the receiver of the offer asks its sender for is in flight. -/
theorem carried_of_askedSince (hhashes : OnlyHashes s)
    (hasked : AskedSince (network.nodes o.to_).syncronizer.sent s o.from_ (.hash o.hash)) :
    ∃ transit ∈ (network.setSyncronizer o.to_ s).inFlight, o.CarriedBy transit := by
  obtain ⟨request, hrequest, hkey, hpeer⟩ := hasked
  obtain ⟨hashes, to_, rfl⟩ := hhashes.sent request (List.mem_of_mem_drop hrequest)
  refine ⟨{ sender := o.to_, receiver := o.from_, packet := .ResponseMaybeSync hashes }, ?_,
    rfl, rfl, hkey⟩
  refine List.mem_append_right _ (List.mem_flatMap.mpr ⟨_, hrequest, ?_⟩)
  exact List.mem_map.mpr ⟨o.from_, hpeer, rfl⟩

theorem log_setSyncronizer (network : SyncNetwork Peer) (peer key : Peer)
    (s : SimpleSyncronizer Peer) :
    ((network.setSyncronizer peer s).nodes key).log = (network.nodes key).log := by
  by_cases heq : key = peer
  · rw [heq, SyncNetwork.nodes_setSyncronizer_self]
  · rw [SyncNetwork.nodes_setSyncronizer_of_ne heq]

/-- The receiver's synchronizer goes on, and notes or asks the sender. -/
theorem pending_setSyncronizer_to (hhashes : OnlyHashes s)
    (h : Noted s o.from_ (.hash o.hash) ∨
      AskedSince (network.nodes o.to_).syncronizer.sent s o.from_ (.hash o.hash)) :
    o.Pending (network.setSyncronizer o.to_ s) := by
  rcases h with hnoted | hasked
  · refine .inr (.inr ?_)
    rwa [SyncNetwork.nodes_setSyncronizer_self]
  · exact .inr (.inl (carried_of_askedSince hhashes hasked))

/-- A synchronizer goes on. -/
theorem Offer.Pending.setSyncronizer (h : o.Pending network)
    (hhashes : peer = o.to_ → OnlyHashes s)
    (hto : peer = o.to_ → Noted (network.nodes peer).syncronizer o.from_ (.hash o.hash) →
      o.hash ∈ (network.nodes peer).log ∨ Noted s o.from_ (.hash o.hash) ∨
        AskedSince (network.nodes peer).syncronizer.sent s o.from_ (.hash o.hash)) :
    o.Pending (network.setSyncronizer peer s) := by
  rcases h with hmem | ⟨transit, hflight, hcarried⟩ | hnoted
  · refine .inl ?_
    rwa [log_setSyncronizer]
  · exact .inr (.inl ⟨transit, List.mem_append_left _ hflight, hcarried⟩)
  · by_cases heq : peer = o.to_
    · subst heq
      rcases hto rfl hnoted with hmem | hstays
      · refine .inl ?_
        rwa [log_setSyncronizer]
      · exact pending_setSyncronizer_to (hhashes rfl) hstays
    · refine .inr (.inr ?_)
      rwa [SyncNetwork.nodes_setSyncronizer_of_ne (Ne.symm heq)]

end Network

/-! ### Runs of the network -/

section Runs

variable {Peer : Type} [DecidableEq Peer] {o : Offer Peer} {network network' : SyncNetwork Peer}
variable {size : String → Nat}

theorem isHash_of_mem_map {hashes : List String} {key : SyncableKey}
    (hkey : key ∈ hashes.map SyncableKey.hash) : key.IsHash := by
  obtain ⟨h, -, rfl⟩ := List.mem_map.mp hkey
  exact ⟨h, rfl⟩

theorem onlyHashes_offered {s : SimpleSyncronizer Peer} (hs : OnlyHashes s) (from_ : Peer)
    (hashes : List String) (now : Int) :
    OnlyHashes (queueSync from_ false now s (hashes.map .hash) []) :=
  hs.queueSync (fun _ hkey => isHash_of_mem_map hkey)
    (fun _ hkey => absurd hkey List.not_mem_nil) from_ false now

theorem nodeKeeps_receiveHeads (o : Offer Peer) (peer : Peer) (node : SyncNode Peer)
    (from_ : Peer) (heads joined : List String) :
    NodeKeeps o peer node (node.receiveHeads from_ heads joined) where
  log := fun _ hmem => node.log_receiveHeads from_ heads joined hmem
  same := syncsSame_receiveHeads node from_ heads joined

/-- Offers do not come in by themselves. -/
theorem sync_step {peer : Peer} {action : SynchronizerAction Peer}
    (hstep : network.step size (.sync peer action) = some network') :
    (∀ keys from_ skipCheck now, action ≠ .queueSync keys from_ skipCheck now) ∧
      ∃ s, synchronizerStep (network.nodes peer).syncronizer action = some s ∧
        network.setSyncronizer peer s = network' := by
  cases action with
  | queueSync keys from_ skipCheck now => exact nomatch hstep
  | _ => exact ⟨(fun _ _ _ _ h => nomatch h), Option.map_eq_some_iff.mp hstep⟩

theorem Orderly.onMessage (hs : Orderly network) (transit : SyncTransit Peer)
    (joined : List String) (now : Int) :
    Orderly (network.onMessage size transit joined now) := by
  obtain ⟨sender, receiver, packet⟩ := transit
  cases packet with
  | RequestMaybeSync hashes =>
      obtain ⟨hlists, hhashes⟩ := hs receiver
      exact hs.setSyncronizer receiver (hlists.queueSync _ _ _ _ _)
        (onlyHashes_offered hhashes _ _ _)
  | ResponseMaybeSync hashes => exact hs
  | ExchangeHeads heads => exact hs.setNode (syncsSame_receiveHeads _ _ _ _)

theorem Orderly.step (hs : Orderly network) {action : SyncNetworkAction Peer}
    (hstep : network.step size action = some network') : Orderly network' := by
  cases action with
  | offer from_ to_ hashes =>
      obtain rfl := Option.some.inj hstep
      exact hs
  | deliver i joined now =>
      obtain ⟨transit, -, rfl⟩ := Option.map_eq_some_iff.mp hstep
      have herased : Orderly { network with inFlight := network.inFlight.eraseIdx i } := hs
      exact herased.onMessage transit joined now
  | lose i =>
      obtain rfl := Option.some.inj hstep
      exact hs
  | sync peer action =>
      obtain ⟨hoffer, s, hnext, rfl⟩ := sync_step hstep
      obtain ⟨hlists, hhashes⟩ := hs peer
      refine hs.setSyncronizer peer (hlists.step hnext) (hhashes.step ?_ hnext)
      exact fun keys from_ skipCheck now heq => absurd heq (hoffer keys from_ skipCheck now)
  | add peer hashes =>
      obtain rfl := Option.some.inj hstep
      exact hs.setNode ⟨rfl, rfl, rfl, rfl, rfl, rfl⟩
  | delete peer hash =>
      obtain rfl := Option.some.inj hstep
      exact hs.setNode ⟨rfl, rfl, rfl, rfl, rfl, rfl⟩

theorem orderly_of_syncRun
    (hrun : (SyncNetwork.machine Peer size).Run Lib.Machine.Free network) : Orderly network :=
  hrun.invariant (fun _ => ⟨SyncInvariant.init.lists, OnlyHashes.of_init⟩)
    fun _ _ _ hs _ hstep => hs.step hstep

/-- A message that matters is answered. -/
theorem Offer.Pending.onMessage (hs : Orderly network) (hheld : o.Held network)
    {transit : SyncTransit Peer} (h : o.CarriedBy transit ∨ o.Pending network)
    {joined : List String} {now : Int}
    (htaken : o.CarriedBy transit → (∃ heads, transit.packet = .ExchangeHeads heads) →
      o.hash ∉ (network.nodes o.to_).log → o.hash ∈ joined) :
    o.Pending (network.onMessage size transit joined now) := by
  obtain ⟨sender, receiver, packet⟩ := transit
  obtain ⟨hlists, hhashes⟩ := hs o.to_
  cases packet with
  | RequestMaybeSync hashes =>
      rcases h with ⟨hsender, hreceiver, hmem⟩ | h
      · obtain rfl : sender = o.from_ := hsender
        obtain rfl : receiver = o.to_ := hreceiver
        exact pending_setSyncronizer_to (onlyHashes_offered hhashes _ _ _)
          (noted_queueSync hlists (.inl (List.mem_map_of_mem hmem)))
      · refine h.setSyncronizer ?_ ?_
        · rintro rfl
          exact onlyHashes_offered hhashes _ _ _
        · rintro rfl hnoted
          exact .inr (.inl (hnoted.queueSync hlists))
  | ResponseMaybeSync hashes =>
      rcases h with ⟨hsender, hreceiver, hmem⟩ | h
      · obtain rfl : sender = o.to_ := hsender
        obtain rfl : receiver = o.from_ := hreceiver
        have hasked : o.hash ∈ (createExchangeHeadsMessages size (network.nodes o.from_).log
            (hashes.filterMap SyncableKey.hash?)).flatten := by
          rw [flatten_createExchangeHeadsMessages, List.mem_filter]
          exact ⟨List.mem_filterMap.mpr ⟨_, hmem, rfl⟩, decide_eq_true hheld⟩
        obtain ⟨heads, hheads, hhash⟩ := List.mem_flatten.mp hasked
        exact .inr (.inl ⟨_, List.mem_append_right _ (List.mem_map_of_mem hheads), rfl, rfl,
          hhash⟩)
      · exact h.send _
  | ExchangeHeads heads =>
      rcases h with hcarried | h
      · have hjoined := htaken hcarried ⟨heads, rfl⟩
        obtain ⟨hsender, hreceiver, hmem⟩ := hcarried
        obtain rfl : receiver = o.to_ := hreceiver
        refine .inl ?_
        rw [SyncNetwork.onMessage, SyncNetwork.nodes_setNode_self]
        exact SyncNode.mem_log_receiveHeads hmem hjoined
      · exact h.setNode (nodeKeeps_receiveHeads o _ _ _ _ _)

omit [DecidableEq Peer] in
theorem nodeKeeps_add (o : Offer Peer) (peer : Peer) (node : SyncNode Peer)
    (hashes : List String) : NodeKeeps o peer node (node.add hashes) :=
  ⟨fun _ hmem => SyncNode.mem_log_add.mpr (.inl hmem), rfl, rfl, rfl, rfl, rfl, rfl⟩

omit [DecidableEq Peer] in
theorem nodeKeeps_delete {peer : Peer} (node : SyncNode Peer) {hash : String}
    (hspared : hash = o.hash → peer ≠ o.from_ ∧ peer ≠ o.to_) :
    NodeKeeps o peer node { node with log := node.log.filter (fun x => x ≠ hash) } := by
  refine ⟨?_, rfl, rfl, rfl, rfl, rfl, rfl⟩
  intro hpeer hmem
  have hne : o.hash ≠ hash := by
    rintro rfl
    obtain ⟨hfrom, hto⟩ := hspared rfl
    exact hpeer.elim hfrom hto
  exact List.mem_filter.mpr ⟨hmem, by simpa using hne⟩

theorem Offer.Held.step (hheld : o.Held network) {action : SyncNetworkAction Peer}
    (hspared : o.Spared network action) (hstep : network.step size action = some network') :
    o.Held network' := by
  cases action with
  | offer from_ to_ hashes =>
      obtain rfl := Option.some.inj hstep
      exact hheld
  | deliver i joined now =>
      obtain ⟨⟨sender, receiver, packet⟩, -, rfl⟩ := Option.map_eq_some_iff.mp hstep
      cases packet with
      | RequestMaybeSync hashes =>
          rw [Offer.Held, SyncNetwork.onMessage, log_setSyncronizer]
          exact hheld
      | ResponseMaybeSync hashes => exact hheld
      | ExchangeHeads heads =>
          exact NodeKeeps.mem_log (nodeKeeps_receiveHeads o _ _ _ _ _) (.inl rfl) hheld
  | lose i =>
      obtain rfl := Option.some.inj hstep
      exact hheld
  | sync peer action =>
      obtain ⟨-, s, -, rfl⟩ := sync_step hstep
      rw [Offer.Held, log_setSyncronizer]
      exact hheld
  | add peer hashes =>
      obtain rfl := Option.some.inj hstep
      exact (nodeKeeps_add o peer _ hashes).mem_log (.inl rfl) hheld
  | delete peer hash =>
      obtain rfl := Option.some.inj hstep
      exact (nodeKeeps_delete _ hspared).mem_log (.inl rfl) hheld

theorem Offer.Pending.step (hs : Orderly network) (hheld : o.Held network)
    (h : o.Pending network) {action : SyncNetworkAction Peer}
    (hspared : o.Spared network action) (hstep : network.step size action = some network') :
    o.Pending network' := by
  cases action with
  | offer from_ to_ hashes =>
      obtain rfl := Option.some.inj hstep
      exact h.send _
  | deliver i joined now =>
      obtain ⟨transit, hi, rfl⟩ := Option.map_eq_some_iff.mp hstep
      have herased : Orderly { network with inFlight := network.inFlight.eraseIdx i } := hs
      exact Offer.Pending.onMessage herased hheld (h.eraseIdx hi) (hspared transit hi)
  | lose i =>
      obtain rfl := Option.some.inj hstep
      cases hi : network.inFlight[i]? with
      | none =>
          have hsame := List.eraseIdx_of_length_le (List.getElem?_eq_none_iff.mp hi)
          rwa [hsame]
      | some transit => exact (h.eraseIdx hi).resolve_left (hspared transit hi)
  | sync peer action =>
      obtain ⟨hoffer, s, hnext, rfl⟩ := sync_step hstep
      obtain ⟨hlists, hhashes⟩ := hs peer
      refine h.setSyncronizer (fun _ => hhashes.step ?_ hnext) ?_
      · exact fun keys from_ skipCheck now heq => absurd heq (hoffer keys from_ skipCheck now)
      · rintro rfl hnoted
        by_cases hmem : o.hash ∈ (network.nodes o.to_).log
        · exact .inl hmem
        · obtain ⟨hkeeps, hfinds⟩ := hspared rfl hmem
          rcases hnoted.step hlists hkeeps hnext with hnoted | hasked | hfound
          · exact .inr (.inl hnoted)
          · exact .inr (.inr hasked)
          · exact absurd hfound hfinds
  | add peer hashes =>
      obtain rfl := Option.some.inj hstep
      exact h.setNode (nodeKeeps_add o peer _ hashes)
  | delete peer hash =>
      obtain rfl := Option.some.inj hstep
      exact h.setNode (nodeKeeps_delete _ hspared)

omit [DecidableEq Peer] in
/-- Where nothing is pending any more, the entry is there. -/
theorem Offer.Pending.mem_log (h : o.Pending network) (hrest : o.AtRest network) :
    o.hash ∈ (network.nodes o.to_).log := by
  rcases h with hmem | ⟨transit, hflight, hcarried⟩ | ⟨call, hcall, -⟩ | hpeer | ⟨l, hl, -⟩
  · exact hmem
  · exact absurd hcarried (hrest.inFlight transit hflight)
  · rw [hrest.calls] at hcall
    exact absurd hcall List.not_mem_nil
  · exact absurd hpeer hrest.queue
  · rw [hrest.loop] at hl
    exact nomatch hl

/-- What the run from the offer on keeps. -/
structure Offer.Kept (o : Offer Peer) (network : SyncNetwork Peer) : Prop where
  orderly : Orderly network
  held : o.Held network
  pending : o.Pending network

theorem Offer.Kept.step (h : o.Kept network) {action : SyncNetworkAction Peer}
    (hspared : o.Spared network action) (hstep : network.step size action = some network') :
    o.Kept network' where
  orderly := h.orderly.step hstep
  held := h.held.step hspared hstep
  pending := h.pending.step h.orderly h.held hspared hstep

variable {network₀ network₁ network₂ : SyncNetwork Peer}

/-- An entry is offered.  If the run spares the offer from then on, it stays pending, and
the receiver has the entry when the two are at rest: whatever is lost between others, and
whichever of them the receiver asks first. -/
theorem offer_kept_of_run
    (hrun : (SyncNetwork.machine Peer size).Run Lib.Machine.Free network₀)
    {hashes : List String} (hheld : o.Held network₀) (hoffered : o.hash ∈ hashes)
    (hoffer : network₀.step size (.offer o.from_ o.to_ hashes) = some network₁)
    (hlater : ((SyncNetwork.machine Peer size).startingAt network₁).Run o.Spared network₂) :
    o.Pending network₂ ∧ (o.AtRest network₂ → o.hash ∈ (network₂.nodes o.to_).log) := by
  obtain rfl := Option.some.inj hoffer
  have hfirst : o.Kept (network₀.send
      [{ sender := o.from_, receiver := o.to_, packet := .RequestMaybeSync hashes }]) := by
    have horderly : Orderly network₀ := orderly_of_syncRun hrun
    refine ⟨horderly, hheld, .inr (.inl ?_)⟩
    refine ⟨{ sender := o.from_, receiver := o.to_, packet := .RequestMaybeSync hashes }, ?_,
      rfl, rfl, hoffered⟩
    exact List.mem_append_right _ (List.mem_singleton_self _)
  have hkept : o.Kept network₂ :=
    hlater.invariant hfirst fun _ _ _ h hspared hstep => h.step hspared hstep
  exact ⟨hkept.pending, hkept.pending.mem_log⟩

end Runs

/-! ### A request that is lost -/

section Decidable

variable {Peer : Type} [DecidableEq Peer]

instance (s : SimpleSyncronizer Peer) (l : RequestLoop Peer) (peer : Peer)
    (key : SyncableKey) : Decidable (LoopKeeps s l peer key) :=
  inferInstanceAs (Decidable (_ → _))

instance (s : SimpleSyncronizer Peer) (key : SyncableKey) :
    (action : SynchronizerAction Peer) → Decidable (Finds s key action)
  | .queueSync .. | .requestSyncLoop _ | .onEntryAdded _ | .onEntryRemoved _
  | .onPeerDisconnected _ => isFalse not_false
  | .queueSyncChecked .. => inferInstanceAs (Decidable (_ ∧ _))
  | .loopChecked .. => inferInstanceAs (Decidable (_ ∧ _))

instance (s : SimpleSyncronizer Peer) (peer : Peer) (key : SyncableKey) :
    (action : SynchronizerAction Peer) → Decidable (KeepsNote s peer key action)
  | .queueSync .. | .requestSyncLoop _ => isTrue trivial
  | .queueSyncChecked .. => inferInstanceAs (Decidable (_ → _))
  | .loopChecked .. => inferInstanceAs (Decidable (_ → _))
  | .onEntryAdded _ => inferInstanceAs (Decidable (_ → _))
  | .onEntryRemoved _ => inferInstanceAs (Decidable (_ → _))
  | .onPeerDisconnected _ => inferInstanceAs (Decidable (_ → _))

instance (o : Offer Peer) : (transit : SyncTransit Peer) → Decidable (o.CarriedBy transit)
  | ⟨_, _, .RequestMaybeSync _⟩ => inferInstanceAs (Decidable (_ ∧ _ ∧ _))
  | ⟨_, _, .ResponseMaybeSync _⟩ => inferInstanceAs (Decidable (_ ∧ _ ∧ _))
  | ⟨_, _, .ExchangeHeads _⟩ => inferInstanceAs (Decidable (_ ∧ _ ∧ _))

instance : (packet : SyncPacket) → Decidable (∃ heads, packet = .ExchangeHeads heads)
  | .RequestMaybeSync _ => isFalse fun ⟨_, h⟩ => nomatch h
  | .ResponseMaybeSync _ => isFalse fun ⟨_, h⟩ => nomatch h
  | .ExchangeHeads heads => isTrue ⟨heads, rfl⟩

instance (o : Offer Peer) (network : SyncNetwork Peer) :
    (action : SyncNetworkAction Peer) → Decidable (o.Spared network action)
  | .offer .. | .add .. => isTrue trivial
  | .deliver .. => inferInstanceAs (Decidable (∀ _ ∈ _, _))
  | .lose _ => inferInstanceAs (Decidable (∀ _ ∈ _, _))
  | .sync .. => inferInstanceAs (Decidable (_ → _))
  | .delete .. => inferInstanceAs (Decidable (_ → _))

end Decidable

namespace LostRequest

def machine : Lib.Machine (SyncNetwork String) (SyncNetworkAction String) :=
  SyncNetwork.machine String fun _ => 1

/-- What `b` offers `c`. -/
def offer : Offer String where
  from_ := "b"
  to_ := "c"
  hash := "entry"

/-- Two peers have the entry, and the third one is about to ask the first one. -/
def before : List (SyncNetworkAction String) :=
  [.add "a" ["entry"], .add "b" ["entry"], .offer "a" "c" ["entry"], .deliver 0 [] 0,
    .sync "c" (.queueSyncChecked 0 false 0)]

/-- The request is lost, and the loop asks the second one. -/
def after : List (SyncNetworkAction String) :=
  [.deliver 1 [] 0, .lose 0, .sync "c" (.requestSyncLoop 0), .sync "c" (.loopChecked false 0),
    .deliver 0 [] 0, .deliver 0 ["entry"] 0, .sync "c" (.onEntryAdded "entry")]

theorem offer_kept_of_run_lostRequest :
    ∃ network : SyncNetwork String, offer.AtRest network ∧
      "entry" ∈ (network.nodes "c").log := by
  have hexec : ((machine.exec .init before).bind fun network₀ =>
      (machine.step network₀ (.offer "b" "c" ["entry"])).bind fun network₁ =>
        ((machine.startingAt network₁).execIf
          (fun network action => decide (offer.Spared network action)) network₁ after).map
          fun network => decide ("entry" ∈ (network₀.nodes "b").log ∧ network.inFlight = [] ∧
            (network.nodes "c").syncronizer.calls = [] ∧
            (network.nodes "c").syncronizer.loop = none ∧
            "b" ∉ (network.nodes "c").syncronizer.peersOf (.hash "entry"))) = some true := by
    decide +kernel
  obtain ⟨network₀, hbefore, hexec⟩ := Option.bind_eq_some_iff.mp hexec
  obtain ⟨network₁, hoffer, hexec⟩ := Option.bind_eq_some_iff.mp hexec
  obtain ⟨network₂, hafter, hviews⟩ := Option.map_eq_some_iff.mp hexec
  obtain ⟨hheld, hflight, hcalls, hloop, hqueue⟩ := of_decide_eq_true hviews
  have hrun : machine.Run Lib.Machine.Free network₀ := .of_exec .init before hbefore
  have hlater : (machine.startingAt network₁).Run offer.Spared network₂ :=
    (Lib.Machine.Run.of_execIf .init after hafter).imp fun _ _ => of_decide_eq_true
  have hrest : offer.AtRest network₂ := by
    refine ⟨?_, hcalls, hloop, hqueue⟩
    rw [hflight]
    exact fun _ hmem => absurd hmem List.not_mem_nil
  have hkept := offer_kept_of_run hrun (o := offer) hheld (List.mem_singleton_self _) hoffer
    hlater
  exact ⟨network₂, hrest, hkept.2 hrest⟩

end LostRequest

end SharedLog
end Peerbit
