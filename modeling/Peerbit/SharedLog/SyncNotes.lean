import Peerbit.SharedLog.SyncInverse

/-!
# Peers that are noted

A peer that has told of a key is asked for it at once, or is noted under the key, to be
asked when those before it have not sent the entry.  In between it is in a call that
waits, in the list of the key, or in the loop.

Three things take a peer off the list of a key without asking it: an answer that the key
is there, a call that starts the key anew for another peer, and a loop that comes back
with a list that the key does not have any more.  Else it stays noted until it is asked
(`Noted.step`).
-/

namespace Peerbit
namespace SharedLog

open SimpleSyncronizer

section Noted

variable {Peer : Type}

def SyncRequest.keys : SyncRequest Peer → List SyncableKey
  | .RequestMaybeSyncCoordinate coordinates _ => coordinates
  | .ResponseMaybeSync hashes _ => hashes

def SyncRequest.to_ : SyncRequest Peer → List Peer
  | .RequestMaybeSyncCoordinate _ to_ => to_
  | .ResponseMaybeSync _ to_ => to_

/-- A peer can still be asked for a key, or is about to be asked. -/
def Noted (s : SimpleSyncronizer Peer) (peer : Peer) (key : SyncableKey) : Prop :=
  (∃ call ∈ s.calls, call.from_ = peer ∧
    (key = call.key ∨ key ∈ call.keys ∨ key ∈ call.requestHashes)) ∨
  peer ∈ s.peersOf key ∨
  ∃ l, s.loop = some l ∧ key ∈ l.requestHashes ∧ peer ∈ l.from_

/-- A peer has been asked for a key, since `sent` was sent. -/
def AskedSince (sent : List (SyncRequest Peer)) (s : SimpleSyncronizer Peer) (peer : Peer)
    (key : SyncableKey) : Prop :=
  ∃ request ∈ s.sent.drop sent.length, key ∈ request.keys ∧ peer ∈ request.to_

end Noted

section Operations

variable {Peer : Type} [DecidableEq Peer] {s t : SimpleSyncronizer Peer} {peer from_ : Peer}
variable {key key' : SyncableKey} {keys requestHashes : List SyncableKey} {skipCheck : Bool}
variable {now : Int} {to_ : List Peer}

@[simp] theorem peersOf_requestSync :
    (s.requestSync requestHashes to_ now).peersOf key = s.peersOf key := by
  cases requestHashes with
  | nil => rfl
  | cons first rest => rfl

@[simp] theorem calls_requestSync :
    (s.requestSync requestHashes to_ now).calls = s.calls := by
  cases requestHashes with
  | nil => rfl
  | cons first rest => rfl

@[simp] theorem loop_requestSync :
    (s.requestSync requestHashes to_ now).loop = s.loop := by
  cases requestHashes with
  | nil => rfl
  | cons first rest => rfl

theorem askedSince_requestSync (hkey : key ∈ requestHashes) (hpeer : peer ∈ to_) :
    AskedSince s.sent (s.requestSync requestHashes to_ now) peer key := by
  cases requestHashes with
  | nil => exact absurd hkey List.not_mem_nil
  | cons first rest =>
      cases first with
      | hash h =>
          refine ⟨.ResponseMaybeSync (.hash h :: rest) to_, ?_, hkey, hpeer⟩
          simp [requestSync]
      | coordinate c =>
          refine ⟨.RequestMaybeSyncCoordinate (.coordinate c :: rest) to_, ?_, hkey, hpeer⟩
          simp [requestSync]

theorem mem_peersOf_addPeer (hs : ListsApart s) {inFlight : Nat}
    (hget : s.syncInFlightQueue.get key' = some inFlight) :
    peer ∈ (s.addPeer key' inFlight from_).peersOf key ↔
      peer ∈ s.peersOf key ∨ key = key' ∧ peer = from_ := by
  unfold SimpleSyncronizer.addPeer
  split
  · rename_i hmem
    rw [← peersOf_of_get hget] at hmem
    constructor
    · exact .inl
    · rintro (hpeer | ⟨rfl, rfl⟩)
      · exact hpeer
      · exact hmem
  · have hpeers := hs.peersOf_update hget (s.lists inFlight ++ [from_])
      (t := { s with
        lists := Function.update s.lists inFlight (s.lists inFlight ++ [from_])
        syncInFlightQueueInverted := s.syncInFlightQueueInverted.set from_
          (setAdd (s.keysOf from_) key') }) rfl rfl key
    rw [hpeers]
    by_cases hkey : key = key'
    · subst hkey
      simp [peersOf_of_get hget]
    · simp [hkey]

theorem ListsApart.addPeer (hs : ListsApart s) (key : SyncableKey) (inFlight : Nat)
    (from_ : Peer) : ListsApart (s.addPeer key inFlight from_) := by
  unfold SimpleSyncronizer.addPeer
  split
  · exact hs
  · exact hs.congr rfl rfl rfl

theorem ListsApart.queueSync (hs : ListsApart s) (from_ : Peer) (skipCheck : Bool) (now : Int)
    (keys requestHashes : List SyncableKey) :
    ListsApart (SimpleSyncronizer.queueSync from_ skipCheck now s keys requestHashes) := by
  induction keys generalizing s requestHashes with
  | nil => exact hs.requestSync requestHashes [from_] now
  | cons key keys ih =>
      unfold SimpleSyncronizer.queueSync
      split
      · rename_i inFlight _
        exact ih (hs.addPeer key inFlight from_) requestHashes
      · split
        · exact ih (hs.setPeers key []) _
        · exact hs.congr rfl rfl rfl

/-- A peer stays noted under a key that others are noted for. -/
theorem mem_peersOf_queueSync (hs : ListsApart s) (hpeer : peer ∈ s.peersOf key) :
    peer ∈ (queueSync from_ skipCheck now s keys requestHashes).peersOf key := by
  induction keys generalizing s requestHashes with
  | nil =>
      rw [queueSync, peersOf_requestSync]
      exact hpeer
  | cons key' keys ih =>
      unfold queueSync
      split
      · rename_i inFlight hget
        exact ih (hs.addPeer key' inFlight from_)
          ((mem_peersOf_addPeer hs hget).mpr (.inl hpeer))
      · rename_i hget
        split
        · have hne : key ≠ key' := by
            rintro rfl
            rw [peersOf_of_not_get hget] at hpeer
            exact List.not_mem_nil hpeer
          refine ih (hs.setPeers key' []) ?_
          rw [hs.peersOf_setPeers_of_ne [] hne]
          exact hpeer
        · exact hpeer

theorem calls_queueSync :
    s.calls ⊆ (queueSync from_ skipCheck now s keys requestHashes).calls := by
  induction keys generalizing s requestHashes with
  | nil =>
      rw [queueSync, calls_requestSync]
      exact List.Subset.refl _
  | cons key keys ih =>
      unfold queueSync
      split
      · rename_i inFlight _
        have hcalls : (s.addPeer key inFlight from_).calls = s.calls := by
          unfold SimpleSyncronizer.addPeer
          split <;> rfl
        exact hcalls ▸ ih
      · split
        · exact ih (s := s.setPeers key [])
        · exact List.subset_append_left _ _

theorem loop_queueSync :
    (queueSync from_ skipCheck now s keys requestHashes).loop = s.loop := by
  induction keys generalizing s requestHashes with
  | nil => rw [queueSync, loop_requestSync]
  | cons key keys ih =>
      unfold queueSync
      split
      · rw [ih]
        unfold SimpleSyncronizer.addPeer
        split <;> rfl
      · split
        · exact ih
        · rfl

/-- What is noted stays noted while keys of another call are queued. -/
theorem Noted.queueSync (hs : ListsApart s) (h : Noted s peer key) :
    Noted (SimpleSyncronizer.queueSync from_ skipCheck now s keys requestHashes) peer key := by
  rcases h with ⟨call, hcall, hfrom⟩ | hpeer | ⟨l, hl, hasked⟩
  · exact .inl ⟨call, calls_queueSync hcall, hfrom⟩
  · exact .inr (.inl (mem_peersOf_queueSync hs hpeer))
  · exact .inr (.inr ⟨l, loop_queueSync.trans hl, hasked⟩)

/-- The keys of a call are noted, or requested at its end. -/
theorem noted_queueSync (hs : ListsApart s) (hkey : key ∈ keys ∨ key ∈ requestHashes) :
    Noted (queueSync from_ skipCheck now s keys requestHashes) from_ key ∨
      AskedSince s.sent (queueSync from_ skipCheck now s keys requestHashes) from_ key := by
  induction keys generalizing s requestHashes with
  | nil =>
      have hasked := hkey.resolve_left List.not_mem_nil
      exact .inr (askedSince_requestSync hasked (List.mem_singleton_self from_))
  | cons key' keys ih =>
      unfold queueSync
      split
      · rename_i inFlight hget
        have hsent : (s.addPeer key' inFlight from_).sent = s.sent := by
          unfold SimpleSyncronizer.addPeer
          split <;> rfl
        have hlists := hs.addPeer key' inFlight from_
        by_cases heq : key = key'
        · refine .inl (.inr (.inl (mem_peersOf_queueSync hlists ?_)))
          exact (mem_peersOf_addPeer hs hget).mpr (.inr ⟨heq, rfl⟩)
        · rw [← hsent]
          refine ih hlists ?_
          simpa [heq] using hkey
      · split
        · refine ih (s := s.setPeers key' []) (hs.setPeers key' []) ?_
          simp only [List.mem_cons, List.mem_append, List.mem_nil_iff, or_false] at hkey ⊢
          tauto
        · refine .inl (.inl ⟨_, List.mem_append_right _ (List.mem_singleton_self _), rfl, ?_⟩)
          simpa [or_assoc] using hkey

end Operations

section Loop

variable {Peer : Type} [DecidableEq Peer] {s : SimpleSyncronizer Peer} {peer : Peer}
variable {key : SyncableKey} {l : RequestLoop Peer} {place : Nat}
variable {requestHashes : List SyncableKey} {from_ : List Peer} {now : Int}

theorem ListsApart.visitNext (hs : ListsApart s) (place : Nat)
    (requestHashes : List SyncableKey) (from_ : List Peer) (now : Int) :
    ListsApart (s.visitNext place requestHashes from_ now) := by
  obtain ⟨hused, hapart, -⟩ := hs
  unfold SimpleSyncronizer.visitNext
  split
  · rename_i place' key value hnext
    have hget := Lib.LiveMap.get_of_next hnext
    refine ⟨hused, hapart, ?_⟩
    intro l hl
    obtain rfl := Option.some.inj hl
    exact ⟨hused key value hget, fun k hk => hapart k key value hk hget⟩
  · refine ListsApart.requestSync ?_ requestHashes from_ now
    exact ⟨hused, hapart, fun l hl => nomatch hl⟩

@[simp] theorem peersOf_visitNext :
    (s.visitNext place requestHashes from_ now).peersOf key = s.peersOf key := by
  unfold visitNext
  split
  · rfl
  · rw [peersOf_requestSync]
    rfl

@[simp] theorem calls_visitNext :
    (s.visitNext place requestHashes from_ now).calls = s.calls := by
  unfold visitNext
  split
  · rfl
  · rw [calls_requestSync]

/-- What the loop is about to ask for, it asks for at its end. -/
theorem noted_visitNext (hkey : key ∈ requestHashes) (hpeer : peer ∈ from_) :
    Noted (s.visitNext place requestHashes from_ now) peer key ∨
      AskedSince s.sent (s.visitNext place requestHashes from_ now) peer key := by
  unfold visitNext
  split
  · exact .inl (.inr (.inr ⟨_, rfl, hkey, hpeer⟩))
  · exact .inr (askedSince_requestSync (s :=
      { s with loop := none, syncInFlight := dropOld s.syncInFlight now }) hkey hpeer)

/-- A loop that goes on keeps what it notes itself, and what it leaves as it is. -/
theorem Noted.visitNext {t : SimpleSyncronizer Peer} (h : Noted s peer key)
    (hl : s.loop = some l) (hcalls : t.calls = s.calls) (hsent : t.sent = s.sent)
    (hpeers : peer ∈ s.peersOf key →
      peer ∈ t.peersOf key ∨ key ∈ requestHashes ∧ peer ∈ from_)
    (hrequested : l.requestHashes ⊆ requestHashes) (hfrom : l.from_ ⊆ from_) :
    Noted (t.visitNext place requestHashes from_ now) peer key ∨
      AskedSince s.sent (t.visitNext place requestHashes from_ now) peer key := by
  rw [← hsent]
  rcases h with ⟨call, hcall, hnoted⟩ | hpeer | ⟨l', hl', hkey, hpeer⟩
  · refine .inl (.inl ⟨call, ?_, hnoted⟩)
    rwa [calls_visitNext, hcalls]
  · rcases hpeers hpeer with hstays | ⟨hkey, hfrom⟩
    · refine .inl (.inr (.inl ?_))
      rwa [peersOf_visitNext]
    · exact noted_visitNext hkey hfrom
  · obtain rfl := Option.some.inj (hl.symm.trans hl')
    exact noted_visitNext (hrequested hkey) (hfrom hpeer)

/-- Asking the first peer of the list that the loop holds touches the list of its key, or
no list of the queue. -/
theorem peersOf_askPeer (hs : ListsApart s) (hl : s.loop = some l) (publicKeyHash : Peer)
    (rest : List Peer) :
    (s.askPeer l.key l.value publicKeyHash rest).peersOf key =
      if key = l.key ∧ s.syncInFlightQueue.get l.key = some l.value then rest
      else s.peersOf key := by
  by_cases hget : s.syncInFlightQueue.get l.key = some l.value
  · rw [hs.peersOf_update hget rest (t := s.askPeer l.key l.value publicKeyHash rest) rfl rfl]
    simp [hget]
  · have hnone : ∀ k, s.syncInFlightQueue.get k ≠ some l.value := by
      intro k hk
      have hkey := (hs.held l hl).2 k hk
      exact hget (hkey ▸ hk)
    rw [peersOf_update_of_not_get hnone rest
      (t := s.askPeer l.key l.value publicKeyHash rest) rfl rfl]
    simp [hget]

theorem ListsApart.askPeer (hs : ListsApart s) (key : SyncableKey) (value : Nat)
    (publicKeyHash : Peer) (rest : List Peer) :
    ListsApart (s.askPeer key value publicKeyHash rest) :=
  hs.congr rfl rfl rfl

theorem ListsApart.loopChecked (hs : ListsApart s) (l : RequestLoop Peer) (has : Bool)
    (now : Int) : ListsApart (s.loopChecked l has now) := by
  unfold SimpleSyncronizer.loopChecked
  split
  · exact (hs.deleteKey l.key).visitNext _ _ _ _
  · split
    · exact (hs.deleteKey l.key).visitNext _ _ _ _
    · rename_i publicKeyHash rest _
      have hasked := hs.askPeer l.key l.value publicKeyHash rest
      dsimp only
      split
      · exact (hasked.deleteKey l.key).visitNext _ _ _ _
      · exact hasked.visitNext _ _ _ _

/-- The loop does not drop the peer with the key: the list that it holds is the key's, or
has others left. -/
def LoopKeeps (s : SimpleSyncronizer Peer) (l : RequestLoop Peer) (peer : Peer)
    (key : SyncableKey) : Prop :=
  l.key = key → s.syncInFlightQueue.get key = some l.value ∨
    ((s.lists l.value).length ≤ 1 → peer ∉ s.peersOf key)

theorem Noted.loopChecked (now : Int) (hs : ListsApart s) (hl : s.loop = some l)
    {has : Bool} (h : Noted s peer key) (hkeeps : has = false → LoopKeeps s l peer key)
    (hhas : has = true → l.key ≠ key) :
    Noted (s.loopChecked l has now) peer key ∨
      AskedSince s.sent (s.loopChecked l has now) peer key := by
  cases has with
  | true =>
      refine h.visitNext (t := s.deleteKey l.key) hl rfl rfl ?_ (List.Subset.refl _)
        (List.Subset.refl _)
      intro hpeer
      rw [peersOf_deleteKey_of_ne (Ne.symm (hhas rfl))]
      exact .inl hpeer
  | false =>
      have hkeeps := hkeeps rfl
      simp only [SimpleSyncronizer.loopChecked, Bool.false_eq_true, if_false]
      cases hvalue : s.lists l.value with
      | nil =>
          refine h.visitNext (t := s.deleteKey l.key) hl rfl rfl ?_ (List.Subset.refl _)
            (List.Subset.refl _)
          intro hpeer
          by_cases hkey : l.key = key
          · rcases hkeeps hkey with hget | hnot
            · rw [peersOf_of_get hget, hvalue] at hpeer
              exact absurd hpeer List.not_mem_nil
            · exact absurd hpeer (hnot (by simp [hvalue]))
          · rw [peersOf_deleteKey_of_ne (Ne.symm hkey)]
            exact .inl hpeer
      | cons publicKeyHash rest =>
          have hpeers : (s.askPeer l.key l.value publicKeyHash rest).peersOf key =
              if key = l.key ∧ s.syncInFlightQueue.get l.key = some l.value then rest
              else s.peersOf key :=
            peersOf_askPeer hs hl publicKeyHash rest
          have hrequested : l.requestHashes ⊆ l.requestHashes ++ [l.key] :=
            List.subset_append_left _ _
          have hfrom : l.from_ ⊆ setAdd l.from_ publicKeyHash :=
            fun _ hx => mem_setAdd.mpr (.inl hx)
          -- The peer is asked now, or stays in a list that is not empty.
          have hstays : peer ∈ s.peersOf key →
              (key = l.key ∧ peer = publicKeyHash) ∨
                peer ∈ (s.askPeer l.key l.value publicKeyHash rest).peersOf key ∧
                  (key = l.key → rest ≠ []) := by
            intro hpeer
            rw [hpeers]
            by_cases hkey : key = l.key
            · subst hkey
              by_cases hget : s.syncInFlightQueue.get l.key = some l.value
              · rw [peersOf_of_get hget, hvalue, List.mem_cons] at hpeer
                rw [if_pos ⟨rfl, hget⟩]
                rcases hpeer with rfl | hpeer
                · exact .inl ⟨rfl, rfl⟩
                · exact .inr ⟨hpeer, fun _ => List.ne_nil_of_mem hpeer⟩
              · rw [if_neg (fun hboth => hget hboth.2)]
                refine .inr ⟨hpeer, ?_⟩
                rintro - rfl
                exact (hkeeps rfl).resolve_left hget (by simp [hvalue]) hpeer
            · rw [if_neg (fun hboth => hkey hboth.1)]
              exact .inr ⟨hpeer, fun heq => absurd heq hkey⟩
          have hnow : key = l.key ∧ peer = publicKeyHash →
              key ∈ l.requestHashes ++ [l.key] ∧ peer ∈ setAdd l.from_ publicKeyHash := by
            rintro ⟨rfl, rfl⟩
            exact ⟨List.mem_append_right _ (List.mem_singleton_self _), mem_setAdd.mpr (.inr rfl)⟩
          dsimp only
          split
          · rename_i hempty
            refine h.visitNext
              (t := (s.askPeer l.key l.value publicKeyHash rest).deleteKey l.key)
              hl rfl rfl ?_ hrequested hfrom
            intro hpeer
            rcases hstays hpeer with hasked | ⟨hmem, hleft⟩
            · exact .inr (hnow hasked)
            · have hne : key ≠ l.key := fun heq => hleft heq (List.isEmpty_iff.mp hempty)
              rw [peersOf_deleteKey_of_ne hne]
              exact .inl hmem
          · refine h.visitNext (t := s.askPeer l.key l.value publicKeyHash rest)
              hl rfl rfl ?_ hrequested hfrom
            intro hpeer
            rcases hstays hpeer with hasked | ⟨hmem, -⟩
            · exact .inr (hnow hasked)
            · exact .inl hmem

end Loop

section Steps

variable {Peer : Type} [DecidableEq Peer] {s t : SimpleSyncronizer Peer} {peer : Peer}
variable {key : SyncableKey}

omit [DecidableEq Peer] in
/-- Notes are of calls, the queue and the loop. -/
theorem Noted.congr (h : Noted s peer key) (hcalls : s.calls ⊆ t.calls)
    (hloop : t.loop = s.loop) (hpeers : peer ∈ s.peersOf key → peer ∈ t.peersOf key) :
    Noted t peer key := by
  rcases h with ⟨call, hcall, hnoted⟩ | hpeer | ⟨l, hl, hasked⟩
  · exact .inl ⟨call, hcalls hcall, hnoted⟩
  · exact .inr (.inl (hpeers hpeer))
  · exact .inr (.inr ⟨l, hloop.trans hl, hasked⟩)

/-- The two parts of the state that clearing a peer leaves alone. -/
def SameWork (s t : SimpleSyncronizer Peer) : Prop := t.calls = s.calls ∧ t.loop = s.loop

theorem sameWork_filterPeer (publicKey : Peer) (s : SimpleSyncronizer Peer)
    (key : SyncableKey) : SameWork s (filterPeer publicKey s key) := by
  unfold filterPeer
  split
  · exact ⟨rfl, rfl⟩
  · dsimp only
    split
    · exact ⟨rfl, rfl⟩
    · exact ⟨rfl, rfl⟩

theorem sameWork_foldl_filterPeer (publicKey : Peer) (keys : List SyncableKey)
    (s : SimpleSyncronizer Peer) : SameWork s (keys.foldl (filterPeer publicKey) s) := by
  induction keys generalizing s with
  | nil => exact ⟨rfl, rfl⟩
  | cons key keys ih =>
      obtain ⟨hcalls, hloop⟩ := sameWork_filterPeer publicKey s key
      obtain ⟨hcalls', hloop'⟩ := ih (filterPeer publicKey s key)
      exact ⟨hcalls'.trans hcalls, hloop'.trans hloop⟩

theorem sameWork_clearSyncProcessPublicKey (s : SimpleSyncronizer Peer) (publicKey : Peer) :
    SameWork s (s.clearSyncProcessPublicKey publicKey) := by
  unfold clearSyncProcessPublicKey
  dsimp only
  split
  · exact ⟨rfl, rfl⟩
  · exact sameWork_foldl_filterPeer publicKey _ _

/-- Clearing a peer leaves the others in all lists. -/
theorem mem_peersOf_clearSyncProcessPublicKey (hs : ListsApart s) {publicKey : Peer}
    (hne : peer ≠ publicKey) (hpeer : peer ∈ s.peersOf key) :
    peer ∈ (s.clearSyncProcessPublicKey publicKey).peersOf key := by
  unfold clearSyncProcessPublicKey
  dsimp only
  split
  · exact hpeer
  · rename_i keys _
    have hwithout := WithoutPeer.foldl publicKey keys
      (s := { s with syncInFlight := s.syncInFlight.delete publicKey }) (hs.congr rfl rfl rfl)
    refine Eq.mpr (congrArg (peer ∈ ·) (hwithout.peers key)) ?_
    split
    · exact List.mem_filter.mpr ⟨hpeer, by simpa using hne⟩
    · exact hpeer

theorem ListsApart.clearSyncProcess (hs : ListsApart s) (hash : String) :
    ListsApart (s.clearSyncProcess hash) := by
  unfold SimpleSyncronizer.clearSyncProcess
  split
  · exact hs
  · exact (hs.deleteKey (.hash hash)).congr rfl rfl rfl

theorem ListsApart.clearSyncProcessPublicKey (hs : ListsApart s) (publicKey : Peer) :
    ListsApart (s.clearSyncProcessPublicKey publicKey) := by
  unfold SimpleSyncronizer.clearSyncProcessPublicKey
  dsimp only
  split
  · exact hs.congr rfl rfl rfl
  · rename_i keys _
    have hwithout := WithoutPeer.foldl publicKey keys
      (s := { s with syncInFlight := s.syncInFlight.delete publicKey }) (hs.congr rfl rfl rfl)
    exact hwithout.lists.congr rfl rfl rfl

theorem mem_peersOf_clearSyncProcess {hash : String} (hne : key ≠ .hash hash)
    (hpeer : peer ∈ s.peersOf key) : peer ∈ (s.clearSyncProcess hash).peersOf key := by
  unfold clearSyncProcess
  split
  · exact hpeer
  · change peer ∈ (s.deleteKey (.hash hash)).peersOf key
    rwa [peersOf_deleteKey_of_ne hne]

theorem sameWork_clearSyncProcess (s : SimpleSyncronizer Peer) (hash : String) :
    SameWork s (s.clearSyncProcess hash) := by
  unfold clearSyncProcess
  split
  · exact ⟨rfl, rfl⟩
  · exact ⟨rfl, rfl⟩

theorem ListsApart.step (hs : ListsApart s) {action : SynchronizerAction Peer}
    (hstep : synchronizerStep s action = some t) : ListsApart t := by
  cases action with
  | queueSync keys from_ skipCheck now =>
      obtain rfl := Option.some.inj hstep
      exact hs.queueSync from_ skipCheck now keys []
  | queueSyncChecked i has now =>
      obtain ⟨call, -, rfl⟩ := Option.map_eq_some_iff.mp hstep
      have hcalls : ListsApart { s with calls := s.calls.eraseIdx i } := hs.congr rfl rfl rfl
      cases has with
      | true => exact hcalls.queueSync call.from_ false now _ _
      | false => exact (hcalls.setPeers call.key []).queueSync call.from_ false now _ _
  | requestSyncLoop now =>
      obtain ⟨-, hnext⟩ := Option.ite_none_right_eq_some.mp hstep
      obtain rfl := Option.some.inj hnext
      exact hs.visitNext 0 [] [] now
  | loopChecked has now =>
      obtain ⟨l, -, rfl⟩ := Option.map_eq_some_iff.mp hstep
      exact hs.loopChecked l has now
  | onEntryAdded hash =>
      obtain rfl := Option.some.inj hstep
      exact hs.clearSyncProcess hash
  | onEntryRemoved hash =>
      obtain rfl := Option.some.inj hstep
      exact hs.clearSyncProcess hash
  | onPeerDisconnected publicKey =>
      obtain rfl := Option.some.inj hstep
      exact hs.clearSyncProcessPublicKey publicKey

/-- The action is told that the key is there. -/
def Finds (s : SimpleSyncronizer Peer) (key : SyncableKey) : SynchronizerAction Peer → Prop
  | .queueSyncChecked i has _ => has = true ∧ ∃ call ∈ s.calls[i]?, call.key = key
  | .loopChecked has _ => has = true ∧ ∃ l ∈ s.loop, l.key = key
  | _ => False

/-- The action does not take the peer off the list of the key without asking it, unless it
finds the key. -/
def KeepsNote (s : SimpleSyncronizer Peer) (peer : Peer) (key : SyncableKey) :
    SynchronizerAction Peer → Prop
  | .queueSync .. => True
  | .queueSyncChecked i has _ =>
      has = false → ∀ call ∈ s.calls[i]?, call.key = key → call.from_ ≠ peer →
        peer ∉ s.peersOf key
  | .requestSyncLoop _ => True
  | .loopChecked has _ => has = false → ∀ l ∈ s.loop, LoopKeeps s l peer key
  | .onEntryAdded hash => key = .hash hash → peer ∉ s.peersOf key
  | .onEntryRemoved hash => key = .hash hash → peer ∉ s.peersOf key
  | .onPeerDisconnected publicKey => publicKey = peer → peer ∉ s.peersOf key

/-- Whoever is noted stays noted or is asked, until the key is found. -/
theorem Noted.step (hs : ListsApart s) (h : Noted s peer key)
    {action : SynchronizerAction Peer} (hkeeps : KeepsNote s peer key action)
    (hstep : synchronizerStep s action = some t) :
    Noted t peer key ∨ AskedSince s.sent t peer key ∨ Finds s key action := by
  cases action with
  | queueSync keys from_ skipCheck now =>
      obtain rfl := Option.some.inj hstep
      exact .inl (h.queueSync hs)
  | queueSyncChecked i has now =>
      obtain ⟨call, hcall, rfl⟩ := Option.map_eq_some_iff.mp hstep
      have hlists : ListsApart { s with calls := s.calls.eraseIdx i } := hs.congr rfl rfl rfl
      -- What is noted elsewhere than in the call is still noted.
      have hothers : Noted { s with calls := s.calls.eraseIdx i } peer key ∨
          call.from_ = peer ∧ (key = call.key ∨ key ∈ call.keys ∨ key ∈ call.requestHashes) := by
        rcases h with ⟨call', hmem, hnoted⟩ | hrest
        · rcases List.mem_iff_getElem?.mp hmem with ⟨j, hj⟩
          by_cases hij : j = i
          · subst hij
            obtain rfl := Option.some.inj (hj.symm.trans hcall)
            exact .inr hnoted
          · exact .inl (.inl ⟨call', List.mem_eraseIdx_iff_getElem?.mpr ⟨j, hij, hj⟩, hnoted⟩)
        · exact .inl (.inr hrest)
      cases has with
      | true =>
          rcases hothers with hnoted | ⟨rfl, rfl | hkey⟩
          · exact .inl (hnoted.queueSync hlists)
          · exact .inr (.inr ⟨rfl, call, hcall, rfl⟩)
          · rcases noted_queueSync hlists hkey with hnoted | hasked
            · exact .inl hnoted
            · exact .inr (.inl hasked)
      | false =>
          have hlists' := hlists.setPeers call.key []
          have hasks : call.from_ = peer →
              (key ∈ call.keys ∨ key ∈ call.requestHashes ++ [call.key]) →
              Noted ({ s with calls := s.calls.eraseIdx i }.queueSyncChecked call false now)
                  peer key ∨
                AskedSince s.sent
                  ({ s with calls := s.calls.eraseIdx i }.queueSyncChecked call false now)
                  peer key := by
            rintro rfl hkey
            exact noted_queueSync hlists' hkey
          have hmore : key = call.key ∨ key ∈ call.keys ∨ key ∈ call.requestHashes →
              key ∈ call.keys ∨ key ∈ call.requestHashes ++ [call.key] := by
            simp only [List.mem_append, List.mem_singleton]
            tauto
          have hcalled : call.from_ = peer ∧
                (key = call.key ∨ key ∈ call.keys ∨ key ∈ call.requestHashes) ∨
              Noted ({ s with calls := s.calls.eraseIdx i }.setPeers call.key []) peer key := by
            rcases hothers with hnoted | hcalled
            · -- The call may start the key anew that it has for its own peer.
              by_cases hown : call.from_ = peer ∧ key = call.key
              · exact .inl ⟨hown.1, .inl hown.2⟩
              · refine .inr (hnoted.congr (List.Subset.refl _) rfl ?_)
                intro hpeer
                have hne : key ≠ call.key := by
                  rintro rfl
                  exact hkeeps rfl call hcall rfl (fun hfrom => hown ⟨hfrom, rfl⟩) hpeer
                rw [hlists.peersOf_setPeers_of_ne [] hne]
                exact hpeer
            · exact .inl hcalled
          rcases hcalled with ⟨hfrom, hkey⟩ | hnoted
          · rcases hasks hfrom (hmore hkey) with hnoted | hasked
            · exact .inl hnoted
            · exact .inr (.inl hasked)
          · exact .inl (hnoted.queueSync hlists')
  | requestSyncLoop now =>
      obtain ⟨hnone, hnext⟩ := Option.ite_none_right_eq_some.mp hstep
      obtain rfl := Option.some.inj hnext
      rcases h with ⟨call, hcall, hnoted⟩ | hpeer | ⟨l, hl, -⟩
      · exact .inl (.inl ⟨call, by rwa [calls_visitNext], hnoted⟩)
      · exact .inl (.inr (.inl (by rwa [peersOf_visitNext])))
      · rw [hl] at hnone
        exact absurd hnone (by simp)
  | loopChecked has now =>
      obtain ⟨l, hl, rfl⟩ := Option.map_eq_some_iff.mp hstep
      by_cases hfinds : has = true ∧ l.key = key
      · exact .inr (.inr ⟨hfinds.1, l, hl, hfinds.2⟩)
      · have hhas : has = true → l.key ≠ key := fun htrue hkey => hfinds ⟨htrue, hkey⟩
        rcases h.loopChecked now hs hl (fun hfalse => hkeeps hfalse l hl) hhas with
          hnoted | hasked
        · exact .inl hnoted
        · exact .inr (.inl hasked)
  | onEntryAdded hash =>
      obtain rfl := Option.some.inj hstep
      obtain ⟨hcalls, hloop⟩ := sameWork_clearSyncProcess s hash
      refine .inl (h.congr (hcalls ▸ List.Subset.refl _) hloop ?_)
      exact fun hpeer => mem_peersOf_clearSyncProcess (fun heq => hkeeps heq hpeer) hpeer
  | onEntryRemoved hash =>
      obtain rfl := Option.some.inj hstep
      obtain ⟨hcalls, hloop⟩ := sameWork_clearSyncProcess s hash
      refine .inl (h.congr (hcalls ▸ List.Subset.refl _) hloop ?_)
      exact fun hpeer => mem_peersOf_clearSyncProcess (fun heq => hkeeps heq hpeer) hpeer
  | onPeerDisconnected publicKey =>
      obtain rfl := Option.some.inj hstep
      obtain ⟨hcalls, hloop⟩ := sameWork_clearSyncProcessPublicKey s publicKey
      refine .inl (h.congr (hcalls ▸ List.Subset.refl _) hloop ?_)
      intro hpeer
      have hne : peer ≠ publicKey := fun heq => hkeeps heq.symm hpeer
      exact mem_peersOf_clearSyncProcessPublicKey hs hne hpeer

end Steps

/-! ### Hashes only -/

section Hashes

variable {Peer : Type} [DecidableEq Peer] {s t : SimpleSyncronizer Peer}

def SyncableKey.IsHash (key : SyncableKey) : Prop := ∃ h, key = .hash h

/-- No coordinates are queued, so that none are asked for. -/
structure OnlyHashes (s : SimpleSyncronizer Peer) : Prop where
  queue : ∀ key, s.syncInFlightQueue.get key ≠ none → key.IsHash
  calls : ∀ call ∈ s.calls, call.key.IsHash ∧ (∀ key ∈ call.keys, key.IsHash) ∧
    ∀ key ∈ call.requestHashes, key.IsHash
  loop : ∀ l ∈ s.loop, l.key.IsHash ∧ ∀ key ∈ l.requestHashes, key.IsHash
  sent : ∀ request ∈ s.sent, ∃ hashes to_, request = .ResponseMaybeSync hashes to_

namespace OnlyHashes

omit [DecidableEq Peer] in
theorem of_init : OnlyHashes (.init : SimpleSyncronizer Peer) where
  queue := fun _ hkey => absurd rfl hkey
  calls := fun _ hcall => absurd hcall List.not_mem_nil
  loop := fun _ hl => nomatch hl
  sent := fun _ hrequest => absurd hrequest List.not_mem_nil

omit [DecidableEq Peer] in
theorem setPeers (hs : OnlyHashes s) {key : SyncableKey} (hkey : key.IsHash)
    (peers : List Peer) : OnlyHashes (s.setPeers key peers) := by
  refine ⟨?_, hs.calls, hs.loop, hs.sent⟩
  intro k hk
  by_cases heq : k = key
  · exact heq ▸ hkey
  · refine hs.queue k ?_
    rwa [SimpleSyncronizer.setPeers, Lib.LiveMap.get_set_of_ne _ heq] at hk

omit [DecidableEq Peer] in
theorem deleteKey (hs : OnlyHashes s) (key : SyncableKey) : OnlyHashes (s.deleteKey key) := by
  refine ⟨?_, hs.calls, hs.loop, hs.sent⟩
  intro k hk
  by_cases heq : k = key
  · subst heq
    simp [SimpleSyncronizer.deleteKey] at hk
  · refine hs.queue k ?_
    rwa [SimpleSyncronizer.deleteKey, Lib.LiveMap.get_delete_of_ne heq] at hk

theorem addPeer (hs : OnlyHashes s) (key : SyncableKey) (inFlight : Nat) (from_ : Peer) :
    OnlyHashes (s.addPeer key inFlight from_) := by
  unfold SimpleSyncronizer.addPeer
  split
  · exact hs
  · exact ⟨hs.queue, hs.calls, hs.loop, hs.sent⟩

theorem askPeer (hs : OnlyHashes s) (key : SyncableKey) (value : Nat) (publicKeyHash : Peer)
    (rest : List Peer) : OnlyHashes (s.askPeer key value publicKeyHash rest) :=
  ⟨hs.queue, hs.calls, hs.loop, hs.sent⟩

theorem requestSync (hs : OnlyHashes s) {hashes : List SyncableKey}
    (hhashes : ∀ key ∈ hashes, key.IsHash) (to_ : List Peer) (now : Int) :
    OnlyHashes (s.requestSync hashes to_ now) := by
  cases hashes with
  | nil => exact hs
  | cons first rest =>
      obtain ⟨h, rfl⟩ := hhashes first List.mem_cons_self
      refine ⟨hs.queue, hs.calls, hs.loop, ?_⟩
      intro request hrequest
      rcases List.mem_append.mp hrequest with hold | hnew
      · exact hs.sent request hold
      · exact ⟨_, _, List.mem_singleton.mp hnew⟩

theorem queueSync (hs : OnlyHashes s) {keys requestHashes : List SyncableKey}
    (hkeys : ∀ key ∈ keys, key.IsHash) (hrequested : ∀ key ∈ requestHashes, key.IsHash)
    (from_ : Peer) (skipCheck : Bool) (now : Int) :
    OnlyHashes (SimpleSyncronizer.queueSync from_ skipCheck now s keys requestHashes) := by
  induction keys generalizing s requestHashes with
  | nil => exact hs.requestSync hrequested [from_] now
  | cons key keys ih =>
      obtain ⟨hkey, hkeys⟩ := List.forall_mem_cons.mp hkeys
      unfold SimpleSyncronizer.queueSync
      split
      · exact ih (hs.addPeer key _ from_) hkeys hrequested
      · split
        · refine ih (hs.setPeers hkey []) hkeys ?_
          exact List.forall_mem_append.mpr ⟨hrequested, List.forall_mem_singleton.mpr hkey⟩
        · refine ⟨hs.queue, ?_, hs.loop, hs.sent⟩
          exact List.forall_mem_append.mpr
            ⟨hs.calls, List.forall_mem_singleton.mpr ⟨hkey, hkeys, hrequested⟩⟩

theorem visitNext (hs : OnlyHashes s) (place : Nat) {requestHashes : List SyncableKey}
    (hrequested : ∀ key ∈ requestHashes, key.IsHash) (from_ : List Peer) (now : Int) :
    OnlyHashes (s.visitNext place requestHashes from_ now) := by
  unfold SimpleSyncronizer.visitNext
  split
  · rename_i hnext
    refine ⟨hs.queue, hs.calls, ?_, hs.sent⟩
    rintro l ⟨⟩
    refine ⟨hs.queue _ ?_, hrequested⟩
    rw [Lib.LiveMap.get_of_next hnext]
    exact Option.some_ne_none _
  · refine OnlyHashes.requestSync ?_ hrequested from_ now
    exact ⟨hs.queue, hs.calls, (fun _ hl => nomatch hl), hs.sent⟩

theorem loopChecked (hs : OnlyHashes s) {l : RequestLoop Peer} (hl : l ∈ s.loop)
    (has : Bool) (now : Int) : OnlyHashes (s.loopChecked l has now) := by
  obtain ⟨hkey, hrequested⟩ := hs.loop l hl
  have hmore : ∀ key ∈ l.requestHashes ++ [l.key], key.IsHash :=
    List.forall_mem_append.mpr ⟨hrequested, List.forall_mem_singleton.mpr hkey⟩
  unfold SimpleSyncronizer.loopChecked
  split
  · exact (hs.deleteKey l.key).visitNext _ hrequested _ _
  · split
    · exact (hs.deleteKey l.key).visitNext _ hrequested _ _
    · have hasked := hs.askPeer l.key l.value
      dsimp only
      split
      · exact ((hasked _ _).deleteKey l.key).visitNext _ hmore _ _
      · exact (hasked _ _).visitNext _ hmore _ _

theorem clearSyncProcess (hs : OnlyHashes s) (hash : String) :
    OnlyHashes (s.clearSyncProcess hash) := by
  unfold SimpleSyncronizer.clearSyncProcess
  split
  · exact hs
  · have hdeleted := hs.deleteKey (.hash hash)
    exact ⟨hdeleted.queue, hdeleted.calls, hdeleted.loop, hdeleted.sent⟩

theorem filterPeer (hs : OnlyHashes s) (publicKey : Peer) (key : SyncableKey) :
    OnlyHashes (SimpleSyncronizer.filterPeer publicKey s key) := by
  unfold SimpleSyncronizer.filterPeer
  split
  · exact hs
  · rename_i hget
    dsimp only
    split
    · exact hs.deleteKey key
    · refine hs.setPeers (hs.queue key ?_) _
      rw [hget]
      exact Option.some_ne_none _

theorem clearSyncProcessPublicKey (hs : OnlyHashes s) (publicKey : Peer) :
    OnlyHashes (s.clearSyncProcessPublicKey publicKey) := by
  have hfold : ∀ (keys : List SyncableKey) {u : SimpleSyncronizer Peer}, OnlyHashes u →
      OnlyHashes (keys.foldl (SimpleSyncronizer.filterPeer publicKey) u) := by
    intro keys
    induction keys with
    | nil => exact fun hu => hu
    | cons key keys ih => exact fun hu => ih (hu.filterPeer publicKey key)
  unfold SimpleSyncronizer.clearSyncProcessPublicKey
  dsimp only
  split
  · exact ⟨hs.queue, hs.calls, hs.loop, hs.sent⟩
  · rename_i keys _
    have hcleared := hfold keys
      (u := { s with syncInFlight := s.syncInFlight.delete publicKey })
      ⟨hs.queue, hs.calls, hs.loop, hs.sent⟩
    exact ⟨hcleared.queue, hcleared.calls, hcleared.loop, hcleared.sent⟩

/-- Other steps than the arrival of an offer queue no new keys. -/
theorem step (hs : OnlyHashes s) {action : SynchronizerAction Peer}
    (hoffer : ∀ keys from_ skipCheck now, action = .queueSync keys from_ skipCheck now →
      ∀ key ∈ keys, key.IsHash)
    (hstep : synchronizerStep s action = some t) : OnlyHashes t := by
  cases action with
  | queueSync keys from_ skipCheck now =>
      obtain rfl := Option.some.inj hstep
      exact hs.queueSync (hoffer keys from_ skipCheck now rfl)
        (fun _ hkey => absurd hkey List.not_mem_nil) from_ skipCheck now
  | queueSyncChecked i has now =>
      obtain ⟨call, hcall, rfl⟩ := Option.map_eq_some_iff.mp hstep
      obtain ⟨hkey, hkeys, hrequested⟩ := hs.calls call (List.mem_of_getElem? hcall)
      have hcalls : OnlyHashes { s with calls := s.calls.eraseIdx i } :=
        ⟨hs.queue, fun _ h => hs.calls _ (List.mem_of_mem_eraseIdx h), hs.loop, hs.sent⟩
      cases has with
      | true => exact hcalls.queueSync hkeys hrequested call.from_ false now
      | false =>
          refine (hcalls.setPeers hkey []).queueSync hkeys ?_ call.from_ false now
          exact List.forall_mem_append.mpr ⟨hrequested, List.forall_mem_singleton.mpr hkey⟩
  | requestSyncLoop now =>
      obtain ⟨-, hnext⟩ := Option.ite_none_right_eq_some.mp hstep
      obtain rfl := Option.some.inj hnext
      exact hs.visitNext 0 (fun _ hkey => absurd hkey List.not_mem_nil) [] now
  | loopChecked has now =>
      obtain ⟨l, hl, rfl⟩ := Option.map_eq_some_iff.mp hstep
      exact hs.loopChecked hl has now
  | onEntryAdded hash =>
      obtain rfl := Option.some.inj hstep
      exact hs.clearSyncProcess hash
  | onEntryRemoved hash =>
      obtain rfl := Option.some.inj hstep
      exact hs.clearSyncProcess hash
  | onPeerDisconnected publicKey =>
      obtain rfl := Option.some.inj hstep
      exact hs.clearSyncProcessPublicKey publicKey

end OnlyHashes

end Hashes

end SharedLog
end Peerbit
