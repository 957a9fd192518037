import Mathlib.Data.List.Nodup
import Peerbit.SharedLog.SyncQueue

/-!
# The two maps of the simple synchronizer

The queue has for each key the peers that can be asked, the inverted map for each
peer the keys that it can be asked for.  Both say the same as long as no key is
dropped while peers are noted under it (`inverse_of_cleanRun`).

A key is dropped so in three ways.  The loop finds that it is there, and deletes it
from the queue only.  The loop comes back to a key whose list was replaced
meanwhile, and empties the list that it still holds.  And `queueSync` comes back to
a key that was queued meanwhile, and starts it anew.
-/

namespace Peerbit
namespace SharedLog

open SimpleSyncronizer

section Inverse

variable {Peer : Type} [DecidableEq Peer]

/-- A peer is noted under a key exactly when the key is noted for the peer. -/
def Inverse (s : SimpleSyncronizer Peer) : Prop :=
  ∀ peer key, peer ∈ s.peersOf key ↔ key ∈ s.keysOf peer

/-- The loop drops no peer of the key, when it hears whether the key is there. -/
def LoopDropsNone (s : SimpleSyncronizer Peer) (l : RequestLoop Peer) (has : Bool) :
    Prop :=
  if has then s.peersOf l.key = []
  else
    s.syncInFlightQueue.get l.key = some l.value ∨
      (∀ peer, (s.lists l.value).head? = some peer → peer ∉ s.peersOf l.key) ∧
        ((s.lists l.value).length ≤ 1 → s.peersOf l.key = [])

/-- A step that drops no key while peers are noted under it. -/
def DropsNone (s : SimpleSyncronizer Peer) : SynchronizerAction Peer → Prop
  | .queueSyncChecked i has _ =>
      has = false → ∀ call, s.calls[i]? = some call → s.peersOf call.key = []
  | .loopChecked has _ => ∀ l, s.loop = some l → LoopDropsNone s l has
  | _ => True

/-- The lists of the keys are objects of their own, and the loop holds none of
another key. -/
structure ListsApart (s : SimpleSyncronizer Peer) : Prop where
  used : ∀ key r, s.syncInFlightQueue.get key = some r → r < s.fresh
  apart : ∀ key key' r, s.syncInFlightQueue.get key = some r →
    s.syncInFlightQueue.get key' = some r → key = key'
  held : ∀ l, s.loop = some l → l.value < s.fresh ∧
    ∀ key, s.syncInFlightQueue.get key = some l.value → key = l.key

structure SyncInvariant (s : SimpleSyncronizer Peer) : Prop where
  lists : ListsApart s
  nodup : ∀ key, (s.peersOf key).Nodup
  inverse : Inverse s

end Inverse

/-! ### The lists of the keys -/

section Lists

variable {Peer : Type} {s t : SimpleSyncronizer Peer} {key key' : SyncableKey} {r : Nat}

theorem peersOf_of_get (h : s.syncInFlightQueue.get key = some r) :
    s.peersOf key = s.lists r := by
  rw [peersOf, h]
  rfl

theorem peersOf_of_not_get (h : s.syncInFlightQueue.get key = none) :
    s.peersOf key = [] := by
  rw [peersOf, h]
  rfl

@[simp] theorem peersOf_deleteKey_self (s : SimpleSyncronizer Peer) (key : SyncableKey) :
    (s.deleteKey key).peersOf key = [] :=
  peersOf_of_not_get (Lib.LiveMap.get_delete_self _ _)

theorem peersOf_deleteKey_of_ne (h : key' ≠ key) :
    (s.deleteKey key).peersOf key' = s.peersOf key' := by
  simp only [peersOf, deleteKey, Lib.LiveMap.get_delete_of_ne h]

@[simp] theorem peersOf_setPeers_self (s : SimpleSyncronizer Peer) (key : SyncableKey)
    (peers : List Peer) : (s.setPeers key peers).peersOf key = peers := by
  rw [peersOf_of_get (r := s.fresh) (Lib.LiveMap.get_set_self _ _ _)]
  exact Function.update_self ..

theorem ListsApart.peersOf_setPeers_of_ne (hs : ListsApart s) (peers : List Peer)
    (h : key' ≠ key) : (s.setPeers key peers).peersOf key' = s.peersOf key' := by
  have hget : (s.setPeers key peers).syncInFlightQueue.get key' =
      s.syncInFlightQueue.get key' := Lib.LiveMap.get_set_of_ne _ h
  rw [peersOf, peersOf, hget]
  cases hr : s.syncInFlightQueue.get key' with
  | none => rfl
  | some r =>
      have hne : r ≠ s.fresh := Nat.ne_of_lt (hs.used key' r hr)
      exact Function.update_of_ne hne ..

theorem ListsApart.deleteKey (hs : ListsApart s) (key : SyncableKey) :
    ListsApart (s.deleteKey key) := by
  have hget : ∀ k r, (s.deleteKey key).syncInFlightQueue.get k = some r →
      s.syncInFlightQueue.get k = some r := by
    intro k r hk
    by_cases h : k = key
    · subst h
      simp [SimpleSyncronizer.deleteKey] at hk
    · rwa [SimpleSyncronizer.deleteKey, Lib.LiveMap.get_delete_of_ne h] at hk
  exact
    { used := fun k r hk => hs.used k r (hget k r hk)
      apart := fun k k' r hk hk' => hs.apart k k' r (hget k r hk) (hget k' r hk')
      held := fun l hl =>
        ⟨(hs.held l hl).1, fun k hk => (hs.held l hl).2 k (hget k _ hk)⟩ }

theorem ListsApart.setPeers (hs : ListsApart s) (key : SyncableKey) (peers : List Peer) :
    ListsApart (s.setPeers key peers) := by
  have hget : ∀ k r, (s.setPeers key peers).syncInFlightQueue.get k = some r →
      k = key ∧ r = s.fresh ∨ k ≠ key ∧ s.syncInFlightQueue.get k = some r := by
    intro k r hk
    by_cases h : k = key
    · subst h
      rw [SimpleSyncronizer.setPeers, Lib.LiveMap.get_set_self] at hk
      exact .inl ⟨rfl, (Option.some.inj hk).symm⟩
    · rw [SimpleSyncronizer.setPeers, Lib.LiveMap.get_set_of_ne _ h] at hk
      exact .inr ⟨h, hk⟩
  refine ⟨?_, ?_, ?_⟩
  · intro k r hk
    change r < s.fresh + 1
    rcases hget k r hk with ⟨-, rfl⟩ | ⟨-, hold⟩
    · omega
    · have := hs.used k r hold
      omega
  · intro k k' r hk hk'
    rcases hget k r hk with ⟨rfl, rfl⟩ | ⟨-, hold⟩
    · rcases hget k' _ hk' with ⟨rfl, -⟩ | ⟨-, hold'⟩
      · rfl
      · exact absurd (hs.used k' _ hold') (Nat.lt_irrefl _)
    · rcases hget k' r hk' with ⟨-, rfl⟩ | ⟨-, hold'⟩
      · exact absurd (hs.used k _ hold) (Nat.lt_irrefl _)
      · exact hs.apart k k' r hold hold'
  · intro l hl
    obtain ⟨hused, hheld⟩ := hs.held l hl
    refine ⟨Nat.lt_succ_of_lt hused, ?_⟩
    intro k hk
    rcases hget k _ hk with ⟨-, heq⟩ | ⟨-, hold⟩
    · exact absurd heq (Nat.ne_of_lt hused)
    · exact hheld k hold

/-- The lists stay apart whatever they contain. -/
theorem ListsApart.congr (hs : ListsApart s)
    (hqueue : t.syncInFlightQueue = s.syncInFlightQueue) (hfresh : t.fresh = s.fresh)
    (hloop : t.loop = s.loop) : ListsApart t := by
  obtain ⟨hused, hapart, hheld⟩ := hs
  refine ⟨?_, ?_, ?_⟩
  · rwa [hqueue, hfresh]
  · rwa [hqueue]
  · rwa [hqueue, hfresh, hloop]

/-- The list of a key gets new contents. -/
theorem ListsApart.peersOf_update (hs : ListsApart s)
    (hget : s.syncInFlightQueue.get key = some r) (peers : List Peer)
    (hqueue : t.syncInFlightQueue = s.syncInFlightQueue)
    (hupdate : t.lists = Function.update s.lists r peers) (k : SyncableKey) :
    t.peersOf k = if k = key then peers else s.peersOf k := by
  rw [peersOf, hqueue, hupdate]
  by_cases hk : k = key
  · subst hk
    rw [if_pos rfl, hget]
    exact Function.update_self ..
  · rw [if_neg hk, peersOf]
    cases hr : s.syncInFlightQueue.get k with
    | none => rfl
    | some r' =>
        have hne : r' ≠ r := by
          rintro rfl
          exact hk (hs.apart k key r' hr hget)
        exact Function.update_of_ne hne ..

/-- A list that is no key's gets new contents. -/
theorem peersOf_update_of_not_get (hget : ∀ k, s.syncInFlightQueue.get k ≠ some r)
    (peers : List Peer) (hqueue : t.syncInFlightQueue = s.syncInFlightQueue)
    (hupdate : t.lists = Function.update s.lists r peers) (k : SyncableKey) :
    t.peersOf k = s.peersOf k := by
  rw [peersOf, peersOf, hqueue, hupdate]
  cases hr : s.syncInFlightQueue.get k with
  | none => rfl
  | some r' =>
      have hne : r' ≠ r := by
        rintro rfl
        exact hget k hr
      exact Function.update_of_ne hne ..

end Lists

/-! ### The keys of the peers -/

section Keys

variable {Peer : Type} [DecidableEq Peer]
variable {inverted : Lib.InsertionMap Peer (List SyncableKey)} {peer peer' : Peer}
variable {key key' : SyncableKey}

theorem mem_setAdd {α : Type} [DecidableEq α] {set : List α} {x y : α} :
    y ∈ setAdd set x ↔ y ∈ set ∨ y = x := by
  unfold setAdd
  split
  · rename_i h
    constructor
    · exact .inl
    · rintro (hy | rfl)
      · exact hy
      · exact h
  · simp

theorem mem_setDelete {α : Type} [DecidableEq α] {set : List α} {x y : α} :
    y ∈ setDelete set x ↔ y ∈ set ∧ y ≠ x := by
  simp [setDelete]

/-- Removing a key from the set of a peer does what it says, whether the set is kept
or not. -/
theorem mem_get_removeKey :
    key' ∈ ((removeKey inverted peer key).get peer').getD [] ↔
      key' ∈ (inverted.get peer').getD [] ∧ ¬ (peer' = peer ∧ key' = key) := by
  unfold removeKey
  cases hget : inverted.get peer with
  | none =>
      by_cases hpeer : peer' = peer
      · subst hpeer
        simp [hget]
      · simp [hpeer]
  | some keys =>
      by_cases hpeer : peer' = peer
      · subst hpeer
        simp only [hget, Option.getD_some, true_and]
        split
        · rename_i hempty
          rw [Lib.InsertionMap.get_delete_self, ← mem_setDelete,
            List.isEmpty_iff.mp hempty]
          rfl
        · rw [Lib.InsertionMap.get_set_self, Option.getD_some, mem_setDelete]
      · simp only [hpeer, false_and, not_false_iff, and_true]
        split
        · rw [Lib.InsertionMap.get_delete_of_ne _ hpeer]
        · rw [Lib.InsertionMap.get_set_of_ne _ _ hpeer]

theorem mem_get_foldl_removeKey (peers : List Peer) :
    key' ∈ ((peers.foldl (fun inverted peer => removeKey inverted peer key)
        inverted).get peer').getD [] ↔
      key' ∈ (inverted.get peer').getD [] ∧ ¬ (peer' ∈ peers ∧ key' = key) := by
  induction peers generalizing inverted with
  | nil => simp
  | cons peer peers ih =>
      rw [List.foldl_cons, ih, mem_get_removeKey, List.mem_cons]
      tauto

end Keys

/-! ### One operation -/

section Operations

variable {Peer : Type} [DecidableEq Peer] {s t : SimpleSyncronizer Peer}
variable {key key' : SyncableKey} {r : Nat}

omit [DecidableEq Peer] in
/-- What the invariant speaks of is the same. -/
theorem SyncInvariant.of_same (hs : SyncInvariant s) (hlists : ListsApart t)
    (hpeers : ∀ key, t.peersOf key = s.peersOf key)
    (hkeys : ∀ peer key, key ∈ t.keysOf peer ↔ key ∈ s.keysOf peer) :
    SyncInvariant t := by
  refine ⟨hlists, ?_, ?_⟩
  · intro key
    rw [hpeers]
    exact hs.nodup key
  · intro peer key
    rw [hpeers, hkeys]
    exact hs.inverse peer key

omit [DecidableEq Peer] in
/-- A key under which nobody is noted is started anew. -/
theorem SyncInvariant.setPeers_nil (hs : SyncInvariant s) (h : s.peersOf key = []) :
    SyncInvariant (s.setPeers key []) := by
  refine hs.of_same (hs.lists.setPeers key []) ?_ (fun _ _ => Iff.rfl)
  intro k
  by_cases hk : k = key
  · subst hk
    rw [peersOf_setPeers_self, h]
  · exact hs.lists.peersOf_setPeers_of_ne [] hk

omit [DecidableEq Peer] in
/-- A key under which nobody is noted is dropped. -/
theorem SyncInvariant.deleteKey (hs : SyncInvariant s) (h : s.peersOf key = []) :
    SyncInvariant (s.deleteKey key) := by
  refine hs.of_same (hs.lists.deleteKey key) ?_ (fun _ _ => Iff.rfl)
  intro k
  by_cases hk : k = key
  · subst hk
    rw [peersOf_deleteKey_self, h]
  · exact peersOf_deleteKey_of_ne hk

theorem SyncInvariant.addPeer (hs : SyncInvariant s) {inFlight : Nat}
    (hget : s.syncInFlightQueue.get key = some inFlight) (from_ : Peer) :
    SyncInvariant (s.addPeer key inFlight from_) := by
  unfold SimpleSyncronizer.addPeer
  split
  · exact hs
  · rename_i hnew
    have hlist : s.peersOf key = s.lists inFlight := peersOf_of_get hget
    have hpeers := hs.lists.peersOf_update hget (s.lists inFlight ++ [from_])
      (t := { s with
        lists := Function.update s.lists inFlight (s.lists inFlight ++ [from_])
        syncInFlightQueueInverted := s.syncInFlightQueueInverted.set from_
          (setAdd (s.keysOf from_) key) }) rfl rfl
    refine ⟨hs.lists.congr rfl rfl rfl, ?_, ?_⟩
    · intro k
      rw [hpeers]
      split
      · rw [← hlist] at hnew ⊢
        exact (List.perm_append_singleton _ _).nodup_iff.mpr
          (List.nodup_cons.mpr ⟨hnew, hs.nodup key⟩)
      · exact hs.nodup k
    · intro peer k
      rw [hpeers]
      have hold := hs.inverse peer k
      by_cases hpeer : peer = from_
      · subst hpeer
        rw [SimpleSyncronizer.keysOf, Lib.InsertionMap.get_set_self, Option.getD_some,
          mem_setAdd, ← hold]
        by_cases hk : k = key
        · simp [hk]
        · simp [hk]
      · rw [SimpleSyncronizer.keysOf, Lib.InsertionMap.get_set_of_ne _ _ hpeer,
          ← SimpleSyncronizer.keysOf, ← hold]
        by_cases hk : k = key
        · subst hk
          simp [hlist, hpeer]
        · simp [hk]

theorem ListsApart.requestSync (hs : ListsApart s) (hashes : List SyncableKey)
    (to_ : List Peer) (now : Int) : ListsApart (s.requestSync hashes to_ now) := by
  cases hashes with
  | nil => exact hs
  | cons first hashes => exact hs.congr rfl rfl rfl

theorem SyncInvariant.requestSync (hs : SyncInvariant s) (hashes : List SyncableKey)
    (to_ : List Peer) (now : Int) : SyncInvariant (s.requestSync hashes to_ now) := by
  refine hs.of_same (hs.lists.requestSync hashes to_ now) ?_ ?_
  · cases hashes with
    | nil => exact fun _ => rfl
    | cons first hashes => exact fun _ => rfl
  · cases hashes with
    | nil => exact fun _ _ => Iff.rfl
    | cons first hashes => exact fun _ _ => Iff.rfl

omit [DecidableEq Peer] in
theorem SyncInvariant.setCalls (hs : SyncInvariant s) (calls : List (QueueCall Peer)) :
    SyncInvariant { s with calls := calls } :=
  hs.of_same (hs.lists.congr rfl rfl rfl) (fun _ => rfl) (fun _ _ => Iff.rfl)

theorem SyncInvariant.queueSync (hs : SyncInvariant s) (from_ : Peer) (skipCheck : Bool)
    (now : Int) (keys requestHashes : List SyncableKey) :
    SyncInvariant (SimpleSyncronizer.queueSync from_ skipCheck now s keys requestHashes) := by
  induction keys generalizing s requestHashes with
  | nil => exact hs.requestSync requestHashes [from_] now
  | cons key keys ih =>
      unfold SimpleSyncronizer.queueSync
      split
      · rename_i inFlight hget
        exact ih (hs.addPeer hget from_) requestHashes
      · rename_i hget
        split
        · exact ih (hs.setPeers_nil (peersOf_of_not_get hget)) _
        · exact hs.setCalls _

end Operations

/-! ### The loop -/

section Loop

variable {Peer : Type} [DecidableEq Peer] {s : SimpleSyncronizer Peer}

/-- The loop goes on with a list that is the key's. -/
theorem SyncInvariant.visitNext (hs : SyncInvariant s) (place : Nat)
    (requestHashes : List SyncableKey) (from_ : List Peer) (now : Int) :
    SyncInvariant (s.visitNext place requestHashes from_ now) := by
  have hlists := hs.lists
  unfold SimpleSyncronizer.visitNext
  split
  · rename_i place' key value hnext
    have hget := Lib.LiveMap.get_of_next hnext
    refine hs.of_same ?_ (fun _ => rfl) (fun _ _ => Iff.rfl)
    refine ⟨hlists.used, hlists.apart, ?_⟩
    intro l hl
    obtain rfl := Option.some.inj hl
    exact ⟨hlists.used key value hget, fun k hk => hlists.apart k key value hk hget⟩
  · refine SyncInvariant.requestSync ?_ requestHashes from_ now
    refine hs.of_same ?_ (fun _ => rfl) (fun _ _ => Iff.rfl)
    exact ⟨hlists.used, hlists.apart, fun l hl => nomatch hl⟩

theorem mem_keysOf_askPeer (s : SimpleSyncronizer Peer) (key : SyncableKey) (value : Nat)
    (publicKeyHash : Peer) (rest : List Peer) (peer : Peer) (k : SyncableKey) :
    k ∈ (s.askPeer key value publicKeyHash rest).keysOf peer ↔
      k ∈ s.keysOf peer ∧ ¬ (peer = publicKeyHash ∧ k = key) := by
  unfold askPeer keysOf
  dsimp only
  split
  · exact mem_get_removeKey
  · rename_i hnot
    constructor
    · intro hk
      refine ⟨hk, ?_⟩
      rintro ⟨rfl, rfl⟩
      exact hnot hk
    · exact And.left

/-- The first peer is taken off the list of the key. -/
theorem SyncInvariant.askPeer (hs : SyncInvariant s) {key : SyncableKey} {value : Nat}
    {publicKeyHash : Peer} {rest : List Peer}
    (hget : s.syncInFlightQueue.get key = some value)
    (hvalue : s.lists value = publicKeyHash :: rest) :
    SyncInvariant (s.askPeer key value publicKeyHash rest) ∧
      (s.askPeer key value publicKeyHash rest).peersOf key = rest := by
  have hlist : s.peersOf key = publicKeyHash :: rest := by
    rw [peersOf_of_get hget, hvalue]
  have hnodup : (publicKeyHash :: rest).Nodup := hlist ▸ hs.nodup key
  obtain ⟨hfirst, hrest⟩ := List.nodup_cons.mp hnodup
  have hpeers := hs.lists.peersOf_update hget rest
    (t := s.askPeer key value publicKeyHash rest) rfl rfl
  refine ⟨⟨hs.lists.congr rfl rfl rfl, ?_, ?_⟩, ?_⟩
  · intro k
    rw [hpeers]
    split
    · exact hrest
    · exact hs.nodup k
  · intro peer k
    rw [hpeers, mem_keysOf_askPeer, ← hs.inverse]
    by_cases hk : k = key
    · subst hk
      rw [if_pos rfl, hlist, List.mem_cons]
      constructor
      · intro hpeer
        refine ⟨.inr hpeer, ?_⟩
        rintro ⟨rfl, -⟩
        exact hfirst hpeer
      · rintro ⟨rfl | hpeer, hne⟩
        · exact absurd ⟨rfl, rfl⟩ hne
        · exact hpeer
    · simp [hk]
  · rw [hpeers, if_pos rfl]

/-- The first peer is taken off a list that the key does not have any more. -/
theorem SyncInvariant.askPeer_of_replaced (hs : SyncInvariant s) {key : SyncableKey}
    {value : Nat} {publicKeyHash : Peer} (rest : List Peer)
    (hget : ∀ k, s.syncInFlightQueue.get k ≠ some value)
    (hnot : publicKeyHash ∉ s.peersOf key) :
    SyncInvariant (s.askPeer key value publicKeyHash rest) ∧
      (s.askPeer key value publicKeyHash rest).peersOf key = s.peersOf key := by
  have hpeers := peersOf_update_of_not_get hget rest
    (t := s.askPeer key value publicKeyHash rest) rfl rfl
  refine ⟨hs.of_same (hs.lists.congr rfl rfl rfl) hpeers ?_, hpeers key⟩
  intro peer k
  rw [mem_keysOf_askPeer]
  constructor
  · exact And.left
  · intro hk
    refine ⟨hk, ?_⟩
    rintro ⟨rfl, rfl⟩
    exact hnot ((hs.inverse _ _).mpr hk)

theorem SyncInvariant.loopChecked (hs : SyncInvariant s) {l : RequestLoop Peer}
    (hl : s.loop = some l) {has : Bool} (hdrops : LoopDropsNone s l has) (now : Int) :
    SyncInvariant (s.loopChecked l has now) := by
  cases has with
  | true => exact (hs.deleteKey hdrops).visitNext _ _ _ _
  | false =>
      -- The list that the loop holds is the key's, or no key's.
      have hnone : s.syncInFlightQueue.get l.key ≠ some l.value →
          ∀ k, s.syncInFlightQueue.get k ≠ some l.value := by
        intro hne k hk
        have hkey := (hs.lists.held l hl).2 k hk
        exact hne (hkey ▸ hk)
      simp only [LoopDropsNone, Bool.false_eq_true, if_false] at hdrops
      simp only [SimpleSyncronizer.loopChecked, Bool.false_eq_true, if_false]
      cases hvalue : s.lists l.value with
      | nil =>
          refine (hs.deleteKey ?_).visitNext _ _ _ _
          rcases hdrops with hget | ⟨-, hlast⟩
          · rw [peersOf_of_get hget, hvalue]
          · exact hlast (by simp [hvalue])
      | cons publicKeyHash rest =>
          have hasked : SyncInvariant (s.askPeer l.key l.value publicKeyHash rest) ∧
              (rest = [] →
                (s.askPeer l.key l.value publicKeyHash rest).peersOf l.key = []) := by
            by_cases hget : s.syncInFlightQueue.get l.key = some l.value
            · obtain ⟨hinv, hpeers⟩ := hs.askPeer hget hvalue
              exact ⟨hinv, fun hrest => hpeers.trans hrest⟩
            · obtain ⟨hfirst, hlast⟩ := hdrops.resolve_left hget
              obtain ⟨hinv, hpeers⟩ := hs.askPeer_of_replaced rest (hnone hget)
                (hfirst publicKeyHash (by rw [hvalue]; rfl))
              refine ⟨hinv, ?_⟩
              rintro rfl
              rw [hpeers]
              exact hlast (by simp [hvalue])
          dsimp only
          split
          · rename_i hrest
            exact (hasked.1.deleteKey
              (hasked.2 (List.isEmpty_iff.mp hrest))).visitNext _ _ _ _
          · exact hasked.1.visitNext _ _ _ _

end Loop

/-! ### Entries come and go, and peers leave -/

section Cleared

variable {Peer : Type} [DecidableEq Peer] {s : SimpleSyncronizer Peer}

theorem SyncInvariant.clearSyncProcess (hs : SyncInvariant s) (hash : String) :
    SyncInvariant (s.clearSyncProcess hash) := by
  unfold SimpleSyncronizer.clearSyncProcess
  split
  · exact hs
  · rename_i inflight hget
    have hlist := peersOf_of_get hget
    have hpeers : ∀ k, k ≠ .hash hash →
        (s.deleteKey (.hash hash)).peersOf k = s.peersOf k :=
      fun k hk => peersOf_deleteKey_of_ne hk
    have hpeersSelf := peersOf_deleteKey_self s (.hash hash)
    refine ⟨(hs.lists.deleteKey (.hash hash)).congr rfl rfl rfl, ?_, ?_⟩
    · intro k
      change ((s.deleteKey (.hash hash)).peersOf k).Nodup
      by_cases hk : k = .hash hash
      · rw [hk, hpeersSelf]
        exact List.nodup_nil
      · rw [hpeers k hk]
        exact hs.nodup k
    · intro peer k
      change peer ∈ (s.deleteKey (.hash hash)).peersOf k ↔ _
      rw [SimpleSyncronizer.keysOf, mem_get_foldl_removeKey, ← SimpleSyncronizer.keysOf,
        ← hs.inverse, ← hlist]
      by_cases hk : k = .hash hash
      · subst hk
        rw [hpeersSelf]
        simp
      · rw [hpeers k hk]
        simp [hk]

/-- The peer is taken off the lists of some keys. -/
structure WithoutPeer (publicKey : Peer) (keys : List SyncableKey)
    (s t : SimpleSyncronizer Peer) : Prop where
  lists : ListsApart t
  inverted : t.syncInFlightQueueInverted = s.syncInFlightQueueInverted
  peers : ∀ key, t.peersOf key =
    if key ∈ keys then (s.peersOf key).filter (fun x => decide (x ≠ publicKey))
    else s.peersOf key

theorem WithoutPeer.filterPeer (publicKey : Peer) (hs : ListsApart s)
    (key : SyncableKey) :
    WithoutPeer publicKey [key] s (SimpleSyncronizer.filterPeer publicKey s key) := by
  unfold SimpleSyncronizer.filterPeer
  split
  · rename_i hget
    refine ⟨hs, rfl, ?_⟩
    intro k
    split
    · rename_i hk
      obtain rfl := List.mem_singleton.mp hk
      rw [peersOf_of_not_get hget]
      rfl
    · rfl
  · rename_i arr hget
    have hlist := peersOf_of_get hget
    dsimp only
    rw [← hlist]
    split
    · rename_i hempty
      refine ⟨hs.deleteKey key, rfl, ?_⟩
      intro k
      split
      · rename_i hk
        obtain rfl := List.mem_singleton.mp hk
        rw [peersOf_deleteKey_self, List.isEmpty_iff.mp hempty]
      · rename_i hk
        exact peersOf_deleteKey_of_ne (fun h => hk (List.mem_singleton.mpr h))
    · refine ⟨hs.setPeers key _, rfl, ?_⟩
      intro k
      split
      · rename_i hk
        obtain rfl := List.mem_singleton.mp hk
        rw [peersOf_setPeers_self]
      · rename_i hk
        exact hs.peersOf_setPeers_of_ne _ (fun h => hk (List.mem_singleton.mpr h))

theorem WithoutPeer.foldl (publicKey : Peer) (keys : List SyncableKey)
    (hs : ListsApart s) :
    WithoutPeer publicKey keys s
      (keys.foldl (SimpleSyncronizer.filterPeer publicKey) s) := by
  induction keys generalizing s with
  | nil => exact ⟨hs, rfl, fun _ => rfl⟩
  | cons key keys ih =>
      have hfirst := WithoutPeer.filterPeer publicKey hs key
      have hrest := ih hfirst.lists
      refine ⟨hrest.lists, hrest.inverted.trans hfirst.inverted, ?_⟩
      intro k
      rw [List.foldl_cons, hrest.peers, hfirst.peers]
      by_cases hk : k = key
      · simp [hk, List.filter_filter]
      · simp [hk]

theorem SyncInvariant.clearSyncProcessPublicKey (hs : SyncInvariant s)
    (publicKey : Peer) : SyncInvariant (s.clearSyncProcessPublicKey publicKey) := by
  have hinFlight : SyncInvariant { s with syncInFlight := s.syncInFlight.delete publicKey } :=
    hs.of_same (hs.lists.congr rfl rfl rfl) (fun _ => rfl) (fun _ _ => Iff.rfl)
  unfold SimpleSyncronizer.clearSyncProcessPublicKey
  dsimp only
  split
  · exact hinFlight
  · rename_i keys hget
    have hwithout := WithoutPeer.foldl publicKey keys hinFlight.lists
    -- The peer is noted under no other keys.
    have hpeers : ∀ k,
        (keys.foldl (SimpleSyncronizer.filterPeer publicKey)
          { s with syncInFlight := s.syncInFlight.delete publicKey }).peersOf k =
        (s.peersOf k).filter (fun x => decide (x ≠ publicKey)) := by
      intro k
      rw [hwithout.peers]
      split
      · rfl
      · rename_i hk
        have hkeys : s.keysOf publicKey = keys := by
          rw [SimpleSyncronizer.keysOf, hget]
          rfl
        change s.peersOf k = _
        refine (List.filter_eq_self.mpr ?_).symm
        intro peer hpeer
        rw [decide_eq_true_eq]
        rintro rfl
        exact hk (hkeys ▸ (hs.inverse peer k).mp hpeer)
    refine ⟨hwithout.lists.congr rfl rfl rfl, ?_, ?_⟩
    · intro k
      exact (hpeers k) ▸ (hs.nodup k).filter _
    · intro peer k
      refine (Eq.to_iff (congrArg (peer ∈ ·) (hpeers k))).trans ?_
      rw [SimpleSyncronizer.keysOf, hwithout.inverted]
      by_cases hpeer : peer = publicKey
      · subst hpeer
        simp
      · rw [Lib.InsertionMap.get_delete_of_ne _ hpeer]
        change _ ↔ k ∈ s.keysOf peer
        rw [← hs.inverse]
        simp [hpeer]

end Cleared

/-! ### Runs -/

section Runs

variable {Peer : Type} [DecidableEq Peer] {s t : SimpleSyncronizer Peer}

omit [DecidableEq Peer] in
theorem SyncInvariant.init : SyncInvariant (SimpleSyncronizer.init : SimpleSyncronizer Peer) := by
  refine ⟨⟨?_, ?_, ?_⟩, ?_, ?_⟩
  · exact fun _ _ h => nomatch h
  · exact fun _ _ _ h => nomatch h
  · exact fun _ h => nomatch h
  · exact fun _ => List.nodup_nil
  · exact fun _ _ => iff_of_false List.not_mem_nil List.not_mem_nil

theorem SyncInvariant.step (hs : SyncInvariant s) {action : SynchronizerAction Peer}
    (hclean : DropsNone s action) (hstep : synchronizerStep s action = some t) :
    SyncInvariant t := by
  cases action with
  | queueSync keys from_ skipCheck now =>
      obtain rfl := Option.some.inj hstep
      exact hs.queueSync from_ skipCheck now keys []
  | queueSyncChecked i has now =>
      obtain ⟨call, hcall, rfl⟩ := Option.map_eq_some_iff.mp hstep
      have hcalls := hs.setCalls (s.calls.eraseIdx i)
      cases has with
      | true => exact hcalls.queueSync call.from_ false now _ _
      | false =>
          have hnobody : s.peersOf call.key = [] := hclean rfl call hcall
          exact (hcalls.setPeers_nil hnobody).queueSync call.from_ false now _ _
  | requestSyncLoop now =>
      obtain ⟨-, hnext⟩ := Option.ite_none_right_eq_some.mp hstep
      obtain rfl := Option.some.inj hnext
      exact hs.visitNext 0 [] [] now
  | loopChecked has now =>
      obtain ⟨l, hl, rfl⟩ := Option.map_eq_some_iff.mp hstep
      exact hs.loopChecked hl (hclean l hl) now
  | onEntryAdded hash =>
      obtain rfl := Option.some.inj hstep
      exact hs.clearSyncProcess hash
  | onEntryRemoved hash =>
      obtain rfl := Option.some.inj hstep
      exact hs.clearSyncProcess hash
  | onPeerDisconnected publicKey =>
      obtain rfl := Option.some.inj hstep
      exact hs.clearSyncProcessPublicKey publicKey

/-- While no step drops a key with peers, the two maps say the same. -/
theorem inverse_of_cleanRun (hrun : (synchronizerMachine Peer).Run DropsNone s) : Inverse s :=
  have hinv : SyncInvariant s := hrun.invariant SyncInvariant.init
    (fun _ _ _ hs hclean hstep => SyncInvariant.step hs hclean hstep)
  hinv.inverse

end Runs

namespace SyncedCoordinate

def key : SyncableKey := .coordinate 5

/-- One peer is asked for a key, and another one can be asked. -/
def queued : List (SynchronizerAction String) :=
  [.queueSync [key] "a" false 0, .queueSyncChecked 0 false 0, .queueSync [key] "b" false 0,
    .requestSyncLoop 0]

/-- The key has come when the loop looks for it: it is dropped from the queue, and
stays with the peer that was not asked. -/
theorem not_inverse :
    ∃ s, (synchronizerMachine String).Run Lib.Machine.Free s ∧ ¬ Inverse s := by
  have hexec : ((synchronizerMachine String).exec .init (queued ++ [.loopChecked true 0])).map
      (fun s => (s.peersOf key, s.keysOf "b")) = some ([], [key]) := by
    decide +kernel
  obtain ⟨s, hs, hmaps⟩ := Option.map_eq_some_iff.mp hexec
  obtain ⟨hpeers, hkeys⟩ := Prod.mk.inj hmaps
  refine ⟨s, .of_exec .init _ hs, ?_⟩
  intro hinverse
  have hmem : "b" ∈ s.peersOf key := by
    rw [hinverse, hkeys]
    exact List.mem_singleton_self key
  rw [hpeers] at hmem
  exact List.not_mem_nil hmem

/-- Two peers can be asked after the first one, and the loop asks one of them. -/
theorem inverse_asked :
    ∃ s, (synchronizerMachine String).Run DropsNone s ∧ Inverse s ∧
      s.peersOf key = ["c"] ∧ s.keysOf "b" = [] ∧ s.keysOf "c" = [key] := by
  have hfirst : (synchronizerMachine String).Run DropsNone
      (SimpleSyncronizer.queueSync "a" true 0 .init [key] []) :=
    .step (a := .queueSync [key] "a" true 0) .init trivial rfl
  have hsecond := hfirst.step (a := SynchronizerAction.queueSync [key] "b" false 0) trivial rfl
  have hthird := hsecond.step (a := SynchronizerAction.queueSync [key] "c" false 0) trivial rfl
  have hloop := hthird.step (a := SynchronizerAction.requestSyncLoop 0) trivial rfl
  have hasked := hloop.step (a := SynchronizerAction.loopChecked false 0) (by
    intro l hl
    obtain rfl := Option.some.inj hl
    exact .inl rfl) rfl
  exact ⟨_, hasked, inverse_of_cleanRun hasked, rfl, rfl, rfl⟩

end SyncedCoordinate

end SharedLog
end Peerbit
