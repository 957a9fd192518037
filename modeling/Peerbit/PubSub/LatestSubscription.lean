import Mathlib.Data.Finset.Max
import Mathlib.Data.List.Pairwise
import Peerbit.PubSub.DirectSub

/-!
# Which subscriptions a node ends up with

A node that has heard nothing of a peer takes in the peer's messages in some
order.  A message is dropped as a whole when a later one came before it that
names one of its topics, also for the topics that only the dropped one names.
So the node ends up with what the messages say that are not dropped
(`listed_process_iff`).
-/

namespace Peerbit
namespace PubSub

namespace PubSubMessage

def isSubscribe : PubSubMessage → Bool
  | .Subscribe _ _ => true
  | _ => false

/-- The message is a `Subscribe` or an `Unsubscribe`. -/
def isChange : PubSubMessage → Bool
  | .GetSubscribers _ => false
  | _ => true

end PubSubMessage

namespace SubscriptionMessage

/-- The message names the topic. -/
def Names (m : SubscriptionMessage) (t : String) : Prop :=
  t ∈ m.content.topics

instance (m : SubscriptionMessage) (t : String) : Decidable (m.Names t) :=
  inferInstanceAs (Decidable (_ ∈ _))

end SubscriptionMessage

/-- The message is the latest one of the list that names the topic. -/
def LatestOn (msgs : List SubscriptionMessage) (t : String)
    (m : SubscriptionMessage) : Prop :=
  m ∈ msgs ∧ m.Names t ∧ ∀ m' ∈ msgs, m'.Names t → m'.timestamp ≤ m.timestamp

/-- The latest message of the list that names the topic is a `Subscribe`. -/
def SubscribedBy (msgs : List SubscriptionMessage) (t : String) : Prop :=
  ∃ m, LatestOn msgs t m ∧ m.content.isSubscribe = true

/-- The messages of an order that are not dropped: a message is dropped when
one that is not, and came before it, is later and names one of its topics. -/
def acceptMessage (accepted : List SubscriptionMessage)
    (m : SubscriptionMessage) : List SubscriptionMessage :=
  if ∃ a ∈ accepted, m.timestamp < a.timestamp ∧
      ∃ t ∈ m.content.topics, a.Names t then
    accepted
  else accepted ++ [m]

def acceptedMessages (order : List SubscriptionMessage) :
    List SubscriptionMessage :=
  order.foldl acceptMessage []

/-- The messages of the peer that change its subscriptions. -/
def changesOf (peer : PeerHash) (order : List SubscriptionMessage) :
    List SubscriptionMessage :=
  order.filter fun m => decide (m.sender = peer) && m.content.isChange

/-- The node processes each message for the first time. -/
def processAll (s : DirectSub) (order : List SubscriptionMessage) : DirectSub :=
  order.foldl (fun s m => s.onDataMessage m 0) s

namespace DirectSub

/-! ### What a message changes -/

section Handlers

variable {s : DirectSub} {m : SubscriptionMessage} {t : String} {p : PeerHash}

theorem tracks_subscribePeer {changed : List String} {topic : String} :
    (subscribePeer m (s, changed) topic).1.Tracks t ↔ s.Tracks t := by
  cases htopic : s.topics topic with
  | none => simp [subscribePeer, htopic]
  | some peers =>
      by_cases ht : t = topic
      · subst ht
        cases hpeer : peers m.sender with
        | none => simp [subscribePeer, htopic, hpeer, Tracks, initializePeer]
        | some data =>
            simp only [subscribePeer, htopic, hpeer]
            split <;> simp [Tracks, initializePeer, htopic]
      · cases hpeer : peers m.sender with
        | none => simp [subscribePeer, htopic, hpeer, Tracks, initializePeer, ht]
        | some data =>
            simp only [subscribePeer, htopic, hpeer]
            split <;> simp [Tracks, initializePeer, ht]

theorem listed_subscribePeer {changed : List String} {topic : String} :
    (subscribePeer m (s, changed) topic).1.Listed t p ↔
      s.Listed t p ∨ (p = m.sender ∧ t = topic ∧ s.Tracks topic) := by
  cases htopic : s.topics topic with
  | none => simp [subscribePeer, htopic, Tracks]
  | some peers =>
      by_cases ht : t = topic
      · subst ht
        by_cases hp : p = m.sender
        · subst hp
          cases hpeer : peers m.sender with
          | none =>
              simp [subscribePeer, htopic, hpeer, Listed, Tracks, initializePeer]
          | some data =>
              simp only [subscribePeer, htopic, hpeer]
              split <;> simp [Listed, Tracks, initializePeer, htopic, hpeer]
        · cases hpeer : peers m.sender with
          | none =>
              simp [subscribePeer, htopic, hpeer, Listed, initializePeer, hp]
          | some data =>
              simp only [subscribePeer, htopic, hpeer]
              split <;> simp [Listed, initializePeer, htopic, hp]
      · cases hpeer : peers m.sender with
        | none => simp [subscribePeer, htopic, hpeer, Listed, initializePeer, ht]
        | some data =>
            simp only [subscribePeer, htopic, hpeer]
            split <;> simp [Listed, initializePeer, ht]

theorem last_subscribePeer {changed : List String} {topic : String} :
    (subscribePeer m (s, changed) topic).1.lastSubscriptionMessages =
      s.lastSubscriptionMessages := by
  cases htopic : s.topics topic with
  | none => simp [subscribePeer, htopic]
  | some peers =>
      cases hpeer : peers m.sender with
      | none => simp [subscribePeer, htopic, hpeer, initializePeer]
      | some data =>
          simp only [subscribePeer, htopic, hpeer]
          split <;> rfl

/-- The loop of a `Subscribe`. -/
theorem foldl_subscribePeer (topics changed : List String) :
    let s' := (topics.foldl (subscribePeer m) (s, changed)).1
    (s'.Listed t p ↔
        s.Listed t p ∨ (p = m.sender ∧ t ∈ topics ∧ s.Tracks t)) ∧
      (s'.Tracks t ↔ s.Tracks t) ∧
      s'.lastSubscriptionMessages = s.lastSubscriptionMessages := by
  induction topics generalizing s changed with
  | nil => simp
  | cons topic topics ih =>
      obtain ⟨hlisted, htracks, hlast⟩ :=
        ih (s := (subscribePeer m (s, changed) topic).1)
          (subscribePeer m (s, changed) topic).2
      refine ⟨?_, htracks.trans tracks_subscribePeer,
        hlast.trans last_subscribePeer⟩
      rw [List.foldl_cons, hlisted, listed_subscribePeer, tracks_subscribePeer]
      constructor
      · rintro ((h | ⟨hp, rfl, ht⟩) | ⟨hp, hmem, ht⟩)
        · exact .inl h
        · exact .inr ⟨hp, List.mem_cons_self, ht⟩
        · exact .inr ⟨hp, List.mem_cons_of_mem _ hmem, ht⟩
      · rintro (h | ⟨hp, hmem, ht⟩)
        · exact .inl (.inl h)
        · rcases List.mem_cons.mp hmem with rfl | hmem
          · exact .inl (.inr ⟨hp, rfl, ht⟩)
          · exact .inr ⟨hp, hmem, ht⟩

/-- The loop of an `Unsubscribe`. -/
theorem foldl_deletePeer (topics changed : List String) (peer : PeerHash) :
    let s' := (topics.foldl (deletePeer peer) (s, changed)).1
    (s'.Listed t p ↔ s.Listed t p ∧ ¬ (p = peer ∧ t ∈ topics)) ∧
      (s'.Tracks t ↔ s.Tracks t) ∧
      s'.lastSubscriptionMessages = s.lastSubscriptionMessages := by
  induction topics generalizing s changed with
  | nil => simp
  | cons topic topics ih =>
      obtain ⟨hlisted, htracks, hlast⟩ :=
        ih (s := (deletePeer peer (s, changed) topic).1)
          (deletePeer peer (s, changed) topic).2
      refine ⟨?_, htracks.trans tracks_deletePeerFromTopic, hlast⟩
      rw [List.foldl_cons, hlisted, deletePeer, listed_deletePeerFromTopic,
        List.mem_cons]
      constructor
      · rintro ⟨⟨h, h1⟩, h2⟩
        refine ⟨h, ?_⟩
        rintro ⟨hp, ht | ht⟩
        · exact h1 ⟨ht, hp⟩
        · exact h2 ⟨hp, ht⟩
      · rintro ⟨h, hnot⟩
        exact ⟨⟨h, fun ⟨ht, hp⟩ => hnot ⟨hp, .inl ht⟩⟩,
          fun ⟨hp, ht⟩ => hnot ⟨hp, .inr ht⟩⟩

theorem isLatest_iff :
    s.isLatest m = true ↔
      ∀ t, m.Names t → ∀ ts, s.lastTimestamp m.sender t = some ts →
        ts ≤ m.timestamp := by
  rw [isLatest, List.all_eq_true]
  refine forall₂_congr fun t _ => ?_
  cases s.lastTimestamp m.sender t with
  | none => simp
  | some ts => simp

theorem lastTimestamp_rememberMessage :
    (s.rememberMessage m).lastTimestamp p t =
      if p = m.sender ∧ m.Names t then some m.timestamp
      else s.lastTimestamp p t := by
  by_cases htopics : m.content.topics = []
  · simp [rememberMessage, lastTimestamp, SubscriptionMessage.Names, htopics]
  · by_cases hp : p = m.sender
    · subst hp
      by_cases ht : t ∈ m.content.topics
      · simp [rememberMessage, lastTimestamp, SubscriptionMessage.Names, htopics,
          ht]
      · simp [rememberMessage, lastTimestamp, SubscriptionMessage.Names, htopics,
          ht]
    · simp [rememberMessage, lastTimestamp, htopics, hp]

theorem lastTimestamp_congr {s' : DirectSub}
    (h : s'.lastSubscriptionMessages = s.lastSubscriptionMessages) :
    s'.lastTimestamp p t = s.lastTimestamp p t := by
  rw [lastTimestamp, lastTimestamp, h]

theorem last_onSubscribe (requestSubscribers : Bool) :
    (s.onSubscribe m requestSubscribers).lastSubscriptionMessages =
      s.lastSubscriptionMessages := by
  obtain ⟨_, _, hlast⟩ := foldl_subscribePeer (s := s) (m := m) (t := "")
    (p := "") m.content.topics []
  have hrespond : ∀ u : DirectSub,
      (u.respond m).lastSubscriptionMessages = u.lastSubscriptionMessages := by
    intro u
    rw [respond]
    split <;> rfl
  rw [onSubscribe]
  simp only
  split_ifs
  · rw [hrespond, hlast]
  · rw [hrespond, hlast]
  · exact hlast
  · exact hlast

theorem last_onUnsubscribe (seenBefore : Nat) :
    (s.onUnsubscribe m seenBefore).lastSubscriptionMessages =
      s.lastSubscriptionMessages := by
  obtain ⟨_, _, hlast⟩ := foldl_deletePeer (s := s) (t := "") (p := "")
    m.content.topics [] m.sender
  rw [onUnsubscribe, deletePeerFromTopics]
  split_ifs
  · exact hlast
  · exact hlast

theorem listed_congr {s' : DirectSub} (h : s.SameTables s') :
    s'.Listed t p ↔ s.Listed t p := by
  rw [Listed, Listed, h.topics]

theorem tracks_congr {s' : DirectSub} (h : s.SameTables s') :
    s'.Tracks t ↔ s.Tracks t := by
  rw [Tracks, Tracks, h.topics]

/-- A message about a change that is not the latest does nothing. -/
theorem onDataMessage_of_not_isLatest (hchange : m.content.isChange = true)
    (hlatest : s.isLatest m = false) :
    s.onDataMessage m 0 = s := by
  rw [onDataMessage]
  split
  · simp [hlatest]
  · simp [hlatest]
  · rename_i hcontent
    simp [PubSubMessage.isChange, hcontent] at hchange

/-- What a message about a change does when it is the latest. -/
theorem onDataMessage_of_isLatest (hchange : m.content.isChange = true)
    (hlatest : s.isLatest m = true) :
    ((s.onDataMessage m 0).Listed t p ↔
        if p = m.sender ∧ m.Names t then
          m.content.isSubscribe = true ∧ s.Tracks t
        else s.Listed t p) ∧
      ((s.onDataMessage m 0).Tracks t ↔ s.Tracks t) ∧
      (s.onDataMessage m 0).lastTimestamp p t =
        if p = m.sender ∧ m.Names t then some m.timestamp
        else s.lastTimestamp p t := by
  have hsame : s.SameTables (s.rememberMessage m) := ⟨rfl, rfl, rfl⟩
  cases hcontent : m.content with
  | Subscribe topics requestSubscribers =>
      by_cases htopics : topics.length > 0
      · have hfinal : s.onDataMessage m 0 =
            (s.rememberMessage m).onSubscribe m requestSubscribers := by
          simp [onDataMessage, hcontent, hlatest, htopics]
        obtain ⟨hlisted, htracks, _⟩ := foldl_subscribePeer
          (s := s.rememberMessage m) (m := m) (t := t) (p := p)
          m.content.topics []
        have htables :=
          sameTables_onSubscribe (s.rememberMessage m) m requestSubscribers
        rw [hfinal, listed_congr htables, tracks_congr htables,
          lastTimestamp_congr (last_onSubscribe requestSubscribers),
          lastTimestamp_rememberMessage]
        refine ⟨?_, htracks.trans (tracks_congr hsame), rfl⟩
        rw [hlisted, listed_congr hsame, tracks_congr hsame]
        split
        · rename_i hnames
          simp only [PubSubMessage.isSubscribe, true_and]
          exact ⟨fun h => h.elim listed_tracks fun h => h.2.2,
            fun h => .inr ⟨hnames.1, hnames.2, h⟩⟩
        · rename_i hnames
          exact ⟨fun h => h.elim id fun h => absurd ⟨h.1, h.2.1⟩ hnames, .inl⟩
      · have hfinal : s.onDataMessage m 0 = s.rememberMessage m := by
          simp [onDataMessage, hcontent, hlatest, htopics]
        have hnames : ¬ (p = m.sender ∧ m.Names t) := by
          rintro ⟨_, hnames⟩
          rw [SubscriptionMessage.Names, hcontent] at hnames
          exact htopics (List.length_pos_of_mem hnames)
        rw [hfinal, listed_congr hsame, tracks_congr hsame,
          lastTimestamp_rememberMessage, if_neg hnames]
        exact ⟨Iff.rfl, Iff.rfl, rfl⟩
  | Unsubscribe topics =>
      have hfinal : s.onDataMessage m 0 =
          (s.rememberMessage m).onUnsubscribe m 0 := by
        simp [onDataMessage, hcontent, hlatest]
      obtain ⟨hlisted, htracks, _⟩ := foldl_deletePeer
        (s := s.rememberMessage m) (t := t) (p := p)
        m.content.topics [] m.sender
      have htables := sameTables_onUnsubscribe (s.rememberMessage m) m 0
      rw [hfinal, listed_congr htables, tracks_congr htables,
        lastTimestamp_congr (last_onUnsubscribe 0),
        lastTimestamp_rememberMessage]
      refine ⟨?_, htracks.trans (tracks_congr hsame), rfl⟩
      rw [hlisted, listed_congr hsame]
      split
      · rename_i hnames
        simp only [PubSubMessage.isSubscribe]
        exact ⟨fun h => absurd hnames h.2, fun h => (nomatch h.1)⟩
      · rename_i hnames
        exact ⟨fun h => h.1, fun h => ⟨h, hnames⟩⟩
  | GetSubscribers topics => simp [PubSubMessage.isChange, hcontent] at hchange

/-- A message of another peer, or one that only asks, changes nothing about a
peer. -/
theorem onDataMessage_of_other
    (hother : ¬ (m.sender = p ∧ m.content.isChange = true)) :
    ((s.onDataMessage m 0).Listed t p ↔ s.Listed t p) ∧
      ((s.onDataMessage m 0).Tracks t ↔ s.Tracks t) ∧
      (s.onDataMessage m 0).lastTimestamp p t = s.lastTimestamp p t := by
  cases hchange : m.content.isChange with
  | true =>
      have hp : ¬ (p = m.sender ∧ m.Names t) :=
        fun h => hother ⟨h.1.symm, hchange⟩
      cases hlatest : s.isLatest m with
      | false =>
          rw [onDataMessage_of_not_isLatest hchange hlatest]
          exact ⟨Iff.rfl, Iff.rfl, rfl⟩
      | true =>
          have h := onDataMessage_of_isLatest (t := t) (p := p) hchange hlatest
          rwa [if_neg hp, if_neg hp] at h
  | false =>
      rw [onDataMessage]
      split
      · rename_i hcontent
        simp [PubSubMessage.isChange, hcontent] at hchange
      · rename_i hcontent
        simp [PubSubMessage.isChange, hcontent] at hchange
      · simp only
        split
        · exact ⟨Iff.rfl, Iff.rfl, rfl⟩
        · exact ⟨Iff.rfl, Iff.rfl, rfl⟩

end Handlers

end DirectSub

/-! ### The messages that count -/

section Accepted

variable {msgs : List SubscriptionMessage} {t : String}

theorem exists_latestOn {m : SubscriptionMessage} (hm : m ∈ msgs)
    (hnames : m.Names t) :
    ∃ g, LatestOn msgs t g := by
  have hne : (msgs.filter (·.Names t)).toFinset.Nonempty :=
    ⟨m, by simp [hm, hnames]⟩
  obtain ⟨g, hg, hmax⟩ :=
    Finset.exists_max_image _ SubscriptionMessage.timestamp hne
  obtain ⟨hg, hgnames⟩ : g ∈ msgs ∧ g.Names t := by simpa using hg
  exact ⟨g, hg, hgnames, fun m' hm' hnames' =>
    hmax m' (by simp [hm', hnames'])⟩

/-- With distinct timestamps there is one latest message. -/
theorem LatestOn.unique
    (hdistinct : msgs.Pairwise fun a b => a.timestamp ≠ b.timestamp)
    {g g' : SubscriptionMessage} (h : LatestOn msgs t g)
    (h' : LatestOn msgs t g') :
    g = g' := by
  by_contra hne
  have hts : g.timestamp = g'.timestamp :=
    Nat.le_antisymm (h'.2.2 g h.1 h.2.1) (h.2.2 g' h'.1 h'.2.1)
  have : Std.Symm fun a b : SubscriptionMessage => a.timestamp ≠ b.timestamp :=
    ⟨fun _ _ hab => hab.symm⟩
  exact hdistinct.forall h.1 h'.1 hne hts

theorem acceptedMessages_subset (order : List SubscriptionMessage) :
    ∀ m ∈ acceptedMessages order, m ∈ order := by
  induction order using List.reverseRecOn with
  | nil => simp [acceptedMessages]
  | append_singleton order x ih =>
      intro m hm
      rw [acceptedMessages, List.foldl_concat, ← acceptedMessages,
        acceptMessage] at hm
      split at hm
      · exact List.mem_append_left _ (ih m hm)
      · rcases List.mem_append.mp hm with hm | hm
        · exact List.mem_append_left _ (ih m hm)
        · exact List.mem_append_right _ hm

end Accepted

/-- What the node knows of a peer, given the messages of the peer that were not
dropped. -/
structure Knows (s : DirectSub) (peer : PeerHash)
    (accepted : List SubscriptionMessage) : Prop where
  none_of : ∀ t, s.lastTimestamp peer t = none →
    ∀ a ∈ accepted, ¬ a.Names t
  some_of : ∀ t ts, s.lastTimestamp peer t = some ts →
    ∃ a, LatestOn accepted t a ∧ a.timestamp = ts
  listed : ∀ t, s.Listed t peer ↔ SubscribedBy accepted t

namespace Knows

variable {s : DirectSub} {peer : PeerHash}
  {accepted : List SubscriptionMessage} {m : SubscriptionMessage}

/-- The node's test drops exactly what `acceptMessage` drops. -/
theorem isLatest_iff (h : Knows s peer accepted) (hsender : m.sender = peer) :
    s.isLatest m = true ↔
      ¬ ∃ a ∈ accepted, m.timestamp < a.timestamp ∧
        ∃ t ∈ m.content.topics, a.Names t := by
  rw [DirectSub.isLatest_iff, hsender]
  constructor
  · rintro hlatest ⟨a, ha, hlt, t, ht, hnames⟩
    cases hlast : s.lastTimestamp peer t with
    | none => exact h.none_of t hlast a ha hnames
    | some ts =>
        obtain ⟨g, hg, rfl⟩ := h.some_of t ts hlast
        have hle := hlatest t ht g.timestamp hlast
        have hmax := hg.2.2 a ha hnames
        omega
  · intro hnot t ht ts hlast
    obtain ⟨g, hg, rfl⟩ := h.some_of t ts hlast
    by_contra hlt
    exact hnot ⟨g, hg.1, by omega, t, ht, hg.2.1⟩

/-- A message that is not dropped is the latest one of its topics. -/
theorem latestOn_concat (h : Knows s peer accepted) (hsender : m.sender = peer)
    (hlatest : s.isLatest m = true) {t : String} (ht : m.Names t) :
    LatestOn (accepted ++ [m]) t m := by
  refine ⟨by simp, ht, fun a ha hnames => ?_⟩
  rcases List.mem_append.mp ha with ha | ha
  · by_contra hlt
    exact (h.isLatest_iff hsender).mp hlatest
      ⟨a, ha, by omega, t, ht, hnames⟩
  · obtain rfl := List.mem_singleton.mp ha
    exact Nat.le_refl _

theorem latestOn_concat_of_not_names {t : String} (ht : ¬ m.Names t)
    {a : SubscriptionMessage} :
    LatestOn (accepted ++ [m]) t a ↔ LatestOn accepted t a := by
  constructor
  · rintro ⟨ha, hnames, hmax⟩
    rcases List.mem_append.mp ha with ha | ha
    · exact ⟨ha, hnames, fun b hb => hmax b (List.mem_append_left _ hb)⟩
    · obtain rfl := List.mem_singleton.mp ha
      exact absurd hnames ht
  · rintro ⟨ha, hnames, hmax⟩
    refine ⟨List.mem_append_left _ ha, hnames, fun b hb hb' => ?_⟩
    rcases List.mem_append.mp hb with hb | hb
    · exact hmax b hb hb'
    · obtain rfl := List.mem_singleton.mp hb
      exact absurd hb' ht

/-- One message of the peer. -/
theorem step (h : Knows s peer accepted) (hsender : m.sender = peer)
    (hchange : m.content.isChange = true)
    (htracks : ∀ t, m.Names t → s.Tracks t)
    (hdistinct : ∀ a ∈ accepted, a.timestamp ≠ m.timestamp) :
    Knows (s.onDataMessage m 0) peer (acceptMessage accepted m) := by
  have hiff := h.isLatest_iff hsender
  cases hlatest : s.isLatest m with
  | false =>
      rw [hlatest] at hiff
      rw [acceptMessage, if_pos (by simpa using hiff),
        DirectSub.onDataMessage_of_not_isLatest hchange hlatest]
      exact h
  | true =>
      have hnew := fun t =>
        DirectSub.onDataMessage_of_isLatest (t := t) (p := peer) hchange hlatest
      rw [acceptMessage, if_neg (hiff.mp hlatest)]
      subst hsender
      refine ⟨fun t hlast => ?_, fun t ts hlast => ?_, fun t => ?_⟩
      · rw [(hnew t).2.2] at hlast
        split at hlast
        · exact (nomatch hlast)
        · rename_i hnames
          intro a ha
          rcases List.mem_append.mp ha with ha | ha
          · exact h.none_of t hlast a ha
          · obtain rfl := List.mem_singleton.mp ha
            exact fun hn => hnames ⟨rfl, hn⟩
      · rw [(hnew t).2.2] at hlast
        split at hlast
        · rename_i hnames
          exact ⟨m, h.latestOn_concat rfl hlatest hnames.2,
            Option.some.inj hlast⟩
        · rename_i hnames
          obtain ⟨g, hg, hts⟩ := h.some_of t ts hlast
          exact ⟨g, (latestOn_concat_of_not_names
            fun hn => hnames ⟨rfl, hn⟩).mpr hg, hts⟩
      · rw [(hnew t).1]
        split
        · rename_i hnames
          have hm := h.latestOn_concat rfl hlatest hnames.2
          constructor
          · rintro ⟨hsub, _⟩
            exact ⟨m, hm, hsub⟩
          · rintro ⟨g, hg, hsub⟩
            refine ⟨?_, htracks t hnames.2⟩
            rcases List.mem_append.mp hg.1 with hmem | hmem
            · have hle := hg.2.2 m (by simp) hnames.2
              have hge := hm.2.2 g hg.1 hg.2.1
              exact absurd (Nat.le_antisymm hge hle) (hdistinct g hmem)
            · obtain rfl := List.mem_singleton.mp hmem
              exact hsub
        · rename_i hnames
          have hn : ¬ m.Names t := fun hn => hnames ⟨rfl, hn⟩
          rw [h.listed t]
          exact exists_congr fun g =>
            and_congr_left' (latestOn_concat_of_not_names hn).symm

/-- A message that is not a change of this peer. -/
theorem step_other (h : Knows s peer accepted)
    (hother : ¬ (m.sender = peer ∧ m.content.isChange = true)) :
    Knows (s.onDataMessage m 0) peer accepted := by
  have hsame := fun t =>
    DirectSub.onDataMessage_of_other (s := s) (t := t) hother
  refine ⟨fun t hlast => ?_, fun t ts hlast => ?_, fun t => ?_⟩
  · exact h.none_of t ((hsame t).2.2 ▸ hlast)
  · exact h.some_of t ts ((hsame t).2.2 ▸ hlast)
  · exact (hsame t).1.trans (h.listed t)

end Knows

/-- The node has heard nothing of the peer. -/
def Fresh (s : DirectSub) (peer : PeerHash) : Prop :=
  ∀ t, s.lastTimestamp peer t = none ∧ ¬ s.Listed t peer

theorem Fresh.knows {s : DirectSub} {peer : PeerHash} (h : Fresh s peer) :
    Knows s peer [] where
  none_of := fun _ _ _ ha => absurd ha List.not_mem_nil
  some_of := fun t ts hlast => by simp [(h t).1] at hlast
  listed := fun t =>
    ⟨fun hlisted => absurd hlisted (h t).2,
      fun ⟨_, hg, _⟩ => absurd hg.1 List.not_mem_nil⟩

theorem tracks_onDataMessage {s : DirectSub} {m : SubscriptionMessage}
    {t : String} :
    (s.onDataMessage m 0).Tracks t ↔ s.Tracks t := by
  by_cases hchange : m.content.isChange = true
  · cases hlatest : s.isLatest m with
    | false => rw [DirectSub.onDataMessage_of_not_isLatest hchange hlatest]
    | true =>
        exact (DirectSub.onDataMessage_of_isLatest (p := m.sender) hchange
          hlatest).2.1
  · exact (DirectSub.onDataMessage_of_other (p := m.sender)
      fun h => hchange h.2).2.1

theorem tracks_processAll {s : DirectSub} {order : List SubscriptionMessage}
    {t : String} :
    (processAll s order).Tracks t ↔ s.Tracks t := by
  induction order generalizing s with
  | nil => exact Iff.rfl
  | cons m order ih => exact ih.trans tracks_onDataMessage

/-- A whole order of messages. -/
theorem knows_processAll {s : DirectSub} {peer : PeerHash}
    (order : List SubscriptionMessage)
    (hfresh : Fresh s peer)
    (htracks : ∀ m ∈ changesOf peer order, ∀ t, m.Names t → s.Tracks t)
    (hdistinct : (changesOf peer order).Pairwise
      fun a b => a.timestamp ≠ b.timestamp) :
    Knows (processAll s order) peer
      (acceptedMessages (changesOf peer order)) := by
  induction order using List.reverseRecOn with
  | nil => exact hfresh.knows
  | append_singleton order m ih =>
      have hsplit : changesOf peer (order ++ [m]) =
          changesOf peer order ++ changesOf peer [m] := List.filter_append ..
      rw [hsplit] at htracks hdistinct ⊢
      have h := ih (fun a ha => htracks a (List.mem_append_left _ ha))
        (List.pairwise_append.mp hdistinct).1
      have hlast : processAll s (order ++ [m]) =
          (processAll s order).onDataMessage m 0 := List.foldl_concat ..
      rw [hlast]
      by_cases hm : m.sender = peer ∧ m.content.isChange = true
      · have hone : changesOf peer [m] = [m] := by simp [changesOf, hm]
        rw [hone] at htracks hdistinct ⊢
        rw [acceptedMessages, List.foldl_concat, ← acceptedMessages]
        refine h.step hm.1 hm.2 (fun t ht => ?_) fun a ha => ?_
        · exact tracks_processAll.mpr (htracks m (by simp) t ht)
        · exact (List.pairwise_append.mp hdistinct).2.2 a
            (acceptedMessages_subset _ a ha) m (by simp)
      · have hnone : changesOf peer [m] = [] := by
          simp only [changesOf, List.filter_cons, List.filter_nil]
          rw [if_neg (by simpa using hm)]
        rw [hnone, List.append_nil]
        exact h.step_other hm

/-- The node lists the peer exactly under the topics for which the latest
message of the peer is a `Subscribe`. -/
def ListsLatest (s : DirectSub) (peer : PeerHash)
    (order : List SubscriptionMessage) : Prop :=
  ∀ t, s.Listed t peer ↔ SubscribedBy (changesOf peer order) t

/-- If the latest message that names a topic is dropped, then it is of the kind
of the latest one that is not, where no message at all is an `Unsubscribe`. -/
def DroppedAgree (msgs : List SubscriptionMessage) : Prop :=
  ∀ t g, LatestOn msgs t g → g ∉ acceptedMessages msgs →
    (g.content.isSubscribe = true ↔ SubscribedBy (acceptedMessages msgs) t)

theorem subscribedBy_iff_of_droppedAgree {msgs : List SubscriptionMessage}
    (hdistinct : msgs.Pairwise fun a b => a.timestamp ≠ b.timestamp)
    (h : DroppedAgree msgs) (t : String) :
    SubscribedBy (acceptedMessages msgs) t ↔ SubscribedBy msgs t := by
  have hsubset := acceptedMessages_subset msgs
  by_cases hnamed : ∃ m ∈ msgs, m.Names t
  · obtain ⟨m, hm, hnames⟩ := hnamed
    obtain ⟨g, hg⟩ := exists_latestOn hm hnames
    have hall : SubscribedBy msgs t ↔ g.content.isSubscribe = true :=
      ⟨fun ⟨_, hg', hsub⟩ => LatestOn.unique hdistinct hg' hg ▸ hsub,
        fun hsub => ⟨g, hg, hsub⟩⟩
    rw [hall]
    by_cases haccepted : g ∈ acceptedMessages msgs
    · have hg' : LatestOn (acceptedMessages msgs) t g :=
        ⟨haccepted, hg.2.1, fun a ha => hg.2.2 a (hsubset a ha)⟩
      constructor
      · rintro ⟨a, ha, hsub⟩
        have hle := ha.2.2 g haccepted hg.2.1
        have ha' : LatestOn msgs t a :=
          ⟨hsubset a ha.1, ha.2.1,
            fun b hb hb' => (hg.2.2 b hb hb').trans hle⟩
        exact LatestOn.unique hdistinct ha' hg ▸ hsub
      · exact fun hsub => ⟨g, hg', hsub⟩
    · exact (h t g hg haccepted).symm
  · constructor
    · rintro ⟨a, ha, _⟩
      exact absurd ⟨a, hsubset a ha.1, ha.2.1⟩ hnamed
    · rintro ⟨a, ha, _⟩
      exact absurd ⟨a, ha.1, ha.2.1⟩ hnamed

/-- **When subscriptions converge to the latest.**  After any order of messages
in which those of the peer have distinct timestamps, a node that tracks their
topics lists the peer under the topics that its latest messages subscribe to
exactly when the latest messages that are dropped are of the kind of what is
left. -/
theorem listsLatest_iff {s : DirectSub} {peer : PeerHash}
    (order : List SubscriptionMessage)
    (hfresh : Fresh s peer)
    (htracks : ∀ m ∈ changesOf peer order, ∀ t, m.Names t → s.Tracks t)
    (hdistinct : (changesOf peer order).Pairwise
      fun a b => a.timestamp ≠ b.timestamp) :
    ListsLatest (processAll s order) peer order ↔
      DroppedAgree (changesOf peer order) := by
  have hknows := knows_processAll order hfresh htracks hdistinct
  constructor
  · intro hlists t g hg _
    rw [← hknows.listed t, hlists t]
    exact ⟨fun hsub => ⟨g, hg, hsub⟩,
      fun ⟨_, hg', hsub⟩ => LatestOn.unique hdistinct hg' hg ▸ hsub⟩
  · intro hagree t
    rw [hknows.listed t]
    exact subscribedBy_iff_of_droppedAgree hdistinct hagree t

section OneTopicLost

def changeOf (timestamp : Nat) (content : PubSubMessage) :
    SubscriptionMessage where
  sender := "peer"
  session := 1
  timestamp := timestamp
  content := content

/-- A node that tracks two topics. -/
def tracksTwo : DirectSub :=
  DirectSub.empty.requestSubscribers ["A", "B"] none

/-- The later message, which names one topic, comes first. -/
def lostOrder : List SubscriptionMessage :=
  [changeOf 2 (.Unsubscribe ["A"]), changeOf 1 (.Subscribe ["A", "B"] false)]

theorem fresh_tracksTwo : Fresh tracksTwo "peer" := by
  intro t
  refine ⟨rfl, fun h => ?_⟩
  have hlisted : ((DirectSub.empty.initializeTopic "A").initializeTopic
      "B").Listed t "peer" := h
  rw [DirectSub.listed_initializeTopic, DirectSub.listed_initializeTopic]
    at hlisted
  simp [DirectSub.Listed, DirectSub.empty] at hlisted

/-- In the order of the timestamps nothing is dropped. -/
theorem listsLatest_inOrder :
    ListsLatest (processAll tracksTwo lostOrder.reverse) "peer"
      lostOrder.reverse := by
  have htracks : ∀ m ∈ changesOf "peer" lostOrder.reverse,
      ∀ t ∈ m.content.topics, tracksTwo.Tracks t := by
    decide
  refine (listsLatest_iff _ fresh_tracksTwo ?_ (by decide)).mpr ?_
  · exact htracks
  · intro t g hg hdropped
    refine absurd ?_ hdropped
    have hmem := hg.1
    have hall : acceptedMessages (changesOf "peer" lostOrder.reverse) =
        changesOf "peer" lostOrder.reverse := by decide
    rwa [hall]

theorem not_listsLatest_lostOrder :
    Fresh tracksTwo "peer" ∧
      (∀ m ∈ lostOrder, ∀ t ∈ m.content.topics, tracksTwo.Tracks t) ∧
      ¬ ListsLatest (processAll tracksTwo lostOrder) "peer" lostOrder := by
  refine ⟨fresh_tracksTwo, by decide, fun h => ?_⟩
  have hlisted : (processAll tracksTwo lostOrder).Listed "B" "peer" := by
    refine (h "B").mpr
      ⟨changeOf 1 (.Subscribe ["A", "B"] false), ⟨?_, ?_, ?_⟩, rfl⟩
    · decide
    · decide
    · decide
  exact absurd hlisted (by decide)

end OneTopicLost

end PubSub
end Peerbit
