import Peerbit.SharedLog.MergeChanges

/-!
# What a merged batch of changes may lose

After a batch was merged, the entries in the returned ranges are looked at
again.  A ring point that a peer gave up, or took up, and that is in no returned
range of this peer is lost to the rebalancing.

No point of an addition is lost.  A point of a removal is lost when the loop
drops the removal: the history knows it, and no fresh addition is left that it
could cancel against.  `noLostRebalance_iff` says that this is the only way.
-/

namespace Peerbit
namespace SharedLog

open Utils

/-! ### What the batch says about a point -/

/-- The point lies in a removed or replaced range of the peer. -/
def InRemoved (changes : List ReplicationChange) (h : PeerHash) (p : Nat) :
    Prop :=
  ∃ c ∈ changes,
    c.range.hash = h ∧ c.isRemoval = true ∧ c.range.contains p = true

/-- The point lies in an added range of the peer. -/
def InAdded (changes : List ReplicationChange) (h : PeerHash) (p : Nat) :
    Prop :=
  ∃ c ∈ changes,
    c.range.hash = h ∧ c.isRemoval = false ∧ c.range.contains p = true

/-- The point lies in the range of some change of the peer. -/
def InSome (changes : List ReplicationChange) (h : PeerHash) (p : Nat) :
    Prop :=
  ∃ c ∈ changes, c.range.hash = h ∧ c.range.contains p = true

/-- No rebalance of a batch is lost: what a peer only gave up and what it only
took up are both in the range of a returned change of the peer. -/
def NoLostRebalance
    (rangeHash : ReplicationRangeIndexable → String)
    (changesOrChangesArr : ChangesOrChangesArr)
    (rebalanceHistory : RebalanceHistory) : Prop :=
  let changes := changesOrChangesArr.flat
  let merged :=
    (mergeReplicationChanges rangeHash changesOrChangesArr rebalanceHistory).1
  ∀ (h : PeerHash) (p : Nat),
    (InRemoved changes h p → ¬ InAdded changes h p → InSome merged h p) ∧
      (InAdded changes h p → ¬ InRemoved changes h p → InSome merged h p)

/-! ### Which removals are dropped -/

section Dropped

variable (rangeHash : ReplicationRangeIndexable → String)

/-- An addition that has a point outside a removal. -/
def outlives (removal newer : ReplicationChange) : Bool :=
  !(symmetricDifferenceRanges removal.range newer.range).rangesFromB.isEmpty

/-- The removals of a sorted group, each with whether it is dropped: whether
the history knows it at its turn and no fresh addition is left for it.  What a
fresh addition outlives of an earlier known removal, the `residue`, is left for
every later one. -/
def removalFates (history : RebalanceHistory) (residue : Bool) :
    List ReplicationChange → List (ReplicationChange × Bool)
  | [] => []
  | change :: later =>
      if change.isRemoval then
        let known := history.has (rangeHash change.range)
        if known.1 then
          (change, !(residue || later.any (fun n => n.isFresh))) ::
            removalFates (known.2.del (rangeHash change.range))
              (residue ||
                later.any (fun n => n.isFresh && outlives change n)) later
        else
          (change, false) :: removalFates known.2 residue later
      else
        removalFates (history.add (rangeHash change.range)) residue later

/-- The removals of a group with their fates; a group of one change is passed
on as it is. -/
def groupFates (history : RebalanceHistory) (v : List ReplicationChange) :
    List (ReplicationChange × Bool) :=
  if 1 < v.length then
    removalFates rangeHash history false (sortByRangeTimestamp v)
  else
    (v.filter (fun change => change.isRemoval)).map (fun change => (change, false))

/-- Every point of a dropped removal is in an added range of its group, or in a
removal of the group that is not dropped. -/
def DropsNothing (history : RebalanceHistory) (v : List ReplicationChange) :
    Prop :=
  ∀ (c : ReplicationChange) (p : Nat),
    (c, true) ∈ groupFates rangeHash history v → c.range.contains p = true →
      (∃ a ∈ v, a.isRemoval = false ∧ a.range.contains p = true) ∨
        ∃ d, (d, false) ∈ groupFates rangeHash history v ∧
          d.range.contains p = true

end Dropped

section Loop

variable {h : PeerHash} {p : Nat}
variable (rangeHash : ReplicationRangeIndexable → String)

theorem isRemoval_of_mem_removalFates
    {later : List ReplicationChange} {history : RebalanceHistory}
    {residue : Bool} {c : ReplicationChange} {dropped : Bool}
    (hc : (c, dropped) ∈ removalFates rangeHash history residue later) :
    c ∈ later ∧ c.isRemoval = true := by
  induction later generalizing history residue with
  | nil => simp [removalFates] at hc
  | cons change later ih =>
      simp only [removalFates] at hc
      split at hc
      · rename_i hremoval
        split at hc
        · rcases List.mem_cons.mp hc with he | hc
          · obtain ⟨rfl, _⟩ := Prod.mk.inj he
            exact ⟨by simp, hremoval⟩
          · exact ⟨List.mem_cons_of_mem _ (ih hc).1, (ih hc).2⟩
        · rcases List.mem_cons.mp hc with he | hc
          · obtain ⟨rfl, _⟩ := Prod.mk.inj he
            exact ⟨by simp, hremoval⟩
          · exact ⟨List.mem_cons_of_mem _ (ih hc).1, (ih hc).2⟩
      · exact ⟨List.mem_cons_of_mem _ (ih hc).1, (ih hc).2⟩

/-- Every removal of a sorted group has a fate. -/
theorem exists_fate
    {later : List ReplicationChange} (history : RebalanceHistory)
    (residue : Bool) {c : ReplicationChange}
    (hc : c ∈ later) (hremoval : c.isRemoval = true) :
    ∃ dropped, (c, dropped) ∈ removalFates rangeHash history residue later := by
  induction later generalizing history residue with
  | nil => simp at hc
  | cons change later ih =>
      simp only [removalFates]
      rcases List.mem_cons.mp hc with rfl | hc
      · rw [if_pos hremoval]
        split
        · exact ⟨_, List.mem_cons_self⟩
        · exact ⟨_, List.mem_cons_self⟩
      · split
        · split
          · obtain ⟨dropped, hd⟩ := ih _ _ hc
            exact ⟨dropped, List.mem_cons_of_mem _ hd⟩
          · obtain ⟨dropped, hd⟩ := ih _ _ hc
            exact ⟨dropped, List.mem_cons_of_mem _ hd⟩
        · exact ih _ _ hc

/-- Something is appended for a known removal exactly when a fresh addition
outlives it. -/
theorem updatedNewer_ne_nil_iff
    (removal : ReplicationChange) (pending : List (Bool × ReplicationChange)) :
    updatedNewer removal pending ≠ [] ↔
      ∃ e ∈ pending, e.2.isFresh = true ∧ outlives removal e.2 = true := by
  constructor
  · intro hne
    obtain ⟨c, hc⟩ := List.exists_mem_of_ne_nil _ hne
    obtain ⟨e, he, hfresh, diff, hdiff, _⟩ := mem_updatedNewer.mp hc
    refine ⟨e, he, hfresh, ?_⟩
    have hne' : differenceRanges e.2.range removal.range ≠ [] :=
      List.ne_nil_of_mem hdiff
    simpa [outlives, symmetricDifferenceRanges] using hne'
  · rintro ⟨e, he, hfresh, hout⟩
    have hne : differenceRanges e.2.range removal.range ≠ [] := by
      simpa [outlives, symmetricDifferenceRanges] using hout
    obtain ⟨diff, hdiff⟩ := List.exists_mem_of_ne_nil _ hne
    exact List.ne_nil_of_mem
      (mem_updatedNewer.mpr ⟨e, he, hfresh, diff, hdiff, rfl⟩)

/-- The marks a known removal leaves, and what it appends. -/
theorem cancelPending_append
    (removal : ReplicationChange)
    (later appended : List (Bool × ReplicationChange)) :
    cancelPending removal (later ++ appended) =
      later.map (fun e => (e.1 || e.2.isFresh, e.2)) ++
        (appended.map (fun e => (e.1 || e.2.isFresh, e.2)) ++
          (updatedNewer removal (later ++ appended)).map
            (fun c => (false, c))) := by
  simp [cancelPending, List.append_assoc]

/-- Something is appended behind the original changes after a known removal
exactly when something was before, or when a fresh original outlives it. -/
theorem appended_isEmpty
    (removal : ReplicationChange)
    (later appended : List (Bool × ReplicationChange)) :
    (!(appended.map (fun e => (e.1 || e.2.isFresh, e.2)) ++
        (updatedNewer removal (later ++ appended)).map
          (fun c => (false, c))).isEmpty) =
      (!appended.isEmpty || (later.map Prod.snd).any
        (fun n => n.isFresh && outlives removal n)) := by
  rw [Bool.eq_iff_iff]
  have hne := updatedNewer_ne_nil_iff removal (later ++ appended)
  simp only [Bool.not_eq_true', List.isEmpty_eq_false_iff,
    Bool.or_eq_true, List.any_eq_true, Bool.and_eq_true,
    List.mem_map] at hne ⊢
  constructor
  · intro h'
    by_cases happ : appended = []
    · right
      subst happ
      have hne' : updatedNewer removal (later ++ []) ≠ [] := by
        simpa using h'
      obtain ⟨e, he, hf, ho⟩ := hne.mp hne'
      exact ⟨e.2, ⟨e, by simpa using he, rfl⟩, hf, ho⟩
    · exact Or.inl happ
  · rintro (happ | ⟨n, ⟨e, he, rfl⟩, hf, ho⟩)
    · simp [happ]
    · have hne' := hne.mpr ⟨e, List.mem_append_left _ he, hf, ho⟩
      simp [hne']

/-- What the loop returns for a point in no addition: the point is in the range
of a returned change exactly when it is in a removal that is not dropped.

The induction is on the original changes of the group that are still to come;
whatever was appended behind them is fresh, and it matters only whether there is
any. -/
theorem mergeLoop_keeps_removed_iff
    (originals : List ReplicationChange)
    (later appended : List (Bool × ReplicationChange))
    (history : RebalanceHistory)
    (hlater : later.map Prod.snd = originals)
    (hown : ∀ e ∈ later ++ appended, OwnedBy h e.2)
    (hfresh : ∀ e ∈ appended, e.2.isFresh = true)
    (hnone : ∀ e ∈ later ++ appended,
      e.2.isRemoval = false → ¬ e.2.range.contains p = true) :
    (∃ c ∈ (mergeLoop rangeHash history (later ++ appended)).1,
        c.range.contains p = true) ↔
      ∃ d, (d, false) ∈
          removalFates rangeHash history (!appended.isEmpty) originals ∧
        d.range.contains p = true := by
  induction originals generalizing later appended history with
  | nil =>
      obtain rfl := List.map_eq_nil_iff.mp hlater
      simp only [List.nil_append] at hown hnone ⊢
      constructor
      · rintro ⟨c, hc, hp⟩
        obtain ⟨e, he, hep⟩ :=
          (of_mem_mergeLoop rangeHash history appended hown c hc).2 hp
        exact absurd hep
          (hnone e he (ReplicationChange.isRemoval_of_isFresh (hfresh e he)))
      · rintro ⟨d, hd, _⟩
        simp [removalFates] at hd
  | cons change originals ih =>
      obtain ⟨⟨consumed, change'⟩, later, rfl, rfl, rfl⟩ :=
        List.map_eq_cons_iff.mp hlater
      have hchange : OwnedBy h change' := hown (consumed, change') (by simp)
      have htail : ∀ e ∈ later ++ appended, OwnedBy h e.2 := fun e he =>
        hown e (List.mem_cons_of_mem _ he)
      have hnoneTail : ∀ e ∈ later ++ appended,
          e.2.isRemoval = false → ¬ e.2.range.contains p = true := fun e he =>
        hnone e (List.mem_cons_of_mem _ he)
      rw [List.cons_append, mergeLoop]
      simp only [removalFates]
      by_cases hremoval : change'.isRemoval = true
      · rw [dif_pos hremoval, if_pos hremoval]
        by_cases hknown : (history.has (rangeHash change'.range)).1 = true
        · -- a known removal: what it keeps depends on the fresh additions left
          rw [if_pos hknown, if_pos hknown, cancelPending_append]
          have hfresh' : ∀ e ∈
              appended.map (fun e => (e.1 || e.2.isFresh, e.2)) ++
                (updatedNewer change' (later ++ appended)).map
                  (fun c => (false, c)), e.2.isFresh = true := by
            intro e he
            rcases List.mem_append.mp he with he | he
            · obtain ⟨e', he', rfl⟩ := List.mem_map.mp he
              exact hfresh e' he'
            · obtain ⟨c, hc, rfl⟩ := List.mem_map.mp he
              exact isFresh_of_mem_updatedNewer hc
          have hnone' : ∀ e ∈ cancelPending change' (later ++ appended),
              e.2.isRemoval = false → ¬ e.2.range.contains p = true := by
            intro e he hadd
            rcases List.mem_append.mp he with he | he
            · obtain ⟨e', he', rfl⟩ := List.mem_map.mp he
              exact hnoneTail e' he' hadd
            · obtain ⟨c, hc, rfl⟩ := List.mem_map.mp he
              intro hp
              obtain ⟨_, e', he', hf, hp'⟩ :=
                (exists_contains_updatedNewer hchange htail).mp ⟨c, hc, hp⟩
              exact hnoneTail e' he'
                (ReplicationChange.isRemoval_of_isFresh hf) hp'
          have hown' := ownedBy_cancelPending hchange htail
          rw [cancelPending_append] at hnone' hown'
          have hih := ih _ _
            ((history.has (rangeHash change'.range)).2.del
              (rangeHash change'.range))
            (by simp [Function.comp_def]) hown' hfresh' hnone'
          rw [appended_isEmpty] at hih
          have hleft :
              (∃ e ∈ later ++ appended,
                e.2.isFresh = true ∧ ¬ e.2.range.contains p = true) ↔
                (!appended.isEmpty ||
                  (later.map Prod.snd).any (fun n => n.isFresh)) = true := by
            simp only [Bool.or_eq_true, Bool.not_eq_true',
              List.isEmpty_eq_false_iff, List.any_eq_true, List.mem_map]
            constructor
            · rintro ⟨e, he, hf, _⟩
              rcases List.mem_append.mp he with he | he
              · exact Or.inr ⟨e.2, ⟨e, he, rfl⟩, hf⟩
              · exact Or.inl (List.ne_nil_of_mem he)
            · rintro (happ | ⟨n, ⟨e, he, rfl⟩, hf⟩)
              · obtain ⟨e, he⟩ := List.exists_mem_of_ne_nil _ happ
                have hmem := List.mem_append_right later he
                exact ⟨e, hmem, hfresh e he, hnoneTail e hmem
                  (ReplicationChange.isRemoval_of_isFresh (hfresh e he))⟩
              · have hmem := List.mem_append_left appended he
                exact ⟨e, hmem, hf, hnoneTail e hmem
                  (ReplicationChange.isRemoval_of_isFresh hf)⟩
          have hkept := exists_contains_updatedRemoved (p := p) hchange htail
          rw [hleft] at hkept
          simp only [List.mem_append, or_and_right, exists_or, hkept, hih,
            List.mem_cons, Prod.mk.injEq]
          constructor
          · rintro (⟨hp, hres⟩ | hrest)
            · exact Or.inl ⟨change', ⟨rfl, by rw [hres]; rfl⟩, hp⟩
            · exact Or.inr hrest
          · rintro (⟨d, ⟨rfl, hres⟩, hp⟩ | hrest)
            · have hres' := congrArg Bool.not hres
              rw [Bool.not_not] at hres'
              exact Or.inl ⟨hp, hres'.symm⟩
            · exact Or.inr hrest
        · -- an unknown removal is returned as it is
          rw [if_neg hknown, if_neg hknown]
          have hih := ih later appended
            (history.has (rangeHash change'.range)).2 rfl htail hfresh hnoneTail
          simp only [List.mem_cons, or_and_right, exists_or, hih,
            Prod.mk.injEq]
          simp
      · rw [dif_neg hremoval, if_neg hremoval]
        have hout : ¬ change'.range.contains p = true :=
          hnone (consumed, change') (by simp) (by simpa using hremoval)
        have hih := ih later appended
          (history.add (rangeHash change'.range)) rfl htail hfresh hnoneTail
        rw [← hih]
        cases consumed with
        | true => simp
        | false => simp [hout]

/-- A group keeps the points of its removals exactly when it drops none that
matters. -/
theorem mergeGroup_keeps_iff
    (history : RebalanceHistory) (v : List ReplicationChange)
    (hown : ∀ c ∈ v, OwnedBy h c) :
    (∀ p : Nat,
      (∃ c ∈ v, c.isRemoval = true ∧ c.range.contains p = true) →
        ¬ (∃ c ∈ v, c.isRemoval = false ∧ c.range.contains p = true) →
          ∃ c ∈ (mergeGroup rangeHash v history).1,
            c.range.contains p = true) ↔
      DropsNothing rangeHash history v := by
  by_cases hlen : 1 < v.length
  · -- more than one change: the loop runs over the sorted group
    have hmem : ∀ c, c ∈ sortByRangeTimestamp v ↔ c ∈ v := fun c =>
      (List.perm_insertionSort _ v).mem_iff
    have hown' : ∀ e ∈ (sortByRangeTimestamp v).map (fun c => (false, c)),
        OwnedBy h e.2 := by
      intro e he
      obtain ⟨c, hc, rfl⟩ := List.mem_map.mp he
      exact hown c ((hmem c).mp hc)
    have hloop : ∀ p : Nat,
        ¬ (∃ c ∈ v, c.isRemoval = false ∧ c.range.contains p = true) →
          ((∃ c ∈ (mergeGroup rangeHash v history).1,
              c.range.contains p = true) ↔
            ∃ d, (d, false) ∈ groupFates rangeHash history v ∧
              d.range.contains p = true) := by
      intro p hout
      have hiff := mergeLoop_keeps_removed_iff (p := p) rangeHash
        (sortByRangeTimestamp v)
        ((sortByRangeTimestamp v).map (fun c => (false, c))) [] history
        (by simp [Function.comp_def]) (by simpa using hown') (by simp)
        (by
          intro e he hadd hp
          rw [List.append_nil] at he
          obtain ⟨c, hc, rfl⟩ := List.mem_map.mp he
          exact hout ⟨c, (hmem c).mp hc, hadd, hp⟩)
      simpa [mergeGroup, groupFates, hlen] using hiff
    constructor
    · intro hkeep c p hc hp
      have hc' : c ∈ v ∧ c.isRemoval = true := by
        rw [groupFates, if_pos hlen] at hc
        obtain ⟨hin, hrem⟩ := isRemoval_of_mem_removalFates rangeHash hc
        exact ⟨(hmem c).mp hin, hrem⟩
      by_cases hadd : ∃ a ∈ v, a.isRemoval = false ∧ a.range.contains p = true
      · exact Or.inl hadd
      · exact Or.inr
          ((hloop p hadd).mp (hkeep p ⟨c, hc'.1, hc'.2, hp⟩ hadd))
    · intro hdrop p hrem hadd
      obtain ⟨c, hc, hcrem, hcp⟩ := hrem
      refine (hloop p hadd).mpr ?_
      obtain ⟨dropped, hfate⟩ :=
        exists_fate rangeHash history false ((hmem c).mpr hc) hcrem
      have hfate' : (c, dropped) ∈ groupFates rangeHash history v := by
        rw [groupFates, if_pos hlen]
        exact hfate
      cases dropped with
      | false => exact ⟨c, hfate', hcp⟩
      | true =>
          rcases hdrop c p hfate' hcp with hadd' | hkept
          · exact absurd hadd' hadd
          · exact hkept
  · -- a single change is returned as it is
    constructor
    · intro _ c p hc
      rw [groupFates, if_neg hlen] at hc
      simp at hc
    · rintro _ p ⟨c, hc, _, hp⟩ _
      rw [mergeGroup, if_neg hlen]
      exact ⟨c, hc, hp⟩

/-- A group keeps the points that are in an addition and in no removal. -/
theorem mergeGroup_keeps_added
    (history : RebalanceHistory) (v : List ReplicationChange)
    (hown : ∀ c ∈ v, OwnedBy h c)
    (hadd : ∃ c ∈ v, c.isRemoval = false ∧ c.range.contains p = true)
    (hrem : ¬ ∃ c ∈ v, c.isRemoval = true ∧ c.range.contains p = true) :
    ∃ c ∈ (mergeGroup rangeHash v history).1, c.range.contains p = true := by
  obtain ⟨c, hc, hcadd, hcp⟩ := hadd
  by_cases hlen : 1 < v.length
  · have hmem : ∀ c, c ∈ sortByRangeTimestamp v ↔ c ∈ v := fun c =>
      (List.perm_insertionSort _ v).mem_iff
    rw [mergeGroup, if_pos hlen]
    refine mergeLoop_keeps_added (h := h) rangeHash history _ ?_ ?_
      ⟨c, List.mem_map.mpr ⟨c, (hmem c).mpr hc, rfl⟩, hcadd, hcp⟩
    · intro e he
      obtain ⟨d, hd, rfl⟩ := List.mem_map.mp he
      exact hown d ((hmem d).mp hd)
    · intro e he hrem' hp
      obtain ⟨d, hd, rfl⟩ := List.mem_map.mp he
      exact hrem ⟨d, (hmem d).mp hd, hrem', hp⟩
  · rw [mergeGroup, if_neg hlen]
    exact ⟨c, hc, hcp⟩

theorem hash_of_mem_mergeGroup
    (history : RebalanceHistory) (v : List ReplicationChange)
    (hown : ∀ c ∈ v, OwnedBy h c) :
    ∀ c ∈ (mergeGroup rangeHash v history).1, c.range.hash = h := by
  intro c hc
  by_cases hlen : 1 < v.length
  · rw [mergeGroup, if_pos hlen] at hc
    refine (of_mem_mergeLoop (p := 0) rangeHash history _ ?_ c hc).1.1
    intro e he
    obtain ⟨d, hd, rfl⟩ := List.mem_map.mp he
    exact hown d ((List.perm_insertionSort _ v).mem_iff.mp hd)
  · rw [mergeGroup, if_neg hlen] at hc
    exact (hown c hc).1

end Loop

/-! ### The groups of a batch -/

/-- What the grouping loop has built from the changes it has seen: one group for
each peer among them, holding the changes of this peer. -/
structure GroupsOf (changes : List ReplicationChange)
    (grouped : List (PeerHash × List ReplicationChange)) : Prop where
  keys_nodup : (grouped.map Prod.fst).Nodup
  mem_group : ∀ h v, (h, v) ∈ grouped →
    ∀ c, c ∈ v ↔ c ∈ changes ∧ c.range.hash = h
  has_group : ∀ c ∈ changes, ∃ v, (c.range.hash, v) ∈ grouped

theorem keys_pushToGroup
    (change : ReplicationChange)
    (grouped : List (PeerHash × List ReplicationChange)) :
    ∀ k, k ∈ (pushToGroup change grouped).map Prod.fst ↔
      k = change.range.hash ∨ k ∈ grouped.map Prod.fst := by
  intro k
  induction grouped with
  | nil => simp [pushToGroup]
  | cons g grouped ih =>
      obtain ⟨key, prev⟩ := g
      rw [pushToGroup]
      split
      · rename_i heq
        simp only [List.map_cons, List.mem_cons]
        constructor
        · exact Or.inr
        · rintro (rfl | hk)
          · exact Or.inl heq.symm
          · exact hk
      · simp only [List.map_cons, List.mem_cons, ih]
        tauto

theorem keys_nodup_pushToGroup
    (change : ReplicationChange)
    {grouped : List (PeerHash × List ReplicationChange)}
    (h : (grouped.map Prod.fst).Nodup) :
    ((pushToGroup change grouped).map Prod.fst).Nodup := by
  induction grouped with
  | nil => simp [pushToGroup]
  | cons g grouped ih =>
      obtain ⟨key, prev⟩ := g
      simp only [List.map_cons, List.nodup_cons] at h
      rw [pushToGroup]
      split
      · simpa using h
      · rename_i hne
        simp only [List.map_cons, List.nodup_cons]
        refine ⟨fun hmem => ?_, ih h.2⟩
        rcases (keys_pushToGroup change grouped key).mp hmem with heq | hmem
        · exact hne heq
        · exact h.1 hmem

/-- The group a change is pushed to, and the groups it is not. -/
theorem mem_pushToGroup
    {change : ReplicationChange}
    {grouped : List (PeerHash × List ReplicationChange)}
    (h : (grouped.map Prod.fst).Nodup)
    {k : PeerHash} {v : List ReplicationChange}
    (hv : (k, v) ∈ pushToGroup change grouped) :
    (k ≠ change.range.hash ∧ (k, v) ∈ grouped) ∨
      (k = change.range.hash ∧
        ((∃ prev, (k, prev) ∈ grouped ∧ v = prev ++ [change]) ∨
          (k ∉ grouped.map Prod.fst ∧ v = [change]))) := by
  induction grouped with
  | nil =>
      simp only [pushToGroup, List.mem_singleton, Prod.mk.injEq] at hv
      exact Or.inr ⟨hv.1, Or.inr ⟨by simp, hv.2⟩⟩
  | cons g grouped ih =>
      obtain ⟨key, prev⟩ := g
      simp only [List.map_cons, List.nodup_cons] at h
      rw [pushToGroup] at hv
      split at hv
      · rename_i heq
        rcases List.mem_cons.mp hv with he | hv
        · obtain ⟨rfl, rfl⟩ := Prod.mk.inj he
          exact Or.inr ⟨heq, Or.inl ⟨prev, by simp, rfl⟩⟩
        · have hkey : k ∈ grouped.map Prod.fst :=
            List.mem_map.mpr ⟨(k, v), hv, rfl⟩
          refine Or.inl ⟨?_, List.mem_cons_of_mem _ hv⟩
          rintro rfl
          exact h.1 (heq ▸ hkey)
      · rename_i hne
        rcases List.mem_cons.mp hv with he | hv
        · obtain ⟨rfl, rfl⟩ := Prod.mk.inj he
          exact Or.inl ⟨hne, by simp⟩
        · rcases ih h.2 hv with ⟨hk, hm⟩ | ⟨hk, ⟨prev', hm, rfl⟩ | ⟨hm, rfl⟩⟩
          · exact Or.inl ⟨hk, List.mem_cons_of_mem _ hm⟩
          · exact Or.inr ⟨hk, Or.inl ⟨prev', List.mem_cons_of_mem _ hm, rfl⟩⟩
          · refine Or.inr ⟨hk, Or.inr ⟨?_, rfl⟩⟩
            simp only [List.map_cons, List.mem_cons, not_or]
            exact ⟨fun heq => hne (heq ▸ hk), hm⟩

theorem GroupsOf.push
    {changes : List ReplicationChange}
    {grouped : List (PeerHash × List ReplicationChange)}
    (hg : GroupsOf changes grouped) (change : ReplicationChange) :
    GroupsOf (changes ++ [change]) (pushToGroup change grouped) where
  keys_nodup := keys_nodup_pushToGroup change hg.keys_nodup
  mem_group := by
    intro h v hv c
    simp only [List.mem_append, List.mem_singleton]
    rcases mem_pushToGroup hg.keys_nodup hv with
      ⟨hk, hm⟩ | ⟨hk, ⟨prev, hm, rfl⟩ | ⟨hm, rfl⟩⟩
    · rw [hg.mem_group h v hm c]
      constructor
      · rintro ⟨hc, hh⟩
        exact ⟨Or.inl hc, hh⟩
      · rintro ⟨hc | rfl, hh⟩
        · exact ⟨hc, hh⟩
        · exact absurd hh.symm hk
    · rw [List.mem_append, hg.mem_group h prev hm c, List.mem_singleton]
      constructor
      · rintro (⟨hc, hh⟩ | rfl)
        · exact ⟨Or.inl hc, hh⟩
        · exact ⟨Or.inr rfl, hk.symm⟩
      · rintro ⟨hc | rfl, hh⟩
        · exact Or.inl ⟨hc, hh⟩
        · exact Or.inr rfl
    · rw [List.mem_singleton]
      constructor
      · rintro rfl
        exact ⟨Or.inr rfl, hk.symm⟩
      · rintro ⟨hc | rfl, hh⟩
        · obtain ⟨v', hv'⟩ := hg.has_group c hc
          exact absurd (List.mem_map.mpr ⟨(c.range.hash, v'), hv', hh⟩) hm
        · rfl
  has_group := by
    intro c hc
    have hkey : c.range.hash ∈ (pushToGroup change grouped).map Prod.fst := by
      rw [keys_pushToGroup]
      rcases List.mem_append.mp hc with hc | hc
      · obtain ⟨v, hv⟩ := hg.has_group c hc
        exact Or.inr (List.mem_map.mpr ⟨_, hv, rfl⟩)
      · rw [List.mem_singleton.mp hc]
        exact Or.inl rfl
    obtain ⟨⟨k, v⟩, hv, hk⟩ := List.mem_map.mp hkey
    exact ⟨v, hk ▸ hv⟩

theorem groupsOf_groupByHash (changes : List ReplicationChange) :
    GroupsOf changes (groupByHash changes) := by
  have hfold : ∀ (rest seen : List ReplicationChange)
      (grouped : List (PeerHash × List ReplicationChange)),
      GroupsOf seen grouped →
        GroupsOf (seen ++ rest)
          (rest.foldl (fun g c => pushToGroup c g) grouped) := by
    intro rest
    induction rest with
    | nil =>
        intro seen grouped hg
        simpa using hg
    | cons c rest ih =>
        intro seen grouped hg
        have := ih _ _ (hg.push c)
        simpa using this
  have hempty : GroupsOf [] [] :=
    { keys_nodup := List.nodup_nil
      mem_group := by simp
      has_group := by simp }
  exact hfold changes [] [] hempty

/-- A returned change comes from one group, merged with the history the groups
before it have left. -/
theorem mem_mergeGroups
    (rangeHash : ReplicationRangeIndexable → String)
    {grouped : List (PeerHash × List ReplicationChange)}
    {history : RebalanceHistory} {c : ReplicationChange} :
    c ∈ (mergeGroups rangeHash history grouped).1 ↔
      ∃ before h v after, grouped = before ++ (h, v) :: after ∧
        c ∈ (mergeGroup rangeHash v
          (mergeGroups rangeHash history before).2).1 := by
  induction grouped generalizing history with
  | nil => simp [mergeGroups]
  | cons g grouped ih =>
      obtain ⟨h, v⟩ := g
      rw [mergeGroups, List.mem_append, ih]
      constructor
      · rintro (hc | ⟨before, h', v', after, rfl, hc⟩)
        · exact ⟨[], h, v, grouped, rfl, hc⟩
        · exact ⟨(h, v) :: before, h', v', after, rfl, hc⟩
      · rintro ⟨before, h', v', after, heq, hc⟩
        cases before with
        | nil =>
            simp only [List.nil_append, List.cons.injEq, Prod.mk.injEq] at heq
            obtain ⟨⟨rfl, rfl⟩, rfl⟩ := heq
            exact Or.inl hc
        | cons g before =>
            simp only [List.cons_append, List.cons.injEq] at heq
            obtain ⟨rfl, rfl⟩ := heq
            exact Or.inr ⟨before, h', v', after, rfl, hc⟩

/-- A list without repeated keys splits in only one way around a key. -/
theorem split_unique
    {α β : Type} {l before after before' after' : List (α × β)}
    {k k' : α} {v v' : β}
    (hnodup : (l.map Prod.fst).Nodup)
    (h : l = before ++ (k, v) :: after)
    (h' : l = before' ++ (k', v') :: after')
    (hk : k = k') :
    before = before' ∧ v = v' := by
  subst hk
  induction before generalizing l before' with
  | nil =>
      cases before' with
      | nil =>
          subst h
          simp only [List.nil_append, List.cons.injEq, Prod.mk.injEq] at h'
          exact ⟨rfl, h'.1.2⟩
      | cons g before' =>
          exfalso
          rw [h, List.nil_append, List.cons_append, List.cons.injEq] at h'
          obtain ⟨rfl, hafter⟩ := h'
          rw [h, List.nil_append, List.map_cons, List.nodup_cons, hafter] at hnodup
          exact hnodup.1 (by simp)
  | cons g before ih =>
      cases before' with
      | nil =>
          exfalso
          rw [h', List.nil_append, List.cons_append, List.cons.injEq] at h
          obtain ⟨rfl, hafter⟩ := h
          rw [h', List.nil_append, List.map_cons, List.nodup_cons, hafter] at hnodup
          exact hnodup.1 (by simp)
      | cons g' before' =>
          subst h
          simp only [List.cons_append, List.cons.injEq] at h'
          obtain ⟨rfl, h'⟩ := h'
          simp only [List.cons_append, List.map_cons, List.nodup_cons] at hnodup
          obtain ⟨rfl, hv⟩ := ih hnodup.2 rfl h'
          exact ⟨rfl, hv⟩

/-- No removal of the batch is dropped that matters: each group is asked with
the history as the groups before it leave it. -/
def BatchDropsNothing
    (rangeHash : ReplicationRangeIndexable → String)
    (changesOrChangesArr : ChangesOrChangesArr)
    (rebalanceHistory : RebalanceHistory) : Prop :=
  ∀ before h v after,
    groupByHash changesOrChangesArr.flat = before ++ (h, v) :: after →
      DropsNothing rangeHash
        (mergeGroups rangeHash rebalanceHistory before).2 v

/-- What the merge of one group returns is returned for the batch. -/
theorem inSome_of_mergeGroup
    {rangeHash : ReplicationRangeIndexable → String}
    {changes : ChangesOrChangesArr} {history : RebalanceHistory}
    {before after : List (PeerHash × List ReplicationChange)} {h : PeerHash}
    {v : List ReplicationChange} {p : Nat}
    (hsplit : groupByHash changes.flat = before ++ (h, v) :: after)
    (hown : ∀ c ∈ v, OwnedBy h c)
    (hkept : ∃ c ∈ (mergeGroup rangeHash v
      (mergeGroups rangeHash history before).2).1, c.range.contains p = true) :
    InSome (mergeReplicationChanges rangeHash changes history).1 h p := by
  obtain ⟨c, hc, hcp⟩ := hkept
  exact ⟨c, (mem_mergeGroups rangeHash).mpr ⟨before, h, v, after, hsplit, hc⟩,
    hash_of_mem_mergeGroup rangeHash _ v hown c hc, hcp⟩

/-- When no removal is dropped, every point is in what its group returns. -/
theorem BatchDropsNothing.noLostRebalance
    {rangeHash : ReplicationRangeIndexable → String}
    {changes : ChangesOrChangesArr} {history : RebalanceHistory}
    (hdrop : BatchDropsNothing rangeHash changes history)
    (happart : ∀ c ∈ changes.flat, c.range.SegmentsApart) :
    NoLostRebalance rangeHash changes history := by
  have hgroups := groupsOf_groupByHash changes.flat
  intro h p
  have hgroup : ∀ c ∈ changes.flat, c.range.hash = h →
      ∃ before v after, groupByHash changes.flat = before ++ (h, v) :: after ∧
        (∀ d, d ∈ v ↔ d ∈ changes.flat ∧ d.range.hash = h) ∧
        ∀ d ∈ v, OwnedBy h d := by
    intro c hc hch
    obtain ⟨v, hv⟩ := hgroups.has_group c hc
    rw [hch] at hv
    obtain ⟨before, after, hsplit⟩ := List.append_of_mem hv
    have hmem := hgroups.mem_group h v hv
    exact ⟨before, v, after, hsplit, hmem, fun d hd =>
      ⟨((hmem d).mp hd).2, happart d ((hmem d).mp hd).1⟩⟩
  constructor
  · rintro ⟨c, hc, hch, hcrem, hcp⟩ hadd
    obtain ⟨before, v, after, hsplit, hmem, hown⟩ := hgroup c hc hch
    refine inSome_of_mergeGroup hsplit hown
      ((mergeGroup_keeps_iff rangeHash _ v hown).mpr (hdrop before h v after hsplit) p
        ⟨c, (hmem c).mpr ⟨hc, hch⟩, hcrem, hcp⟩ ?_)
    rintro ⟨a, ha, haadd, hap⟩
    exact hadd ⟨a, ((hmem a).mp ha).1, ((hmem a).mp ha).2, haadd, hap⟩
  · rintro ⟨c, hc, hch, hcadd, hcp⟩ hrem
    obtain ⟨before, v, after, hsplit, hmem, hown⟩ := hgroup c hc hch
    refine inSome_of_mergeGroup hsplit hown
      (mergeGroup_keeps_added rangeHash _ v hown
        ⟨c, (hmem c).mpr ⟨hc, hch⟩, hcadd, hcp⟩ ?_)
    rintro ⟨a, ha, harem, hap⟩
    exact hrem ⟨a, ((hmem a).mp ha).1, ((hmem a).mp ha).2, harem, hap⟩

/-- **No rebalance of a batch is lost exactly when no removal is dropped** whose
points are neither added again nor in a removal that is kept. -/
theorem noLostRebalance_iff
    (rangeHash : ReplicationRangeIndexable → String)
    (changesOrChangesArr : ChangesOrChangesArr)
    (rebalanceHistory : RebalanceHistory)
    (happart : ∀ c ∈ changesOrChangesArr.flat, c.range.SegmentsApart) :
    NoLostRebalance rangeHash changesOrChangesArr rebalanceHistory ↔
      BatchDropsNothing rangeHash changesOrChangesArr rebalanceHistory := by
  have hgroups := groupsOf_groupByHash changesOrChangesArr.flat
  have hown : ∀ h v, (h, v) ∈ groupByHash changesOrChangesArr.flat →
      ∀ c ∈ v, OwnedBy h c := by
    intro h v hv c hc
    obtain ⟨hin, hh⟩ := (hgroups.mem_group h v hv c).mp hc
    exact ⟨hh, happart c hin⟩
  constructor
  · intro hkeep before h v after hsplit
    have hv : (h, v) ∈ groupByHash changesOrChangesArr.flat := by
      simp [hsplit]
    refine (mergeGroup_keeps_iff rangeHash _ v (hown h v hv)).mp ?_
    rintro p ⟨c, hc, hcrem, hcp⟩ hadd
    have hchange := (hgroups.mem_group h v hv c).mp hc
    obtain ⟨r, hr, hrh, hrp⟩ := (hkeep h p).1
      ⟨c, hchange.1, hchange.2, hcrem, hcp⟩
      (by
        rintro ⟨a, ha, hah, haadd, hap⟩
        exact hadd ⟨a, (hgroups.mem_group h v hv a).mpr ⟨ha, hah⟩, haadd, hap⟩)
    -- the returned change comes from a group of the same peer: from this one
    obtain ⟨before', h', v', after', hsplit', hr'⟩ :=
      (mem_mergeGroups rangeHash).mp hr
    have hv' : (h', v') ∈ groupByHash changesOrChangesArr.flat := by
      simp [hsplit']
    have hh' : h' = h :=
      (hash_of_mem_mergeGroup rangeHash _ v' (hown h' v' hv') r hr').symm.trans
        hrh
    have hsame := split_unique hgroups.keys_nodup hsplit hsplit' hh'.symm
    obtain ⟨rfl, rfl⟩ := hsame
    exact ⟨r, hr', hrp⟩
  · intro hdrop h p
    have hfind : ∀ c ∈ changesOrChangesArr.flat, c.range.hash = h →
        ∃ before v after, groupByHash changesOrChangesArr.flat =
          before ++ (h, v) :: after := by
      intro c hc hch
      obtain ⟨v, hv⟩ := hgroups.has_group c hc
      rw [hch] at hv
      obtain ⟨before, after, hsplit⟩ := List.append_of_mem hv
      exact ⟨before, v, after, hsplit⟩
    have hsome : ∀ before v after,
        groupByHash changesOrChangesArr.flat = before ++ (h, v) :: after →
        (∃ c ∈ (mergeGroup rangeHash v
            (mergeGroups rangeHash rebalanceHistory before).2).1,
          c.range.contains p = true) →
        InSome (mergeReplicationChanges rangeHash changesOrChangesArr
          rebalanceHistory).1 h p := by
      rintro before v after hsplit ⟨r, hr, hrp⟩
      have hv : (h, v) ∈ groupByHash changesOrChangesArr.flat := by
        simp [hsplit]
      exact ⟨r, (mem_mergeGroups rangeHash).mpr
          ⟨before, h, v, after, hsplit, hr⟩,
        hash_of_mem_mergeGroup rangeHash _ v (hown h v hv) r hr, hrp⟩
    constructor
    · rintro ⟨c, hc, hch, hcrem, hcp⟩ hadd
      obtain ⟨before, v, after, hsplit⟩ := hfind c hc hch
      have hv : (h, v) ∈ groupByHash changesOrChangesArr.flat := by
        simp [hsplit]
      refine hsome before v after hsplit ?_
      refine (mergeGroup_keeps_iff rangeHash _ v (hown h v hv)).mpr
        (hdrop before h v after hsplit) p
        ⟨c, (hgroups.mem_group h v hv c).mpr ⟨hc, hch⟩, hcrem, hcp⟩ ?_
      rintro ⟨a, ha, haadd, hap⟩
      obtain ⟨hain, hah⟩ := (hgroups.mem_group h v hv a).mp ha
      exact hadd ⟨a, hain, hah, haadd, hap⟩
    · rintro ⟨c, hc, hch, hcadd, hcp⟩ hrem
      obtain ⟨before, v, after, hsplit⟩ := hfind c hc hch
      have hv : (h, v) ∈ groupByHash changesOrChangesArr.flat := by
        simp [hsplit]
      refine hsome before v after hsplit ?_
      refine mergeGroup_keeps_added rangeHash _ v (hown h v hv)
        ⟨c, (hgroups.mem_group h v hv c).mpr ⟨hc, hch⟩, hcadd, hcp⟩ ?_
      rintro ⟨a, ha, harem, hap⟩
      obtain ⟨hain, hah⟩ := (hgroups.mem_group h v hv a).mp ha
      exact hrem ⟨a, hain, hah, harem, hap⟩

/-! ### A dropped removal -/

namespace DroppedRemoval

/-- Two ranges of one peer, both given up in one batch. -/
def rangeA : ReplicationRangeIndexable where
  id := "a"
  hash := "peer"
  timestamp := 0
  start1 := 0
  end1 := 10
  start2 := 0
  end2 := 10
  width := 10
  mode := .NonStrict

def rangeB : ReplicationRangeIndexable :=
  { rangeA with
    id := "b", timestamp := 1
    start1 := 20, end1 := 30, start2 := 20, end2 := 30 }

def batch : ChangesOrChangesArr :=
  .one
    [{ type := .removed, range := rangeA, timestamp := 2 },
      { type := .removed, range := rangeB, timestamp := 2 }]

/-- The first of the ranges was rebalanced before, and is in the history. -/
def history : RebalanceHistory where
  cache := (Utils.Cache.empty 1000 none).add 0 "a" none 1
  clock := fun _ => 0
  readings := 0

theorem merged_batch :
    (mergeReplicationChanges (fun r => r.id) batch history).1 =
      [{ type := .removed, range := rangeB, timestamp := 2 }] := by
  have hsort : sortByRangeTimestamp batch.flat = batch.flat := by decide
  have hgroups : groupByHash batch.flat = [("peer", batch.flat)] := by decide
  have hknown : (history.has "a").1 = true := by decide
  have hunknown : (((history.has "a").2.del "a").has "b").1 = false := by decide
  rw [mergeReplicationChanges, hgroups, mergeGroups, mergeGroup,
    if_pos (by decide), hsort]
  simp [batch, ChangesOrChangesArr.flat, mergeLoop, mergeGroups,
    ReplicationChange.isRemoval, hknown, hunknown, rangeA, rangeB,
    cancelPending, updatedRemoved, updatedNewer, ReplicationChange.isFresh]

/-- The range the history knows is in no returned change, although nothing in
the batch adds it again. -/
theorem not_noLostRebalance :
    ¬ NoLostRebalance (fun r => r.id) batch history := by
  intro hkeep
  have hadd : ¬ InAdded batch.flat "peer" 5 := by
    rintro ⟨c, hc, _, hadd, _⟩
    simp only [batch, ChangesOrChangesArr.flat, List.mem_cons,
      List.not_mem_nil, or_false] at hc
    rcases hc with rfl | rfl <;> cases hadd
  have hrem : InRemoved batch.flat "peer" 5 :=
    ⟨{ type := .removed, range := rangeA, timestamp := 2 },
      by simp [batch, ChangesOrChangesArr.flat], rfl, rfl, rfl⟩
  obtain ⟨r, hr, _, hp⟩ := (hkeep "peer" 5).1 hrem hadd
  rw [merged_batch, List.mem_singleton] at hr
  subst hr
  exact absurd hp (by decide)

/-- The equivalence for this batch: its ranges are as the constructor builds
them. -/
theorem noLostRebalance_iff_batch :
    (∀ c ∈ batch.flat, c.range.SegmentsApart) ∧
      (NoLostRebalance (fun r => r.id) batch history ↔
        BatchDropsNothing (fun r => r.id) batch history) := by
  have happart : ∀ c ∈ batch.flat, c.range.SegmentsApart := by
    intro c hc
    simp only [batch, ChangesOrChangesArr.flat, List.mem_cons,
      List.not_mem_nil, or_false] at hc
    rcases hc with rfl | rfl <;> exact fun _ => Nat.le_refl _
  exact ⟨happart, noLostRebalance_iff _ _ _ happart⟩

end DroppedRemoval

end SharedLog
end Peerbit
