import Peerbit.SharedLog.Samples

/-!
# The hint of the replicators

`getSamples` can be given the set of all replicators.  It then ends its loop as
soon as it has come across all of them, as there is "nothing more to find".

But a replicator that was come across in a search need not be a leader yet, or
it is one without a range over a point.  The points that are left may still make
it a leader, and mark it (`hintAgrees_iff`).
-/

namespace Peerbit
namespace SharedLog

/-- The replicators of an index. -/
def allReplicators (peers : ReplicationIndex) : List PeerHash :=
  (peers.map ReplicationRangeIndexable.hash).dedup

/-- The leaders so far. -/
def SamplesState.known (s : SamplesState) : Finset PeerHash :=
  s.leaders.keys.toFinset

section Agreement

variable (roleAge now : Nat) (R : Resolution) (peers : ReplicationIndex)
variable (onlyIntersecting : Bool) (engine : IndexEngine)

/-- The samples are the same with the hint and without it. -/
def HintAgrees (cursor : List Nat) : Prop :=
  ∀ hash,
    (getSamples roleAge now R peers cursor
      { onlyIntersecting := onlyIntersecting
        uniqueReplicators := some (allReplicators peers) } engine).get hash =
    (getSamples roleAge now R peers cursor
      { onlyIntersecting := onlyIntersecting } engine).get hash

/-- The samples after some points and the ranges that contain one more, where
the hint is looked at. -/
def samplesAt (init : List Nat) (point : Nat) : SamplesState :=
  containingSamples roleAge now peers point
    (samplesFrom roleAge now R peers { onlyIntersecting := onlyIntersecting } 0 init
      .empty engine)

/-- All replicators have been come across. -/
def VisitedAll (init : List Nat) (point : Nat) : Prop :=
  ∀ hash ∈ allReplicators peers,
    hash ∈ (samplesAt roleAge now R peers onlyIntersecting engine init point).uniqueVisited

/-- No peer has its first range over one of the points that are left. -/
def NothingToMark (seen rest : List Nat) : Prop :=
  ∀ hash, Intersects peers rest hash → Intersects peers seen hash

/-- No search that is left reads a matured range of another peer than the
leaders.  There is one for the last point seen and those behind it, where there
are too few matured leaders for them. -/
def NothingToFind (seen rest : List Nat) (s : SamplesState) : Prop :=
  onlyIntersecting = false →
    ∀ i, seen.length ≤ i + 1 → s.matured ≤ i →
      ∀ point, (seen ++ rest)[i]? = some point →
        maturedAround roleAge now R peers point engine ⊆ s.known

/-- Where all replicators have been come across for the first time, there is
nothing more to find. -/
def NothingMore (cursor : List Nat) : Prop :=
  ∀ init point rest, cursor = init ++ point :: rest →
    VisitedAll roleAge now R peers onlyIntersecting engine init point →
    (∀ earlier before, earlier ++ [before] <+: init →
      ¬ VisitedAll roleAge now R peers onlyIntersecting engine earlier before) →
    NothingToMark peers (init ++ [point]) rest ∧
      NothingToFind roleAge now R peers onlyIntersecting engine (init ++ [point]) rest
        (samplesAt roleAge now R peers onlyIntersecting engine init point)

end Agreement

/-! ### What a point adds -/

theorem SamplesState.card_known (s : SamplesState) :
    s.known.card = s.leaders.keys.length :=
  List.toFinset_card_of_nodup s.leaders.nodup

theorem SamplesState.mem_known {s : SamplesState} {hash : PeerHash} :
    hash ∈ s.known ↔ hash ∈ s.leaders.keys :=
  List.mem_toFinset

section Steps

variable {roleAge now : Nat} {R : Resolution} {peers : ReplicationIndex}
variable {onlyIntersecting : Bool} {engine : IndexEngine} {s : SamplesState}

theorem known_subset_visitContaining (rect : ReplicationRangeIndexable) :
    s.known ⊆ (visitContaining roleAge now s rect).known := by
  intro hash hhash
  rw [SamplesState.mem_known] at hhash ⊢
  simp only [visitContaining, Lib.InsertionMap.set]
  split
  · exact hhash
  · exact List.mem_append_left _ hhash

variable (roleAge now peers) in
theorem known_subset_containing (point : Nat) (s : SamplesState) :
    s.known ⊆ (containingSamples roleAge now peers point s).known := by
  refine List.foldlRecOn (motive := fun t : SamplesState => s.known ⊆ t.known) _ _
    (Finset.Subset.refl _) ?_
  exact fun t ht rect _ => Finset.Subset.trans ht (known_subset_visitContaining rect)

/-- Leaders are found again in the ranges that contain a point. -/
theorem containing_of_known {point : Nat}
    (h : ∀ rect ∈ allRangesContainingPoint peers point, rect.hash ∈ s.known) :
    (containingSamples roleAge now peers point s).known = s.known ∧
      (containingSamples roleAge now peers point s).matured = s.matured := by
  refine List.foldlRecOn
    (motive := fun t : SamplesState => t.known = s.known ∧ t.matured = s.matured) _ _
    ⟨rfl, rfl⟩ ?_
  rintro t ⟨hknown, hmatured⟩ rect hrect
  have hmem : rect.hash ∈ t.leaders.keys := by
    rw [← SamplesState.mem_known, hknown]
    exact h rect hrect
  have hget := (t.leaders.mem_keys _).mp hmem
  obtain ⟨intersecting, hget⟩ := Option.isSome_iff_exists.mp hget
  constructor
  · rw [← hknown]
    simp only [SamplesState.known, visitContaining, Lib.InsertionMap.set, if_pos hmem]
  · simp only [visitContaining, hget]
    exact hmatured

theorem known_subset_visitClosest {i : Nat} (t : SamplesState × Bool)
    (rect : ReplicationRangeIndexable) :
    t.1.known ⊆ (visitClosest roleAge now i t rect).1.known := by
  rw [SamplesState.known, SamplesState.known, keys_visitClosest]
  exact Finset.subset_union_left

variable (roleAge now) in
/-- A leader that a search finds is matured. -/
theorem matured_visitClosest (i : Nat) (t : SamplesState × Bool)
    (rect : ReplicationRangeIndexable) :
    (visitClosest roleAge now i t rect).1.matured + t.1.leaders.keys.length =
      t.1.matured + (visitClosest roleAge now i t rect).1.leaders.keys.length := by
  rw [visitClosest]
  split
  case isFalse => rfl
  case isTrue =>
    cases hget : t.1.leaders.get rect.hash with
    | some intersecting => rfl
    | none =>
        simp only [length_keys_set_of_none hget]
        omega

theorem known_subset_closest (i point : Nat) :
    s.known ⊆ (closestSamples roleAge now R peers i point s engine).known := by
  rw [closestSamples, collectClosestAround_eq rfl]
  refine collectBatch_keeps
    (P := fun t : SamplesState × Bool => s.known ⊆ t.1.known) _
    (Finset.Subset.refl _) ?_
  exact fun t rect _ ht => Finset.Subset.trans ht (known_subset_visitClosest t rect)

variable (roleAge now R peers engine) in
theorem matured_closest (i point : Nat) (s : SamplesState) :
    (closestSamples roleAge now R peers i point s engine).matured + s.known.card =
      s.matured + (closestSamples roleAge now R peers i point s engine).known.card := by
  simp only [SamplesState.card_known]
  rw [closestSamples, collectClosestAround_eq rfl]
  refine collectBatch_keeps (P := fun t : SamplesState × Bool =>
    t.1.matured + s.leaders.keys.length = s.matured + t.1.leaders.keys.length) _ rfl ?_
  intro t rect _ ht
  have hstep := matured_visitClosest roleAge now i t rect
  omega

variable (roleAge now R peers onlyIntersecting engine) in
/-- The second part of the loop, where it is not skipped. -/
def searchedFrom (i point : Nat) (s : SamplesState) : SamplesState :=
  if onlyIntersecting || decide (i < s.matured) then s
  else closestSamples roleAge now R peers i point s engine

theorem known_subset_searchedFrom (i point : Nat) :
    s.known ⊆ (searchedFrom roleAge now R peers onlyIntersecting engine i point s).known := by
  rw [searchedFrom]
  split
  · exact Finset.Subset.refl _
  · exact known_subset_closest i point

/-- A search that finds no other leaders counts none. -/
theorem matured_searchedFrom {i point : Nat}
    (h : (searchedFrom roleAge now R peers onlyIntersecting engine i point s).known ⊆ s.known) :
    (searchedFrom roleAge now R peers onlyIntersecting engine i point s).matured =
      s.matured := by
  have hknown := Finset.Subset.antisymm h (known_subset_searchedFrom i point)
  rw [searchedFrom] at hknown ⊢
  split at hknown
  case isTrue hskip => rw [if_pos hskip]
  case isFalse hskip =>
    have hcount := matured_closest roleAge now R peers engine i point s
    rw [hknown] at hcount
    rw [if_neg hskip]
    omega

variable (roleAge now R peers onlyIntersecting engine) in
/-- It finds none exactly when what it reads has no other matured owners. -/
theorem searchedFrom_subset_iff (i point : Nat) (s : SamplesState) :
    (searchedFrom roleAge now R peers onlyIntersecting engine i point s).known ⊆ s.known ↔
      (onlyIntersecting = false → s.matured ≤ i →
        maturedAround roleAge now R peers point engine ⊆ s.known) := by
  obtain ⟨hsub, hall⟩ := keys_closestSamples roleAge now R peers i point s engine
  constructor
  · intro h hsearch hmatured
    have hcount := matured_searchedFrom h
    have hskip : ¬ i < s.matured := by omega
    have hclosest : searchedFrom roleAge now R peers onlyIntersecting engine i point s =
        closestSamples roleAge now R peers i point s engine := by
      simp [searchedFrom, hsearch, hskip]
    rw [hclosest] at h hcount
    rw [if_neg hskip] at hall
    rcases hall with hall | hall
    · rw [SamplesState.known, hall] at h
      exact Finset.Subset.trans Finset.subset_union_right h
    · omega
  · intro h
    rw [searchedFrom]
    split
    case isTrue => exact Finset.Subset.refl _
    case isFalse hskip =>
      simp only [Bool.or_eq_true, decide_eq_true_eq, not_or, Bool.not_eq_true] at hskip
      rw [if_neg hskip.2] at hsub
      refine Finset.Subset.trans hsub (Finset.union_subset (Finset.Subset.refl _) ?_)
      exact h hskip.1 (by omega)

end Steps

/-! ### The points that are left -/

section Rest

variable {roleAge now : Nat} {R : Resolution} {peers : ReplicationIndex}
variable {onlyIntersecting : Bool} {engine : IndexEngine} {s t : SamplesState}

theorem samplesFrom_cons (i point : Nat) (rest : List Nat) :
    samplesFrom roleAge now R peers { onlyIntersecting := onlyIntersecting } i
        (point :: rest) s engine =
      samplesFrom roleAge now R peers { onlyIntersecting := onlyIntersecting } (i + 1)
        rest (searchedFrom roleAge now R peers onlyIntersecting engine i point
          (containingSamples roleAge now peers point s)) engine := by
  rw [samplesFrom, searchedFrom]
  simp only [SamplesState.foundAll, Option.any_none, Bool.false_eq_true, if_false]
  split <;> rfl

variable (roleAge now R peers onlyIntersecting engine) in
theorem samplesFrom_append (i : Nat) (init rest : List Nat) (s : SamplesState) :
    samplesFrom roleAge now R peers { onlyIntersecting := onlyIntersecting } i
        (init ++ rest) s engine =
      samplesFrom roleAge now R peers { onlyIntersecting := onlyIntersecting }
        (i + init.length) rest
        (samplesFrom roleAge now R peers { onlyIntersecting := onlyIntersecting } i init
          s engine) engine := by
  induction init generalizing i s with
  | nil => rfl
  | cons point init ih =>
      rw [List.cons_append, samplesFrom_cons, samplesFrom_cons, ih, List.length_cons,
        Nat.add_assoc, Nat.add_comm 1]

theorem known_subset_samplesFrom (i : Nat) (cursor : List Nat) :
    s.known ⊆ (samplesFrom roleAge now R peers
      { onlyIntersecting := onlyIntersecting } i cursor s engine).known := by
  induction cursor generalizing i s with
  | nil => exact Finset.Subset.refl _
  | cons point cursor ih =>
      rw [samplesFrom_cons]
      exact Finset.Subset.trans (known_subset_containing roleAge now peers point s)
        (Finset.Subset.trans (known_subset_searchedFrom i point) (ih (i + 1)))

/-- The searches from the last point seen and from those behind it. -/
theorem nothingToFind_iff (init : List Nat) (point : Nat) (rest : List Nat) :
    NothingToFind roleAge now R peers onlyIntersecting engine (init ++ [point]) rest s ↔
      (onlyIntersecting = false → s.matured ≤ init.length →
        maturedAround roleAge now R peers point engine ⊆ s.known) ∧
      (onlyIntersecting = false → ∀ i, init.length < i → s.matured ≤ i →
        ∀ point', (init ++ [point] ++ rest)[i]? = some point' →
          maturedAround roleAge now R peers point' engine ⊆ s.known) := by
  have hlength : (init ++ [point]).length = init.length + 1 := by simp
  have hpoint : (init ++ [point] ++ rest)[init.length]? = some point := by simp
  rw [NothingToFind, hlength]
  constructor
  · intro h
    refine ⟨fun hsearch hmatured => ?_, fun hsearch i hi => h hsearch i (by omega)⟩
    exact h hsearch init.length (Nat.le_refl _) hmatured point hpoint
  · rintro ⟨hfirst, hlater⟩ hsearch i hi hmatured point' hpoint'
    rcases Nat.lt_or_ge init.length i with hlt | hge
    · exact hlater hsearch i hlt hmatured point' hpoint'
    · obtain rfl : i = init.length := by omega
      obtain rfl := Option.some.inj (hpoint.symm.trans hpoint')
      exact hfirst hsearch hmatured

theorem nothingToFind_cons (init : List Nat) (point next : Nat) (rest : List Nat)
    (hmatured : t.matured = s.matured) (hknown : t.known = s.known) :
    NothingToFind roleAge now R peers onlyIntersecting engine (init ++ [point]) (next :: rest) s ↔
      (onlyIntersecting = false → s.matured ≤ init.length →
        maturedAround roleAge now R peers point engine ⊆ s.known) ∧
      NothingToFind roleAge now R peers onlyIntersecting engine (init ++ [point] ++ [next])
        rest t := by
  have hlength : ∀ i, (init ++ [point] ++ [next]).length ≤ i + 1 ↔ init.length < i := by
    intro i
    simp only [List.length_append, List.length_singleton]
    omega
  have hseen : init ++ [point] ++ next :: rest = init ++ [point] ++ [next] ++ rest :=
    List.append_cons _ _ _
  rw [nothingToFind_iff, NothingToFind, hmatured, hknown, hseen]
  simp only [hlength]

theorem samplesInv_searchedFrom {seen : List Nat} (i point : Nat)
    (h : SamplesInv peers seen s) :
    SamplesInv peers seen
      (searchedFrom roleAge now R peers onlyIntersecting engine i point s) := by
  rw [searchedFrom]
  split
  · exact h
  · exact samplesInv_closest i point h

theorem NothingToMark.tail {seen rest : List Nat} {next : Nat}
    (h : NothingToMark peers seen (next :: rest)) :
    NothingToMark peers (seen ++ [next]) rest := by
  rintro hash ⟨range, hmem, hhash, point, hpoint, hcontains⟩
  obtain ⟨range', hmem', hhash', point', hpoint', hcontains'⟩ :=
    h hash ⟨range, hmem, hhash, point, List.mem_cons_of_mem _ hpoint, hcontains⟩
  exact ⟨range', hmem', hhash', point', List.mem_append_left _ hpoint', hcontains'⟩

/-- The owners of the ranges over the next point are leaders already. -/
theorem NothingToMark.mem_known {seen rest : List Nat} {next : Nat}
    (h : NothingToMark peers seen (next :: rest)) (hinv : SamplesInv peers seen s) :
    ∀ rect ∈ allRangesContainingPoint peers next, rect.hash ∈ s.known := by
  intro rect hrect
  obtain ⟨hmem, hcontains⟩ := mem_allRangesContainingPoint.mp hrect
  rw [SamplesState.mem_known]
  exact hinv.found _ (h _ ⟨rect, hmem, rfl, next, List.mem_cons_self, hcontains⟩)

/-- Where no peer is left to mark, the points that are left find no leaders exactly
when their searches do not. -/
theorem known_rest_subset_iff (init : List Nat) (point : Nat) (rest : List Nat)
    (hmark : NothingToMark peers (init ++ [point]) rest)
    (hinv : SamplesInv peers (init ++ [point]) s) :
    (samplesFrom roleAge now R peers { onlyIntersecting := onlyIntersecting }
        (init.length + 1) rest
        (searchedFrom roleAge now R peers onlyIntersecting engine init.length point s)
        engine).known ⊆ s.known ↔
      NothingToFind roleAge now R peers onlyIntersecting engine (init ++ [point]) rest s := by
  induction rest generalizing init point s with
  | nil =>
      rw [samplesFrom, searchedFrom_subset_iff, nothingToFind_iff, iff_self_and]
      intro _ _ i hi _ point' hpoint'
      rw [List.append_nil, List.getElem?_eq_none (by simp; omega)] at hpoint'
      cases hpoint'
  | cons next rest ih =>
      rw [samplesFrom_cons]
      generalize hsearched :
        searchedFrom roleAge now R peers onlyIntersecting engine init.length point s = t
      have hinv' : SamplesInv peers (init ++ [point]) t :=
        hsearched ▸ samplesInv_searchedFrom init.length point hinv
      have hfinds := searchedFrom_subset_iff roleAge now R peers onlyIntersecting engine
        init.length point s
      rw [hsearched] at hfinds
      have hlength : init.length + 1 = (init ++ [point]).length := by simp
      -- as long as the search finds none, the next point goes on with the same leaders
      have hnext : t.known ⊆ s.known →
          (containingSamples roleAge now peers next t).known = s.known ∧
            (containingSamples roleAge now peers next t).matured = s.matured := by
        intro hsub
        have hmatured : t.matured = s.matured := by
          rw [← hsearched] at hsub ⊢
          exact matured_searchedFrom hsub
        have hknown : t.known = s.known := by
          refine Finset.Subset.antisymm hsub ?_
          rw [← hsearched]
          exact known_subset_searchedFrom init.length point
        obtain ⟨hknown', hmatured'⟩ := containing_of_known (hmark.mem_known hinv')
        exact ⟨hknown'.trans hknown, hmatured'.trans hmatured⟩
      have hrest := ih (init ++ [point]) next hmark.tail
        (samplesInv_containing roleAge now next hinv')
      rw [hlength]
      constructor
      · intro h
        have hafter : t.known ⊆ s.known := by
          refine Finset.Subset.trans (known_subset_containing roleAge now peers next t) ?_
          refine Finset.Subset.trans ?_ h
          exact Finset.Subset.trans (known_subset_searchedFrom _ next)
            (known_subset_samplesFrom _ rest)
        obtain ⟨hknown, hmatured⟩ := hnext hafter
        rw [nothingToFind_cons init point next rest hmatured hknown, ← hfinds]
        refine ⟨hafter, hrest.mp ?_⟩
        rw [hknown]
        exact h
      · intro h
        have hafter : t.known ⊆ s.known := by
          rw [hfinds]
          exact ((nothingToFind_iff init point _).mp h).1
        obtain ⟨hknown, hmatured⟩ := hnext hafter
        rw [nothingToFind_cons init point next rest hmatured hknown] at h
        rw [← hknown]
        exact hrest.mpr h.2

/-- The samples stay the same exactly when there is nothing left to mark and
nothing to find. -/
theorem get_rest_eq_iff (init : List Nat) (point : Nat) (rest : List Nat)
    (hinv : SamplesInv peers (init ++ [point]) s)
    (hall : SamplesInv peers (init ++ [point] ++ rest) t)
    (ht : t = samplesFrom roleAge now R peers { onlyIntersecting := onlyIntersecting }
      (init.length + 1) rest
      (searchedFrom roleAge now R peers onlyIntersecting engine init.length point s)
      engine) :
    (∀ hash, s.leaders.get hash = t.leaders.get hash) ↔
      NothingToMark peers (init ++ [point]) rest ∧
        NothingToFind roleAge now R peers onlyIntersecting engine (init ++ [point]) rest s := by
  have hsub : s.known ⊆ t.known := by
    rw [ht]
    exact Finset.Subset.trans (known_subset_searchedFrom init.length point)
      (known_subset_samplesFrom _ rest)
  constructor
  · intro hsame
    have hmark : NothingToMark peers (init ++ [point]) rest := by
      intro hash hhash
      have hseen := (intersects_append (init ++ [point]) rest hash).mpr (.inr hhash)
      have hmem := (t.leaders.mem_keys hash).mp (hall.found hash hseen)
      obtain ⟨intersecting, hget⟩ := Option.isSome_iff_exists.mp hmem
      have hflag := (hall.marks hash intersecting hget).mpr hseen
      rw [← hsame] at hget
      exact (hinv.marks hash intersecting hget).mp hflag
    refine ⟨hmark, (known_rest_subset_iff init point rest hmark hinv).mp ?_⟩
    rw [← ht]
    intro hash hhash
    rw [SamplesState.mem_known, Lib.InsertionMap.mem_keys] at hhash ⊢
    rwa [hsame]
  · rintro ⟨hmark, hfind⟩ hash
    have hsup := (known_rest_subset_iff init point rest hmark hinv).mpr hfind
    rw [← ht] at hsup
    have hkeys : hash ∈ s.leaders.keys ↔ hash ∈ t.leaders.keys := by
      rw [← SamplesState.mem_known, ← SamplesState.mem_known]
      exact ⟨fun h => hsub h, fun h => hsup h⟩
    rw [s.leaders.mem_keys, t.leaders.mem_keys] at hkeys
    cases hs : s.leaders.get hash with
    | none =>
        rw [hs] at hkeys
        exact (Option.not_isSome_iff_eq_none.mp (mt hkeys.mpr (by simp))).symm
    | some before =>
        rw [hs] at hkeys
        obtain ⟨after, ht'⟩ := Option.isSome_iff_exists.mp (hkeys.mp rfl)
        rw [ht', Option.some.injEq, Bool.eq_iff_iff, hinv.marks hash before hs,
          hall.marks hash after ht', intersects_append (init ++ [point]) rest]
        exact ⟨.inl, fun h => h.elim id (hmark hash)⟩

end Rest

/-! ### Where the hint stops the loop -/

section Hint

variable {roleAge now : Nat} {R : Resolution} {peers : ReplicationIndex}
variable {onlyIntersecting : Bool} {engine : IndexEngine} {s : SamplesState}

/-- The leaders have been come across, and they own ranges of the index. -/
structure Visits (peers : ReplicationIndex) (s : SamplesState) : Prop where
  nodup : s.uniqueVisited.Nodup
  leaders : s.leaders.keys ⊆ s.uniqueVisited
  replicators : s.uniqueVisited ⊆ allReplicators peers

theorem mem_allReplicators {rect : ReplicationRangeIndexable} (h : rect ∈ peers) :
    rect.hash ∈ allReplicators peers := by
  rw [allReplicators, List.mem_dedup]
  exact List.mem_map_of_mem h

theorem keys_set_subset (leaders : Lib.InsertionMap PeerHash Bool) (hash : PeerHash)
    (intersecting : Bool) : (leaders.set hash intersecting).keys ⊆ hash :: leaders.keys := by
  intro other hother
  rw [Lib.InsertionMap.mem_keys] at hother
  rw [List.mem_cons]
  by_cases hself : other = hash
  · exact .inl hself
  · rw [Lib.InsertionMap.get_set_of_ne _ _ hself, ← Lib.InsertionMap.mem_keys] at hother
    exact .inr hother

theorem Visits.insert {rect : ReplicationRangeIndexable} {t : SamplesState}
    (h : Visits peers s) (hrect : rect ∈ peers)
    (hvisited : t.uniqueVisited = s.uniqueVisited.insert rect.hash)
    (hleaders : t.leaders.keys ⊆ rect.hash :: s.leaders.keys) : Visits peers t := by
  constructor
  case nodup => exact hvisited ▸ h.nodup.insert
  case leaders =>
    intro hash hhash
    rw [hvisited, List.mem_insert_iff]
    exact (List.mem_cons.mp (hleaders hhash)).imp id fun hhash => h.leaders hhash
  case replicators =>
    intro hash hhash
    rw [hvisited, List.mem_insert_iff] at hhash
    rcases hhash with rfl | hhash
    · exact mem_allReplicators hrect
    · exact h.replicators hhash

theorem Visits.visitContaining {rect : ReplicationRangeIndexable} (h : Visits peers s)
    (hrect : rect ∈ peers) : Visits peers (visitContaining roleAge now s rect) :=
  h.insert hrect rfl (keys_set_subset _ _ _)

theorem Visits.visitClosest {i : Nat} {t : SamplesState × Bool}
    {rect : ReplicationRangeIndexable} (h : Visits peers t.1) (hrect : rect ∈ peers) :
    Visits peers (visitClosest roleAge now i t rect).1 := by
  rw [SharedLog.visitClosest]
  split
  case isFalse => exact h.insert hrect rfl (List.subset_cons_self _ _)
  case isTrue =>
    cases hget : t.1.leaders.get rect.hash with
    | none => exact h.insert hrect rfl (keys_set_subset _ _ _)
    | some intersecting => exact h.insert hrect rfl (List.subset_cons_self _ _)

theorem Visits.containing (point : Nat) (h : Visits peers s) :
    Visits peers (containingSamples roleAge now peers point s) := by
  refine List.foldlRecOn (motive := Visits peers) _ _ h fun t ht rect hrect => ?_
  exact ht.visitContaining (mem_allRangesContainingPoint.mp hrect).1

theorem Visits.searchedFrom (i point : Nat) (h : Visits peers s) :
    Visits peers (searchedFrom roleAge now R peers onlyIntersecting engine i point s) := by
  rw [SharedLog.searchedFrom]
  split
  · exact h
  · rw [closestSamples, collectClosestAround_eq rfl]
    exact collectBatch_keeps
      (P := fun t : SamplesState × Bool => Visits peers t.1) _ h
      fun t rect hrect ht => ht.visitClosest (of_mem_readAround hrect).1

theorem Visits.samplesFrom (i : Nat) (cursor : List Nat) (h : Visits peers s) :
    Visits peers (samplesFrom roleAge now R peers
      { onlyIntersecting := onlyIntersecting } i cursor s engine) := by
  induction cursor generalizing i s with
  | nil => exact h
  | cons point cursor ih =>
      rw [samplesFrom_cons]
      exact ih (i + 1) ((h.containing point).searchedFrom i point)

/-- The code compares numbers; as the leaders are replicators that have been come
across, it stops exactly when all have been. -/
theorem Visits.foundAll_iff (h : Visits peers s) :
    s.foundAll
        { onlyIntersecting := onlyIntersecting
          uniqueReplicators := some (allReplicators peers) } = true ↔
      ∀ hash ∈ allReplicators peers, hash ∈ s.uniqueVisited := by
  have hnodup : (allReplicators peers).Nodup := List.nodup_dedup _
  have hleaders := (s.leaders.nodup.subperm h.leaders).length_le
  have hvisited := (h.nodup.subperm h.replicators).length_le
  simp only [SamplesState.foundAll, Option.any_some, Bool.or_eq_true, decide_eq_true_eq]
  constructor
  · intro hlength
    have hperm := (h.nodup.subperm h.replicators).perm_of_length_le (by omega)
    exact fun hash hhash => hperm.mem_iff.mpr hhash
  · intro hall
    have hle := (hnodup.subperm hall).length_le
    exact .inr (by omega)

theorem visits_empty : Visits peers .empty where
  nodup := List.nodup_nil
  leaders := List.Subset.refl _
  replicators := List.nil_subset _

variable (roleAge now R peers onlyIntersecting engine) in
theorem foundAll_samplesAt (init : List Nat) (point : Nat) :
    (samplesAt roleAge now R peers onlyIntersecting engine init point).foundAll
        { onlyIntersecting := onlyIntersecting
          uniqueReplicators := some (allReplicators peers) } = true ↔
      VisitedAll roleAge now R peers onlyIntersecting engine init point :=
  ((visits_empty.samplesFrom 0 init).containing point).foundAll_iff

variable (roleAge now R peers onlyIntersecting engine) in
/-- The loop with the hint, where it is not stopped at the first points. -/
theorem samplesFrom_hint_append (init rest : List Nat)
    (hgoes : ∀ earlier before, earlier ++ [before] <+: init →
      ¬ VisitedAll roleAge now R peers onlyIntersecting engine earlier before) :
    samplesFrom roleAge now R peers
        { onlyIntersecting := onlyIntersecting
          uniqueReplicators := some (allReplicators peers) } 0 (init ++ rest) .empty engine =
      samplesFrom roleAge now R peers
        { onlyIntersecting := onlyIntersecting
          uniqueReplicators := some (allReplicators peers) } init.length rest
        (samplesFrom roleAge now R peers { onlyIntersecting := onlyIntersecting } 0 init
          .empty engine) engine := by
  induction init using List.reverseRecOn generalizing rest with
  | nil => rfl
  | append_singleton init point ih =>
      rw [List.append_assoc, ih _ fun earlier before hpre =>
        hgoes earlier before (hpre.trans (List.prefix_append _ _))]
      have hgo := hgoes init point (List.prefix_refl _)
      rw [← foundAll_samplesAt, samplesAt] at hgo
      rw [samplesFrom_concat, List.singleton_append, samplesFrom, if_neg hgo]
      simp only [Nat.zero_add, List.length_append, List.length_singleton]
      split <;> rfl

theorem samplesFrom_hint_stop (i point : Nat) (rest : List Nat)
    (hstop : (containingSamples roleAge now peers point s).foundAll
        { onlyIntersecting := onlyIntersecting
          uniqueReplicators := some (allReplicators peers) } = true) :
    samplesFrom roleAge now R peers
        { onlyIntersecting := onlyIntersecting
          uniqueReplicators := some (allReplicators peers) } i (point :: rest) s engine =
      containingSamples roleAge now peers point s := by
  rw [samplesFrom, if_pos hstop]

variable (roleAge now R peers onlyIntersecting engine) in
/-- The hint stops the loop at some first point, or at none. -/
theorem stop_cases (cursor : List Nat) :
    (∀ earlier before, earlier ++ [before] <+: cursor →
      ¬ VisitedAll roleAge now R peers onlyIntersecting engine earlier before) ∨
    ∃ init point rest, cursor = init ++ point :: rest ∧
      VisitedAll roleAge now R peers onlyIntersecting engine init point ∧
      ∀ earlier before, earlier ++ [before] <+: init →
        ¬ VisitedAll roleAge now R peers onlyIntersecting engine earlier before := by
  induction cursor using List.reverseRecOn with
  | nil =>
      left
      intro earlier before hpre
      simpa using hpre.length_le
  | append_singleton cursor point ih =>
      rcases ih with hgoes | ⟨init, before, rest, rfl, hstop, hgoes⟩
      · by_cases hstop : VisitedAll roleAge now R peers onlyIntersecting engine cursor point
        · exact .inr ⟨cursor, point, [], rfl, hstop, hgoes⟩
        · left
          intro earlier before hpre
          rcases List.prefix_concat_iff.mp hpre with hall | hpre
          · obtain ⟨rfl, hpoint⟩ := List.append_inj' hall rfl
            obtain rfl := List.singleton_inj.mp hpoint
            exact hstop
          · exact hgoes earlier before hpre
      · exact .inr ⟨init, before, rest ++ [point], by simp, hstop, hgoes⟩

/-- The hint does not change the samples exactly when there is nothing more to
find where it stops the loop. -/
theorem hintAgrees_iff (roleAge now : Nat) (R : Resolution) (peers : ReplicationIndex)
    (onlyIntersecting : Bool) (engine : IndexEngine) (cursor : List Nat) :
    HintAgrees roleAge now R peers onlyIntersecting engine cursor ↔
      NothingMore roleAge now R peers onlyIntersecting engine cursor := by
  have hat : ∀ init point rest, cursor = init ++ point :: rest →
      VisitedAll roleAge now R peers onlyIntersecting engine init point →
      (∀ earlier before, earlier ++ [before] <+: init →
        ¬ VisitedAll roleAge now R peers onlyIntersecting engine earlier before) →
      (HintAgrees roleAge now R peers onlyIntersecting engine cursor ↔
        NothingToMark peers (init ++ [point]) rest ∧
          NothingToFind roleAge now R peers onlyIntersecting engine (init ++ [point]) rest
            (samplesAt roleAge now R peers onlyIntersecting engine init point)) := by
    rintro init point rest rfl hstop hgoes
    have hinit := samplesInv_samplesFrom roleAge now R peers onlyIntersecting init engine
    have hall : SamplesInv peers (init ++ [point] ++ rest)
        (samplesFrom roleAge now R peers { onlyIntersecting := onlyIntersecting } 0
          (init ++ point :: rest) .empty engine) := by
      rw [List.append_assoc]
      exact samplesInv_samplesFrom roleAge now R peers onlyIntersecting _ engine
    have hrest := samplesFrom_append roleAge now R peers onlyIntersecting engine 0 init
      (point :: rest) .empty
    rw [samplesFrom_cons, Nat.zero_add] at hrest
    rw [HintAgrees, getSamples, getSamples, samplesFrom_hint_append _ _ _ _ _ _ _ _ hgoes,
      samplesFrom_hint_stop _ _ _ ((foundAll_samplesAt _ _ _ _ _ _ _ _).mpr hstop)]
    exact get_rest_eq_iff init point rest
      (samplesInv_containing roleAge now point hinit) hall hrest
  constructor
  · intro h init point rest hcursor hstop hgoes
    exact (hat init point rest hcursor hstop hgoes).mp h
  · intro h
    rcases stop_cases roleAge now R peers onlyIntersecting engine cursor with
      hgoes | ⟨init, point, rest, hcursor, hstop, hgoes⟩
    · intro hash
      have hsame := samplesFrom_hint_append roleAge now R peers onlyIntersecting engine cursor []
        hgoes
      rw [List.append_nil] at hsame
      rw [getSamples, hsame]
      rfl
    · exact (hat init point rest hcursor hstop hgoes).mpr (h init point rest hcursor hstop hgoes)

end Hint

section Unmarked

/-- A matured range of the peer, ten points wide. -/
def tenPoints (hash : PeerHash) (start : Nat) : ReplicationRangeIndexable where
  id := hash
  hash := hash
  timestamp := 0
  start1 := start
  end1 := start + 10
  start2 := start
  end2 := start + 10
  width := 10
  mode := .NonStrict

def twoOwners : ReplicationIndex := [tenPoints "a" 100, tenPoints "b" 300]

/-- The second owner is found by the search from 106, and only 305 marks it. -/
theorem not_hintAgrees_unmarked :
    (¬ HintAgrees 100 1000 .u32 twoOwners false .simple [105, 106, 107, 305]) ∧
      ¬ HintAgrees 100 1000 .u32 twoOwners false .sqlite3 [105, 106, 107, 305] := by
  have hmarked (engine : IndexEngine) :
      (getSamples 100 1000 .u32 twoOwners [105, 106, 107, 305] {} engine).get "b" =
        some true := by
    cases engine <;> decide +kernel
  have hunmarked (engine : IndexEngine) :
      (getSamples 100 1000 .u32 twoOwners [105, 106, 107, 305]
        { uniqueReplicators := some (allReplicators twoOwners) } engine).get "b" =
        some false := by
    cases engine <;> decide +kernel
  have hdiffers (engine : IndexEngine) :
      ¬ HintAgrees 100 1000 .u32 twoOwners false engine [105, 106, 107, 305] := by
    intro h
    exact absurd ((h "b").symm.trans (hunmarked engine)) (by rw [hmarked]; simp)
  exact ⟨hdiffers .simple, hdiffers .sqlite3⟩

end Unmarked

end SharedLog
end Peerbit
