import Peerbit.SharedLog.SampleHint

/-!
# Samples of two indices

The leaders that are found in two replication indices are the same when the same peers
own ranges over each point, and the same ranges are there for a search, the non-strict
ones.  All ranges over the points have to be matured, so that their owners count.
-/

namespace Peerbit
namespace SharedLog

/-- The peers that own a range over a point. -/
def ownersAt (peers : ReplicationIndex) (point : Nat) : Finset PeerHash :=
  ((allRangesContainingPoint peers point).map ReplicationRangeIndexable.hash).toFinset

theorem mem_ownersAt {peers : ReplicationIndex} {point : Nat} {hash : PeerHash} :
    hash ∈ ownersAt peers point ↔
      ∃ range ∈ peers, range.hash = hash ∧ range.contains point = true := by
  simp only [ownersAt, List.mem_toFinset, List.mem_map, mem_allRangesContainingPoint]
  constructor
  · rintro ⟨range, ⟨hmem, hcontains⟩, hhash⟩
    exact ⟨range, hmem, hhash, hcontains⟩
  · rintro ⟨range, hmem, hhash, hcontains⟩
    exact ⟨range, ⟨hmem, hcontains⟩, hhash⟩

section Searches

variable {R : Resolution} {engine : IndexEngine} {peers peers' : ReplicationIndex}

/-- The ranges that a search goes through. -/
def nonStrict (peers : ReplicationIndex) : ReplicationIndex :=
  peers.filter (fun range => decide (range.mode = .NonStrict))

theorem closestResults_nonStrict (direction : Direction) (p : Nat) (equality : Bool) :
    closestResults direction (nonStrict peers) p equality false {} engine =
      closestResults direction peers p equality false {} engine := by
  simp only [closestResults, nonStrict, List.filter_filter]
  congr 2
  refine List.filter_congr fun range _ => ?_
  simp only [closestCandidate, Bool.false_or]
  cases besidePoint direction p equality range <;> cases decide (0 < range.width) <;>
    cases decide (range.mode = .NonStrict) <;> rfl

/-- A search reads the same in indices with the same non-strict ranges. -/
theorem readAround_congr (h : nonStrict peers = nonStrict peers') (point : Nat) :
    readAround R peers point engine = readAround R peers' point engine := by
  have haround : ∀ index : ReplicationIndex,
      aroundIterator R index point engine =
        aroundIterator R (nonStrict index) point engine := by
    intro index
    simp only [aroundIterator, closestAround, getClosest, closestResults_nonStrict]
  simp only [readAround]
  rw [haround peers, haround peers', h]

end Searches

section Samples

variable {roleAge now i point : Nat} {R : Resolution} {peers peers' : ReplicationIndex}
variable {engine : IndexEngine} {s s' : SamplesState}

/-- All leaders are counted as matured. -/
def SamplesState.AllMatured (s : SamplesState) : Prop :=
  s.matured = s.known.card

/-- The same leaders are found, and all are matured. -/
structure SamplesState.Same (s s' : SamplesState) : Prop where
  known : s.known = s'.known
  matured : s.AllMatured
  matured' : s'.AllMatured

theorem known_visitContaining (rect : ReplicationRangeIndexable) :
    (visitContaining roleAge now s rect).known = insert rect.hash s.known := by
  simp only [SamplesState.known, visitContaining, Lib.InsertionMap.set]
  split
  · rename_i hmem
    rw [Finset.insert_eq_of_mem (List.mem_toFinset.mpr hmem)]
  · ext hash
    simp

theorem allMatured_visitContaining {rect : ReplicationRangeIndexable}
    (hrect : isMatured rect now roleAge = true) (h : s.AllMatured) :
    (visitContaining roleAge now s rect).AllMatured := by
  rw [SamplesState.AllMatured, known_visitContaining]
  cases hget : s.leaders.get rect.hash with
  | none =>
      have hnot : rect.hash ∉ s.known := by
        rw [SamplesState.mem_known, s.leaders.mem_keys, hget]
        simp
      rw [Finset.card_insert_of_notMem hnot, ← h]
      simp [visitContaining, hget, hrect]
  | some intersecting =>
      have hmem : rect.hash ∈ s.known := by
        rw [SamplesState.mem_known, s.leaders.mem_keys, hget]
        rfl
      rw [Finset.insert_eq_of_mem hmem, ← h]
      simp [visitContaining, hget]

variable (roleAge now peers) in
theorem known_containing (point : Nat) (s : SamplesState) :
    (containingSamples roleAge now peers point s).known =
      s.known ∪ ownersAt peers point := by
  rw [containingSamples, ownersAt]
  generalize allRangesContainingPoint peers point = rects
  induction rects generalizing s with
  | nil => simp
  | cons rect rects ih =>
      rw [List.foldl_cons, ih, known_visitContaining, List.map_cons, List.toFinset_cons,
        Finset.insert_union, Finset.union_insert]

theorem allMatured_containing
    (hmatured : ∀ r ∈ peers, r.contains point = true → isMatured r now roleAge = true)
    (h : s.AllMatured) : (containingSamples roleAge now peers point s).AllMatured := by
  refine List.foldlRecOn (motive := fun t : SamplesState => t.AllMatured) _ _ h ?_
  intro t ht rect hrect
  obtain ⟨hmem, hcontains⟩ := mem_allRangesContainingPoint.mp hrect
  exact allMatured_visitContaining (hmatured rect hmem hcontains) ht

theorem allMatured_visitClosest {t : SamplesState × Bool} (rect : ReplicationRangeIndexable)
    (h : t.1.AllMatured) : (visitClosest roleAge now i t rect).1.AllMatured := by
  rw [visitClosest]
  split
  · cases hget : t.1.leaders.get rect.hash with
    | some intersecting => exact h
    | none =>
        have hlength := length_keys_set_of_none hget false
        have hcount : t.1.matured = t.1.leaders.keys.length := h.trans t.1.card_known
        simp only [SamplesState.AllMatured, SamplesState.card_known, hlength]
        omega
  · exact h

/-- A step of the search finds the same, and stops at the same range. -/
theorem same_visitClosest {t t' : SamplesState × Bool} (rect : ReplicationRangeIndexable)
    (h : t.1.Same t'.1) (hfound : t.2 = t'.2) :
    (visitClosest roleAge now i t rect).1.Same (visitClosest roleAge now i t' rect).1 ∧
      (visitClosest roleAge now i t rect).2 = (visitClosest roleAge now i t' rect).2 := by
  have hsame : (visitClosest roleAge now i t rect).1.Same
      (visitClosest roleAge now i t' rect).1 := by
    refine ⟨?_, allMatured_visitClosest rect h.matured, allMatured_visitClosest rect h.matured'⟩
    have hknown : t.1.leaders.keys.toFinset = t'.1.leaders.keys.toFinset := h.known
    rw [SamplesState.known, SamplesState.known, keys_visitClosest, keys_visitClosest, hknown]
  refine ⟨hsame, ?_⟩
  have hmatured : (visitClosest roleAge now i t rect).1.matured =
      (visitClosest roleAge now i t' rect).1.matured := by
    rw [hsame.matured, hsame.matured', hsame.known]
  simp only [visitClosest] at hmatured ⊢
  split
  · rename_i hrect
    simp only [hrect, if_true] at hmatured
    simp only [hmatured, hfound]
  · exact hfound

theorem same_collectBatch (l : List ReplicationRangeIndexable) {t t' : SamplesState × Bool}
    (h : t.1.Same t'.1) (hfound : t.2 = t'.2) :
    (collectBatch (visitClosest roleAge now i) Prod.snd l t).1.Same
      (collectBatch (visitClosest roleAge now i) Prod.snd l t').1 := by
  induction l generalizing t t' with
  | nil => exact h
  | cons rect l ih =>
      obtain ⟨hsame, hstop⟩ := same_visitClosest (i := i) rect h hfound
      rw [collectBatch, collectBatch, hstop]
      split
      · exact hsame
      · exact ih hsame hstop

variable (R engine) in
/-- The samples go the same way through two indices that agree at all points. -/
theorem same_samplesFrom (hnonStrict : nonStrict peers = nonStrict peers')
    {cursor : List Nat}
    (howners : ∀ point ∈ cursor, ownersAt peers point = ownersAt peers' point)
    (hmatured : ∀ point ∈ cursor, ∀ r ∈ peers, r.contains point = true →
      isMatured r now roleAge = true)
    (hmatured' : ∀ point ∈ cursor, ∀ r ∈ peers', r.contains point = true →
      isMatured r now roleAge = true) (h : s.Same s') :
    (samplesFrom roleAge now R peers {} i cursor s engine).Same
      (samplesFrom roleAge now R peers' {} i cursor s' engine) := by
  induction cursor generalizing i s s' with
  | nil => exact h
  | cons point cursor ih =>
      have hcontaining : (containingSamples roleAge now peers point s).Same
          (containingSamples roleAge now peers' point s') := by
        refine ⟨?_, allMatured_containing (hmatured point (by simp)) h.matured,
          allMatured_containing (hmatured' point (by simp)) h.matured'⟩
        rw [known_containing, known_containing, h.known, howners point (by simp)]
      have hcount : (containingSamples roleAge now peers point s).matured =
          (containingSamples roleAge now peers' point s').matured := by
        rw [hcontaining.matured, hcontaining.matured', hcontaining.known]
      have hrest := fun {i : Nat} {t t' : SamplesState} (ht : t.Same t') =>
        ih (i := i) (fun p hp => howners p (List.mem_cons_of_mem _ hp))
          (fun p hp => hmatured p (List.mem_cons_of_mem _ hp))
          (fun p hp => hmatured' p (List.mem_cons_of_mem _ hp)) ht
      rw [samplesFrom, samplesFrom]
      simp only [SamplesState.foundAll, Option.any_none, Bool.false_eq_true, if_false,
        Bool.false_or, hcount]
      split
      · exact hrest hcontaining
      · refine hrest ?_
        rw [closestSamples, closestSamples, collectClosestAround_eq rfl,
          collectClosestAround_eq rfl, readAround_congr hnonStrict]
        exact same_collectBatch _ hcontaining rfl

end Samples

end SharedLog
end Peerbit
