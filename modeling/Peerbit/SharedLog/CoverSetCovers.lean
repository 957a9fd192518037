import Peerbit.SharedLog.CoverSet

/-!
# When the cover set covers

The walk of `getCoverSet` counts what it covers.  The count is right as long as
the walk enters a wrapped range in its first segment: in the second one it
counts the ring from the location to its end as well, which the range does not
cover.  And a walk that comes to the very end of the ring finds no range there:
it goes on with the range that starts first, as if nothing were before it, and
it does not ask the owner of this range when the range before is closer to the
end of the arc.

`CleanStart` follows the walk and asks that it does neither before the arc is
covered.  Then the returned peers cover the arc.
-/

namespace Peerbit
namespace SharedLog

/-- The call for the cover set of an arc returns, and each point of the arc is in a
range of some returned peer. -/
def CoverSetCovers
    (R : Resolution) (peers : ReplicationIndex)
    (now roleAge start width : Nat) : Prop :=
  ∃ (fuel : Nat) (ret : List PeerHash),
    (∀ random, getCoverSet R peers now (.number start) width roleAge none random
      fuel = some ret) ∧
    ∀ k < width, ∃ range ∈ peers,
      range.contains ((start + k) % R.maxValue) = true ∧ range.hash ∈ ret

/-- An index of matured ranges, built by the range class under different ids,
that leaves no point of the ring out. -/
structure CoveredRing
    (R : Resolution) (peers : ReplicationIndex) (now roleAge : Nat) : Prop where
  shape : ∀ range ∈ peers, range.Shape R
  ids : (peers.map (fun range => range.id)).Nodup
  matured : ∀ range ∈ peers, (range.timestamp : Int) ≤ (now : Int) - roleAge
  covers : ∀ p < R.maxValue, ∃ range ∈ peers, range.contains p = true

/-- How far a range reaches from a point it contains. -/
def reach (range : ReplicationRangeIndexable) (point : Nat) : Nat :=
  if range.start1 ≤ point ∧ point < range.end1 then
    range.end1 - point + if range.wrapped = true then range.end2 else 0
  else
    range.end2 - point

/-- Counted from the start of the ring, a range covers the points up to its
end. -/
def NoGapBefore (range : ReplicationRangeIndexable) : Prop :=
  range.contains 0 = true ∨ range.end2 = 0

section Clean

variable (R : Resolution) (peers : ReplicationIndex)
variable (now roleAge endLocation : Nat)

/-- The walk from the end of `current`, at `location`, with `need` points of
the arc left, comes to the end of the arc as it should. -/
inductive CleanWalk : ReplicationRangeIndexable → Nat → Nat → Prop
  /-- The widest range at the location covers what is left. -/
  | last {current next : ReplicationRangeIndexable} {location need : Nat}
      (hnext : resolveNextContaining peers now location roleAge = some next)
      (hneed : need ≤ reach next location) :
      CleanWalk current location need
  /-- It does not, but it is entered in its first segment. -/
  | step {current next : ReplicationRangeIndexable} {location need : Nat}
      (hnext : resolveNextContaining peers now location roleAge = some next)
      (hfirst : next.start1 ≤ location ∧ location < next.end1)
      (hneed : reach next location < need)
      (hrest : CleanWalk next next.end2 (need - reach next location)) :
      CleanWalk current location need
  /-- The end of the ring, where the next range is the whole ring. -/
  | ringEndFull {current next : ReplicationRangeIndexable} {need : Nat}
      (hnext : resolveNextAbove R peers now R.maxValue roleAge = some next)
      (hgap : NoGapBefore next)
      (hend : next.end2 = R.maxValue) :
      CleanWalk current R.maxValue need
  /-- The end of the ring, where the next range covers what is left and is
  closer to the end of the arc. -/
  | ringEndLast {current next : ReplicationRangeIndexable} {need : Nat}
      (hnext : resolveNextAbove R peers now R.maxValue roleAge = some next)
      (hgap : NoGapBefore next)
      (hend : next.end2 < R.maxValue)
      (hneed : need ≤ next.end2)
      (hcloser : distanceToEnd R next endLocation <
        distanceToEnd R current endLocation) :
      CleanWalk current R.maxValue need
  /-- The end of the ring, where the next range does not cover all. -/
  | ringEnd {current next : ReplicationRangeIndexable} {need : Nat}
      (hnext : resolveNextAbove R peers now R.maxValue roleAge = some next)
      (hgap : NoGapBefore next)
      (hend : next.end2 < R.maxValue)
      (hneed : next.end2 < need)
      (hrest : CleanWalk next next.end2 (need - next.end2)) :
      CleanWalk current R.maxValue need

/-- The range the walk starts with covers the arc, or is entered in its first
segment and leaves a clean walk. -/
def CleanStart (start width : Nat) : Prop :=
  ∃ node,
    (rangesContainingPoint peers start
      (some { roleAgeLimit := roleAge, matured := true, now := now })).head? =
        some node ∧
    (width ≤ reach node start ∨
      (node.start1 ≤ start ∧ start < node.end1) ∧
        reach node start < width ∧
        CleanWalk R peers now roleAge ((start + width) % R.maxValue) node
          node.end2 (width - reach node start))

end Clean

/-! ### What a range covers -/

section Ranges

variable {R : Resolution} {range : ReplicationRangeIndexable}

/-- A range contains the points it reaches. -/
theorem contains_of_lt_reach
    (hshape : range.Shape R) {point k : Nat}
    (hcontains : range.contains point = true) (hk : k < reach range point) :
    range.contains ((point + k) % R.maxValue) = true := by
  rw [ReplicationRangeIndexable.contains_iff] at hcontains ⊢
  unfold reach ReplicationRangeIndexable.wrapped at hk
  cases hshape with
  | single hstart hend hle hmax hwidth =>
      have hin : range.start1 ≤ point ∧ point < range.end1 := by
        rcases hcontains with h | h
        · exact h
        · omega
      have hnot : ¬ range.end2 < range.end1 := by omega
      simp only [hin, and_self, if_true, hnot, decide_false, Bool.false_eq_true,
        if_false, Nat.add_zero] at hk
      rw [Nat.mod_eq_of_lt (by omega)]
      omega
  | wrapping hstart hend1 hend hlt hmax hwidth =>
      split at hk
      · rename_i hfirst
        simp only [hlt, decide_true, if_true] at hk
        rcases Nat.lt_or_ge (point + k) R.maxValue with h | h
        · rw [Nat.mod_eq_of_lt h]
          omega
        · rw [Nat.mod_eq_sub_mod h, Nat.mod_eq_of_lt (by omega)]
          omega
      · rw [Nat.mod_eq_of_lt (by omega)]
        omega

/-- A range that contains its own end is the whole ring. -/
theorem contains_of_contains_end
    (hshape : range.Shape R) (hend : range.contains range.end2 = true)
    {p : Nat} (hp : p < R.maxValue) :
    range.contains p = true := by
  rw [ReplicationRangeIndexable.contains_iff] at hend ⊢
  cases hshape with
  | single hstart hend hle hmax hwidth => omega
  | wrapping hstart hend1 hend hlt hmax hwidth => omega

theorem end2_le_maxValue (hshape : range.Shape R) :
    range.end2 ≤ R.maxValue := by
  cases hshape with
  | single hstart hend hle hmax hwidth => omega
  | wrapping hstart hend1 hend hlt hmax hwidth => omega

theorem lt_maxValue_of_contains
    (hshape : range.Shape R) {p : Nat} (hp : range.contains p = true) :
    p < R.maxValue := by
  rw [ReplicationRangeIndexable.contains_iff] at hp
  cases hshape with
  | single hstart hend hle hmax hwidth => omega
  | wrapping hstart hend1 hend hlt hmax hwidth => omega

theorem contains_of_noGapBefore
    (hshape : range.Shape R) (hgap : NoGapBefore range) {p : Nat}
    (hp : p < range.end2) :
    range.contains p = true := by
  unfold NoGapBefore at hgap
  rw [ReplicationRangeIndexable.contains_iff] at hgap ⊢
  cases hshape with
  | single hstart hend hle hmax hwidth => omega
  | wrapping hstart hend1 hend hlt hmax hwidth => omega

end Ranges

/-! ### What a step counts -/

section Steps

variable {R : Resolution} {peers : ReplicationIndex}
variable {now roleAge width start endLocation : Nat}

theorem resolveNextContaining_spec
    {location : Nat} {next : ReplicationRangeIndexable}
    (h : resolveNextContaining peers now location roleAge = some next) :
    next ∈ peers ∧ next.contains location = true := by
  have hmem := List.mem_of_head? h
  rw [mem_sortByLargestEnd2, mem_rangesContainingPoint] at hmem
  exact ⟨hmem.1, hmem.2.1⟩

/-- No range contains the end of the ring. -/
theorem resolveNextContaining_maxValue
    (hring : CoveredRing R peers now roleAge) :
    resolveNextContaining peers now R.maxValue roleAge = none := by
  cases h : resolveNextContaining peers now R.maxValue roleAge with
  | none => rfl
  | some next =>
      obtain ⟨hmem, hcontains⟩ := resolveNextContaining_spec h
      have := lt_maxValue_of_contains (hring.shape next hmem) hcontains
      omega

/-- A range entered in its first segment is counted as far as it reaches. -/
theorem addLength_first
    {s : CoverState} (hshape : s.current.Shape R) {location : Nat}
    (hfirst : s.current.start1 ≤ location ∧ location < s.current.end1) :
    s.addLength R location =
      { s with
        wrappedOnce := s.wrappedOnce || s.current.wrapped
        coveredLength := s.coveredLength + reach s.current location } := by
  unfold CoverState.addLength reach ReplicationRangeIndexable.wrapped
  rw [if_pos hfirst]
  cases hshape with
  | single hstart hend hle hmax hwidth =>
      have hnot : ¬ s.current.end2 < s.current.end1 := by omega
      have hnot' : ¬ s.current.end2 < location := by omega
      simp only [hnot, hnot', decide_false, Bool.false_eq_true, or_self,
        if_false, Bool.or_false, Nat.add_zero]
      congr 1
      omega
  | wrapping hstart hend1 hend hlt hmax hwidth =>
      simp only [hlt, decide_true, or_true, if_true, Bool.or_true]
      congr 1
      omega

/-- A range that contains the location is counted at least as far as it
reaches. -/
theorem le_addLength
    {s : CoverState} (hshape : s.current.Shape R) {location : Nat}
    (hcontains : s.current.contains location = true) :
    s.coveredLength + reach s.current location ≤
      (s.addLength R location).coveredLength := by
  by_cases hfirst :
      s.current.start1 ≤ location ∧ location < s.current.end1
  · rw [addLength_first hshape hfirst]
  · have hlt := lt_maxValue_of_contains hshape hcontains
    rw [ReplicationRangeIndexable.contains_iff] at hcontains
    unfold CoverState.addLength reach
    rw [if_neg hfirst]
    split
    · simp only
      omega
    · rename_i hnot
      simp only [ReplicationRangeIndexable.wrapped, decide_eq_true_eq] at hnot
      cases hshape with
      | single hstart hend hle hmax hwidth => omega
      | wrapping hstart hend1 hend hlt' hmax hwidth => omega

/-- At the end of the ring a range is counted up to its end. -/
theorem addLength_ringEnd
    {s : CoverState} {location : Nat} (hlocation : location = R.maxValue)
    (hend : s.current.end2 < R.maxValue) :
    s.addLength R location =
      { s with
        wrappedOnce := true
        coveredLength := s.coveredLength + s.current.end2 } := by
  unfold CoverState.addLength
  rw [if_pos (Or.inl (hlocation ▸ hend))]
  congr 1
  omega

theorem coverStep_containing
    {s : CoverState} {next : ReplicationRangeIndexable}
    (hnext : resolveNextContaining peers now s.nextLocation roleAge =
      some next)
    (hid : next.id ≠ s.current.id) :
    coverStep R peers now roleAge width start endLocation s =
      let moved := { s with current := next }.addLength R s.nextLocation
      .inr
        { moved with
          ret := addPeer s.ret next.hash
          maturedCoveredLength := moved.coveredLength
          nextLocation :=
            if endLocation ≤ start ∧ moved.wrappedOnce = false then next.end2
            else min next.end2 endLocation } := by
  have hcandidate :
      nextCandidate R peers now roleAge s.nextLocation =
        some (next, true, true) := by
    simp [nextCandidate, resolveNext, hnext]
  simp only [coverStep, hcandidate, if_neg hid, or_true, true_or, if_true,
    Bool.true_eq_false, and_false, if_false]

theorem coverStep_above
    (width start endLocation : Nat)
    {s : CoverState} {next : ReplicationRangeIndexable}
    (hnone : resolveNextContaining peers now s.nextLocation roleAge = none)
    (hnext : resolveNextAbove R peers now s.nextLocation roleAge = some next)
    (hid : next.id ≠ s.current.id) :
    coverStep R peers now roleAge width start endLocation s =
      let moved := { s with current := next }.addLength R s.nextLocation
      let isLast :=
        decide (s.coveredLength < width) &&
          decide ((width : Int) ≤ moved.coveredLength)
      let ret :=
        if isLast = false ∨
            distanceToEnd R next endLocation <
              distanceToEnd R s.current endLocation then
          addPeer s.ret next.hash
        else
          s.ret
      if isLast = true then
        .inl ret
      else
        .inr
          { moved with
            ret := ret
            maturedCoveredLength := moved.coveredLength
            nextLocation :=
              if endLocation ≤ start ∧ moved.wrappedOnce = false then next.end2
              else min next.end2 endLocation } := by
  have hcandidate :
      nextCandidate R peers now roleAge s.nextLocation =
        some (next, false, true) := by
    simp [nextCandidate, resolveNext, hnone, hnext]
  simp only [coverStep, hcandidate, if_neg hid, Bool.false_eq_true, false_or,
    and_true, if_true]

/-- The walk ends where it finds its current range again. -/
theorem coverStep_current
    {s : CoverState} {next : ReplicationRangeIndexable} {containing : Bool}
    (hnext : resolveNext R peers now s.nextLocation roleAge =
      some (next, containing))
    (hid : next.id = s.current.id) :
    coverStep R peers now roleAge width start endLocation s = .inl s.ret := by
  have hcandidate :
      nextCandidate R peers now roleAge s.nextLocation =
        some (next, containing, true) := by
    simp [nextCandidate, hnext]
  simp [coverStep, hcandidate, hid]

end Steps

/-! ### The walk -/

section Walk

variable {R : Resolution} {peers : ReplicationIndex}
variable {now roleAge width start : Nat}

/-- The first `c` points of the arc are in ranges of the peers. -/
def ArcCovered
    (R : Resolution) (peers : ReplicationIndex) (start c : Nat)
    (ret : List PeerHash) : Prop :=
  ∀ k < c, ∃ range ∈ peers,
    range.contains ((start + k) % R.maxValue) = true ∧ range.hash ∈ ret

/-- What holds at the head of the loop when `c` points were counted. -/
structure WalkInv
    (R : Resolution) (peers : ReplicationIndex) (start width : Nat)
    (s : CoverState) (c : Nat) : Prop where
  covered : s.coveredLength = c
  matured : s.maturedCoveredLength = c
  lt : c < width
  current_mem : s.current ∈ peers
  current_ret : s.current.hash ∈ s.ret
  at_end : s.nextLocation = s.current.end2
  location : (s.wrappedOnce = false ∧ start + c = s.nextLocation) ∨
    (s.wrappedOnce = true ∧ start + c = s.nextLocation + R.maxValue)
  arc : ArcCovered R peers start c s.ret

theorem ArcCovered.mono
    {c : Nat} {ret ret' : List PeerHash}
    (h : ArcCovered R peers start c ret) (hsub : ∀ x ∈ ret, x ∈ ret') :
    ArcCovered R peers start c ret' := by
  intro k hk
  obtain ⟨range, hmem, hcontains, hret⟩ := h k hk
  exact ⟨range, hmem, hcontains, hsub _ hret⟩

/-- The arc grows by the points of a range of one of the peers. -/
theorem ArcCovered.extend
    {c d : Nat} {ret : List PeerHash} {next : ReplicationRangeIndexable}
    (h : ArcCovered R peers start c ret)
    (hmem : next ∈ peers) (hret : next.hash ∈ ret)
    (hnext : ∀ k, c ≤ k → k < d →
      next.contains ((start + k) % R.maxValue) = true) :
    ArcCovered R peers start d ret := by
  intro k hk
  rcases Nat.lt_or_ge k c with hlt | hge
  · exact h k hlt
  · exact ⟨next, hmem, hnext k hge hk, hret⟩

theorem WalkInv.point_eq
    {s : CoverState} {c : Nat} (h : WalkInv R peers start width s c)
    {k : Nat} (hk : c ≤ k) :
    (start + k) % R.maxValue =
      (s.nextLocation + (k - c)) % R.maxValue := by
  rcases h.location with ⟨_, heq⟩ | ⟨_, heq⟩
  · congr 1
    omega
  · have hsum : start + k = s.nextLocation + (k - c) + R.maxValue := by omega
    rw [hsum, Nat.add_mod_right]

/-- The end of the arc, by whether it runs over the end of the ring. -/
theorem endLocation_cases
    (hstart : start < R.maxValue) (hle : width ≤ R.maxValue) :
    (start + width < R.maxValue ∧
      (start + width) % R.maxValue = start + width) ∨
    (R.maxValue ≤ start + width ∧
      (start + width) % R.maxValue + R.maxValue = start + width) := by
  rcases Nat.lt_or_ge (start + width) R.maxValue with h | h
  · exact Or.inl ⟨h, Nat.mod_eq_of_lt h⟩
  · rw [Nat.mod_eq_sub_mod h, Nat.mod_eq_of_lt (by omega)]
    exact Or.inr ⟨h, by omega⟩

/-- Before the arc is covered the next location is not clipped. -/
theorem nextLocation_eq
    (hstart : start < R.maxValue) (hle : width ≤ R.maxValue)
    {c location : Nat} {wrappedOnce : Bool} (hc : c < width)
    (hlocation : (wrappedOnce = false ∧ start + c = location) ∨
      (wrappedOnce = true ∧ start + c = location + R.maxValue)) :
    (if (start + width) % R.maxValue ≤ start ∧ wrappedOnce = false then
        location
      else
        min location ((start + width) % R.maxValue)) = location := by
  have hend := endLocation_cases hstart hle
  split
  · rfl
  · rename_i hnot
    refine Nat.min_eq_left ?_
    rcases hlocation with ⟨hwrapped, heq⟩ | ⟨hwrapped, heq⟩
    · have : ¬ (start + width) % R.maxValue ≤ start := fun h =>
        hnot ⟨h, hwrapped⟩
      omega
    · omega

/-- The loop goes on while the invariant holds. -/
theorem WalkInv.continues
    {s : CoverState} {c : Nat} (h : WalkInv R peers start width s c)
    (hle : width ≤ R.maxValue) :
    s.maturedCoveredLength < width ∧ s.coveredLength ≤ R.maxValue := by
  have hlt := h.lt
  rw [h.matured, h.covered]
  omega

/-- What a loop that covers the arc returns. -/
def LoopCovers
    (R : Resolution) (peers : ReplicationIndex)
    (now roleAge start width : Nat) (s : CoverState) : Prop :=
  ∃ fuel ret,
    coverLoop R peers now roleAge width start ((start + width) % R.maxValue)
      fuel s = some ret ∧
    ArcCovered R peers start width ret

theorem loopCovers_of_break
    {s : CoverState} {c : Nat} {ret : List PeerHash}
    (h : WalkInv R peers start width s c) (hle : width ≤ R.maxValue)
    (hstep : coverStep R peers now roleAge width start
      ((start + width) % R.maxValue) s = .inl ret)
    (harc : ArcCovered R peers start width ret) :
    LoopCovers R peers now roleAge start width s := by
  refine ⟨1, ret, ?_, harc⟩
  simp [coverLoop, h.continues hle, hstep]

theorem loopCovers_of_step
    {s s' : CoverState} {c : Nat}
    (h : WalkInv R peers start width s c) (hle : width ≤ R.maxValue)
    (hstep : coverStep R peers now roleAge width start
      ((start + width) % R.maxValue) s = .inr s')
    (hrest : LoopCovers R peers now roleAge start width s') :
    LoopCovers R peers now roleAge start width s := by
  obtain ⟨fuel, ret, hloop, harc⟩ := hrest
  refine ⟨fuel + 1, ret, ?_, harc⟩
  simp [coverLoop, h.continues hle, hstep, hloop]

theorem loopCovers_of_covered
    {s : CoverState}
    (hcovered : (width : Int) ≤ s.maturedCoveredLength)
    (harc : ArcCovered R peers start width s.ret) :
    LoopCovers R peers now roleAge start width s := by
  refine ⟨1, s.ret, ?_, harc⟩
  have hnot : ¬ s.maturedCoveredLength < width := by omega
  simp [coverLoop, hnot]

/-- When the walk finds its current range again, that is the whole ring. -/
theorem loopCovers_of_current
    (hring : CoveredRing R peers now roleAge)
    {s : CoverState} {c : Nat} {next : ReplicationRangeIndexable}
    (containing : Bool)
    (h : WalkInv R peers start width s c) (hle : width ≤ R.maxValue)
    (hnext : resolveNext R peers now s.nextLocation roleAge =
      some (next, containing))
    (hmem : next ∈ peers) (hid : next.id = s.current.id)
    (hfull : next = s.current → ∀ p < R.maxValue, next.contains p = true) :
    LoopCovers R peers now roleAge start width s := by
  have heq : next = s.current :=
    List.inj_on_of_nodup_map hring.ids hmem h.current_mem hid
  refine loopCovers_of_break h hle (coverStep_current hnext hid) ?_
  refine h.arc.extend h.current_mem h.current_ret ?_
  intro k _ _
  rw [← heq]
  exact hfull heq _ (Nat.mod_lt _ R.maxValue_pos)

/-- A containing range that is not the current one takes part in the set, and
what it reaches is covered. -/
theorem WalkInv.arc_containing
    (hring : CoveredRing R peers now roleAge)
    {s : CoverState} {c : Nat} {next : ReplicationRangeIndexable}
    (h : WalkInv R peers start width s c)
    (hnext : resolveNextContaining peers now s.nextLocation roleAge =
      some next)
    {d : Nat} (hd : d ≤ c + reach next s.nextLocation) :
    ArcCovered R peers start d (addPeer s.ret next.hash) := by
  obtain ⟨hmem, hcontains⟩ := resolveNextContaining_spec hnext
  have harc : ArcCovered R peers start c (addPeer s.ret next.hash) :=
    h.arc.mono (fun x hx => mem_addPeer.mpr (Or.inl hx))
  refine harc.extend hmem (mem_addPeer.mpr (Or.inr rfl)) ?_
  intro k hk hlt
  rw [h.point_eq hk]
  exact contains_of_lt_reach (hring.shape next hmem) hcontains (by omega)

/-- The same at the end of the ring, for a range that starts there. -/
theorem WalkInv.arc_ringEnd
    (hring : CoveredRing R peers now roleAge)
    {s : CoverState} {c : Nat} {next : ReplicationRangeIndexable}
    (h : WalkInv R peers start width s c) (hle : width ≤ R.maxValue)
    (hlocation : s.nextLocation = R.maxValue)
    (hmem : next ∈ peers) (hgap : NoGapBefore next)
    {d : Nat} (hd : d ≤ c + next.end2) (hdw : d ≤ width) :
    ArcCovered R peers start d (addPeer s.ret next.hash) := by
  have harc : ArcCovered R peers start c (addPeer s.ret next.hash) :=
    h.arc.mono (fun x hx => mem_addPeer.mpr (Or.inl hx))
  refine harc.extend hmem (mem_addPeer.mpr (Or.inr rfl)) ?_
  intro k hk hlt
  have hlt' : k - c < R.maxValue := by omega
  rw [h.point_eq hk, hlocation, Nat.add_mod_left, Nat.mod_eq_of_lt hlt']
  exact contains_of_noGapBefore (hring.shape next hmem) hgap (by omega)

/-- The invariant after a range that is entered in its first segment. -/
theorem WalkInv.step
    (hring : CoveredRing R peers now roleAge)
    {s : CoverState} {c : Nat} {next : ReplicationRangeIndexable}
    (h : WalkInv R peers start width s c)
    (hstart : start < R.maxValue) (hle : width ≤ R.maxValue)
    (hnext : resolveNextContaining peers now s.nextLocation roleAge =
      some next)
    (hid : next.id ≠ s.current.id)
    (hfirst : next.start1 ≤ s.nextLocation ∧ s.nextLocation < next.end1)
    (hneed : c + reach next s.nextLocation < width) :
    ∃ s',
      coverStep R peers now roleAge width start ((start + width) % R.maxValue)
        s = .inr s' ∧
      s'.current = next ∧
      WalkInv R peers start width s' (c + reach next s.nextLocation) := by
  obtain ⟨hmem, hcontains⟩ := resolveNextContaining_spec hnext
  have hshape := hring.shape next hmem
  -- where the location goes to, and whether the ring was wrapped
  have hlocation :
      ((s.wrappedOnce || next.wrapped) = false ∧
        start + (c + reach next s.nextLocation) = next.end2) ∨
      ((s.wrappedOnce || next.wrapped) = true ∧
        start + (c + reach next s.nextLocation) =
          next.end2 + R.maxValue) := by
    have hloc := h.location
    have hc := h.lt
    unfold reach ReplicationRangeIndexable.wrapped at hneed ⊢
    rw [if_pos hfirst] at hneed ⊢
    cases hshape with
    | single hstart2 hend hle' hmax hwidth =>
        have hnot : ¬ next.end2 < next.end1 := by omega
        simp only [hnot, decide_false, Bool.or_false, Bool.false_eq_true,
          if_false, Nat.add_zero]
        rcases hloc with ⟨hw, heq⟩ | ⟨hw, heq⟩
        · exact Or.inl ⟨hw, by omega⟩
        · exact Or.inr ⟨hw, by omega⟩
    | wrapping hstart2 hend1 hend hlt hmax hwidth =>
        simp only [hlt, decide_true, if_true] at hneed
        simp only [hlt, decide_true, Bool.or_true, if_true]
        rcases hloc with ⟨hw, heq⟩ | ⟨hw, heq⟩
        · exact Or.inr ⟨trivial, by omega⟩
        · omega
  have hclip := nextLocation_eq hstart hle hneed hlocation
  refine ⟨_, coverStep_containing hnext hid, ?_, ?_⟩
  · rw [addLength_first hshape hfirst]
  · rw [addLength_first (s := { s with current := next }) hshape hfirst]
    simp only [hclip]
    exact
      { covered := by simp only [h.covered]; omega
        matured := by simp only [h.covered]; omega
        lt := hneed
        current_mem := hmem
        current_ret := mem_addPeer.mpr (Or.inr rfl)
        at_end := rfl
        location := hlocation
        arc := h.arc_containing hring hnext (Nat.le_refl _) }

/-- At the end of the ring the location is not yet wrapped. -/
theorem WalkInv.not_wrapped
    {s : CoverState} {c : Nat} (h : WalkInv R peers start width s c)
    (hstart : start < R.maxValue) (hle : width ≤ R.maxValue)
    (hlocation : s.nextLocation = R.maxValue) :
    s.wrappedOnce = false ∧ start + c = R.maxValue := by
  have hc := h.lt
  rcases h.location with ⟨hw, heq⟩ | ⟨hw, heq⟩
  · exact ⟨hw, by omega⟩
  · omega

/-- At the end of the ring no range contains the location. -/
theorem resolveNextContaining_ringEnd
    (hring : CoveredRing R peers now roleAge) {s : CoverState}
    (hlocation : s.nextLocation = R.maxValue) :
    resolveNextContaining peers now s.nextLocation roleAge = none := by
  rw [hlocation]
  exact resolveNextContaining_maxValue hring

/-- The invariant after a range that starts the ring. -/
theorem WalkInv.step_ringEnd
    (hring : CoveredRing R peers now roleAge)
    {s : CoverState} {c : Nat} {next : ReplicationRangeIndexable}
    (h : WalkInv R peers start width s c)
    (hstart : start < R.maxValue) (hle : width ≤ R.maxValue)
    (hlocation : s.nextLocation = R.maxValue)
    (hnext : resolveNextAbove R peers now R.maxValue roleAge = some next)
    (hid : next.id ≠ s.current.id) (hgap : NoGapBefore next)
    (hend : next.end2 < R.maxValue) (hneed : c + next.end2 < width) :
    ∃ s',
      coverStep R peers now roleAge width start ((start + width) % R.maxValue)
        s = .inr s' ∧
      s'.current = next ∧
      WalkInv R peers start width s' (c + next.end2) := by
  have hmem : next ∈ peers := mem_of_fetchOne_getClosest hnext
  obtain ⟨_, hloc⟩ := h.not_wrapped hstart hle hlocation
  have hnone := resolveNextContaining_ringEnd hring hlocation
  have hlocation' :
      (true = false ∧ start + (c + next.end2) = next.end2) ∨
        (true = true ∧ start + (c + next.end2) = next.end2 + R.maxValue) :=
    Or.inr ⟨rfl, by omega⟩
  have hclip := nextLocation_eq hstart hle hneed hlocation'
  have hlast : ¬ (width : Int) ≤ (s.coveredLength + next.end2) := by
    rw [h.covered]
    omega
  have hstep :=
    coverStep_above width start ((start + width) % R.maxValue) hnone
      (hlocation ▸ hnext) hid
  rw [addLength_ringEnd (s := { s with current := next }) hlocation hend]
    at hstep
  simp only [hlast, decide_false, Bool.and_false, Bool.false_eq_true, true_or,
    if_true, if_false, hclip] at hstep
  refine ⟨_, hstep, rfl, ?_⟩
  exact
    { covered := by simp only [h.covered]; omega
      matured := by simp only [h.covered]; omega
      lt := hneed
      current_mem := hmem
      current_ret := mem_addPeer.mpr (Or.inr rfl)
      at_end := rfl
      location := hlocation'
      arc := h.arc_ringEnd hring hle hlocation hmem hgap (Nat.le_refl _)
        (by omega) }

/-- A containing range that is the current one contains its own end. -/
theorem WalkInv.covers_of_containing
    {s : CoverState} {c : Nat} (h : WalkInv R peers start width s c)
    (hring : CoveredRing R peers now roleAge) (hle : width ≤ R.maxValue)
    {next : ReplicationRangeIndexable}
    (hnext : resolveNextContaining peers now s.nextLocation roleAge = some next)
    (hid : next.id = s.current.id) :
    LoopCovers R peers now roleAge start width s := by
  obtain ⟨hmem, hcontains⟩ := resolveNextContaining_spec hnext
  refine loopCovers_of_current hring true h hle ?_ hmem hid ?_
  · simp [resolveNext, hnext]
  · intro heq p hp
    rw [h.at_end, ← heq] at hcontains
    exact contains_of_contains_end (hring.shape next hmem) hcontains hp

/-- At the end of the ring the current range ends there. -/
theorem WalkInv.covers_of_ringEnd
    {s : CoverState} {c : Nat} (h : WalkInv R peers start width s c)
    (hring : CoveredRing R peers now roleAge) (hle : width ≤ R.maxValue)
    (hlocation : s.nextLocation = R.maxValue) {next : ReplicationRangeIndexable}
    (hnext : resolveNextAbove R peers now R.maxValue roleAge = some next)
    (hgap : NoGapBefore next) (hid : next.id = s.current.id) :
    LoopCovers R peers now roleAge start width s := by
  have hmem : next ∈ peers := mem_of_fetchOne_getClosest hnext
  refine loopCovers_of_current hring false h hle ?_ hmem hid ?_
  · have hnone := resolveNextContaining_ringEnd hring hlocation
    rw [hlocation] at hnone ⊢
    simp [resolveNext, hnone, hnext]
  · intro heq p hp
    refine contains_of_noGapBefore (hring.shape next hmem) hgap ?_
    rw [heq, ← h.at_end, hlocation]
    exact hp

/-- From a state that keeps the invariant a clean walk covers the arc. -/
theorem loopCovers_of_cleanWalk
    (hring : CoveredRing R peers now roleAge)
    (hstart : start < R.maxValue) (hle : width ≤ R.maxValue)
    {current : ReplicationRangeIndexable} {location need : Nat}
    (hwalk : CleanWalk R peers now roleAge ((start + width) % R.maxValue)
      current location need) :
    ∀ {s : CoverState} {c : Nat},
      WalkInv R peers start width s c → s.current = current →
      s.nextLocation = location → need = width - c →
      LoopCovers R peers now roleAge start width s := by
  induction hwalk with
  | @last current next location need hnext hneed =>
      rintro s c h rfl rfl rfl
      by_cases hid : next.id = s.current.id
      · exact h.covers_of_containing hring hle hnext hid
      · obtain ⟨hmem, hcontains⟩ := resolveNextContaining_spec hnext
        refine loopCovers_of_step h hle (coverStep_containing hnext hid) ?_
        refine loopCovers_of_covered ?_ ?_
        · have hcount := le_addLength (s := { s with current := next })
            (hring.shape next hmem) hcontains
          have hc := h.lt
          have hcovered := h.covered
          simp only at hcount ⊢
          omega
        · exact h.arc_containing hring hnext (by omega)
  | @step current next location need hnext hfirst hneed hrest ih =>
      rintro s c h rfl rfl rfl
      by_cases hid : next.id = s.current.id
      · exact h.covers_of_containing hring hle hnext hid
      · have hc := h.lt
        obtain ⟨s', hstep, hcur, hinv⟩ :=
          h.step hring hstart hle hnext hid hfirst (by omega)
        refine loopCovers_of_step h hle hstep (ih hinv hcur ?_ ?_)
        · rw [hinv.at_end, hcur]
        · omega
  | @ringEndFull current next need hnext hgap hend =>
      rintro s c h rfl hlocation rfl
      by_cases hid : next.id = s.current.id
      · exact h.covers_of_ringEnd hring hle hlocation hnext hgap hid
      · have hmem : next ∈ peers := mem_of_fetchOne_getClosest hnext
        have harc :
            ArcCovered R peers start width (addPeer s.ret next.hash) :=
          h.arc_ringEnd hring hle hlocation hmem hgap (by omega)
            (Nat.le_refl _)
        -- nothing is counted; the next pass finds the same range
        have hadd :
            ({ s with current := next } : CoverState).addLength R
              s.nextLocation = { s with current := next } := by
          have hshape := hring.shape next hmem
          have hend1 : next.end1 = R.maxValue := by
            cases hshape with
            | single _ hend' _ _ _ => omega
            | wrapping _ _ _ hlt hmax _ => omega
          simp [CoverState.addLength, ReplicationRangeIndexable.wrapped,
            hlocation, hend, hend1]
        have hc := h.lt
        have hcovered := h.covered
        have hlast : ¬ (width : Int) ≤ s.coveredLength := by omega
        obtain ⟨hw, hloc⟩ := h.not_wrapped hstart hle hlocation
        have hwrap : (start + width) % R.maxValue ≤ start := by
          rcases endLocation_cases hstart hle with h' | h'
          · omega
          · omega
        have hstep :=
          coverStep_above width start ((start + width) % R.maxValue)
            (resolveNextContaining_ringEnd hring hlocation)
            (hlocation ▸ hnext) hid
        rw [hadd] at hstep
        simp only [hlast, decide_false, Bool.and_false, Bool.false_eq_true,
          true_or, if_true, if_false, hwrap, hw, and_self] at hstep
        refine loopCovers_of_step h hle hstep ?_
        refine WalkInv.covers_of_ringEnd (c := c) ?_ hring hle hend hnext hgap rfl
        exact
          { covered := hcovered
            matured := hcovered
            lt := hc
            current_mem := hmem
            current_ret := mem_addPeer.mpr (Or.inr rfl)
            at_end := rfl
            location := Or.inl ⟨rfl, by simp only [hend]; exact hloc⟩
            arc := h.arc.mono (fun x hx => mem_addPeer.mpr (Or.inl hx)) }
  | @ringEndLast current next need hnext hgap hend hneed hcloser =>
      rintro s c h rfl hlocation rfl
      by_cases hid : next.id = s.current.id
      · exact h.covers_of_ringEnd hring hle hlocation hnext hgap hid
      · have hmem : next ∈ peers := mem_of_fetchOne_getClosest hnext
        have hc := h.lt
        have hcovered := h.covered
        have hbefore : s.coveredLength < width := by omega
        have hlast : (width : Int) ≤ s.coveredLength + next.end2 := by omega
        have hstep :=
          coverStep_above width start ((start + width) % R.maxValue)
            (resolveNextContaining_ringEnd hring hlocation)
            (hlocation ▸ hnext) hid
        rw [addLength_ringEnd (s := { s with current := next }) hlocation hend]
          at hstep
        simp only [hbefore, hlast, hcloser, decide_true, Bool.and_self,
          or_true, if_true] at hstep
        refine loopCovers_of_break h hle hstep ?_
        exact h.arc_ringEnd hring hle hlocation hmem hgap (by omega)
          (Nat.le_refl _)
  | @ringEnd current next need hnext hgap hend hneed hrest ih =>
      rintro s c h rfl hlocation rfl
      by_cases hid : next.id = s.current.id
      · exact h.covers_of_ringEnd hring hle hlocation hnext hgap hid
      · have hc := h.lt
        obtain ⟨s', hstep, hcur, hinv⟩ :=
          h.step_ringEnd hring hstart hle hlocation hnext hid hgap hend
            (by omega)
        refine loopCovers_of_step h hle hstep (ih hinv hcur ?_ ?_)
        · rw [hinv.at_end, hcur]
        · omega

/-! ### The start -/

/-- The walk starts with a range that contains the start. -/
theorem getStartAndEnd_of_containing
    {node : ReplicationRangeIndexable} {random : Nat}
    (hnode : (rangesContainingPoint peers start
      (some { roleAgeLimit := roleAge, matured := true, now := now })).head? =
        some node) :
    getStartAndEnd R peers (.number start) width random
        { roleAgeLimit := roleAge, matured := true, now := now } =
      { startNode := some node, startLocation := start
        endLocation := (start + width) % R.maxValue } := by
  have hmem := mem_rangesContainingPoint.mp (List.mem_of_head? hnode)
  have hfetch :
      fetchOneClosest R peers start false true
        (some { roleAgeLimit := roleAge, matured := true, now := now }) =
          some node := by
    unfold fetchOneClosest
    split
    · rename_i first rest hranges
      rw [hranges] at hnode
      exact hnode
    · rename_i hranges
      rw [hranges] at hnode
      cases hnode
  simp [getStartAndEnd, hfetch, hmem.2.1]

/-- The state before the loop keeps the invariant when the first range is
entered in its first segment and does not cover the arc. -/
theorem walkInv_coverInit
    (hring : CoveredRing R peers now roleAge)
    {node : ReplicationRangeIndexable} (hmem : node ∈ peers)
    (hstart : start < R.maxValue)
    (hfirst : node.start1 ≤ start ∧ start < node.end1)
    (hneed : reach node start < width) :
    WalkInv R peers start width (coverInit R node start [])
      (reach node start) := by
  have hshape := hring.shape node hmem
  have hcontains : node.contains start = true := by
    rw [ReplicationRangeIndexable.contains_iff]
    exact Or.inl hfirst
  have harc :
      ArcCovered R peers start (reach node start) (addPeer [] node.hash) := by
    intro k hk
    exact ⟨node, hmem, contains_of_lt_reach hshape hcontains hk,
      mem_addPeer.mpr (Or.inr rfl)⟩
  simp only [coverInit]
  rw [addLength_first (s := coverFirst node []) hshape hfirst]
  refine
    { covered := Int.zero_add _
      matured := Int.zero_add _
      lt := hneed
      current_mem := hmem
      current_ret := ?_
      at_end := rfl
      location := ?_
      arc := harc }
  · simp [coverFirst]
  · simp only [reach, if_pos hfirst, coverFirst,
      ReplicationRangeIndexable.wrapped]
    cases hshape with
    | single hstart2 hend hle hmax hwidth =>
        have hnot : ¬ node.end2 < node.end1 := by omega
        simp only [hnot, decide_false, Bool.false_eq_true, if_false]
        exact Or.inl ⟨rfl, by omega⟩
    | wrapping hstart2 hend1 hend hlt hmax hwidth =>
        simp only [hlt, decide_true, if_true]
        exact Or.inr ⟨rfl, by omega⟩

/-- A clean walk from the start covers the arc. -/
theorem coverSetCovers_of_cleanStart
    (hring : CoveredRing R peers now roleAge)
    (hstart : start < R.maxValue) (hle : width ≤ R.maxValue)
    (hclean : CleanStart R peers now roleAge start width) :
    CoverSetCovers R peers now roleAge start width := by
  obtain ⟨node, hnode, hwalk⟩ := hclean
  have hmem := mem_rangesContainingPoint.mp (List.mem_of_head? hnode)
  have hshape := hring.shape node hmem.1
  have hloop :
      LoopCovers R peers now roleAge start width
        (coverInit R node start []) := by
    rcases hwalk with hreach | ⟨hfirst, hneed, hwalk⟩
    · refine loopCovers_of_covered ?_ ?_
      · have hcount :=
          le_addLength (s := coverFirst node []) hshape hmem.2.1
        simp only [coverFirst] at hcount
        simp only [coverInit, coverFirst]
        omega
      · intro k hk
        exact ⟨node, hmem.1,
          contains_of_lt_reach hshape hmem.2.1 (by omega),
          by simp [coverInit, coverFirst]⟩
    · have hinv := walkInv_coverInit hring hmem.1 hstart hfirst hneed
      have hcur : (coverInit R node start []).current = node := by
        simp [coverInit, coverFirst]
      refine loopCovers_of_cleanWalk hring hstart hle hwalk hinv hcur ?_ rfl
      rw [hinv.at_end, hcur]
  obtain ⟨fuel, ret, hrun, harc⟩ := hloop
  refine ⟨fuel, ret, ?_, harc⟩
  intro random
  simp only [getCoverSet, getStartAndEnd_of_containing hnode, unmaturedPeers,
    hrun, Option.map_some]

end Walk

/-! ### A start in the second segment -/

namespace WrappedStart

/-- Ten points on each side of the end of the ring. -/
def around : ReplicationRangeIndexable :=
  { id := "around", hash := "a", timestamp := 0
    start1 := 4294967285, end1 := 4294967295, start2 := 0, end2 := 10
    width := 20, mode := .NonStrict }

/-- The rest of the ring. -/
def rest : ReplicationRangeIndexable :=
  { id := "rest", hash := "b", timestamp := 0
    start1 := 10, end1 := 4294967285, start2 := 10, end2 := 4294967285
    width := 4294967275, mode := .NonStrict }

def peers : ReplicationIndex := [around, rest]

theorem coveredRing : CoveredRing .u32 peers 0 0 where
  shape := by
    intro range hrange
    simp only [peers, List.mem_cons, List.not_mem_nil, or_false] at hrange
    rcases hrange with rfl | rfl
    · exact .wrapping rfl rfl (by decide) (by decide) (by decide) (by decide)
    · exact .single rfl rfl (by decide) (by decide) (by decide)
  ids := by decide
  matured := by decide
  covers := by
    intro p hp
    simp only [Resolution.maxValue, MAX_U32] at hp
    by_cases hrest : 10 ≤ p ∧ p < 4294967285
    · refine ⟨rest, by simp [peers], ?_⟩
      rw [ReplicationRangeIndexable.contains_iff]
      exact Or.inl hrest
    · refine ⟨around, by simp [peers], ?_⟩
      rw [ReplicationRangeIndexable.contains_iff]
      simp only [around]
      omega

/-- From the point 5 the walk counts the whole ring for the first range, so
that the owner of the points from 10 on is not asked. -/
theorem not_coverSetCovers :
    CoveredRing .u32 peers 0 0 ∧ ¬ CoverSetCovers .u32 peers 0 0 5 100 := by
  refine ⟨coveredRing, ?_⟩
  rintro ⟨fuel, ret, hrun, hcovers⟩
  have hone : getCoverSet .u32 peers 0 (.number 5) 100 0 none 0 1 = some ["a"] := by
    decide
  have hret : ret = ["a"] := by
    cases fuel with
    | zero =>
        have hnone :
            getCoverSet .u32 peers 0 (.number 5) 100 0 none 0 0 = none := by
          decide
        cases hnone.symm.trans (hrun 0)
    | succ fuel =>
        have hmore := getCoverSet_mono hone fuel
        rw [Nat.add_comm, hrun 0] at hmore
        exact Option.some.inj hmore
  obtain ⟨range, hmem, hcontains, howner⟩ := hcovers 50 (by decide)
  subst hret
  simp only [peers, List.mem_cons, List.not_mem_nil, or_false] at hmem howner
  rcases hmem with rfl | rfl
  · exact absurd hcontains (by decide)
  · exact absurd howner (by decide)

/-- From a point in the first segment the walk goes on behind the second. -/
theorem coverSetCovers_before_end :
    CleanStart .u32 peers 0 0 4294967290 100 ∧
      CoverSetCovers .u32 peers 0 0 4294967290 100 := by
  have hclean : CleanStart .u32 peers 0 0 4294967290 100 := by
    refine ⟨around, by decide, Or.inr ⟨by decide, by decide, ?_⟩⟩
    have hnext : resolveNextContaining peers 0 around.end2 0 = some rest := by
      decide
    exact .last hnext (by decide)
  exact ⟨hclean,
    coverSetCovers_of_cleanStart coveredRing (by decide) (by decide) hclean⟩

end WrappedStart

end SharedLog
end Peerbit
