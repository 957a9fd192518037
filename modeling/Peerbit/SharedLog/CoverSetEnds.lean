import Mathlib.Data.Prod.Lex
import Peerbit.SharedLog.CoverSetCovers

/-!
# The search for a cover set ends

The covered length of `getCoverSet` need not grow in a pass of its loop: a range
that ends at the location adds nothing, and neither does one that runs from the
end of the ring to its start.  But it never shrinks; when it stays the same, the
location does not move on; and when that stays the same too, the range that was
found is found again and is the current one.  So the loop ends.
-/

namespace Peerbit
namespace SharedLog

section Ends

variable {R : Resolution} {peers : ReplicationIndex}
variable {now roleAge width startLocation endLocation : Nat}
variable {s s' : CoverState}

/-! ### What is found -/

theorem mem_of_resolveNext {location : Nat} {next : ReplicationRangeIndexable × Bool}
    (h : resolveNext R peers now location roleAge = some next) : next.1 ∈ peers := by
  rw [resolveNext] at h
  split at h
  · rename_i containing hcontaining
    rw [← Option.some.inj h]
    exact (resolveNextContaining_spec hcontaining).1
  · obtain ⟨above, habove, rfl⟩ := Option.map_eq_some_iff.mp h
    exact mem_of_fetchOne_getClosest habove

theorem mem_of_nextCandidate {location : Nat}
    {next : ReplicationRangeIndexable × Bool × Bool}
    (h : nextCandidate R peers now roleAge location = some next) : next.1 ∈ peers := by
  rw [nextCandidate] at h
  split at h
  · rename_i range containing hnext
    rw [← Option.some.inj h]
    exact mem_of_resolveNext hnext
  · obtain ⟨found, hfound, rfl⟩ := Option.map_eq_some_iff.mp h
    exact mem_of_resolveNext hfound

theorem mem_of_fetchOneClosest
    {point : Nat} {below above : Bool} {time : Option TimeFilter}
    {range : ReplicationRangeIndexable}
    (h : fetchOneClosest R peers point below above time = some range) :
    range ∈ peers := by
  rw [fetchOneClosest] at h
  split at h
  · rename_i containing rest hcontaining
    have hmem : containing ∈ rangesContainingPoint peers point time := by
      rw [hcontaining]
      exact List.mem_cons_self
    rw [← Option.some.inj h]
    exact (mem_rangesContainingPoint.mp hmem).1
  · refine of_mem_next_joinIterator (P := (· ∈ peers)) ?_ (List.mem_of_head? h)
    intro iterator hiterator el hel
    simp only [List.mem_cons, List.not_mem_nil, or_false] at hiterator
    rcases hiterator with rfl | rfl
    · exact (of_mem_next_getClosest hel).1
    · exact (of_mem_next_getClosest hel).1

theorem mem_of_fetchOneFromPublicKey
    {hashcode : PeerHash} {time : TimeFilter} {range : ReplicationRangeIndexable}
    (h : fetchOneFromPublicKey R hashcode peers time = some range) :
    range ∈ peers := by
  rw [fetchOneFromPublicKey] at h
  split at h
  · cases h
  · rename_i node hnode
    have hmem : node ∈ peers := (List.mem_filter.mp (List.mem_of_head? hnode)).1
    split at h
    · rwa [← Option.some.inj h]
    · split at h
      · rename_i matured hmatured
        rw [← Option.some.inj h]
        exact mem_of_fetchOneClosest hmatured
      · rwa [← Option.some.inj h]

/-- The walk starts at a range of the index. -/
theorem mem_of_getStartAndEnd
    {start : CoverStart} {random : Nat} {time : TimeFilter}
    {node : ReplicationRangeIndexable}
    (h : (getStartAndEnd R peers start width random time).startNode = some node) :
    node ∈ peers := by
  simp only [getStartAndEnd] at h
  split at h
  · cases h
  · rename_i startNode startLocation hlocated
    generalize (if startNode.start1 < startLocation then
      R.maxValue - startLocation + startNode.start1
      else startNode.start1 - startLocation) = distance at h
    split at h
    · cases h
    · obtain rfl : startNode = node := Option.some.inj h
      cases start with
      | number point => exact mem_of_fetchOneClosest (congrArg Prod.fst hlocated)
      | undefined => exact mem_of_fetchOneClosest (congrArg Prod.fst hlocated)
      | publicKey hashcode =>
          dsimp only at hlocated
          split at hlocated
          · rename_i found hfound
            rw [← Option.some.inj (congrArg Prod.fst hlocated)]
            exact mem_of_fetchOneFromPublicKey hfound
          · exact mem_of_fetchOneClosest (congrArg Prod.fst hlocated)

/-! ### One pass -/

/-- What a pass that goes on does to the variables. -/
theorem coverStep_inr
    (h : coverStep R peers now roleAge width startLocation endLocation s = .inr s') :
    ∃ next containing matured,
      nextCandidate R peers now roleAge s.nextLocation =
        some (next, containing, matured) ∧
      next.id ≠ s.current.id ∧ s'.current = next ∧
      s'.coveredLength =
        ({ s with current := next }.addLength R s.nextLocation).coveredLength ∧
      (s'.nextLocation = next.end2 ∨ s'.nextLocation = min next.end2 endLocation) := by
  rw [coverStep] at h
  split at h
  · cases h
  · rename_i next containing matured hnext
    split at h
    · cases h
    · rename_i hid
      simp only at h
      split at h
      · cases h
      · obtain rfl := Sum.inr.inj h
        refine ⟨next, containing, matured, hnext, hid, ?_, rfl, ?_⟩
        · simp
        · dsimp only
          split
          · exact .inl rfl
          · exact .inr rfl

/-- A range adds to the length, or it ends where it was entered, or it runs from
the end of the ring to its start. -/
theorem addLength_cases (hshape : s.current.Shape R) {location : Nat}
    (hlocation : location ≤ R.maxValue) :
    s.coveredLength < (s.addLength R location).coveredLength ∨
    ((s.addLength R location).coveredLength = s.coveredLength ∧
      (s.current.end2 = location ∨ s.current.end2 < location)) := by
  have hring := R.maxValue_pos
  rw [CoverState.addLength]
  split
  · simp only
    omega
  · rename_i hnot
    simp only [ReplicationRangeIndexable.wrapped, decide_eq_true_eq] at hnot
    simp only
    cases hshape with
    | single hstart hend hle hmax hwidth => omega
    | wrapping hstart hend1 hend hlt hmax hwidth => omega

/-! ### The measure -/

/-- The next pass finds another range than the current one. -/
def findsOther
    (R : Resolution) (peers : ReplicationIndex) (now roleAge : Nat) (s : CoverState) :
    Bool :=
  (nextCandidate R peers now roleAge s.nextLocation).all
    (fun next => decide (next.1.id ≠ s.current.id))

/-- What is left of the ring, the location, and whether the next pass finds
another range. -/
def coverMeasure
    (R : Resolution) (peers : ReplicationIndex) (now roleAge : Nat) (s : CoverState) :
    Nat ×ₗ Nat ×ₗ Nat :=
  toLex (((R.maxValue : Int) + 1 - s.coveredLength).toNat,
    toLex (s.nextLocation, (findsOther R peers now roleAge s).toNat))

/-- Every pass of the loop decreases the measure. -/
theorem coverMeasure_lt
    (hshape : ∀ range ∈ peers, range.Shape R)
    (hlength : s.coveredLength ≤ R.maxValue)
    (hlocation : s.nextLocation ≤ R.maxValue)
    (h : coverStep R peers now roleAge width startLocation endLocation s = .inr s') :
    s'.nextLocation ≤ R.maxValue ∧
      coverMeasure R peers now roleAge s' < coverMeasure R peers now roleAge s := by
  obtain ⟨next, containing, matured, hnext, hid, hcurrent, hcovered, hmoved⟩ :=
    coverStep_inr h
  have hmem : next ∈ peers := mem_of_nextCandidate hnext
  have hend := end2_le_maxValue (hshape next hmem)
  have hle : s'.nextLocation ≤ next.end2 := by omega
  refine ⟨by omega, ?_⟩
  have hcases := addLength_cases (s := { s with current := next })
    (hshape next hmem) hlocation
  rw [← hcovered] at hcases
  simp only at hcases
  simp only [coverMeasure, Prod.Lex.toLex_lt_toLex]
  rcases hcases with hgrows | ⟨hsame, hends⟩
  · exact .inl (by omega)
  · refine .inr ⟨by rw [hsame], ?_⟩
    by_cases hstays : s'.nextLocation = s.nextLocation
    · -- the same range is found again
      refine .inr ⟨hstays, ?_⟩
      have hfinds : findsOther R peers now roleAge s = true := by
        simp [findsOther, hnext, hid]
      have hagain : findsOther R peers now roleAge s' = false := by
        simp [findsOther, hstays, hnext, hcurrent]
      rw [hfinds, hagain]
      decide
    · exact .inl (by omega)

/-! ### The loop -/

theorem coverLoop_ends
    (hshape : ∀ range ∈ peers, range.Shape R)
    (hlocation : s.nextLocation ≤ R.maxValue) :
    ∃ fuel ret, coverLoop R peers now roleAge width startLocation endLocation fuel s =
      some ret := by
  induction hmeasure : coverMeasure R peers now roleAge s
    using WellFoundedLT.induction generalizing s with
  | _ m ih =>
      by_cases hcontinue :
          s.maturedCoveredLength < width ∧ s.coveredLength ≤ R.maxValue
      · cases hstep : coverStep R peers now roleAge width startLocation
            endLocation s with
        | inl ret =>
            refine ⟨1, ret, ?_⟩
            rw [coverLoop, if_pos hcontinue, hstep]
        | inr s' =>
            obtain ⟨hlocation', hlt⟩ :=
              coverMeasure_lt hshape hcontinue.2 hlocation hstep
            rw [hmeasure] at hlt
            obtain ⟨fuel, ret, hrest⟩ := ih _ hlt hlocation' rfl
            refine ⟨fuel + 1, ret, ?_⟩
            rw [coverLoop, if_pos hcontinue, hstep]
            exact hrest
      · refine ⟨1, s.ret, ?_⟩
        rw [coverLoop, if_neg hcontinue]

/-- The loop of `getCoverSet` stops, whatever the index holds. -/
theorem getCoverSet_ends
    (R : Resolution) (peers : ReplicationIndex) (now : Nat) (start : CoverStart)
    (width roleAge : Nat) (eager : Option Nat) (random : Nat)
    (hshape : ∀ range ∈ peers, range.Shape R) :
    ∃ fuel ret, getCoverSet R peers now start width roleAge eager random fuel =
      some ret := by
  simp only [getCoverSet]
  generalize hends : getStartAndEnd R peers start width random
    { roleAgeLimit := roleAge, matured := true, now := now } = ends
  cases hnode : ends.startNode with
  | none => exact ⟨0, unmaturedPeers peers now roleAge eager, rfl⟩
  | some node =>
      have hmem : node ∈ peers := by
        rw [← hends] at hnode
        exact mem_of_getStartAndEnd hnode
      generalize unmaturedPeers peers now roleAge eager = ret
      have hlocation :
          (coverInit R node ends.startLocation ret).nextLocation ≤ R.maxValue := by
        have hend := end2_le_maxValue (hshape node hmem)
        simp only [coverInit, CoverState.addLength]
        split <;> simpa [coverFirst] using hend
      have hloop : ∃ fuel ret', coverLoop R peers now roleAge width
          ends.startLocation ends.endLocation fuel
          (coverInit R node ends.startLocation ret) = some ret' :=
        coverLoop_ends hshape hlocation
      obtain ⟨fuel, ret', hloop⟩ := hloop
      refine ⟨fuel, ?_⟩
      simp only [hloop, Option.map_some, Option.some.injEq, exists_eq']

/-- Two ranges that end where the other one starts are walked once around. -/
theorem getCoverSet_ends_around :
    ∃ fuel ret, getCoverSet .u32 WrappedStart.peers 0 (.number 4294967290)
      4294967295 0 none 0 fuel = some ret :=
  getCoverSet_ends .u32 WrappedStart.peers 0 (.number 4294967290) 4294967295 0 none 0
    WrappedStart.coveredRing.shape

end Ends

end SharedLog
end Peerbit
