import Peerbit.SharedLog.RangeIndex

/-!
# The set of peers that cover an arc

A search asks a set of peers whose ranges together cover an arc of the ring.
`getCoverSet` walks along the arc: from where the current range ends it goes on
with the widest range that contains this point, and where there is none with the
next range above.  It adds up how much of the arc is covered until this is the
width asked for.
-/

namespace Peerbit
namespace SharedLog

/-! ### Where the walk starts -/

/-- `start: NumberFromType<R> | PublicSignKey | undefined`; a key is given by
its hash. -/
inductive CoverStart where
  | number (point : Nat)
  | publicKey (hashcode : PeerHash)
  | undefined
deriving Repr, DecidableEq

structure StartAndEnd where
  startNode : Option ReplicationRangeIndexable
  startLocation : Nat
  endLocation : Nat
deriving Repr, DecidableEq

/-- `fetchOneFromPublicKey`, with the time options that `getCoverSet` gives. -/
def fetchOneFromPublicKey
    (R : Resolution) (hashcode : PeerHash) (index : ReplicationIndex)
    (time : TimeFilter) : Option ReplicationRangeIndexable :=
  match (index.filter (fun range => decide (range.hash = hashcode))).head? with
  | none => none
  | some node =>
      if isMatured node time.now time.roleAgeLimit then
        some node
      else
        match fetchOneClosest R index node.start1 false false (some time) with
        | some matured => some matured
        | none => some node

/-- `getStartAndEnd`; `random` is what `numbers.random()` returns. -/
def getStartAndEnd
    (R : Resolution) (peers : ReplicationIndex) (start : CoverStart)
    (widthToCoverScaled random : Nat) (time : TimeFilter) : StartAndEnd :=
  let nodeFromPoint := fun (point : Nat) =>
    (fetchOneClosest R peers point false true (some time), point)
  let located :=
    match start with
    | .publicKey hashcode =>
        match fetchOneFromPublicKey R hashcode peers time with
        | some node => (some node, node.start1)
        | none => nodeFromPoint random
    | .number point => nodeFromPoint point
    | .undefined => nodeFromPoint random
  match located with
  | (none, _) => { startNode := none, startLocation := 0, endLocation := 0 }
  | (some startNode, startLocation) =>
      let coveredDistanceToStart :=
        if startNode.start1 < startLocation then
          R.maxValue - startLocation + startNode.start1
        else
          startNode.start1 - startLocation
      if startNode.contains startLocation = false ∧
          startNode.mode = .Strict ∧
          widthToCoverScaled < coveredDistanceToStart then
        -- the gap to the start is wider than what is to be covered
        { startNode := none, startLocation := 0, endLocation := 0 }
      else
        { startNode := some startNode
          startLocation := startLocation
          endLocation := (startLocation + widthToCoverScaled) % R.maxValue }

/-! ### The walk -/

/-- `ret.add`. -/
def addPeer (ret : List PeerHash) (hash : PeerHash) : List PeerHash :=
  if hash ∈ ret then ret else ret ++ [hash]

@[simp] theorem mem_addPeer
    {ret : List PeerHash} {hash other : PeerHash} :
    other ∈ addPeer ret hash ↔ other ∈ ret ∨ other = hash := by
  unfold addPeer
  split
  · rename_i h
    constructor
    · exact Or.inl
    · rintro (hother | rfl)
      · exact hother
      · exact h
  · simp

/-- `resolveNextContaining`: the widest range at the point, by its `end2`. -/
def resolveNextContaining
    (peers : ReplicationIndex) (now nextLocation roleAge : Nat) :
    Option ReplicationRangeIndexable :=
  (sortByLargestEnd2
    (rangesContainingPoint peers nextLocation
      (some { roleAgeLimit := roleAge, matured := true, now := now }))).head?

/-- `resolveNextAbove`. -/
def resolveNextAbove
    (R : Resolution) (peers : ReplicationIndex)
    (now nextLocation roleAge : Nat) : Option ReplicationRangeIndexable :=
  fetchOne (getClosest R .above peers nextLocation true
    { time := some { roleAgeLimit := roleAge, matured := true, now := now } })

/-- `resolveNext`, with whether the range contains the point. -/
def resolveNext
    (R : Resolution) (peers : ReplicationIndex)
    (now nextLocation roleAge : Nat) :
    Option (ReplicationRangeIndexable × Bool) :=
  match resolveNextContaining peers now nextLocation roleAge with
  | some containing => some (containing, true)
  | none =>
      (resolveNextAbove R peers now nextLocation roleAge).map
        (fun above => (above, false))

/-- The variables of the loop. -/
structure CoverState where
  ret : List PeerHash
  current : ReplicationRangeIndexable
  wrappedOnce : Bool
  coveredLength : Int
  maturedCoveredLength : Int
  nextLocation : Nat
deriving Repr, DecidableEq

/-- `addLength`. -/
def CoverState.addLength
    (R : Resolution) (s : CoverState) (from_ : Nat) : CoverState :=
  if s.current.end2 < from_ ∨ s.current.wrapped = true then
    { s with
      wrappedOnce := true
      coveredLength :=
        s.coveredLength + ((R.maxValue : Int) - from_) + s.current.end2 }
  else
    { s with coveredLength := s.coveredLength + ((s.current.end1 : Int) - from_) }

@[simp] theorem CoverState.addLength_ret
    (R : Resolution) (s : CoverState) (location : Nat) :
    (s.addLength R location).ret = s.ret := by
  unfold CoverState.addLength
  split <;> rfl

@[simp] theorem CoverState.addLength_current
    (R : Resolution) (s : CoverState) (location : Nat) :
    (s.addLength R location).current = s.current := by
  unfold CoverState.addLength
  split <;> rfl

/-- The distance of the closest end of a range to the end of the arc. -/
def distanceToEnd
    (R : Resolution) (range : ReplicationRangeIndexable) (endLocation : Nat) :
    Nat :=
  min (getDistance range.start1 endLocation .closest R.maxValue)
    (getDistance range.end2 endLocation .closest R.maxValue)

section Loop

variable (R : Resolution) (peers : ReplicationIndex)
variable (now roleAge widthToCoverScaled : Nat)

/-- The candidate for the next range: the range, whether it contains the
location, and whether it was found among the matured ones. -/
def nextCandidate (nextLocation : Nat) :
    Option (ReplicationRangeIndexable × Bool × Bool) :=
  match resolveNext R peers now nextLocation roleAge with
  | some (next, containing) => some (next, containing, true)
  | none =>
      (resolveNext R peers now nextLocation 0).map
        (fun next => (next.1, next.2, false))

/-- One pass through the body of the loop; `.inl` is a `break`. -/
def coverStep
    (startLocation endLocation : Nat) (s : CoverState) :
    List PeerHash ⊕ CoverState :=
  match nextCandidate R peers now roleAge s.nextLocation with
  | none => .inl s.ret
  | some (next, containing, matured) =>
      if next.id = s.current.id then
        .inl s.ret
      else
        let moved :=
          { s with current := next }.addLength R s.nextLocation
        let isLast :=
          decide (s.coveredLength < widthToCoverScaled) &&
            decide ((widthToCoverScaled : Int) ≤ moved.coveredLength)
        let ret :=
          if isLast = false ∨ containing = true ∨
              distanceToEnd R next endLocation <
                distanceToEnd R s.current endLocation then
            addPeer s.ret next.hash
          else
            s.ret
        if isLast = true ∧ containing = false then
          .inl ret
        else
          .inr
            { moved with
              ret := ret
              maturedCoveredLength :=
                if matured then moved.coveredLength
                else moved.maturedCoveredLength
              nextLocation :=
                if endLocation ≤ startLocation ∧ moved.wrappedOnce = false then
                  next.end2
                else
                  min next.end2 endLocation }

/-- The loop, with a bound on the number of its passes. -/
def coverLoop (startLocation endLocation : Nat) :
    Nat → CoverState → Option (List PeerHash)
  | 0, _ => none
  | fuel + 1, s =>
      if s.maturedCoveredLength < widthToCoverScaled ∧
          s.coveredLength ≤ R.maxValue then
        match coverStep R peers now roleAge widthToCoverScaled
            startLocation endLocation s with
        | .inl ret => some ret
        | .inr s => coverLoop startLocation endLocation fuel s
      else
        some s.ret

/-- The variables before anything is counted. -/
def coverFirst
    (startNode : ReplicationRangeIndexable) (ret : List PeerHash) :
    CoverState :=
  { ret := addPeer ret startNode.hash
    current := startNode
    wrappedOnce := decide (startNode.end2 < startNode.end1)
    coveredLength := 0
    maturedCoveredLength := 0
    nextLocation := startNode.end2 }

/-- The state before the loop. -/
def coverInit
    (startNode : ReplicationRangeIndexable) (startLocation : Nat)
    (ret : List PeerHash) : CoverState :=
  let s := (coverFirst startNode ret).addLength R startLocation
  { s with maturedCoveredLength := s.coveredLength }

end Loop

/-- The peers that have not matured, for the option `eager`. -/
def unmaturedPeers
    (peers : ReplicationIndex) (now roleAge : Nat) (eagerFetch : Option Nat) :
    List PeerHash :=
  match eagerFetch with
  | none => []
  | some eagerFetch =>
      ((peers.filter (fun range =>
        decide ((now : Int) - roleAge ≤ range.timestamp))).take
          eagerFetch).foldl (fun ret rect => addPeer ret rect.hash) []

/-- `getCoverSet` at the time `now`.  `eager` is the number of ranges to fetch
for that option; `none` as a result means that the loop needs more than `fuel`
passes. -/
def getCoverSet
    (R : Resolution) (peers : ReplicationIndex) (now : Nat) (start : CoverStart)
    (widthToCoverScaled roleAge : Nat) (eager : Option Nat)
    (random fuel : Nat) : Option (List PeerHash) :=
  let ends :=
    getStartAndEnd R peers start widthToCoverScaled random
      { roleAgeLimit := roleAge, matured := true, now := now }
  let ret := unmaturedPeers peers now roleAge eager
  match ends.startNode with
  | none => some ret
  | some startNode =>
      (coverLoop R peers now roleAge widthToCoverScaled ends.startLocation
        ends.endLocation fuel
        (coverInit R startNode ends.startLocation ret)).map
          (fun ret =>
            match start with
            | .publicKey hashcode => addPeer ret hashcode
            | _ => ret)

/-- More passes do not change a result. -/
theorem coverLoop_mono
    {R : Resolution} {peers : ReplicationIndex}
    {now roleAge width startLocation endLocation fuel : Nat} {s : CoverState}
    {ret : List PeerHash}
    (h : coverLoop R peers now roleAge width startLocation endLocation fuel s =
      some ret) (more : Nat) :
    coverLoop R peers now roleAge width startLocation endLocation
      (fuel + more) s = some ret := by
  induction fuel generalizing s with
  | zero => simp [coverLoop] at h
  | succ fuel ih =>
      rw [Nat.succ_add]
      rw [coverLoop] at h ⊢
      split
      · rename_i hcontinue
        rw [if_pos hcontinue] at h
        cases hstep : coverStep R peers now roleAge width startLocation
            endLocation s with
        | inl out => simpa [hstep] using h
        | inr s' =>
            simp only [hstep] at h ⊢
            exact ih h
      · rename_i hstop
        rwa [if_neg hstop] at h

theorem getCoverSet_mono
    {R : Resolution} {peers : ReplicationIndex} {now : Nat}
    {start : CoverStart} {width roleAge : Nat} {eager : Option Nat}
    {random fuel : Nat} {ret : List PeerHash}
    (h : getCoverSet R peers now start width roleAge eager random fuel =
      some ret) (more : Nat) :
    getCoverSet R peers now start width roleAge eager random (fuel + more) =
      some ret := by
  unfold getCoverSet at h ⊢
  simp only at h ⊢
  split
  · rename_i hnode
    simpa only [hnode] using h
  · rename_i node hnode
    simp only [hnode] at h
    obtain ⟨out, hloop, hout⟩ := Option.map_eq_some_iff.mp h
    rw [coverLoop_mono hloop more]
    exact congrArg some hout

end SharedLog
end Peerbit
