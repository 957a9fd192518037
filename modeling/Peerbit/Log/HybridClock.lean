import Peerbit.Lib.Machines
import Peerbit.Log.Entry

/-!
# The hybrid logical clock

A clock keeps its last timestamp.  An update takes the later one of it and of a
given timestamp, and returns the physical time if that is ahead of both, or else
the next logical time after them, which carries into the wall time.

Physical readings and wall times are in nanoseconds.
-/

namespace Peerbit
namespace Log

def UINT32_MAX : Nat := 0xffffffff

def UINT64_MAX : Nat := 18446744073709551615

/-! ### The order of timestamps -/

instance : LT Timestamp :=
  ⟨fun a b => compareTimestamp a b = .lt⟩

instance (a b : Timestamp) : Decidable (a < b) :=
  inferInstanceAs (Decidable (compareTimestamp a b = .lt))

namespace Timestamp

theorem lt_iff {a b : Timestamp} :
    a < b ↔ a.wallTime < b.wallTime ∨
      a.wallTime = b.wallTime ∧ a.logical < b.logical := by
  change compareTimestamp a b = .lt ↔ _
  unfold compareTimestamp
  rw [Ordering.then_eq_lt, Nat.compare_eq_lt, Nat.compare_eq_lt,
    Nat.compare_eq_eq]

theorem lt_trans {a b c : Timestamp} (hab : a < b) (hbc : b < c) : a < c := by
  rw [lt_iff] at *
  omega

theorem lt_irrefl (a : Timestamp) : ¬ a < a := by
  rw [lt_iff]
  omega

/-- `Timestamp.bigger`. -/
def bigger (a b : Timestamp) : Timestamp :=
  if a < b then b else a

/-- What is later than the bigger of two timestamps is later than both. -/
theorem lt_of_bigger_lt {a b t : Timestamp} (h : bigger a b < t) :
    a < t ∧ b < t := by
  unfold bigger at h
  split at h
  · rename_i hab
    exact ⟨lt_trans hab h, h⟩
  · rename_i hab
    refine ⟨h, ?_⟩
    rw [lt_iff] at *
    omega

end Timestamp

/-! ### The clock -/

inductive ClockError where
  | forwardJump (timejump tolerance : Int)
  | clockOffset (offset maxOffset : Int)
  | wallTimeOverflow (time maxTime : Int)
deriving Repr, DecidableEq

structure HLC where
  maxOffset : Int
  wallTimeUpperBound : Int
  toleratedForwardClockJump : Int
  last : Timestamp
deriving Repr, DecidableEq

/-- The options of a clock, which default to zero. -/
structure HLCProperties where
  maxOffset : Int := 0
  wallTimeUpperBound : Int := 0
  toleratedForwardClockJump : Int := 0
  last : Option Timestamp := none
deriving Repr, DecidableEq

namespace HLC

/-- The constructor, with its reading of the physical clock. -/
def create (properties : HLCProperties) (reading : Nat) : HLC where
  maxOffset := properties.maxOffset
  wallTimeUpperBound := properties.wallTimeUpperBound
  toleratedForwardClockJump := properties.toleratedForwardClockJump
  last :=
    let last : Timestamp := { wallTime := reading, logical := 0 }
    match properties.last with
    | some given => Timestamp.bigger given last
    | none => last

def validateOffset (clock : HLC) (offset : Int) : Except ClockError Unit :=
  if 0 < clock.toleratedForwardClockJump ∧
      clock.toleratedForwardClockJump < -offset then
    .error (.forwardJump (-offset) clock.toleratedForwardClockJump)
  else if 0 < clock.maxOffset ∧ clock.maxOffset < offset then
    .error (.clockOffset offset clock.maxOffset)
  else
    .ok ()

/-- The configured maximum of the wall time, or that of the field. -/
def maxWallTime (clock : HLC) : Int :=
  if 0 < clock.wallTimeUpperBound then clock.wallTimeUpperBound
  else UINT64_MAX

/-- The timestamp after the last one, given a reading. -/
def successor (last : Timestamp) (reading : Nat) : Timestamp :=
  if (last.wallTime : Int) - reading < 0 then
    { wallTime := reading, logical := 0 }
  else if UINT32_MAX < last.logical + 1 then
    { wallTime := last.wallTime + 1, logical := 0 }
  else
    { wallTime := last.wallTime, logical := last.logical + 1 }

def update (clock : HLC) (reading : Nat) (other : Timestamp) :
    Except ClockError Timestamp × HLC :=
  let last := Timestamp.bigger other clock.last
  match clock.validateOffset (last.wallTime - reading) with
  | .error e => (.error e, clock)
  | .ok _ =>
      let next := successor last reading
      if clock.maxWallTime < next.wallTime then
        (.error (.wallTimeOverflow next.wallTime clock.maxWallTime), clock)
      else
        (.ok next, { clock with last := next })

def now (clock : HLC) (reading : Nat) : Except ClockError Timestamp × HLC :=
  clock.update reading clock.last

theorem lt_successor (last : Timestamp) (reading : Nat) :
    last < successor last reading := by
  rw [Timestamp.lt_iff]
  unfold successor
  split
  · left
    dsimp only
    omega
  · split
    · left
      exact Nat.lt_succ_self _
    · right
      exact ⟨rfl, Nat.lt_succ_self _⟩

theorem successor_logical (last : Timestamp) (reading : Nat) :
    (successor last reading).logical ≤ UINT32_MAX := by
  unfold successor
  split
  · exact Nat.zero_le _
  · split
    · exact Nat.zero_le _
    · rename_i h
      exact Nat.le_of_not_lt h

/-- What an update does: it throws and keeps the clock, or it returns a later
timestamp and keeps it as the last. -/
theorem update_cases (clock : HLC) (reading : Nat) (other : Timestamp) :
    (∃ e, clock.update reading other = (.error e, clock)) ∨
      ∃ t, clock.update reading other = (.ok t, { clock with last := t }) ∧
        clock.last < t ∧ other < t ∧ t.logical ≤ UINT32_MAX ∧
          (t.wallTime : Int) ≤ clock.maxWallTime := by
  unfold update
  dsimp only
  split
  · rename_i e _
    exact .inl ⟨e, rfl⟩
  · split
    · exact .inl ⟨_, rfl⟩
    · rename_i hbound
      obtain ⟨hother, hlast⟩ := Timestamp.lt_of_bigger_lt
        (lt_successor (Timestamp.bigger other clock.last) reading)
      exact .inr ⟨_, rfl, hlast, hother, successor_logical _ _,
        Int.not_lt.mp hbound⟩

end HLC

/-! ### Runs -/

/-- A call that was made, with the last timestamp around it; `other` is `none`
for a call of `now`. -/
structure ClockCall where
  other : Option Timestamp
  result : Except ClockError Timestamp
  lastBefore : Timestamp
  lastAfter : Timestamp

/-- A clock with the calls that were made, the newest first. -/
structure ClockState where
  clock : HLC
  calls : List ClockCall

inductive ClockAction where
  | now (reading : Nat)
  | update (reading : Nat) (other : Timestamp)
deriving Repr, DecidableEq

/-- The clock after a call, with the call. -/
def ClockState.called (s : ClockState) (other : Option Timestamp)
    (outcome : Except ClockError Timestamp × HLC) : ClockState where
  clock := outcome.2
  calls :=
    { other := other, result := outcome.1, lastBefore := s.clock.last
      lastAfter := outcome.2.last } :: s.calls

def clockStep (s : ClockState) : ClockAction → Option ClockState
  | .now reading => some (s.called none (s.clock.now reading))
  | .update reading other =>
      some (s.called (some other) (s.clock.update reading other))

def clockMachine (properties : HLCProperties) (reading : Nat) :
    Lib.Machine ClockState ClockAction where
  init := { clock := HLC.create properties reading, calls := [] }
  step := clockStep

/-- The timestamp was returned by the call, or accepted by it. -/
def ClockCall.Knows (call : ClockCall) (t : Timestamp) : Prop :=
  call.result = .ok t ∨ (∃ u, call.result = .ok u) ∧ call.other = some t

/-- What a call returns is later than the timestamp it was given, and within
both bounds; when it throws, the clock keeps its last timestamp. -/
structure CallRight (maxWallTime : Int) (call : ClockCall) : Prop where
  given : ∀ t r, call.result = .ok t → call.other = some r → r < t
  logical : ∀ t, call.result = .ok t → t.logical ≤ UINT32_MAX
  wallTime : ∀ t, call.result = .ok t → (t.wallTime : Int) ≤ maxWallTime
  unchanged : ∀ e, call.result = .error e → call.lastAfter = call.lastBefore

/-- All calls are right, and each returns a timestamp that is later than what
the clock knew before. -/
structure StrictlyGrows (maxWallTime : Int) (s : ClockState) : Prop where
  right : ∀ call ∈ s.calls, CallRight maxWallTime call
  grows : s.calls.Pairwise (fun newer older =>
    ∀ t, newer.result = .ok t → ∀ u, older.Knows u → u < t)

structure ClockInv (maxWallTime : Int) (s : ClockState) : Prop where
  grows : StrictlyGrows maxWallTime s
  bound : s.clock.maxWallTime = maxWallTime
  known : ∀ call ∈ s.calls, ∀ u, call.Knows u →
    u = s.clock.last ∨ u < s.clock.last

theorem clockInv_called {maxWallTime : Int} {s : ClockState}
    (h : ClockInv maxWallTime s) (reading : Nat) (other : Timestamp)
    {given : Option Timestamp} (hgiven : ∀ r, given = some r → r = other) :
    ClockInv maxWallTime
      (s.called given (s.clock.update reading other)) := by
  rcases s.clock.update_cases reading other with
    ⟨e, he⟩ | ⟨t, ht, hlast, hother, hlogical, hwall⟩
  · rw [he]
    have hnot : ∀ u, ¬ (ClockCall.mk given (.error e) s.clock.last
        s.clock.last).Knows u := by
      rintro u (hu | ⟨⟨v, hv⟩, _⟩)
      · exact nomatch hu
      · exact nomatch hv
    refine
      { grows :=
          { right := ?right, grows := List.pairwise_cons.mpr ⟨?new, h.grows.grows⟩ }
        bound := h.bound, known := ?known }
    case right =>
      intro call hcall
      rcases List.mem_cons.mp hcall with rfl | hcall
      · exact
          { given := fun _ _ hok => nomatch hok
            logical := fun _ hok => nomatch hok
            wallTime := fun _ hok => nomatch hok
            unchanged := fun _ _ => rfl }
      · exact h.grows.right call hcall
    case new =>
      intro call _ t ht
      exact nomatch ht
    case known =>
      intro call hcall u hu
      rcases List.mem_cons.mp hcall with rfl | hcall
      · exact absurd hu (hnot u)
      · exact h.known call hcall u hu
  · rw [ht]
    have hknown : ∀ call ∈ s.calls, ∀ u, call.Knows u → u < t := by
      intro call hcall u hu
      rcases h.known call hcall u hu with rfl | hlt
      · exact hlast
      · exact Timestamp.lt_trans hlt hlast
    refine
      { grows :=
          { right := ?right, grows := List.pairwise_cons.mpr ⟨?new, h.grows.grows⟩ }
        bound := h.bound, known := ?known }
    case right =>
      intro call hcall
      rcases List.mem_cons.mp hcall with rfl | hcall
      · refine
          { given := ?_, logical := ?_, wallTime := ?_
            unchanged := fun _ herror => nomatch herror }
        · intro t' r ht' hr
          obtain rfl := Except.ok.inj ht'
          exact hgiven r hr ▸ hother
        · intro t' ht'
          obtain rfl := Except.ok.inj ht'
          exact hlogical
        · intro t' ht'
          obtain rfl := Except.ok.inj ht'
          exact h.bound ▸ hwall
      · exact h.grows.right call hcall
    case new =>
      intro call hcall t' ht' u hu
      obtain rfl := Except.ok.inj ht'
      exact hknown call hcall u hu
    case known =>
      intro call hcall u hu
      rcases List.mem_cons.mp hcall with rfl | hcall
      · rcases hu with hu | ⟨_, hu⟩
        · exact .inl (Except.ok.inj hu).symm
        · exact .inr (hgiven u hu ▸ hother)
      · exact .inr (hknown call hcall u hu)

/-- In every run the clock grows strictly. -/
theorem strictlyGrows_of_run {properties : HLCProperties} {reading : Nat}
    {s : ClockState}
    (hrun : (clockMachine properties reading).Run Lib.Machine.Free s) :
    StrictlyGrows (HLC.create properties reading).maxWallTime s := by
  refine ClockInv.grows (hrun.invariant ?_ ?_)
  · exact
      { grows :=
          { right := fun _ h => absurd h List.not_mem_nil
            grows := List.Pairwise.nil }
        bound := rfl, known := fun _ h => absurd h List.not_mem_nil }
  · intro s a s' h _ hstep
    cases a with
    | now reading =>
        obtain rfl := Option.some.inj hstep
        exact clockInv_called h reading s.clock.last
          (fun _ hr => nomatch hr)
    | update reading other =>
        obtain rfl := Option.some.inj hstep
        exact clockInv_called h reading other
          (fun _ hr => (Option.some.inj hr).symm)

/-- The logical time carries into the wall time, and at both limits the clock
throws. -/
theorem strictlyGrows_carry :
    ∃ s, (clockMachine { wallTimeUpperBound := 8 } 3).Run Lib.Machine.Free s ∧
      s.calls.map (fun call => call.lastAfter) =
        [⟨8, 0⟩, ⟨8, 0⟩, ⟨7, UINT32_MAX⟩] ∧
      StrictlyGrows 8 s := by
  have hrun := Lib.Machine.Run.of_exec
    (m := clockMachine { wallTimeUpperBound := 8 } 3) .init
    [.update 5 ⟨7, UINT32_MAX - 1⟩, .now 2, .update 9 ⟨1, 0⟩] rfl
  exact ⟨_, hrun, rfl, strictlyGrows_of_run hrun⟩

end Log
end Peerbit
