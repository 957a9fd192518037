import Peerbit.Lib.Batches
import Peerbit.Lib.Machines
import Peerbit.SharedLog.DebounceChanges

/-!
# Debounced calls

`debounceFixedInterval` calls a function some time after it was asked to, and not again
before the promise of that call is settled.  Calls that come in the meantime are one call
afterwards.  `debounceAccumulator` collects the values that come in and calls the function
with all of them at once.

A timer may fire at any time, so that the delays are left out.  A callback that adds values
itself, or throws at once, does so after the accumulator was replaced: that is a step like
any other after the timer's.  With no `onError` the error of a failed call is thrown again,
after the `finally` block, and nobody handles the rejection.
-/

namespace Peerbit
namespace SharedLog

open Lib

universe u v w x y

/-- The variables of `debounceFixedInterval`, and what it has left to the runtime: the
timers that have not fired, and the runs of `invoke` that wait for the promise of `fn`.
Whether `timeout` is `null` is all that is read of it. -/
structure FixedInterval (Args : Type u) where
  timeout : Bool
  lastArgs : Option Args
  pendingCall : Bool
  isRunning : Bool
  timers : Nat
  runs : Nat
deriving Repr, DecidableEq

namespace FixedInterval

variable {Args : Type u} {ε : Type y} (d : FixedInterval Args)

def create : FixedInterval Args where
  timeout := false
  lastArgs := none
  pendingCall := false
  isRunning := false
  timers := 0
  runs := 0

/-- `timeout = setTimeout(invoke, delayFn())`. -/
def schedule : FixedInterval Args :=
  { d with timeout := true, timers := d.timers + 1 }

def debounced (args : Args) : FixedInterval Args :=
  let d := { d with lastArgs := some args, pendingCall := true }
  if d.isRunning || d.timeout then d else d.schedule

/-- A timer fires: `invoke` up to its `await`, with the arguments of the call of `fn`, if
there is one. -/
def fire : Option Args × FixedInterval Args :=
  let d := { d with timers := d.timers - 1 }
  match d.lastArgs with
  | none => (none, { d with timeout := false })
  | some args =>
      (some args,
        { d with
          lastArgs := none
          pendingCall := false
          isRunning := true
          runs := d.runs + 1 })

/-- The promise of `fn` is settled: `invoke` from its `await` on, with the error that it
ends with, if there is one.  `onError` says what the handler throws. -/
def settle (onError : ε → Option ε) (failure : Option ε) :
    Option ε × FixedInterval Args :=
  let d := { d with isRunning := false, timeout := false, runs := d.runs - 1 }
  (failure.bind onError, if d.pendingCall then d.schedule else d)

/-- A run is scheduled, or one is in progress that schedules the next one. -/
def Awaited : Prop :=
  0 < d.timers ∨ 0 < d.runs ∧ d.pendingCall = true

/-- There is one timer or one run at most, the variables say which, and a pending call has
one of them. -/
structure Sound : Prop where
  single : d.timers + d.runs ≤ 1
  running : d.isRunning = true ↔ 0 < d.runs
  timeout : d.timeout = true ↔ 0 < d.timers + d.runs
  pending : d.pendingCall = d.lastArgs.isSome
  armed : 0 < d.timers → d.pendingCall = true
  served : d.pendingCall = true → 0 < d.timers + d.runs

variable {d}

theorem Sound.awaited (h : d.Sound) (hpending : d.pendingCall = true) : d.Awaited := by
  have hserved := h.served hpending
  by_cases htimers : 0 < d.timers
  · exact .inl htimers
  · exact .inr ⟨by omega, hpending⟩

theorem sound_create : (create : FixedInterval Args).Sound := by
  constructor <;> simp [create]

theorem pendingCall_debounced (args : Args) : (d.debounced args).pendingCall = true := by
  rw [debounced]
  split <;> rfl

theorem Sound.debounced (h : d.Sound) (args : Args) : (d.debounced args).Sound := by
  have hrunning := h.running
  have htimeout := h.timeout
  have hsingle := h.single
  rw [FixedInterval.debounced]
  split
  case isTrue hbusy =>
    have hserved : 0 < d.timers + d.runs := by
      rcases Bool.or_eq_true_iff.mp hbusy with hrun | htime
      · have hpos := hrunning.mp hrun
        omega
      · exact htimeout.mp htime
    exact ⟨hsingle, hrunning, htimeout, rfl, fun _ => rfl, fun _ => hserved⟩
  case isFalse hidle =>
    simp only [Bool.or_eq_true, not_or, Bool.not_eq_true] at hidle
    have hnone : ¬ 0 < d.timers + d.runs := by
      rw [← htimeout, hidle.2]
      exact Bool.false_ne_true
    constructor
    case single => simp only [schedule]; omega
    case running => exact hrunning
    case timeout => simp only [schedule, true_iff]; omega
    case pending => rfl
    case armed => exact fun _ => rfl
    case served => simp only [schedule]; omega

/-- A timer that fires has a call to make. -/
theorem Sound.fire (h : d.Sound) (hfires : 0 < d.timers) :
    ∃ args, d.fire.1 = some args ∧ d.fire.2.Sound := by
  have hsingle := h.single
  have hsome := h.pending.symm.trans (h.armed hfires)
  obtain ⟨args, hargs⟩ := Option.isSome_iff_exists.mp hsome
  have htimeout : d.timeout = true := h.timeout.mpr (by omega)
  refine ⟨args, by simp [FixedInterval.fire, hargs], ?_⟩
  constructor <;> simp [FixedInterval.fire, hargs, htimeout]
  case single => omega
  case armed => omega

/-- A run that ends, in whatever way, leaves a timer if there is a call to make. -/
theorem Sound.settle (h : d.Sound) (hruns : 0 < d.runs) (onError : ε → Option ε)
    (failure : Option ε) :
    (d.settle onError failure).2.Sound ∧
      (d.settle onError failure).2.pendingCall = d.pendingCall := by
  have hsingle := h.single
  have hpending := h.pending
  have hruns' : d.runs = 1 := by omega
  have htimers : d.timers = 0 := by omega
  rw [FixedInterval.settle]
  cases hcall : d.pendingCall with
  | true =>
      rw [hcall] at hpending
      refine ⟨?_, by simp [schedule]⟩
      constructor <;> simp [schedule, hruns', htimers, ← hpending]
  | false =>
      rw [hcall] at hpending
      refine ⟨?_, by simp⟩
      constructor <;> simp [hruns', htimers, ← hpending]

end FixedInterval

/-! ### Accumulated values -/

/-- What `create` makes: an accumulator with its `add`, `delete` and `value`. -/
structure Accumulator (K : Type u) (T : Type v) (A : Type w) (V : Type x) where
  create : A
  add : A → T → A
  delete : A → K → A
  value : A → V

/-- A call of `add` or `delete`. -/
inductive AccumulatorCall (K : Type u) (T : Type v) where
  | add (value : T)
  | delete (key : K)
deriving Repr, DecidableEq

/-- The variables of `debounceAccumulator`, what `fn` has been called with, and the errors
that nobody handles. -/
structure DebounceAccumulator (A : Type w) (V : Type x) (ε : Type y) where
  accumulator : A
  interval : FixedInterval Unit
  calls : List V
  unhandled : List ε
deriving Repr, DecidableEq

/-- The calls of its methods, and what the runtime does: a timer fires, or the promise of
the callback is settled, with an error or without one. -/
inductive DebounceAction (K : Type u) (T : Type v) (ε : Type y) where
  | call (call : AccumulatorCall K T)
  | invoke
  | timer
  | settle (failure : Option ε)
deriving Repr, DecidableEq

section Accumulating

variable {K : Type u} {T : Type v} {A : Type w} {V : Type x} {ε : Type y}
variable (acc : Accumulator K T A V)

def Accumulator.apply (a : A) : AccumulatorCall K T → A
  | .add value => acc.add a value
  | .delete key => acc.delete a key

namespace DebounceAccumulator

variable (s : DebounceAccumulator A V ε)

def create : DebounceAccumulator A V ε where
  accumulator := acc.create
  interval := .create
  calls := []
  unhandled := []

def add (value : T) : DebounceAccumulator A V ε :=
  { s with
    accumulator := acc.add s.accumulator value
    interval := s.interval.debounced () }

def delete (key : K) : DebounceAccumulator A V ε :=
  { s with accumulator := acc.delete s.accumulator key }

/-- `invoke` up to its `await`: the accumulator is replaced before `fn` is called. -/
def invoke : DebounceAccumulator A V ε :=
  { s with accumulator := acc.create, calls := s.calls ++ [acc.value s.accumulator] }

def step : DebounceAction K T ε → Option (DebounceAccumulator A V ε)
  | .call (.add value) => some (s.add acc value)
  | .call (.delete key) => some (s.delete acc key)
  | .invoke => some (s.invoke acc)
  | .timer =>
      if 0 < s.interval.timers then
        let fired := s.interval.fire
        let s := { s with interval := fired.2 }
        some (if fired.1.isSome then s.invoke acc else s)
      else none
  | .settle failure =>
      if 0 < s.interval.runs then
        -- there is no `onError`, so that the error is thrown again
        let settled := s.interval.settle some failure
        some { s with interval := settled.2, unhandled := s.unhandled ++ settled.1.toList }
      else none

end DebounceAccumulator

/-- `debounceAccumulator`, as it is used. -/
def debounceAccumulator : Machine (DebounceAccumulator A V ε) (DebounceAction K T ε) where
  init := .create acc
  step s := s.step acc

/-- The calls of `add` and `delete` that are made by the actions. -/
def callsOf (actions : List (DebounceAction K T ε)) : List (AccumulatorCall K T) :=
  actions.filterMap fun
    | .call call => some call
    | _ => none

/-- Debounced accumulation is exactly-once.  The calls of `add` and `delete` are, in their
order, those of the batches that were handed to the callback, each with what its calls make
of a new accumulator, and those of the batch that waits.  While a value waits, a run is
scheduled, or one is in progress that schedules the next one.  Runs never overlap. -/
structure ExactlyOnce (made : List (AccumulatorCall K T)) (s : DebounceAccumulator A V ε) :
    Prop where
  batches : ∃ b : Batches (AccumulatorCall K T), b.all = made ∧
    b.Holds acc.apply acc.create acc.value s.accumulator s.calls ∧
    ∀ value, .add value ∈ b.waiting → s.interval.Awaited
  apart : s.interval.runs ≤ 1

/-! ### Runs -/

/-- What every step keeps: a value that waits has set `pendingCall`. -/
structure DebounceInv (made : List (AccumulatorCall K T)) (s : DebounceAccumulator A V ε) :
    Prop where
  sound : s.interval.Sound
  batches : ∃ b : Batches (AccumulatorCall K T), b.all = made ∧
    b.Holds acc.apply acc.create acc.value s.accumulator s.calls ∧
    ∀ value, .add value ∈ b.waiting → s.interval.pendingCall = true

variable {acc} {made : List (AccumulatorCall K T)} {s s' : DebounceAccumulator A V ε}

theorem debounceInv_init :
    DebounceInv acc [] (debounceAccumulator acc : Machine _ (DebounceAction K T ε)).init :=
  ⟨FixedInterval.sound_create, .empty, Batches.all_empty, Batches.holds_empty,
    fun _ h => absurd h List.not_mem_nil⟩

theorem DebounceInv.call (h : DebounceInv acc made s) (call : AccumulatorCall K T)
    (hstep : s.step acc (.call call) = some s') : DebounceInv acc (made ++ [call]) s' := by
  obtain ⟨hsound, b, rfl, hholds, hwaiting⟩ := h
  cases call with
  | add value =>
      obtain rfl := Option.some.inj hstep
      exact ⟨hsound.debounced (), b.add (.add value), b.all_add _, hholds.add _,
        fun _ _ => FixedInterval.pendingCall_debounced ()⟩
  | delete key =>
      obtain rfl := Option.some.inj hstep
      refine ⟨hsound, b.add (.delete key), b.all_add _, hholds.add _, fun value hvalue => ?_⟩
      rcases List.mem_append.mp hvalue with hold | hnew
      · exact hwaiting value hold
      · cases List.mem_singleton.mp hnew

/-- The accumulator is handed on: nothing waits. -/
theorem DebounceInv.invoke (h : DebounceInv acc made s) : DebounceInv acc made (s.invoke acc) := by
  obtain ⟨hsound, b, rfl, hholds, -⟩ := h
  exact ⟨hsound, b.flush, b.all_flush, hholds.flush, fun _ h => absurd h List.not_mem_nil⟩

theorem DebounceInv.timer (h : DebounceInv acc made s)
    (hstep : s.step acc .timer = some s') : DebounceInv acc made s' := by
  rw [DebounceAccumulator.step] at hstep
  obtain ⟨hfires, hstep⟩ := Option.ite_none_right_eq_some.mp hstep
  obtain ⟨args, hargs, hsound⟩ := h.sound.fire hfires
  obtain rfl := Option.some.inj hstep
  simp only [hargs, Option.isSome_some, if_true]
  obtain ⟨b, hall, hholds, -⟩ := h.batches
  exact ⟨hsound, b.flush, b.all_flush.trans hall, hholds.flush,
    fun _ h => absurd h List.not_mem_nil⟩

theorem DebounceInv.settle (h : DebounceInv acc made s) (failure : Option ε)
    (hstep : s.step acc (.settle failure) = some s') : DebounceInv acc made s' := by
  rw [DebounceAccumulator.step] at hstep
  obtain ⟨hruns, hstep⟩ := Option.ite_none_right_eq_some.mp hstep
  obtain ⟨hsound, hpending⟩ := h.sound.settle hruns some failure
  obtain rfl := Option.some.inj hstep
  obtain ⟨b, hall, hholds, hwaiting⟩ := h.batches
  exact ⟨hsound, b, hall, hholds, fun value hvalue => hpending.trans (hwaiting value hvalue)⟩

theorem DebounceInv.step (h : DebounceInv acc made s) (a : DebounceAction K T ε)
    (hstep : s.step acc a = some s') : DebounceInv acc (made ++ callsOf [a]) s' := by
  cases a with
  | call call => exact h.call call hstep
  | invoke =>
      obtain rfl := Option.some.inj hstep
      simpa [callsOf] using h.invoke
  | timer => simpa [callsOf] using h.timer hstep
  | settle failure => simpa [callsOf] using h.settle failure hstep

/-- The invariant holds after every list of actions, of the calls among them. -/
theorem debounceInv_of_exec (actions : List (DebounceAction K T ε))
    (hexec : (debounceAccumulator acc).exec (debounceAccumulator acc).init actions = some s) :
    DebounceInv acc (callsOf actions) s := by
  refine Machine.exec_invariant (fun past s => DebounceInv acc (callsOf past) s)
    debounceInv_init ?_ hexec
  intro past s a s' h hstep
  rw [callsOf, List.filterMap_append]
  exact h.step a hstep

/-- **Debounced accumulation is exactly-once.** -/
theorem exactlyOnce_of_exec (actions : List (DebounceAction K T ε))
    (hexec : (debounceAccumulator acc).exec (debounceAccumulator acc).init actions = some s) :
    ExactlyOnce acc (callsOf actions) s := by
  obtain ⟨hsound, b, hall, hholds, hwaiting⟩ := debounceInv_of_exec actions hexec
  refine ⟨⟨b, hall, hholds, fun value hvalue => hsound.awaited (hwaiting value hvalue)⟩, ?_⟩
  have hsingle := hsound.single
  omega

section Collected

/-- An accumulator that collects numbers. -/
def collected : Accumulator Nat Nat (List Nat) (List Nat) where
  create := []
  add numbers n := numbers ++ [n]
  delete numbers n := numbers.erase n
  value := id

/-- Two numbers come while the callback is slow to fail, a third one after that. -/
theorem exactlyOnce_slowCallback :
    ExactlyOnce collected [.add 1, .add 2, .add 3, .add 4]
      { accumulator := [4]
        interval :=
          { timeout := true, lastArgs := some (), pendingCall := true, isRunning := true
            timers := 0, runs := 1 }
        calls := [[1], [2, 3]]
        unhandled := ["failed"] } :=
  exactlyOnce_of_exec
    [.call (.add 1), .timer, .call (.add 2), .call (.add 3), .settle (some "failed"), .timer,
      .call (.add 4)]
    rfl

end Collected

/-! ### What waits is handed on -/

variable (acc) in
theorem calls_timer (h : s.interval.Sound) (hfires : 0 < s.interval.timers) :
    ∃ s' : DebounceAccumulator A V ε, s.step acc (.timer : DebounceAction K T ε) = some s' ∧
      s'.calls = s.calls ++ [acc.value s.accumulator] := by
  obtain ⟨args, hargs, -⟩ := h.fire hfires
  refine ⟨{ s with interval := s.interval.fire.2 }.invoke acc, ?_, rfl⟩
  simp [DebounceAccumulator.step, hfires, hargs]

/-- The waiting batch is handed on when the timer fires, which it does after the run in
progress has ended, in whatever way. -/
theorem handed_of_awaited (h : DebounceInv acc made s) (hawaited : s.interval.Awaited)
    (failure : Option ε) :
    ∃ (actions : List (DebounceAction K T ε)) (s' : DebounceAccumulator A V ε),
      (actions = [.timer] ∨ actions = [.settle failure, .timer]) ∧
        (debounceAccumulator acc).exec s actions = some s' ∧
        s'.calls = s.calls ++ [acc.value s.accumulator] := by
  rcases hawaited with hfires | ⟨hruns, hpending⟩
  · obtain ⟨s', hstep, hcalls⟩ := calls_timer acc h.sound hfires
    refine ⟨[.timer], s', .inl rfl, ?_, hcalls⟩
    simp [Machine.exec, debounceAccumulator, hstep]
  · -- the run that ends schedules the next one
    have hsettled := (h.sound.settle hruns some failure).1
    have hfires : 0 < (s.interval.settle some failure).2.timers := by
      simp [FixedInterval.settle, FixedInterval.schedule, hpending]
    let t : DebounceAccumulator A V ε :=
      { s with
        interval := (s.interval.settle some failure).2
        unhandled := s.unhandled ++ (s.interval.settle some failure).1.toList }
    have hsettle : s.step acc (.settle failure) = some t := if_pos hruns
    obtain ⟨s', hstep, hcalls⟩ := calls_timer acc (s := t) hsettled hfires
    refine ⟨[.settle failure, .timer], s', .inr rfl, ?_, hcalls⟩
    simp [Machine.exec, debounceAccumulator, hsettle, hstep]

end Accumulating

/-! ### Replication changes -/

section ReplicationChanges

def DebouncedChanges.delete (s : DebouncedChanges) (key : String) : DebouncedChanges where
  aggregated := s.aggregated.delete key

/-- The accumulator of `debounceAggregationChanges`.  Its callback hands on the changes of
the map, if there are any (`DebouncedChanges.invoke`). -/
def debounceAggregationChanges :
    Accumulator String ReplicationChange DebouncedChanges DebouncedChanges where
  create := .create
  add := .add
  delete := .delete
  value := id

/-- The values that are added by these calls. -/
def addedBy {K : Type u} {T : Type v} (calls : List (AccumulatorCall K T)) : List T :=
  calls.filterMap fun
    | .add value => some value
    | .delete _ => none

theorem map_addedBy {K : Type u} {T : Type v} {calls : List (AccumulatorCall K T)}
    (h : ∀ call ∈ calls, ∃ value, call = .add value) :
    (addedBy calls).map .add = calls := by
  induction calls with
  | nil => rfl
  | cons call calls ih =>
      obtain ⟨value, rfl⟩ := h call List.mem_cons_self
      have hrest := ih fun other hother => h other (List.mem_cons_of_mem _ hother)
      exact congrArg (AccumulatorCall.add value :: ·) hrest

/-- The changes that are debounced come to the callback in batches, each of which is what
the aggregation makes of its changes; every change is in one of them, or still waits. -/
theorem handed_of_exec {ε : Type y} {s : DebounceAccumulator DebouncedChanges DebouncedChanges ε}
    (actions : List (DebounceAction String ReplicationChange ε))
    (hadds : ∀ call ∈ callsOf actions, ∃ change, call = .add change)
    (hexec : (debounceAccumulator debounceAggregationChanges).exec
      (debounceAccumulator debounceAggregationChanges).init actions = some s) :
    ∃ (batches : List (List ReplicationChange)) (waiting : List ReplicationChange),
      addedBy (callsOf actions) = batches.flatten ++ waiting ∧
        s.calls = batches.map DebouncedChanges.feed := by
  obtain ⟨-, b, hall, hholds, -⟩ := debounceInv_of_exec actions hexec
  rw [← hall] at hadds ⊢
  refine ⟨b.handed.map addedBy, addedBy b.waiting, ?_, ?_⟩
  · rw [Batches.all, addedBy, List.filterMap_append, List.filterMap_flatten]
    rfl
  · rw [hholds.handed, List.map_map]
    refine List.map_congr_left fun batch hbatch => ?_
    have hbatchAdds : ∀ call ∈ batch, ∃ change, call = .add change := fun call hcall =>
      hadds call (List.mem_append_left _ (List.mem_flatten_of_mem hbatch hcall))
    conv_lhs => rw [← map_addedBy hbatchAdds]
    rw [List.foldl_map]
    rfl

end ReplicationChanges

end SharedLog
end Peerbit
