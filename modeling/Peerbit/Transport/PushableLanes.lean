import Peerbit.Lib.Fifos
import Peerbit.Lib.Machines

/-!
# Pushable lanes

Values are pushed into lanes, of which lower ones are read first.  A value is
handed to a consumer that waits, or else buffered.  The end is a marker in lane
zero.

A run has one producer and one consumer with at most one call of `next` that is
not answered.
-/

namespace Peerbit
namespace Transport

universe u v

/-- What is put into a lane.  A value knows its lane; nothing reads this but the
proofs. -/
inductive Next (V : Type u) where
  | value (lane : Nat) (value : V)
  | done
deriving Repr, DecidableEq

/-- The iterable and its consumer: the lanes, whether a call of `next` waits,
and, oldest first, what the consumer has received and what was pushed. -/
structure LanesState {V : Type u} (F : Lib.Fifo.{u, v} (Next V)) where
  lanes : List F.Queue
  onNext : Bool
  ended : Bool
  received : List (Next V)
  pushed : List (Next V)

inductive LanesAction (V : Type u) where
  | push (value : V) (lane : Nat)
  | end_
  | next
deriving Repr, DecidableEq

section Steps

variable {V : Type u} (F : Lib.Fifo.{u, v} (Next V))

/-- The number of lanes: the option, or one. -/
def lanesOf (lanes : Option Nat) : Nat :=
  match lanes with
  | some (n + 1) => n + 1
  | _ => 1

theorem lanesOf_pos (lanes : Option Nat) : 0 < lanesOf lanes := by
  unfold lanesOf
  split <;> omega

/-- `getNext`, answering the consumer. -/
def LanesState.getNext {F : Lib.Fifo.{u, v} (Next V)} (s : LanesState F) :
    LanesState F :=
  let shifted := F.shiftLanes s.lanes
  { s with
    lanes := shifted.2
    received := s.received ++ [shifted.1.getD .done] }

def LanesState.waitNext {F : Lib.Fifo.{u, v} (Next V)} (s : LanesState F) :
    LanesState F :=
  if F.lanesEmpty s.lanes = false then
    s.getNext
  else if s.ended then
    { s with received := s.received ++ [Next.done] }
  else
    { s with onNext := true }

def LanesState.bufferNext {F : Lib.Fifo.{u, v} (Next V)} (s : LanesState F)
    (next : Next V) (lane : Nat) : LanesState F :=
  let pushed := { s with lanes := F.pushLane s.lanes lane next }
  if s.onNext then { pushed with onNext := false }.getNext else pushed

def LanesState.push {F : Lib.Fifo.{u, v} (Next V)} (s : LanesState F)
    (value : V) (lane : Nat) : LanesState F :=
  if s.ended then
    s
  else
    { s with pushed := s.pushed ++ [Next.value lane value] }.bufferNext
      (.value lane value) lane

def LanesState.end_ {F : Lib.Fifo.{u, v} (Next V)} (s : LanesState F) :
    LanesState F :=
  if s.ended then s else { s with ended := true }.bufferNext .done 0

def lanesStep (s : LanesState F) : LanesAction V → Option (LanesState F)
  | .push value lane =>
      if lane < s.lanes.length then some (s.push value lane) else none
  | .end_ => some s.end_
  | .next => if s.onNext then none else some s.waitNext

def lanesMachine (lanes : Option Nat) :
    Lib.Machine (LanesState F) (LanesAction V) where
  init :=
    { lanes := List.replicate (lanesOf lanes) F.new, onNext := false
      ended := false, received := [], pushed := [] }
  step := lanesStep F

end Steps

/-! ### Delivery -/

section Delivery

variable {V : Type u} {F : Lib.Fifo.{u, v} (Next V)}

/-- The values of a lane. -/
def laneValues (i : Nat) (nexts : List (Next V)) : List V :=
  nexts.filterMap (fun next =>
    match next with
    | .value lane value => if lane = i then some value else none
    | .done => none)

@[simp] theorem laneValues_nil (i : Nat) :
    laneValues i ([] : List (Next V)) = [] := rfl

@[simp] theorem laneValues_append (i : Nat) (xs ys : List (Next V)) :
    laneValues i (xs ++ ys) = laneValues i xs ++ laneValues i ys :=
  List.filterMap_append

theorem laneValues_singleton_of_ne {i j : Nat} (value : V) (h : j ≠ i) :
    laneValues i [Next.value j value] = [] := by
  simp [laneValues, h]

@[simp] theorem laneValues_done (i : Nat) :
    laneValues i [(Next.done : Next V)] = [] := rfl

/-- Every value is received or still buffered, in the order of its lane, and
`done` is only received after all values. -/
structure LaneDelivery (s : LanesState F) : Prop where
  conserved : ∀ i, laneValues i s.received ++
    laneValues i (F.laneContents s.lanes i) = laneValues i s.pushed
  done : ∀ before after, s.received = before ++ .done :: after →
    ∀ i, laneValues i before = laneValues i s.pushed

/-- The state when the consumer goes on calling `next`, until a call waits. -/
def LanesState.nexts : Nat → LanesState F → LanesState F
  | 0, s => s
  | n + 1, s => if s.onNext then s else s.waitNext.nexts n

/-- Values are delivered, and a consumer that goes on receives all of them. -/
structure AllDelivered (s : LanesState F) : Prop extends LaneDelivery s where
  drained : ∃ n, ∀ i, laneValues i (s.nexts n).received = laneValues i s.pushed

/-- When the iterable is ended, only lane zero has values. -/
def LanesClean (s : LanesState F) : LanesAction V → Prop
  | .end_ => s.ended = false → ∀ i, 0 < i → F.laneContents s.lanes i = []
  | _ => True

/-- The lanes hold values of their own.  When the iterable is ended, the marker
comes after all values, until it is received. -/
structure LanesInv (s : LanesState F) : Prop where
  delivery : LaneDelivery s
  positive : 0 < s.lanes.length
  tagged : ∀ i, ∀ next ∈ F.laneContents s.lanes i, next ≠ .done →
    ∃ value, next = .value i value
  waiting : s.onNext = true →
    s.ended = false ∧ ∀ i, F.laneContents s.lanes i = []
  unmarked : s.ended = false → .done ∉ s.received ∧
    ∀ i, .done ∉ F.laneContents s.lanes i
  marked : s.ended = true → ∀ i, F.laneContents s.lanes i = [] ∨
    i = 0 ∧ ∃ values, .done ∉ values ∧
      F.laneContents s.lanes 0 = values ++ [.done]
  finished : .done ∈ s.received → ∀ i, F.laneContents s.lanes i = []

/-- Splitting a list with one more element at an occurrence of another. -/
theorem split_snoc {α : Type u} {xs before after : List α} {x y : α}
    (h : xs ++ [x] = before ++ y :: after) :
    (after = [] ∧ x = y ∧ xs = before) ∨
      ∃ after', after = after' ++ [x] ∧ xs = before ++ y :: after' := by
  rcases List.eq_nil_or_concat after with rfl | ⟨after', z, rfl⟩
  · obtain ⟨hxs, hx⟩ := List.append_inj' h rfl
    exact .inl ⟨rfl, List.singleton_inj.mp hx, hxs⟩
  · rw [List.concat_eq_append, ← List.cons_append, ← List.append_assoc] at h
    obtain ⟨hxs, hx⟩ := List.append_inj' h rfl
    obtain rfl := List.singleton_inj.mp hx
    exact .inr ⟨after', List.concat_eq_append, hxs⟩

/-- When all lanes are empty, all values are received. -/
theorem LaneDelivery.all_received {s : LanesState F} (h : LaneDelivery s)
    (hempty : ∀ i, F.laneContents s.lanes i = []) (i : Nat) :
    laneValues i s.received = laneValues i s.pushed := by
  rw [← h.conserved i, hempty i, laneValues_nil, List.append_nil]

/-- Receiving the end of an ended iterable that is empty. -/
theorem LanesInv.receiveDone {s : LanesState F} (h : LanesInv s)
    (hended : s.ended = true)
    (hempty : ∀ i, F.laneContents s.lanes i = []) :
    LanesInv { s with received := s.received ++ [Next.done] } where
  delivery :=
    { conserved := by
        intro i
        rw [laneValues_append, laneValues_done, List.append_nil]
        exact h.delivery.conserved i
      done := by
        intro before after hsplit i
        rcases split_snoc hsplit with ⟨_, _, rfl⟩ | ⟨after', _, hold⟩
        · exact h.delivery.all_received hempty i
        · exact h.delivery.done before after' hold i }
  positive := h.positive
  tagged := h.tagged
  waiting := h.waiting
  unmarked hopen := nomatch hended.symm.trans hopen
  marked := h.marked
  finished _ := hempty

/-- Reading from lanes that are not empty, when no call waits. -/
theorem LanesInv.getNext {s : LanesState F} (h : LanesInv s)
    (hwait : s.onNext = false)
    (hsome : ¬ ∀ i, F.laneContents s.lanes i = []) : LanesInv s.getNext := by
  obtain ⟨i, next, hnext, hcons, _, hothers⟩ := F.shiftLanes_some hsome
  have hreceived : s.getNext.received = s.received ++ [next] := by
    show s.received ++ [(F.shiftLanes s.lanes).1.getD .done] = _
    rw [hnext]
    rfl
  have hunfinished : .done ∉ s.received := fun hdone => hsome (h.finished hdone)
  have hlanes : ∀ j, ∀ x ∈ F.laneContents s.getNext.lanes j,
      x ∈ F.laneContents s.lanes j := by
    intro j x hx
    by_cases hj : j = i
    · subst hj
      rw [hcons]
      exact List.mem_cons_of_mem next hx
    · exact hothers j hj ▸ hx
  -- the marker is the last that is read
  have hlast : next = .done → ∀ j, F.laneContents s.getNext.lanes j = [] := by
    rintro rfl j
    have hended : s.ended = true := by
      by_contra hopen
      refine (h.unmarked (Bool.eq_false_iff.mpr hopen)).2 i ?_
      rw [hcons]
      exact List.mem_cons_self
    by_cases hj : j = i
    · subst hj
      rcases h.marked hended j with hnil | ⟨rfl, values, hvalues, heq⟩
      · exact nomatch hnil.symm.trans hcons
      · cases values with
        | nil => exact (List.cons.inj (hcons.symm.trans heq)).2
        | cons x values =>
            have hx := (List.cons.inj (hcons.symm.trans heq)).1
            exact absurd (hx ▸ List.mem_cons_self) hvalues
    · rw [show F.laneContents s.getNext.lanes j = _ from hothers j hj]
      rcases h.marked hended j with hnil | ⟨rfl, _⟩
      · exact hnil
      · rcases h.marked hended i with hnil | ⟨rfl, _⟩
        · exact nomatch hnil.symm.trans hcons
        · exact absurd rfl hj
  have hconserved : ∀ j, laneValues j [next] ++
      laneValues j (F.laneContents s.getNext.lanes j) =
        laneValues j (F.laneContents s.lanes j) := by
    intro j
    by_cases hj : j = i
    · subst hj
      rw [hcons, ← laneValues_append]
      rfl
    · have hnone : laneValues j [next] = [] := by
        cases next with
        | done => rfl
        | value lane value =>
            obtain ⟨_, hvalue⟩ := h.tagged i (.value lane value)
              (hcons ▸ List.mem_cons_self) (fun hnot => nomatch hnot)
            obtain ⟨rfl, _⟩ := Next.value.inj hvalue
            exact laneValues_singleton_of_ne value (Ne.symm hj)
      rw [hnone, List.nil_append]
      exact congrArg (laneValues j) (hothers j hj)
  have hdelivery : LaneDelivery s.getNext := by
    refine ⟨fun j => ?_, fun before after hsplit j => ?_⟩
    · rw [hreceived, laneValues_append, List.append_assoc, hconserved]
      exact h.delivery.conserved j
    · rw [hreceived] at hsplit
      rcases split_snoc hsplit with ⟨_, rfl, rfl⟩ | ⟨after', _, hold⟩
      · have hall := h.delivery.conserved j
        rw [← hconserved j, hlast rfl j, laneValues_nil, laneValues_done,
          List.append_nil, List.append_nil] at hall
        exact hall
      · refine absurd ?_ hunfinished
        rw [hold]
        exact List.mem_append_right _ List.mem_cons_self
  refine
    { delivery := hdelivery
      positive := ?positive, tagged := ?tagged
      waiting := fun hnot => nomatch hwait.symm.trans hnot
      unmarked := ?unmarked, marked := ?marked, finished := ?finished }
  case positive =>
    exact (F.length_shiftLanes s.lanes).symm ▸ h.positive
  case tagged =>
    intro j x hx
    exact h.tagged j x (hlanes j x hx)
  case unmarked =>
    intro hopen
    obtain ⟨_, hnone⟩ := h.unmarked hopen
    refine ⟨fun hdone => ?_, fun j hdone => hnone j (hlanes j _ hdone)⟩
    rw [hreceived] at hdone
    rcases List.mem_append.mp hdone with hdone | hdone
    · exact hunfinished hdone
    · obtain rfl := List.mem_singleton.mp hdone
      exact hnone i (hcons ▸ List.mem_cons_self)
  case marked =>
    intro hended j
    rcases h.marked hended j with hnil | ⟨rfl, values, hvalues, heq⟩
    · exact .inl (List.eq_nil_iff_forall_not_mem.mpr
        (fun x hx => List.not_mem_nil (hnil ▸ hlanes j x hx)))
    · by_cases hi : i = 0
      · subst hi
        cases values with
        | nil => exact .inl (List.cons.inj (hcons.symm.trans heq)).2
        | cons x values =>
            exact .inr ⟨rfl, values,
              fun hnot => hvalues (List.mem_cons_of_mem x hnot),
              (List.cons.inj (hcons.symm.trans heq)).2⟩
      · exact .inr ⟨rfl, values, hvalues,
          (hothers 0 (Ne.symm hi)).trans heq⟩
  case finished =>
    intro hdone
    rw [hreceived] at hdone
    rcases List.mem_append.mp hdone with hdone | hdone
    · exact absurd hdone hunfinished
    · exact hlast (List.mem_singleton.mp hdone).symm

/-- Handing over is putting into the lane, and then reading if a call waits. -/
theorem LanesInv.bufferNext {s : LanesState F} {next : Next V} {lane : Nat}
    (hlane : lane < s.lanes.length)
    (h : LanesInv { s with
      lanes := F.pushLane s.lanes lane next, onNext := false }) :
    LanesInv (s.bufferNext next lane) := by
  by_cases hwait : s.onNext = true
  · rw [LanesState.bufferNext, if_pos hwait]
    refine h.getNext rfl (fun hempty => ?_)
    have hpushed : F.laneContents (F.pushLane s.lanes lane next) lane = [] :=
      hempty lane
    rw [F.laneContents_pushLane _ _ _ _ hlane, if_pos rfl] at hpushed
    simp at hpushed
  · rw [LanesState.bufferNext, if_neg hwait]
    rw [← Bool.eq_false_iff.mpr hwait] at h
    exact h

theorem LanesInv.push {s : LanesState F} (h : LanesInv s) {lane : Nat}
    (hlane : lane < s.lanes.length) (value : V) :
    LanesInv (s.push value lane) := by
  by_cases hopen : s.ended = true
  · rw [LanesState.push, if_pos hopen]
    exact h
  · rw [LanesState.push, if_neg hopen]
    have hended := Bool.eq_false_iff.mpr hopen
    obtain ⟨hunreceived, hunmarked⟩ := h.unmarked hended
    have hcontents := fun i => F.laneContents_pushLane s.lanes lane i
      (Next.value lane value) hlane
    refine LanesInv.bufferNext hlane
      { delivery := ⟨fun i => ?_, fun before after hsplit => ?_⟩
        positive := ?_, tagged := fun i next hnext => ?_
        waiting := fun hnot => (nomatch hnot)
        unmarked := fun _ => ⟨hunreceived, fun i hdone => ?_⟩
        marked := fun hnot => nomatch hended.symm.trans hnot
        finished := fun hdone => absurd hdone hunreceived }
    · rw [hcontents i, laneValues_append, ← h.delivery.conserved i,
        List.append_assoc]
      congr 1
      split
      · rw [laneValues_append]
      · next hi => rw [laneValues_singleton_of_ne value (Ne.symm hi),
          List.append_nil]
    · refine absurd ?_ hunreceived
      rw [hsplit]
      exact List.mem_append_right _ List.mem_cons_self
    · exact (F.length_pushLane ..).symm ▸ h.positive
    · intro hvalue
      rw [hcontents i] at hnext
      split at hnext
      · next hi =>
          rcases List.mem_append.mp hnext with hold | hnew
          · exact h.tagged i next hold hvalue
          · exact ⟨value, hi ▸ List.mem_singleton.mp hnew⟩
      · exact h.tagged i next hnext hvalue
    · rw [hcontents i] at hdone
      split at hdone
      · rcases List.mem_append.mp hdone with hold | hnew
        · exact hunmarked i hold
        · exact nomatch List.mem_singleton.mp hnew
      · exact hunmarked i hdone

theorem LanesInv.end_ {s : LanesState F} (h : LanesInv s)
    (hclean : LanesClean s .end_) : LanesInv s.end_ := by
  by_cases hopen : s.ended = true
  · rw [LanesState.end_, if_pos hopen]
    exact h
  · rw [LanesState.end_, if_neg hopen]
    have hended := Bool.eq_false_iff.mpr hopen
    obtain ⟨hunreceived, hunmarked⟩ := h.unmarked hended
    have hcontents := fun i => F.laneContents_pushLane s.lanes 0 i
      Next.done h.positive
    refine LanesInv.bufferNext h.positive
      { delivery := ⟨fun i => ?_, fun before after hsplit => ?_⟩
        positive := ?_, tagged := fun i next hnext hvalue => ?_
        waiting := fun hnot => (nomatch hnot)
        unmarked := fun hnot => (nomatch hnot)
        marked := fun _ i => ?_
        finished := fun hdone => absurd hdone hunreceived }
    · rw [hcontents i, ← h.delivery.conserved i]
      congr 1
      split
      · rw [laneValues_append, laneValues_done, List.append_nil]
      · rfl
    · refine absurd ?_ hunreceived
      rw [hsplit]
      exact List.mem_append_right _ List.mem_cons_self
    · exact (F.length_pushLane ..).symm ▸ h.positive
    · rw [hcontents i] at hnext
      split at hnext
      · rcases List.mem_append.mp hnext with hold | hnew
        · exact h.tagged i next hold hvalue
        · exact absurd (List.mem_singleton.mp hnew) hvalue
      · exact h.tagged i next hnext hvalue
    · -- the marker is behind what lane zero holds, and other lanes are empty
      cases i with
      | zero => exact .inr ⟨rfl, _, hunmarked 0, hcontents 0⟩
      | succ i =>
          rw [hcontents (i + 1)]
          exact .inl (hclean hended (i + 1) (Nat.succ_pos i))

theorem LanesInv.waitNext {s : LanesState F} (h : LanesInv s)
    (hwait : s.onNext = false) : LanesInv s.waitNext := by
  by_cases hempty : F.lanesEmpty s.lanes = false
  · rw [LanesState.waitNext, if_pos hempty]
    refine h.getNext hwait (fun hall => ?_)
    exact nomatch hempty.symm.trans ((F.lanesEmpty_iff s.lanes).mpr hall)
  · rw [LanesState.waitNext, if_neg hempty]
    have hall := (F.lanesEmpty_iff s.lanes).mp (Bool.not_eq_false _ ▸ hempty)
    by_cases hended : s.ended = true
    · rw [if_pos hended]
      exact h.receiveDone hended hall
    · rw [if_neg hended]
      exact
        { delivery := ⟨h.delivery.conserved, h.delivery.done⟩
          positive := h.positive, tagged := h.tagged
          waiting := fun _ => ⟨Bool.eq_false_iff.mpr hended, hall⟩
          unmarked := h.unmarked, marked := h.marked, finished := h.finished }

theorem lanesInv_init (lanes : Option Nat) :
    LanesInv (lanesMachine F lanes).init := by
  have hempty : ∀ i, F.laneContents (lanesMachine F lanes).init.lanes i = [] :=
    F.laneContents_replicate (lanesOf lanes)
  refine
    { delivery := ⟨fun i => ?_, fun before after hsplit => ?_⟩
      positive := ?_, tagged := fun i next hnext => ?_
      waiting := fun hnot => (nomatch hnot)
      unmarked := fun _ => ⟨List.not_mem_nil, fun i => ?_⟩
      marked := fun hnot => (nomatch hnot)
      finished := fun _ => hempty }
  · rw [hempty i]
    rfl
  · exact absurd hsplit.symm (by simp [lanesMachine])
  · show 0 < (List.replicate (lanesOf lanes) F.new).length
    rw [List.length_replicate]
    exact lanesOf_pos lanes
  · exact absurd (hempty i ▸ hnext) List.not_mem_nil
  · rw [hempty i]
    exact List.not_mem_nil

theorem lanesInv_step {s s' : LanesState F} {a : LanesAction V}
    (h : LanesInv s) (hclean : LanesClean s a)
    (hstep : lanesStep F s a = some s') : LanesInv s' := by
  cases a with
  | push value lane =>
      obtain ⟨hlane, hs'⟩ := Option.ite_none_right_eq_some.mp hstep
      exact Option.some.inj hs' ▸ h.push hlane value
  | end_ => exact Option.some.inj hstep ▸ h.end_ hclean
  | next =>
      obtain ⟨hwait, hs'⟩ := Option.ite_none_left_eq_some.mp hstep
      exact Option.some.inj hs' ▸ h.waitNext (Bool.eq_false_iff.mpr hwait)


/-- Each call of `next` reads one of the values that are left. -/
theorem LanesInv.drained {s : LanesState F} (h : LanesInv s) (n : Nat)
    (hsize : F.lanesSize s.lanes = n) :
    ∀ i, laneValues i (s.nexts n).received = laneValues i s.pushed := by
  induction n generalizing s with
  | zero => exact h.delivery.all_received (F.lanesSize_eq_zero.mp hsize)
  | succ n ih =>
      have hsome : ¬ ∀ i, F.laneContents s.lanes i = [] := by
        intro hall
        exact nomatch hsize.symm.trans (F.lanesSize_eq_zero.mpr hall)
      have hwait : ¬ s.onNext = true := fun hwait => hsome (h.waiting hwait).2
      have hempty : F.lanesEmpty s.lanes = false :=
        Bool.eq_false_iff.mpr
          (fun hempty => hsome ((F.lanesEmpty_iff s.lanes).mp hempty))
      have hnext : s.waitNext = s.getNext := by
        rw [LanesState.waitNext, if_pos hempty]
      have hrest := F.lanesSize_shiftLanes hsome
      rw [LanesState.nexts, if_neg hwait, hnext]
      exact ih (h.getNext (Bool.eq_false_iff.mpr hwait) hsome) (by
        show F.lanesSize (F.shiftLanes s.lanes).2 = n
        omega)

/-- In a run whose steps are clean all values are delivered. -/
theorem allDelivered_of_cleanRun {lanes : Option Nat} {s : LanesState F}
    (hrun : (lanesMachine F lanes).Run LanesClean s) : AllDelivered s := by
  have hinv : LanesInv s :=
    hrun.invariant (lanesInv_init lanes)
      (fun _ _ _ hinv hclean hstep => lanesInv_step hinv hclean hstep)
  exact { hinv.delivery with drained := ⟨_, hinv.drained _ rfl⟩ }

end Delivery

/-! ### An end before a value -/

namespace EndedLanes

def fifo : Lib.Fifo (Next Nat) := Lib.Fifo.ofList (Next Nat)

def state (actions : List (LanesAction Nat)) : LanesState fifo :=
  ((lanesMachine fifo (some 2)).exec (lanesMachine fifo (some 2)).init
    actions).getD (lanesMachine fifo (some 2)).init

def actions : List (LanesAction Nat) := [.push 7 1, .end_, .next]

/-- The marker overtakes a value that is buffered in the second lane. -/
theorem not_allDelivered :
    (lanesMachine fifo (some 2)).Run Lib.Machine.Free (state actions) ∧
      ¬ AllDelivered (state actions) := by
  refine ⟨.of_exec .init actions rfl, fun h => ?_⟩
  exact absurd (h.done [] [] rfl 1) (by decide)

/-- The second lane is read before the end. -/
theorem allDelivered_drained :
    (state [.push 7 1, .push 8 0, .next, .next, .end_, .next]).received =
        [.value 0 8, .value 1 7, .done] ∧
      AllDelivered
        (state [.push 7 1, .push 8 0, .next, .next, .end_, .next]) := by
  have hread : (lanesMachine fifo (some 2)).Run LanesClean
      (state [.push 7 1, .push 8 0, .next, .next]) :=
    .step (a := .next)
      (.step (a := .next)
        (.step (a := .push 8 0)
          (.step (a := .push 7 1) .init trivial rfl) trivial rfl)
        trivial rfl)
      trivial rfl
  have hclean : LanesClean (state [.push 7 1, .push 8 0, .next, .next])
      .end_ :=
    fun _ i _ => (fifo.lanesEmpty_iff _).mp rfl i
  exact ⟨rfl, allDelivered_of_cleanRun
    (.step (a := .next) (.step (a := .end_) hread hclean rfl) trivial rfl)⟩

end EndedLanes

end Transport
end Peerbit
