import Peerbit.Log.HybridClock
import Peerbit.Log.Log

/-!
# The clock of a log over restarts

A log makes a new clock when it opens.  Joining an entry advances the clock
past the entry before it is stored, and an append takes its timestamp from the
clock; it is rejected when one of the heads it points to is not before it.

The steps here are the parts of `open`, `joinRecursively` and `append` that read
the clock, together with the deletions that any operation may make.
-/

namespace Peerbit
namespace Log

namespace Timestamp

theorem lt_of_not_lt {a b c : Timestamp} (hab : ¬ b < a) (hbc : b < c) :
    a < c := by
  rw [lt_iff] at *
  omega

theorem notBefore_eq_false {a b : Timestamp} :
    a.notBefore b = false ↔ a < b := by
  unfold notBefore
  rw [decide_eq_false_iff_not, not_not]
  rfl

end Timestamp

/-- A call of `EntryV0.create` in an append, with the heads it was given. -/
structure AppendCall (α : Type) where
  nexts : List SortableEntry
  result : Except LogError (Entry α)

/-- A log with its persisted index and the appends that were made, the newest
first. -/
structure ClockedLog (α : Type) where
  closed : Bool
  hlc : HLC
  index : HeadsIndex
  appends : List (AppendCall α)

/-- What an append is given: the data, the type and the id for an entry without
nexts, the key of the writer, and whether `canAppend` accepts the entry. -/
structure AppendData (α : Type) where
  data : α
  type : EntryType := .APPEND
  gid : String
  publicKey : String
  canAppend : Bool := true

inductive ClockedAction (α : Type) where
  | open_ (reading : Nat)
  | close
  /-- An entry that the log accepts is joined. -/
  | join (entry : Entry α) (isHead : Bool) (reading : Nat)
  | append (data : AppendData α) (reading : Nat)
  | delete (hash : Hash)

section Steps

variable {α σ : Type} (env : LogEnv α σ)

/-- The new clock of `open`. -/
def ClockedLog.open_ (s : ClockedLog α) (reading : Nat) : ClockedLog α :=
  { s with closed := false, hlc := HLC.create {} reading }

/-- The end of `joinRecursively`, from the update of the clock to the put. -/
def ClockedLog.join (s : ClockedLog α) (entry : Entry α) (isHead : Bool)
    (reading : Nat) : ClockedLog α :=
  match s.hlc.update reading entry.meta.clock.timestamp with
  | (.error _, hlc) => { s with hlc := hlc }
  | (.ok _, hlc) =>
      { s with hlc := hlc, index := s.index.putEntry entry isHead }

/-- `append` without a timestamp and without nexts. -/
def ClockedLog.append (s : ClockedLog α) (data : AppendData α)
    (reading : Nat) : ClockedLog α :=
  let nexts :=
    (env.sortFn.sorted (s.index.getHeads none)).map
      ShallowEntry.toSortableEntry
  match s.hlc.now reading with
  | (.error _, hlc) => { s with hlc := hlc }
  | (.ok timestamp, hlc) =>
      let result :=
        createEntry env data.data
          { type := data.type, gid := data.gid
            clock := { id := data.publicKey, timestamp := timestamp } }
          nexts
      { s with
        hlc := hlc
        appends := { nexts := nexts, result := result } :: s.appends
        index :=
          match result with
          | .ok entry =>
              if data.canAppend then s.index.putEntry entry true else s.index
          | .error _ => s.index }

def ClockedLog.delete (s : ClockedLog α) (hash : Hash) : ClockedLog α :=
  match s.index.get hash with
  | some from_ =>
      { s with index := s.index.deleteEntry hash from_.toSortableEntry }
  | none => s

def clockedStep (s : ClockedLog α) : ClockedAction α → Option (ClockedLog α)
  | .open_ reading => if s.closed then some (s.open_ reading) else none
  | .close => if s.closed then none else some { s with closed := true }
  | .join entry isHead reading =>
      if s.closed then none else some (s.join entry isHead reading)
  | .append data reading =>
      if s.closed then none else some (s.append env data reading)
  | .delete hash => if s.closed then none else some (s.delete hash)

/-- The log of an empty index, which has never been open. -/
def clockedMachine : Lib.Machine (ClockedLog α) (ClockedAction α) where
  init :=
    { closed := true, hlc := HLC.create {} 0, index := [], appends := [] }
  step := clockedStep env

end Steps

section AppendsRight

variable {α σ : Type} {env : LogEnv α σ}

/-- The append is not rejected, and its entry is later than its nexts. -/
def AppendRight (call : AppendCall α) : Prop :=
  ∃ entry, call.result = .ok entry ∧
    ∀ n ∈ call.nexts,
      n.meta.clock.timestamp < entry.meta.clock.timestamp

/-- When the log opens, no entry of its index is later than the new clock. -/
def ClockedClean (s : ClockedLog α) : ClockedAction α → Prop
  | .open_ reading =>
      ∀ e ∈ s.index.sortables,
        ¬ (⟨reading, 0⟩ : Timestamp) < e.meta.clock.timestamp
  | _ => True

/-- While the log is open, its clock is not behind its entries. -/
structure ClockedInv (s : ClockedLog α) : Prop where
  keyed : s.index.Keyed
  ahead : s.closed = false →
    ∀ e ∈ s.index.sortables, ¬ s.hlc.last < e.meta.clock.timestamp
  right : ∀ call ∈ s.appends, AppendRight call

/-- An entry that is created carries the clock it is given, and all nexts are
before it. -/
theorem createEntry_ok_iff {data : α} (options : AppendOptions α)
    {nexts : List SortableEntry} :
    (∃ entry, createEntry env data options nexts = .ok entry) ↔
      ∀ n ∈ nexts, n.meta.clock.timestamp < options.clock.timestamp := by
  unfold createEntry
  cases hfind : nexts.find? (fun n =>
      n.meta.clock.timestamp.notBefore options.clock.timestamp) with
  | some n =>
      refine ⟨fun ⟨_, h⟩ => (nomatch h), fun h => ?_⟩
      have hn := List.find?_some hfind
      rw [Timestamp.notBefore_eq_false.mpr
        (h n (List.mem_of_find?_eq_some hfind))] at hn
      exact nomatch hn
  | none =>
      refine ⟨fun _ n hn => ?_, fun _ => ⟨_, rfl⟩⟩
      have hnot := List.find?_eq_none.mp hfind n hn
      exact Timestamp.notBefore_eq_false.mp (Bool.eq_false_iff.mpr hnot)

theorem createEntry_clock {data : α} {options : AppendOptions α}
    {nexts : List SortableEntry} {entry : Entry α}
    (h : createEntry env data options nexts = .ok entry) :
    entry.meta.clock = options.clock := by
  unfold createEntry at h
  split at h
  · exact nomatch h
  · obtain rfl := Except.ok.inj h
    rfl

theorem not_lt_of_putEntry {index : HeadsIndex} (hkeyed : index.Keyed)
    {entry : Entry α} {isHead : Bool} {t : Timestamp}
    (hold : ∀ e ∈ index.sortables, ¬ t < e.meta.clock.timestamp)
    (hnew : ¬ t < entry.meta.clock.timestamp) :
    ∀ e ∈ (index.putEntry entry isHead).sortables,
      ¬ t < e.meta.clock.timestamp := by
  intro e he
  rcases (HeadsIndex.mem_sortables_putEntry hkeyed).mp he with rfl | ⟨he, _⟩
  · exact hnew
  · exact hold e he

theorem ClockedInv.join {s : ClockedLog α} (h : ClockedInv s)
    (hopen : s.closed = false) (entry : Entry α) (isHead : Bool)
    (reading : Nat) : ClockedInv (s.join entry isHead reading) := by
  unfold ClockedLog.join
  rcases s.hlc.update_cases reading entry.meta.clock.timestamp with
    ⟨e, he⟩ | ⟨t, ht, hlast, hentry, _⟩
  · rw [he]
    exact h
  · rw [ht]
    refine
      { keyed := HeadsIndex.Keyed.putEntry h.keyed entry isHead
        ahead := fun _ => not_lt_of_putEntry h.keyed ?_ ?_
        right := h.right }
    · intro e he hlt
      exact h.ahead hopen e he (Timestamp.lt_trans hlast hlt)
    · exact fun hlt => Timestamp.lt_irrefl _ (Timestamp.lt_trans hlt hentry)

theorem ClockedInv.append {s : ClockedLog α} (h : ClockedInv s)
    (hopen : s.closed = false) (data : AppendData α) (reading : Nat) :
    ClockedInv (s.append env data reading) := by
  unfold ClockedLog.append
  rcases s.hlc.update_cases reading s.hlc.last with
    ⟨e, he⟩ | ⟨t, ht, hlast, _⟩
  · rw [HLC.now, he]
    exact h
  · rw [HLC.now, ht]
    have hahead : ∀ e ∈ s.index.sortables, ¬ t < e.meta.clock.timestamp :=
      fun e he hlt => h.ahead hopen e he (Timestamp.lt_trans hlast hlt)
    have hnexts : ∀ n ∈ (env.sortFn.sorted (s.index.getHeads none)).map
        ShallowEntry.toSortableEntry, n.meta.clock.timestamp < t := by
      intro n hn
      obtain ⟨e, he, rfl⟩ := List.mem_map.mp hn
      have hhead := (List.perm_insertionSort _ _).mem_iff.mp he
      have hmem : e ∈ s.index := (List.mem_filter.mp hhead).1
      exact Timestamp.lt_of_not_lt (h.ahead hopen _
        (HeadsIndex.mem_sortables.mpr ⟨e, hmem, rfl⟩)) hlast
    obtain ⟨entry, hentry⟩ := createEntry_ok_iff
      { type := data.type, gid := data.gid
        clock := { id := data.publicKey, timestamp := t } } |>.mpr hnexts
    have hclock := createEntry_clock hentry
    dsimp only
    rw [hentry]
    refine { keyed := ?keyed, ahead := ?ahead, right := ?right }
    case keyed =>
      dsimp only
      split
      · exact HeadsIndex.Keyed.putEntry h.keyed entry true
      · exact h.keyed
    case ahead =>
      intro _
      dsimp only
      split
      · refine not_lt_of_putEntry h.keyed hahead ?_
        rw [hclock]
        exact Timestamp.lt_irrefl t
      · exact hahead
    case right =>
      intro call hcall
      rcases List.mem_cons.mp hcall with rfl | hcall
      · exact ⟨entry, rfl, fun n hn => hclock ▸ hnexts n hn⟩
      · exact h.right call hcall

theorem ClockedInv.delete {s : ClockedLog α} (h : ClockedInv s) (hash : Hash) :
    ClockedInv (s.delete hash) := by
  unfold ClockedLog.delete
  split
  · rename_i from_ _
    refine
      { keyed := HeadsIndex.Keyed.deleteEntry h.keyed hash _
        ahead := fun hopen e he => ?_, right := h.right }
    exact h.ahead hopen e
      ((HeadsIndex.mem_sortables_deleteEntry h.keyed).mp he).1
  · exact h

theorem clockedInv_step {s s' : ClockedLog α} {a : ClockedAction α}
    (h : ClockedInv s) (hclean : ClockedClean s a)
    (hstep : clockedStep env s a = some s') : ClockedInv s' := by
  cases a with
  | open_ reading =>
      obtain ⟨_, hs⟩ := Option.ite_none_right_eq_some.mp hstep
      obtain rfl := Option.some.inj hs
      exact { keyed := h.keyed, ahead := fun _ => hclean, right := h.right }
  | close =>
      obtain ⟨_, hs⟩ := Option.ite_none_left_eq_some.mp hstep
      obtain rfl := Option.some.inj hs
      exact
        { keyed := h.keyed, ahead := fun hopen => (nomatch hopen)
          right := h.right }
  | join entry isHead reading =>
      obtain ⟨hopen, hs⟩ := Option.ite_none_left_eq_some.mp hstep
      exact Option.some.inj hs ▸
        h.join (Bool.eq_false_iff.mpr hopen) entry isHead reading
  | append data reading =>
      obtain ⟨hopen, hs⟩ := Option.ite_none_left_eq_some.mp hstep
      exact Option.some.inj hs ▸
        h.append (Bool.eq_false_iff.mpr hopen) data reading
  | delete hash =>
      obtain ⟨_, hs⟩ := Option.ite_none_left_eq_some.mp hstep
      exact Option.some.inj hs ▸ h.delete hash

/-- When the log never opens with a clock behind its entries, no append is
rejected and all appended entries are later than their nexts. -/
theorem appendRight_of_cleanRun {s : ClockedLog α}
    (hrun : (clockedMachine env).Run ClockedClean s) :
    ∀ call ∈ s.appends, AppendRight call := by
  refine ClockedInv.right (hrun.invariant ?_
    (fun _ _ _ h hclean hstep => clockedInv_step h hclean hstep))
  exact
    { keyed := List.nodup_nil, ahead := fun hopen => (nomatch hopen)
      right := fun _ hcall => absurd hcall List.not_mem_nil }

end AppendsRight

/-! ### A writer whose clock is ahead -/

namespace AheadWriter

def env : LogEnv Nat Unit where
  sortFn := LastWriteWins
  canAppend app s _ := (.ok true, { app := app, cache := s.cache })
  onChange app s _ := (.ok (), { app := app, cache := s.cache })
  trim := none
  canTrim _ _ _ := true
  cacheId _ _ := none
  remote _ := none
  hashOf _ data := toString data
  byteLengthOf _ := 1

/-- An entry of a writer whose physical clock shows 100. -/
def entry : Entry Nat where
  hash := "a"
  «meta» :=
    { clock := { id := "w", timestamp := ⟨100, 0⟩ }, gid := "g", next := []
      type := .APPEND }
  payload := 1
  payloadSize := 1

def data : AppendData Nat := { data := 2, gid := "g", publicKey := "v" }

def state (actions : List (ClockedAction Nat)) : ClockedLog Nat :=
  ((clockedMachine env).exec (clockedMachine env).init actions).getD
    (clockedMachine env).init

def actions : List (ClockedAction Nat) :=
  [.open_ 10, .join entry true 11, .close, .open_ 12, .append data 13]

/-- After the log is opened again, its clock is behind the head. -/
theorem not_appendRight :
    (clockedMachine env).Run Lib.Machine.Free (state actions) ∧
      ¬ ∀ call ∈ (state actions).appends, AppendRight call := by
  refine ⟨.of_exec .init actions rfl, fun h => ?_⟩
  obtain ⟨entry, hentry, _⟩ := h
    { nexts := [entry.toSortableEntry], result := .error (.nextNotBefore "a") }
    (.head _)
  exact nomatch hentry

/-- Without the restart the append is right. -/
theorem appendRight_joined :
    ∃ s, (clockedMachine env).Run ClockedClean s ∧ s.appends.length = 1 ∧
      ∀ call ∈ s.appends, AppendRight call := by
  have hrun : (clockedMachine env).Run ClockedClean
      (state [.open_ 10, .join entry true 11, .append data 13]) :=
    .step (a := .append data 13)
      (.step (a := .join entry true 11)
        (.step (a := .open_ 10) .init
          (fun _ he => absurd he List.not_mem_nil) rfl)
        trivial rfl)
      trivial rfl
  exact ⟨_, hrun, rfl, appendRight_of_cleanRun hrun⟩

end AheadWriter

end Log
end Peerbit
