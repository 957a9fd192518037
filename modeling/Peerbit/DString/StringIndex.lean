import Peerbit.Log.ToArray

/-!
# A string from a log

A string index goes over the entries of its log in order.  Each replaces a range
of the string by a value, or deletes the range.

Strings are lists of UTF-16 code units.  An engine has a longest string; making
a longer one is an error.  Offsets below this bound are exact as numbers.
-/

namespace Peerbit
namespace DString

open Log

abbrev CodeUnits := List UInt16

structure Range where
  offset : Nat
  length : Nat
deriving Repr, DecidableEq

structure StringOperation where
  index : Range
  value : Option CodeUnits
deriving Repr, DecidableEq

/-- `RangeError: Invalid string length`. -/
structure RangeError where
  length : Nat
deriving Repr, DecidableEq

section Operations

variable (maxLength : Nat)

/-- A string that is not too long. -/
def checkLength (s : CodeUnits) : Except RangeError CodeUnits :=
  if s.length ≤ maxLength then .ok s else .error ⟨s.length⟩

/-- `padEnd` with spaces. -/
def padEnd (s : CodeUnits) (targetLength : Nat) : Except RangeError CodeUnits :=
  if targetLength ≤ s.length then
    .ok s
  else if maxLength < targetLength then
    .error ⟨targetLength⟩
  else
    .ok (s ++ List.replicate (targetLength - s.length) 32)

def applyOperation (s : CodeUnits) (operation : StringOperation) :
    Except RangeError CodeUnits :=
  let offset := operation.index.offset
  let to_ := offset + operation.index.length
  match operation.value with
  | some value =>
      match padEnd maxLength s to_ with
      | .error e => .error e
      | .ok s => checkLength maxLength (s.take offset ++ value ++ s.drop to_)
  | none => .ok (s.take offset ++ s.drop to_)

variable {α σ : Type} (getValue : α → StringOperation)

/-- The `reduce` of `applyOperations`, with the hashes it has handled. -/
def applyOperations :
    List (Entry α) → List Hash → CodeUnits → Except RangeError CodeUnits
  | [], _, string => .ok string
  | item :: items, handled, string =>
      if item.hash ∈ handled then
        applyOperations items handled string
      else
        match applyOperation maxLength string (getValue item.payload) with
        | .error e => .error e
        | .ok string => applyOperations items (handled ++ [item.hash]) string

/-- What `updateIndex` makes the string of an index. -/
def updateIndex (env : LogEnv α σ) (log : LogState α σ) :
    Except LogError (Except RangeError CodeUnits) :=
  (toArray env log).1.map
    (fun entries => applyOperations maxLength getValue entries [] [])

end Operations

/-! ### Two logs -/

section TwoLogs

variable {α σ : Type} {U : List (Entry α)} {env env' : LogEnv α σ}
variable {t t' : LogState α σ}

/-- A log that is reached from a fresh one by joining entries of the set, one
at a time in some order. -/
def JoinedLog (U : List (Entry α)) (env : LogEnv α σ) (t : LogState α σ) :
    Prop :=
  ∃ (s : LogState α σ) (order : List (Entry α)) (depth : Nat),
    Fresh U s ∧ (∀ e ∈ order, e ∈ U) ∧
      ∀ fuel, joinAll env (fuel + depth) s order = (.ok (), t)

/-- Both logs hold the same entries. -/
def SameEntries (t t' : LogState α σ) : Prop :=
  ∀ x, x ∈ t.entryIndex.index.sortables ↔ x ∈ t'.entryIndex.index.sortables

/-- Both logs give their entries in the same order, and the same string. -/
structure SameOrder (maxLength : Nat) (getValue : α → StringOperation)
    (env env' : LogEnv α σ) (t t' : LogState α σ) : Prop where
  array : (toArray env t).1 = (toArray env' t').1
  string : updateIndex maxLength getValue env t =
    updateIndex maxLength getValue env' t'

theorem JoinedLog.resolveInv (hU : EntrySet U) (henv : PlainEnv U env)
    (h : JoinedLog U env t) : ResolveInv (· ∈ U) t.entryIndex := by
  obtain ⟨s, order, depth, hs, horder, hjoin⟩ := h
  obtain ⟨N, hN⟩ := exists_depth_joinAll hU henv
  obtain ⟨t₁, hrun, hinv, _, _⟩ :=
    hN (N + depth) (Nat.le_add_right N depth) s order hs horder
  rw [hjoin N] at hrun
  obtain rfl := (Prod.mk.inj hrun).2
  exact hinv.toResolveInv

/-- The string follows from the entries. -/
theorem sameOrder_iff_array {maxLength : Nat} {getValue : α → StringOperation} :
    SameOrder maxLength getValue env env' t t' ↔
      (toArray env t).1 = (toArray env' t').1 := by
  constructor
  · exact fun hsame => hsame.array
  · intro heq
    refine ⟨heq, ?_⟩
    unfold updateIndex
    rw [heq]

/-- Two logs that are joined in any order give their entries in the same order
exactly when they stored those with equal sort keys in the same order. -/
theorem sameOrder_iff (maxLength : Nat) (getValue : α → StringOperation)
    (hU : EntrySet U) (henv : PlainEnv U env) (henv' : PlainEnv U env')
    (hsort : env'.sortFn = env.sortFn) (hlawful : env.sortFn.Lawful)
    (h : JoinedLog U env t) (h' : JoinedLog U env' t') :
    SameOrder maxLength getValue env env' t t' ↔
      SameTies env.sortFn t.entryIndex.index t'.entryIndex.index :=
  sameOrder_iff_array.trans
    (toArray_eq_iff (h.resolveInv hU henv) (h'.resolveInv hU henv')
      (fun e f he hf => hU.content e he f hf) hsort hlawful)

/-- Logs that hold the same entries, without equal sort keys, give them in the
same order. -/
theorem sameOrder_of_distinct (maxLength : Nat) (getValue : α → StringOperation)
    (hU : EntrySet U) (henv : PlainEnv U env) (henv' : PlainEnv U env')
    (hsort : env'.sortFn = env.sortFn) (hlawful : env.sortFn.Lawful)
    (h : JoinedLog U env t) (h' : JoinedLog U env' t')
    (hsame : SameEntries t t')
    (hdistinct : ∀ e ∈ U, ∀ f ∈ U,
      env.sortFn.sort e.toSortableEntry f.toSortableEntry = .eq → e = f) :
    SameOrder maxLength getValue env env' t t' := by
  have hinv := h.resolveInv hU henv
  have hinv' := h'.resolveInv hU henv'
  have hties : SameTies env.sortFn t.entryIndex.index t'.entryIndex.index := by
    refine .of_distinct hinv.keyed hinv'.keyed hsame hlawful
      (fun x hx y hy hxy => ?_)
    obtain ⟨e, he, rfl⟩ := hinv.sub x hx
    obtain ⟨f, hf, rfl⟩ := hinv.sub y hy
    exact congrArg Entry.toSortableEntry (hdistinct e he f hf hxy)
  exact sameOrder_iff_array.mpr
    ((toArray_eq_iff hinv hinv' (fun e f he hf => hU.content e he f hf) hsort
      hlawful).mpr hties)

end TwoLogs

/-! ### Equal timestamps -/

namespace EqualTimestamps

def clockOf (writer : String) (wallTime : Nat) : Clock :=
  { id := writer, timestamp := { wallTime := wallTime, logical := 0 } }

/-- An insertion at the start. -/
def insertion (character : UInt16) : StringOperation :=
  { index := { offset := 0, length := 0 }, value := some [character] }

def entryA : Entry StringOperation :=
  { hash := "a", «meta» := ⟨clockOf "A" 1, "a", [], .APPEND⟩
    payload := insertion 97, payloadSize := 1 }

def entryB : Entry StringOperation :=
  { hash := "b", «meta» := ⟨clockOf "B" 1, "b", [], .APPEND⟩
    payload := insertion 98, payloadSize := 1 }

def entryC : Entry StringOperation :=
  { hash := "c", «meta» := ⟨clockOf "B" 2, "c", [], .APPEND⟩
    payload := insertion 99, payloadSize := 1 }

def entries : List (Entry StringOperation) := [entryA, entryB, entryC]

/-- A log of operations; all blocks can be fetched. -/
def env : LogEnv StringOperation Unit where
  sortFn := LastWriteWins
  canAppend app index _ := (.ok true, { app := app, cache := index.cache })
  onChange app index _ := (.ok (), { app := app, cache := index.cache })
  trim := none
  canTrim _ _ _ := true
  cacheId _ _ := none
  remote k := entries.find? (fun e => e.hash = k)
  hashOf _ _ := ""
  byteLengthOf _ := 1

/-- The log after joining entries in an order. -/
def joined (order : List (Entry StringOperation)) :
    LogState StringOperation Unit :=
  (joinAll env 4 (.open ()) order).2

theorem entrySet : EntrySet entries where
  content := by decide
  closed := by decide
  acyclic := ⟨fun _ => 0, by decide⟩

theorem plainEnv : PlainEnv entries env where
  accepts _ _ _ := rfl
  canAppend_cache _ _ _ := rfl
  handles _ _ _ := rfl
  onChange_cache _ _ _ := rfl
  noTrim := rfl
  remote := by decide

theorem fresh : Fresh entries (LogState.open (α := StringOperation) ()) where
  index := rfl
  cache := rfl
  blocks := by simp [LogState.open, EntryIndex.empty]

theorem joinedLog_two :
    JoinedLog entries env (joined [entryA, entryB]) ∧
      JoinedLog entries env (joined [entryB, entryA]) :=
  ⟨⟨.open (), [entryA, entryB], 4, fresh, by simp [entries], fun _ => rfl⟩,
    ⟨.open (), [entryB, entryA], 4, fresh, by simp [entries], fun _ => rfl⟩⟩

/-- Of two writers with equal timestamps, the one that is joined first comes
first. -/
theorem not_sameOrder :
    JoinedLog entries env (joined [entryA, entryB]) ∧
      JoinedLog entries env (joined [entryB, entryA]) ∧
      SameEntries (joined [entryA, entryB]) (joined [entryB, entryA]) ∧
      ¬ SameOrder 536870888 id env env (joined [entryA, entryB])
        (joined [entryB, entryA]) := by
  refine ⟨joinedLog_two.1, joinedLog_two.2, fun x => ?_, fun h => ?_⟩
  · show x ∈ [entryA.toSortableEntry, entryB.toSortableEntry] ↔
      x ∈ [entryB.toSortableEntry, entryA.toSortableEntry]
    simp only [List.mem_cons, List.not_mem_nil, or_false]
    exact or_comm
  · have hstrings : (Except.ok (.ok [98, 97]) :
        Except LogError (Except RangeError CodeUnits)) = .ok (.ok [97, 98]) :=
      h.string
    exact absurd (Except.ok.inj (Except.ok.inj hstrings)) (by decide)

/-- An entry with another timestamp may come between. -/
theorem sameOrder_between :
    SameOrder 536870888 id env env (joined [entryA, entryB, entryC])
      (joined [entryA, entryC, entryB]) :=
  (sameOrder_iff 536870888 id entrySet plainEnv plainEnv rfl
    lastWriteWins_lawful
    ⟨.open (), [entryA, entryB, entryC], 4, fresh, by simp [entries],
      fun _ => rfl⟩
    ⟨.open (), [entryA, entryC, entryB], 4, fresh, by simp [entries],
      fun _ => rfl⟩).mpr
    ((sorted_eq_iff lastWriteWins_lawful).mp rfl)

end EqualTimestamps

end DString
end Peerbit
