import Peerbit.Lib.Failing
import Peerbit.Lib.InsertionMap
import Peerbit.Lib.Machines
import Mathlib.Logic.Function.Basic

/-!
# The life cycle of programs

A program is opened by the user or by another program, its parent, and opens the
programs among its own fields as their parent.  It counts its parents.  `close` and
`drop` take one parent away; the last one closes the program, which then ends its
children in the same way.

Calls do not overlap here: each is carried out before the next.  A call that throws
leaves what it has done.  Recursion is bounded by the size of the stack.
-/

namespace Peerbit
namespace Program

abbrev Address := String

/-- The programs among the fields of each instance, and the address of what it is
serialized to.  It is serialized with the programs among its fields. -/
structure Instances (P : Type) where
  programs : P → List P
  address : P → Address
  depth : P → Nat
  depth_lt : ∀ {p q}, q ∈ programs p → depth q < depth p

/-- What all instances keep of their life cycle, and the `items` of the handler.  Among
the parents, `none` is the user. -/
structure Programs (P : Type) where
  closed : P → Bool
  parents : P → List (Option P)
  children : P → List P
  items : Lib.InsertionMap Address P

abbrev Lifecycle (P α : Type) : Type :=
  Lib.Failing (Programs P) String α

inductive EndType where
  | drop
  | close
deriving Repr, DecidableEq

inductive ProgramMergeStrategy where
  | replace
  | reject
  | reuse
deriving Repr, DecidableEq

structure OpenOptions (P : Type) where
  existing : ProgramMergeStrategy
  parent : Option P

section Lifecycle

variable {P : Type} [DecidableEq P] (I : Instances P)

namespace Programs

def init : Programs P where
  closed := fun _ => true
  parents := fun _ => []
  children := fun _ => []
  items := .empty

/-- The user is a parent once, however often it opens the program. -/
def addParent (s : Programs P) (child : P) (parent : Option P) : Programs P :=
  if parent ∈ s.parents child ∧ parent = none then
    s
  else
    { s with
      parents := Function.update s.parents child (s.parents child ++ [parent])
      children :=
        match parent with
        | none => s.children
        | some p => Function.update s.children p (s.children p ++ [child]) }

def getAllParent (s : Programs P) : Nat → P → List P → Bool → Option (List P)
  | 0, _, _, _ => none
  | stack + 1, a, arr, includeThis =>
      (s.parents a).foldlM
        (fun arr parent =>
          match parent with
          | none => some arr
          | some p => getAllParent s stack p arr true)
        (if includeThis then arr ++ [a] else arr)

def setClosed (s : Programs P) (p : P) (closed : Bool) : Programs P :=
  { s with closed := Function.update s.closed p closed }

def setItem (s : Programs P) (p : P) : Programs P :=
  { s with items := s.items.set (I.address p) p }

/-- `_onProgamClose`. -/
def deleteItem (s : Programs P) (p : P) : Programs P :=
  { s with items := s.items.delete (I.address p) }

def clearChildren (s : Programs P) (p : P) : Programs P :=
  { s with children := Function.update s.children p [] }

/-- `this.parents.splice(parentIdx, 1)`. -/
def spliceParent (s : Programs P) (p : P) (parentIdx : Nat) : Programs P :=
  { s with
    parents := Function.update s.parents p ((s.parents p).eraseIdx parentIdx) }

section Fields

variable (s : Programs P) (p : P) {c : P} (closed : Bool) (parentIdx : Nat)

omit [DecidableEq P] in
@[simp] theorem setItem_closed : (s.setItem I p).closed = s.closed := rfl

omit [DecidableEq P] in
@[simp] theorem setItem_parents : (s.setItem I p).parents = s.parents := rfl

omit [DecidableEq P] in
@[simp] theorem setItem_children : (s.setItem I p).children = s.children := rfl

omit [DecidableEq P] in
@[simp] theorem deleteItem_closed : (s.deleteItem I p).closed = s.closed := rfl

omit [DecidableEq P] in
@[simp] theorem deleteItem_parents : (s.deleteItem I p).parents = s.parents := rfl

omit [DecidableEq P] in
@[simp] theorem deleteItem_children : (s.deleteItem I p).children = s.children := rfl

@[simp] theorem setClosed_parents : (s.setClosed p closed).parents = s.parents := rfl

@[simp] theorem setClosed_children : (s.setClosed p closed).children = s.children := rfl

@[simp] theorem setClosed_items : (s.setClosed p closed).items = s.items := rfl

@[simp] theorem setClosed_closed_self : (s.setClosed p closed).closed p = closed :=
  Function.update_self ..

theorem setClosed_closed_of_ne (h : c ≠ p) : (s.setClosed p closed).closed c = s.closed c :=
  Function.update_of_ne h ..

@[simp] theorem clearChildren_closed : (s.clearChildren p).closed = s.closed := rfl

@[simp] theorem clearChildren_parents : (s.clearChildren p).parents = s.parents := rfl

@[simp] theorem clearChildren_items : (s.clearChildren p).items = s.items := rfl

end Fields

end Programs

/-- `Program.beforeOpen`, for the options of a call of the handler: the program that is
opened, and its parent. -/
def beforeOpen (root : P) (rootParent : Option P) : Nat → P → Option P → Lifecycle P Unit
  | 0, _, _ => throw "Maximum call stack size exceeded"
  | stack + 1, program, parent => do
      let s ← get
      match s.getAllParent stack program [] false with
      | none => throw "Maximum call stack size exceeded"
      | some parents =>
          if I.address program ∈ parents.map I.address then
            throw
              "Subprogram has same address as some parent program. This is not currently supported"
          else if s.closed program = false then
            modify (fun s => s.addParent program parent)
          else do
            modify (fun s => s.addParent program parent)
            (I.programs program).forM
              (fun next => beforeOpen root rootParent stack next (some program))
            -- `onBeforeOpen`
            modify (fun s => if rootParent = none then s.setItem I root else s)
            modify (fun s => s.setClosed program false)

/-- `Program.processEnd`, for a program that is open.  All children are ended before an
error of one is thrown. -/
def processEnd (endChild : P → Lifecycle P Bool) (program : P) : Lifecycle P Unit := do
  modify (fun s => s.deleteItem I program)
  let s ← get
  let ended ← Lib.Failing.attempt (Lib.Failing.all ((s.children program).map endChild))
  modify (fun s => s.clearChildren program)
  match ended with
  | .error e => throw e
  | .ok _ => modify (fun s => s.setClosed program true)

/-- What `end` does for a program that is closed. -/
def endClosed : EndType → Lifecycle P Bool
  | .drop => throw "Not open. Please invoke 'client.open(...)' before calling this method"
  | .close => pure true

/-- `Program.end`. -/
def end_ (type : EndType) : Nat → P → Option P → Lifecycle P Bool
  | 0, _, _ => throw "Maximum call stack size exceeded"
  | stack + 1, program, from_ => do
      let s ← get
      if s.closed program then
        endClosed type
      else
        let parents := s.parents program
        let parentIdx := parents.idxOf from_
        if from_ ∈ parents ∧ parents.length ≠ 1 then do
          modify (fun s => s.spliceParent program parentIdx)
          pure false
        else if from_ ∉ parents ∧ from_.isSome then
          throw "Could not find from in parents"
        else do
          processEnd I (fun child => end_ type stack child (some program)) program
          modify (fun s =>
            if from_ ∈ parents then s.spliceParent program parentIdx else s)
          pure true

namespace Handler

/-- `toOpen` is `none` when the program is to be opened by its address. -/
def checkProcessExisting (stack : Nat) (address : Address) (toOpen : Option P) :
    ProgramMergeStrategy → Lifecycle P (Option P)
  | .reject => do
      let s ← get
      match s.items.get address with
      | some _ => throw ("Program at " ++ address ++ " is already open")
      | none => pure none
  | .replace => do
      let s ← get
      match s.items.get address with
      | some prev =>
          if some prev = toOpen then
            pure none
          else do
            let _ ← end_ I .close stack prev none
            pure none
      | none => pure none
  | .reuse => do
      let s ← get
      pure (s.items.get address)

/-- The part of `open` that all ways to an instance end in, but for the hooks of the
program. -/
def openInstance (stack : Nat) (program : P) (options : OpenOptions P) :
    Lifecycle P P := do
  match ← checkProcessExisting I stack (I.address program) (some program)
      options.existing with
  | some existing => pure existing
  | none => do
      beforeOpen I program options.parent stack program options.parent
      pure program

/-- `open`, for an instance. -/
def open_ (stack : Nat) (program : P) (options : OpenOptions P) : Lifecycle P P := do
  if options.parent = some program then
    throw "Parent program can not be equal to the program"
  else
    let s ← get
    if s.closed program then
      openInstance I stack program options
    else
      match s.items.get (I.address program) with
      | none => do
          modify (fun s => s.setItem I program)
          modify (fun s => s.addParent program options.parent)
          pure program
      | some existing =>
          if existing = program then do
            modify (fun s => s.addParent existing options.parent)
            pure program
          else do
            match ← checkProcessExisting I stack (I.address program) (some program)
                options.existing with
            | some existing => pure existing
            | none => openInstance I stack program options

/-- `open`, for an address.  What is loaded for it is a new instance, if it is found. -/
def openAddress (stack : Nat) (address : Address) (loaded : Option P)
    (options : OpenOptions P) : Lifecycle P P := do
  let s ← get
  match s.items.get address with
  | some _ => do
      match ← checkProcessExisting I stack address none options.existing with
      | some existing => pure existing
      -- the address itself is then taken for the program
      | none => throw "program.save is not a function"
  | none =>
      match loaded with
      | none => throw ("Failed to resolve program with address: " ++ address)
      | some program => openInstance I stack program options

def stop (stack : Nat) : Lifecycle P Unit := do
  let s ← get
  Lib.Failing.all
    (s.items.entries.map (fun item => end_ I .close stack item.2 none))
  modify (fun s => { s with items := .empty })

end Handler

/-- The calls of a user. -/
inductive Call (P : Type) where
  | open_ (program : P) (options : OpenOptions P)
  | openAddress (address : Address) (loaded : Option P) (options : OpenOptions P)
  | end_ (type : EndType) (program : P)
  | stop

namespace Call

def run (stack : Nat) : Call P → Lifecycle P Unit
  | .open_ program options => do
      let _ ← Handler.open_ I stack program options
  | .openAddress address loaded options => do
      let _ ← Handler.openAddress I stack address loaded options
  | .end_ type program => do
      let _ ← Program.end_ I type stack program none
  | .stop => Handler.stop I stack

/-- A call that throws is no step. -/
def step (stack : Nat) (s : Programs P) (call : Call P) : Option (Programs P) :=
  match (call.run I stack).after s with
  | (.ok _, t) => some t
  | (.error _, _) => none

end Call

def machine (stack : Nat) : Lib.Machine (Programs P) (Call P) where
  init := .init
  step := Call.step I stack

end Lifecycle

end Program
end Peerbit
