import Mathlib.Data.List.Basic

/-!
# Machines and their runs

A machine has an initial state and a step function, which says for each action
whether it is enabled and what it leads to.  A guarded run takes only steps that
meet a condition on the state before them.
-/

namespace Peerbit
namespace Lib

universe u v

structure Machine (σ : Type u) (α : Type v) where
  init : σ
  step : σ → α → Option σ

namespace Machine

variable {σ : Type u} {α : Type v} (m : Machine σ α)

/-- The states that runs reach when all their steps meet the guard. -/
inductive Run (Guard : σ → α → Prop) : σ → Prop
  | init : Run Guard m.init
  | step {s s' : σ} {a : α} (hrun : Run Guard s) (hguard : Guard s a)
      (hstep : m.step s a = some s') : Run Guard s'

/-- No condition on the steps. -/
def Free (_ : σ) (_ : α) : Prop := True

/-- The state after a list of actions, if all of them are enabled. -/
def exec (s : σ) : List α → Option σ
  | [] => some s
  | a :: actions => (m.step s a).bind (fun s => exec s actions)

/-- The state after a list of actions, if all of them are enabled and meet a
guard. -/
def execIf (guard : σ → α → Bool) (s : σ) : List α → Option σ
  | [] => some s
  | a :: actions =>
      if guard s a then (m.step s a).bind (fun s => execIf guard s actions) else none

/-- The machine with another initial state. -/
def startingAt (s : σ) : Machine σ α := { m with init := s }

variable {m} {Guard : σ → α → Prop}

/-- What the start has to do with no actions, and every step carries on, the state after a
list of actions has to do with all of them. -/
theorem exec_invariant (Inv : List α → σ → Prop) (hinit : Inv [] m.init)
    (hkeep : ∀ past s a s', Inv past s → m.step s a = some s' → Inv (past ++ [a]) s')
    {actions : List α} {s : σ} (hexec : m.exec m.init actions = some s) : Inv actions s := by
  have hfrom : ∀ (actions past : List α) (t : σ), Inv past t → m.exec t actions = some s →
      Inv (past ++ actions) s := by
    intro actions
    induction actions with
    | nil =>
        intro past t h hexec
        obtain rfl := Option.some.inj hexec
        rwa [List.append_nil]
    | cons a actions ih =>
        intro past t h hexec
        obtain ⟨t', hstep, hrest⟩ := Option.bind_eq_some_iff.mp hexec
        have hlast := ih (past ++ [a]) t' (hkeep past t a t' h hstep) hrest
        rwa [List.append_assoc, List.singleton_append] at hlast
  exact hfrom actions [] m.init hinit hexec

namespace Run

/-- What holds at the start and is kept by every guarded step holds in every
state of a guarded run. -/
theorem invariant {Inv : σ → Prop} (hinit : Inv m.init)
    (hkeep : ∀ s a s', Inv s → Guard s a → m.step s a = some s' → Inv s')
    {s : σ} (hrun : m.Run Guard s) : Inv s := by
  induction hrun with
  | init => exact hinit
  | step _ hguard hstep ih => exact hkeep _ _ _ ih hguard hstep

theorem imp {Guard' : σ → α → Prop} (himp : ∀ s a, Guard s a → Guard' s a) {s : σ}
    (hrun : m.Run Guard s) : m.Run Guard' s := by
  induction hrun with
  | init => exact .init
  | step _ hguard hstep ih => exact ih.step (himp _ _ hguard) hstep

/-- A list of actions that are enabled, one after the other, makes a run. -/
theorem of_exec {s s' : σ} (hrun : m.Run Free s) (actions : List α)
    (hexec : m.exec s actions = some s') : m.Run Free s' := by
  induction actions generalizing s with
  | nil =>
      obtain rfl := Option.some.inj hexec
      exact hrun
  | cons a actions ih =>
      obtain ⟨t, hstep, hrest⟩ := Option.bind_eq_some_iff.mp hexec
      exact ih (.step hrun trivial hstep) hrest

theorem of_execIf {guard : σ → α → Bool} {s s' : σ}
    (hrun : m.Run (fun s a => guard s a = true) s) (actions : List α)
    (hexec : m.execIf guard s actions = some s') :
    m.Run (fun s a => guard s a = true) s' := by
  induction actions generalizing s with
  | nil =>
      obtain rfl := Option.some.inj hexec
      exact hrun
  | cons a actions ih =>
      unfold execIf at hexec
      split at hexec
      case isTrue hguard =>
        obtain ⟨t, hstep, hrest⟩ := Option.bind_eq_some_iff.mp hexec
        exact ih (.step hrun hguard hstep) hrest
      case isFalse => cases hexec

end Run

end Machine

end Lib
end Peerbit
