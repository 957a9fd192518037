import Mathlib
import Peerbit.Lib.Machines

/-!
# Paging

An iterator hands out results in pages.  A client calls it in any order; a call that
fails returns no results, but may change the iterator.

Paging is lossless when the client has the first results, `pending` counts those that
are left, and `all` returns them.  This follows from what each call does to the results
that are left (`Accounts.lossless`).
-/

namespace Peerbit
namespace Lib
namespace Paging

universe u v w

/-- An iterator: what its calls return and leave.  All results are fetched with the
amount `⊤`. -/
structure PagedIterator (σ : Type u) (ρ : Type v) (ε : Type w) where
  init : σ
  fetch : σ → WithTop Nat → Except ε (List ρ) × σ
  pending : σ → Except ε Nat × σ
  done : σ → Option Bool

inductive PagingCall where
  | next (n : Nat)
  | all
  | pending
  | done
deriving Repr, DecidableEq

/-- What the last call returned. -/
inductive PagingAnswer (ε : Type w) where
  | uncalled
  | page
  | rest
  | pending (n : Nat)
  | done (done : Option Bool)
  | threw (e : ε)
deriving Repr, DecidableEq

/-- An iterator, and the results that its client has. -/
structure PagingState (σ : Type u) (ρ : Type v) (ε : Type w) where
  iterator : σ
  returned : List ρ
  answer : PagingAnswer ε
deriving Repr, DecidableEq

variable {σ : Type u} {ρ : Type v} {ε : Type w} (it : PagedIterator σ ρ ε)

/-- The client gets a page, and the answer says how. -/
def PagingState.fetch (s : PagingState σ ρ ε) (n : WithTop Nat) (answer : PagingAnswer ε) :
    PagingState σ ρ ε :=
  match it.fetch s.iterator n with
  | (.ok batch, iterator) => { iterator, returned := s.returned ++ batch, answer }
  | (.error e, iterator) => { s with iterator, answer := .threw e }

/-- Pages have at least one result. -/
def PagingState.step (s : PagingState σ ρ ε) : PagingCall → Option (PagingState σ ρ ε)
  | .next n => if 0 < n then some (s.fetch it n .page) else none
  | .all => some (s.fetch it ⊤ .rest)
  | .pending =>
      match it.pending s.iterator with
      | (.ok n, iterator) => some { s with iterator, answer := .pending n }
      | (.error e, iterator) => some { s with iterator, answer := .threw e }
  | .done => some { s with answer := .done (it.done s.iterator) }

def paging : Machine (PagingState σ ρ ε) PagingCall where
  init := { iterator := it.init, returned := [], answer := .uncalled }
  step s call := s.step it call

/-- The client has the first results of all, and every call answers what it should. -/
structure Lossless (full : σ → List ρ) (s : PagingState σ ρ ε) : Prop where
  returned : s.returned <+: full s.iterator
  rest : s.answer = .rest → s.returned = full s.iterator
  pending : ∀ n, s.answer = .pending n → s.returned.length + n = (full s.iterator).length
  done : s.answer = .done (some true) → s.returned = full s.iterator
  returns : ∀ e, s.answer ≠ .threw e

/-- What the calls do to the results that are left, in states that are `Good`.  Which
results there are may be settled by the first page. -/
structure Accounts (Good : σ → Prop) (left full : σ → List ρ)
    (Guard : σ → PagingCall → Prop) : Prop where
  init_good : Good it.init
  init_left : left it.init = full it.init
  next (i : σ) (n : Nat) (hgood : Good i) (hguard : Guard i (.next n)) (hn : 0 < n) :
    ∃ batch j, it.fetch i n = (.ok batch, j) ∧ Good j ∧
      ∀ returned, returned ++ left i = full i → returned ++ batch ++ left j = full j
  all (i : σ) (hgood : Good i) (hguard : Guard i .all) :
    ∃ batch j, it.fetch i ⊤ = (.ok batch, j) ∧ Good j ∧ left j = [] ∧
      ∀ returned, returned ++ left i = full i → returned ++ batch = full j
  pending (i : σ) (hgood : Good i) (hguard : Guard i .pending) :
    ∃ j, it.pending i = (.ok (left i).length, j) ∧ Good j ∧
      left j = left i ∧ full j = full i
  done (i : σ) (hgood : Good i) (hdone : it.done i = some true) : left i = []

variable {it} {Good : σ → Prop} {left full : σ → List ρ} {Guard : σ → PagingCall → Prop}

/-- What holds between the calls. -/
structure Accounted (Good : σ → Prop) (left full : σ → List ρ)
    (s : PagingState σ ρ ε) : Prop where
  good : Good s.iterator
  accounted : s.returned ++ left s.iterator = full s.iterator
  lossless : Lossless full s

/-- A call that says nothing about what is left only adds results. -/
theorem lossless_of_page {s : PagingState σ ρ ε} (hreturned : s.returned <+: full s.iterator)
    (hanswer : s.answer = .uncalled ∨ s.answer = .page) : Lossless full s := by
  constructor
  case returned => exact hreturned
  all_goals rcases hanswer with h | h <;> simp [h]

theorem Accounts.step (h : Accounts it Good left full Guard) {s s' : PagingState σ ρ ε}
    {call : PagingCall} (hs : Accounted Good left full s)
    (hguard : Guard s.iterator call) (hstep : s.step it call = some s') :
    Accounted Good left full s' := by
  cases call with
  | next n =>
      rw [PagingState.step] at hstep
      split at hstep
      case isFalse => cases hstep
      case isTrue hn =>
        obtain ⟨batch, j, hfetch, hgood, hleft⟩ := h.next _ n hs.good hguard hn
        obtain rfl := Option.some.inj hstep
        have haccounted := hleft _ hs.accounted
        rw [PagingState.fetch, hfetch]
        exact ⟨hgood, haccounted, lossless_of_page ⟨_, haccounted⟩ (.inr rfl)⟩
  | all =>
      obtain ⟨batch, j, hfetch, hgood, hnil, hleft⟩ := h.all _ hs.good hguard
      obtain rfl := Option.some.inj hstep
      have hall := hleft _ hs.accounted
      have haccounted : s.returned ++ batch ++ left j = full j := by
        rw [hnil, List.append_nil]
        exact hall
      rw [PagingState.fetch, hfetch]
      refine ⟨hgood, haccounted, ⟨_, haccounted⟩, fun _ => hall, ?_, ?_, ?_⟩
      · intro n hpending
        cases hpending
      · intro hdone
        cases hdone
      · intro e hthrew
        cases hthrew
  | pending =>
      obtain ⟨j, hpending, hgood, hleft, hfull⟩ := h.pending _ hs.good hguard
      rw [PagingState.step, hpending] at hstep
      obtain rfl := Option.some.inj hstep
      have haccounted := hs.accounted
      rw [← hleft, ← hfull] at haccounted
      refine ⟨hgood, haccounted, ⟨_, haccounted⟩, ?_, ?_, ?_, ?_⟩
      · intro hrest
        cases hrest
      · rintro n ⟨⟩
        rw [← hleft, ← haccounted]
        exact List.length_append.symm
      · intro hdone
        cases hdone
      · intro e hthrew
        cases hthrew
  | done =>
      obtain rfl := Option.some.inj hstep
      refine ⟨hs.good, hs.accounted, hs.lossless.returned, ?_, ?_, ?_, ?_⟩
      · intro hrest
        cases hrest
      · intro n hpending
        cases hpending
      · intro hdone
        have hnil := h.done _ hs.good (PagingAnswer.done.inj hdone)
        have haccounted := hs.accounted
        rwa [hnil, List.append_nil] at haccounted
      · intro e hthrew
        cases hthrew

/-- Paging is lossless when the calls account for the results that are left. -/
theorem Accounts.lossless (h : Accounts it Good left full Guard) {s : PagingState σ ρ ε}
    (hrun : (paging it).Run (fun s call => Guard s.iterator call) s) :
    Lossless full s := by
  have hall : Accounted Good left full s := by
    refine hrun.invariant ?_ ?_
    · exact ⟨h.init_good, h.init_left, lossless_of_page ⟨_, h.init_left⟩ (.inl rfl)⟩
    · exact fun s call s' hs hguard hstep => h.step hs hguard hstep
  exact hall.lossless

end Paging
end Lib
end Peerbit
