import Mathlib.Data.List.Forall2

/-!
# Functions that may fail, over lists
-/

namespace Peerbit
namespace Lib
namespace Results

universe u v w

variable {ε : Type u} {α : Type v} {β : Type w}

theorem mapM_cons (f : α → Except ε β) (x : α) (xs : List α) :
    List.mapM f (x :: xs) =
      match f x, List.mapM f xs with
      | .error e, _ => .error e
      | .ok _, .error e => .error e
      | .ok y, .ok ys => .ok (y :: ys) := by
  rw [List.mapM_cons]
  cases hx : f x with
  | error e => rfl
  | ok y =>
      cases hxs : List.mapM f xs with
      | error e => rfl
      | ok ys => rfl

/-- The results of a list are those of its elements. -/
theorem mapM_eq_ok_iff {f : α → Except ε β} {l : List α} {ys : List β} :
    l.mapM f = .ok ys ↔ List.Forall₂ (fun x y => f x = .ok y) l ys := by
  induction l generalizing ys with
  | nil =>
      rw [List.mapM_nil, List.forall₂_nil_left_iff]
      constructor
      · rintro ⟨⟩
        rfl
      · rintro rfl
        rfl
  | cons x l ih =>
      rw [mapM_cons, List.forall₂_cons_left_iff]
      constructor
      · intro h
        cases hx : f x with
        | error e =>
            rw [hx] at h
            cases h
        | ok y =>
            cases hl : l.mapM f with
            | error e =>
                rw [hx, hl] at h
                cases h
            | ok zs =>
                rw [hx, hl] at h
                exact ⟨y, zs, rfl, ih.mp hl, (Except.ok.inj h).symm⟩
      · rintro ⟨y, zs, hx, hl, rfl⟩
        rw [hx, ih.mpr hl]

theorem bind_eq_ok_iff {γ : Type v} {x : Except ε α} {f : α → Except ε γ} {y : γ} :
    x >>= f = .ok y ↔ ∃ a, x = .ok a ∧ f a = .ok y := by
  cases x with
  | error e =>
      constructor
      · rintro ⟨⟩
      · rintro ⟨a, ⟨⟩, -⟩
  | ok a =>
      constructor
      · exact fun h => ⟨a, rfl, h⟩
      · rintro ⟨_, ⟨⟩, h⟩
        exact h

/-- When a function gives a result exactly on some elements, it gives the results of a
list exactly when it does so on all of them. -/
theorem mapM_eq_ok_map {f : α → Except ε β} {P : α → Prop} {g : α → β} {l : List α}
    {ys : List β} (h : ∀ x ∈ l, ∀ y, f x = .ok y ↔ P x ∧ y = g x) :
    l.mapM f = .ok ys ↔ (∀ x ∈ l, P x) ∧ ys = l.map g := by
  rw [mapM_eq_ok_iff]
  induction l generalizing ys with
  | nil =>
      rw [List.forall₂_nil_left_iff]
      simp
  | cons x l ih =>
      have hl := fun x' hx' => h x' (List.mem_cons_of_mem _ hx')
      rw [List.forall₂_cons_left_iff, List.forall_mem_cons, List.map_cons]
      constructor
      · rintro ⟨y, ys, hxy, hrest, rfl⟩
        obtain ⟨hx, rfl⟩ := (h x List.mem_cons_self y).mp hxy
        obtain ⟨hall, rfl⟩ := (ih hl).mp hrest
        exact ⟨⟨hx, hall⟩, rfl⟩
      · rintro ⟨⟨hx, hall⟩, rfl⟩
        exact ⟨g x, l.map g, (h x List.mem_cons_self _).mpr ⟨hx, rfl⟩,
          (ih hl).mpr ⟨hall, rfl⟩, rfl⟩

/-- The results, when there is one for each element. -/
theorem mapM_ok {f : α → Except ε β} {P : α → β → Prop} {l : List α}
    (h : ∀ x ∈ l, ∃ y, f x = .ok y ∧ P x y) :
    ∃ ys, l.mapM f = .ok ys ∧ List.Forall₂ P l ys := by
  induction l with
  | nil => exact ⟨[], rfl, .nil⟩
  | cons x l ih =>
      obtain ⟨y, hy, hP⟩ := h x List.mem_cons_self
      obtain ⟨ys, hys, hall⟩ := ih fun z hz => h z (List.mem_cons_of_mem _ hz)
      refine ⟨y :: ys, ?_, .cons hP hall⟩
      rw [mapM_cons, hy, hys]

theorem mapM_map {γ : Type v} {f : α → Except ε β} {g : γ → α} {k : γ → β}
    {xs : List γ} (h : ∀ x ∈ xs, f (g x) = .ok (k x)) :
    (xs.map g).mapM f = .ok (xs.map k) := by
  induction xs with
  | nil => rfl
  | cons x xs ih =>
      rw [List.map_cons, mapM_cons, h x List.mem_cons_self,
        ih fun y hy => h y (List.mem_cons_of_mem _ hy)]
      rfl

theorem forall₂_append_left {R : α → β → Prop} {xs xs' : List α} {ys : List β}
    (h : List.Forall₂ R (xs ++ xs') ys) :
    ∃ zs zs', List.Forall₂ R xs zs ∧ List.Forall₂ R xs' zs' ∧ ys = zs ++ zs' := by
  induction xs generalizing ys with
  | nil => exact ⟨[], ys, .nil, h, rfl⟩
  | cons x xs ih =>
      cases h with
      | cons hxy hrest =>
          obtain ⟨zs, zs', hzs, hzs', rfl⟩ := ih hrest
          exact ⟨_ :: zs, zs', .cons hxy hzs, hzs', rfl⟩

/-- Each element of one list goes with one of the other. -/
theorem exists_of_forall₂ {R : α → β → Prop} {xs : List α} {ys : List β}
    (h : List.Forall₂ R xs ys) :
    (∀ x ∈ xs, ∃ y ∈ ys, R x y) ∧ ∀ y ∈ ys, ∃ x ∈ xs, R x y := by
  induction h with
  | nil =>
      exact ⟨fun _ h => absurd h List.not_mem_nil,
        fun _ h => absurd h List.not_mem_nil⟩
  | @cons x y xs ys hxy _ ih =>
      constructor
      · intro x' hx'
        rcases List.mem_cons.mp hx' with rfl | hx'
        · exact ⟨y, List.mem_cons_self, hxy⟩
        · obtain ⟨y', hy', hR⟩ := ih.1 x' hx'
          exact ⟨y', List.mem_cons_of_mem _ hy', hR⟩
      · intro y' hy'
        rcases List.mem_cons.mp hy' with rfl | hy'
        · exact ⟨x, List.mem_cons_self, hxy⟩
        · obtain ⟨x', hx', hR⟩ := ih.2 y' hy'
          exact ⟨x', List.mem_cons_of_mem _ hx', hR⟩

theorem exists_mem_zip {R : α → β → Prop} {xs : List α} {ys : List β}
    (h : List.Forall₂ R xs ys) {x : α} (hx : x ∈ xs) : ∃ y, (x, y) ∈ xs.zip ys := by
  induction h with
  | nil => cases hx
  | @cons x' y xs ys _ _ ih =>
      rw [List.zip_cons_cons]
      rcases List.mem_cons.mp hx with rfl | hx
      · exact ⟨y, List.mem_cons_self⟩
      · obtain ⟨y', hy'⟩ := ih hx
        exact ⟨y', List.mem_cons_of_mem _ hy'⟩

/-- The results of a list, as a set. -/
theorem mem_of_mapM {f : α → Except ε β} {l : List α} {ys : List β} (h : l.mapM f = .ok ys)
    {y : β} : y ∈ ys ↔ ∃ x ∈ l, f x = .ok y := by
  obtain ⟨hresults, hsources⟩ := exists_of_forall₂ (mapM_eq_ok_iff.mp h)
  constructor
  · exact hsources y
  · rintro ⟨x, hx, hy⟩
    obtain ⟨y', hmem, hy'⟩ := hresults x hx
    obtain rfl := Except.ok.inj (hy.symm.trans hy')
    exact hmem

theorem exists_mapM_iff {f : α → Except ε β} {l : List α} :
    (∃ ys, l.mapM f = .ok ys) ↔ ∀ x ∈ l, ∃ y, f x = .ok y := by
  constructor
  · rintro ⟨ys, h⟩ x hx
    obtain ⟨y, -, hy⟩ := (exists_of_forall₂ (mapM_eq_ok_iff.mp h)).1 x hx
    exact ⟨y, hy⟩
  · intro h
    obtain ⟨ys, hys, -⟩ := mapM_ok (P := fun _ _ => True)
      (fun x hx => (h x hx).imp fun y hy => ⟨hy, trivial⟩)
    exact ⟨ys, hys⟩

/-- What is thrown comes from an element. -/
theorem mapM_error {f : α → Except ε β} {l : List α} {e : ε} (h : l.mapM f = .error e) :
    ∃ x ∈ l, f x = .error e := by
  induction l with
  | nil => cases h
  | cons x l ih =>
      rw [mapM_cons] at h
      cases hx : f x with
      | error e' =>
          rw [hx] at h
          obtain rfl := Except.error.inj h
          exact ⟨x, List.mem_cons_self, hx⟩
      | ok y =>
          cases hl : l.mapM f with
          | error e' =>
              rw [hx, hl] at h
              obtain rfl := Except.error.inj h
              obtain ⟨x', hx', he⟩ := ih hl
              exact ⟨x', List.mem_cons_of_mem _ hx', he⟩
          | ok ys =>
              rw [hx, hl] at h
              cases h

end Results
end Lib
end Peerbit
