import Mathlib

/-!
# Left joins

Tables are joined one after the other to a row; a table without a row that goes
with the ones before it is joined with no row.  When what is joined does not depend
on the other joins, a joined row is a choice of one row from each table, and whether
a condition holds of at most one joined row is a question about these choices
(`countP_joinAll_le_one`).
-/

namespace Peerbit
namespace Lib
namespace LeftJoins

universe u v

/-- A table that is joined under a name, with its rows that go with the ones joined
before. -/
structure LeftJoin (N : Type u) (R : Type v) where
  as : N
  rows : (N → Option R) → List R

section Joins

variable {N : Type u} {R : Type v}

/-- What is joined: the rows, or no row when there are none. -/
def LeftJoin.candidates (j : LeftJoin N R) (env : N → Option R) : List (Option R) :=
  match j.rows env with
  | [] => [none]
  | row :: rows => (row :: rows).map some

variable [DecidableEq N]

/-- The joined rows. -/
def joinAll : List (LeftJoin N R) → (N → Option R) → List (N → Option R)
  | [], env => [env]
  | j :: js, env =>
      (j.candidates env).flatMap (fun row => joinAll js (Function.update env j.as row))

omit [DecidableEq N] in
theorem LeftJoin.candidates_ne_nil (j : LeftJoin N R) (env : N → Option R) :
    j.candidates env ≠ [] := by
  rw [LeftJoin.candidates]
  split <;> simp

omit [DecidableEq N] in
theorem LeftJoin.candidates_congr {j j' : LeftJoin N R} {env env' : N → Option R}
    (h : j.rows env = j'.rows env') : j.candidates env = j'.candidates env' := by
  rw [LeftJoin.candidates, LeftJoin.candidates, h]

/-- Nothing is lost by joining. -/
theorem joinAll_ne_nil (js : List (LeftJoin N R)) (env : N → Option R) :
    joinAll js env ≠ [] := by
  induction js generalizing env with
  | nil => simp [joinAll]
  | cons j js ih =>
      obtain ⟨row, hrow⟩ := List.exists_mem_of_ne_nil _ (j.candidates_ne_nil env)
      rw [joinAll, Ne, List.flatMap_eq_nil_iff]
      intro h
      exact ih _ (h row hrow)

theorem joinAll_append (js js' : List (LeftJoin N R)) (env : N → Option R) :
    joinAll (js ++ js') env = (joinAll js env).flatMap (joinAll js') := by
  induction js generalizing env with
  | nil => simp [joinAll]
  | cons j js ih =>
      rw [List.cons_append, joinAll, joinAll, List.flatMap_assoc]
      exact congrArg (fun f => (j.candidates env).flatMap f) (funext fun row => ih _)

/-- Other names keep their rows. -/
theorem eq_of_mem_joinAll
    {js : List (LeftJoin N R)} {env e : N → Option R} {a : N}
    (he : e ∈ joinAll js env) (ha : a ∉ js.map LeftJoin.as) : e a = env a := by
  induction js generalizing env with
  | nil =>
      rw [joinAll, List.mem_singleton] at he
      rw [he]
  | cons j js ih =>
      rw [List.map_cons, List.mem_cons, not_or] at ha
      rw [joinAll, List.mem_flatMap] at he
      obtain ⟨row, -, he⟩ := he
      rw [ih he ha.2, Function.update_of_ne ha.1]

/-- Tables with at most one row that goes with the others do not multiply rows. -/
theorem joinAll_eq_singleton
    {js : List (LeftJoin N R)} (hjs : ∀ j ∈ js, ∀ e, (j.rows e).length ≤ 1)
    (env : N → Option R) : ∃ e, joinAll js env = [e] := by
  induction js generalizing env with
  | nil => exact ⟨env, rfl⟩
  | cons j js ih =>
      have hone : ∃ row, j.candidates env = [row] := by
        have hle := hjs j List.mem_cons_self env
        rw [LeftJoin.candidates]
        match hrows : j.rows env with
        | [] => exact ⟨none, rfl⟩
        | [row] => exact ⟨some row, rfl⟩
        | row :: row' :: rows =>
            rw [hrows] at hle
            simp at hle
      obtain ⟨row, hrow⟩ := hone
      obtain ⟨e, he⟩ := ih (fun j' hj' => hjs j' (List.mem_cons_of_mem _ hj'))
        (Function.update env j.as row)
      exact ⟨e, by rw [joinAll, hrow, List.flatMap_singleton, he]⟩

/-- What is joined is the same when the tables have the same rows for a row that stays. -/
theorem joinAll_map_congr
    {ι : Type*} {f g : ι → LeftJoin N R} {is : List ι} {env : N → Option R} {a : N}
    (has : ∀ i ∈ is, (f i).as = (g i).as) (ha : ∀ i ∈ is, (f i).as ≠ a)
    (hrows : ∀ i ∈ is, ∀ e, e a = env a → (f i).rows e = (g i).rows e) :
    joinAll (is.map f) env = joinAll (is.map g) env := by
  induction is generalizing env with
  | nil => rfl
  | cons i is ih =>
      rw [List.forall_mem_cons] at has ha hrows
      rw [List.map_cons, List.map_cons, joinAll, joinAll,
        LeftJoin.candidates_congr (hrows.1 env rfl), has.1]
      refine List.flatMap_congr fun row _ => ih has.2 ha.2 fun i' hi' e he => ?_
      rw [Function.update_of_ne (has.1 ▸ ha.1.symm)] at he
      exact hrows.2 i' hi' e he

end Joins

/-! ### Choices -/

section Choices

variable {N : Type u} {R : Type v} [DecidableEq N]

/-- What is joined does not depend on the other joins. -/
def Steady (js : List (LeftJoin N R)) (env : N → Option R) : Prop :=
  ∀ j ∈ js, ∀ e, (∀ a, a ∉ js.map LeftJoin.as → e a = env a) → j.rows e = j.rows env

/-- There is a row at the chosen place of each table. -/
def Valid (js : List (LeftJoin N R)) (env : N → Option R) (choice : N → Nat) : Prop :=
  ∀ j ∈ js, choice j.as < (j.candidates env).length

/-- The joined row for a choice of a place in each table. -/
def chosen (choice : N → Nat) : List (LeftJoin N R) → (N → Option R) → N → Option R
  | [], env => env
  | j :: js, env =>
      chosen choice js
        (Function.update env j.as ((j.candidates env).getD (choice j.as) none))

variable {js : List (LeftJoin N R)} {j : LeftJoin N R} {env : N → Option R}
variable {choice : N → Nat}

omit [DecidableEq N] in
theorem Steady.candidates
    (h : Steady js env) {e : N → Option R}
    (he : ∀ a, a ∉ js.map LeftJoin.as → e a = env a) (hj : j ∈ js) :
    j.candidates e = j.candidates env :=
  LeftJoin.candidates_congr (h j hj e he)

theorem agree_update
    {row : Option R} {e : N → Option R}
    (he : ∀ a, a ∉ js.map LeftJoin.as → e a = Function.update env j.as row a)
    (a : N) (ha : a ∉ (j :: js).map LeftJoin.as) : e a = env a := by
  rw [List.map_cons, List.mem_cons, not_or] at ha
  rw [he a ha.2, Function.update_of_ne ha.1]

theorem Steady.tail_candidates
    (h : Steady (j :: js) env) {row : Option R} {j' : LeftJoin N R} (hj' : j' ∈ js) :
    j'.candidates (Function.update env j.as row) = j'.candidates env :=
  h.candidates (agree_update (fun _ _ => rfl)) (List.mem_cons_of_mem _ hj')

theorem Steady.tail (h : Steady (j :: js) env) (row : Option R) :
    Steady js (Function.update env j.as row) := by
  intro j' hj' e he
  rw [h j' (List.mem_cons_of_mem _ hj') e (agree_update he)]
  exact (h j' (List.mem_cons_of_mem _ hj') _ (agree_update (fun _ _ => rfl))).symm

theorem Steady.valid_cons (h : Steady (j :: js) env) (row : Option R) :
    Valid (j :: js) env choice ↔
      choice j.as < (j.candidates env).length ∧
        Valid js (Function.update env j.as row) choice := by
  rw [Valid, List.forall_mem_cons]
  refine and_congr_right fun _ => forall₂_congr fun j' hj' => ?_
  rw [h.tail_candidates hj']

theorem chosen_of_not_mem {a : N} (ha : a ∉ js.map LeftJoin.as) :
    chosen choice js env a = env a := by
  induction js generalizing env with
  | nil => rfl
  | cons j js ih =>
      rw [List.map_cons, List.mem_cons, not_or] at ha
      rw [chosen, ih ha.2, Function.update_of_ne ha.1]

theorem Steady.chosen_of_mem
    (h : Steady js env) (hnodup : (js.map LeftJoin.as).Nodup) (hj : j ∈ js) :
    chosen choice js env j.as = (j.candidates env).getD (choice j.as) none := by
  induction js generalizing env with
  | nil => cases hj
  | cons first js ih =>
      rw [List.map_cons, List.nodup_cons] at hnodup
      rw [chosen]
      rcases List.mem_cons.mp hj with rfl | hmem
      · rw [chosen_of_not_mem hnodup.1, Function.update_self]
      · rw [ih (h.tail _) hnodup.2 hmem, h.tail_candidates hmem]

/-- Choices that agree on the tables give the same joined row. -/
theorem chosen_congr
    {choice' : N → Nat} (h : ∀ j ∈ js, choice j.as = choice' j.as) :
    chosen choice js env = chosen choice' js env := by
  induction js generalizing env with
  | nil => rfl
  | cons j js ih =>
      rw [chosen, chosen, h j List.mem_cons_self,
        ih (fun j' hj' => h j' (List.mem_cons_of_mem _ hj'))]

theorem chosen_update_of_not_mem {a : N} (ha : a ∉ js.map LeftJoin.as) (n : Nat) :
    chosen (Function.update choice a n) js env = chosen choice js env := by
  refine chosen_congr fun j' hj' => Function.update_of_ne ?_ _ _
  rintro rfl
  exact ha (List.mem_map_of_mem hj')

theorem valid_update_of_not_mem {a : N} (ha : a ∉ js.map LeftJoin.as) (n : Nat) :
    Valid js env (Function.update choice a n) ↔ Valid js env choice := by
  refine forall₂_congr fun j' hj' => ?_
  rw [Function.update_of_ne]
  rintro rfl
  exact ha (List.mem_map_of_mem hj')

/-- The joined row for a place in the first table and a choice for the others. -/
theorem exists_choice_cons
    (h : Steady (j :: js) env) (ha : j.as ∉ js.map LeftJoin.as) {n : Nat}
    (hn : n < (j.candidates env).length)
    (hvalid : Valid js (Function.update env j.as (j.candidates env)[n]) choice) :
    Valid (j :: js) env (Function.update choice j.as n) ∧
      chosen (Function.update choice j.as n) (j :: js) env =
        chosen choice js (Function.update env j.as (j.candidates env)[n]) := by
  constructor
  · rw [h.valid_cons (j.candidates env)[n], Function.update_self,
      valid_update_of_not_mem ha]
    exact ⟨hn, hvalid⟩
  · rw [chosen, Function.update_self, chosen_update_of_not_mem ha,
      List.getD_eq_getElem _ _ hn]

theorem Steady.mem_joinAll
    (h : Steady js env) (hnodup : (js.map LeftJoin.as).Nodup) {e : N → Option R} :
    e ∈ joinAll js env ↔ ∃ choice, Valid js env choice ∧ chosen choice js env = e := by
  induction js generalizing env with
  | nil =>
      rw [joinAll, List.mem_singleton]
      constructor
      · rintro rfl
        exact ⟨fun _ => 0, (fun j hj => nomatch hj), rfl⟩
      · rintro ⟨choice, -, rfl⟩
        rfl
  | cons j js ih =>
      rw [List.map_cons, List.nodup_cons] at hnodup
      rw [joinAll, List.mem_flatMap]
      constructor
      · rintro ⟨row, hrow, he⟩
        obtain ⟨n, hn, rfl⟩ := List.getElem_of_mem hrow
        obtain ⟨choice, hvalid, rfl⟩ := (ih (h.tail _) hnodup.2).mp he
        obtain ⟨hvalid', hchosen⟩ := exists_choice_cons h hnodup.1 hn hvalid
        exact ⟨_, hvalid', hchosen⟩
      · rintro ⟨choice, hvalid, rfl⟩
        have hn := hvalid j List.mem_cons_self
        refine ⟨(j.candidates env)[choice j.as], List.getElem_mem hn, ?_⟩
        rw [ih (h.tail _) hnodup.2]
        refine ⟨choice, ((h.valid_cons _).mp hvalid).2, ?_⟩
        rw [chosen, List.getD_eq_getElem _ _ hn]

end Choices

/-! ### Conditions that hold at most once -/

section AtMostOnce

variable {α : Type u} {p : α → Bool}

theorem countP_le_one_iff {l : List α} :
    l.countP p ≤ 1 ↔ l.Pairwise (fun x y => ¬ (p x = true ∧ p y = true)) := by
  induction l with
  | nil => simp
  | cons x l ih =>
      rw [List.pairwise_cons, ← ih]
      by_cases hx : p x = true
      · rw [List.countP_cons_of_pos hx]
        have hzero : l.countP p = 0 ↔ ∀ y ∈ l, ¬ p y = true := List.countP_eq_zero
        constructor
        · intro hle
          have hall := hzero.mp (by omega)
          exact ⟨fun y hy hboth => hall y hy hboth.2, by omega⟩
        · rintro ⟨hall, -⟩
          have := hzero.mpr (fun y hy hpy => hall y hy ⟨hx, hpy⟩)
          omega
      · rw [List.countP_cons_of_neg hx]
        constructor
        · exact fun hle => ⟨fun y _ hboth => hx hboth.1, hle⟩
        · exact fun h => h.2

theorem filter_eq_singleton
    {l : List α} (hle : l.countP p ≤ 1) (hex : ∃ x ∈ l, p x = true) :
    ∃ x ∈ l, l.filter p = [x] := by
  rw [List.countP_eq_length_filter] at hle
  obtain ⟨x, hx, hpx⟩ := hex
  have hmem : x ∈ l.filter p := List.mem_filter.mpr ⟨hx, hpx⟩
  match hfilter : l.filter p with
  | [] =>
      rw [hfilter] at hmem
      cases hmem
  | [y] =>
      have hy : y ∈ l.filter p := hfilter ▸ List.mem_singleton_self y
      exact ⟨y, (List.mem_filter.mp hy).1, rfl⟩
  | y :: z :: rest =>
      rw [hfilter] at hle
      simp at hle

/-- Numbers that are positive where a condition holds add up to how often it holds
when none of them is more than one. -/
theorem sum_eq_countP_iff {f : α → Nat} {l : List α}
    (h : ∀ x ∈ l, 0 < f x ↔ p x = true) :
    (l.map f).sum = l.countP p ↔ ∀ x ∈ l, f x ≤ 1 := by
  have hle : ∀ l : List α, (∀ x ∈ l, 0 < f x ↔ p x = true) → l.countP p ≤ (l.map f).sum := by
    intro l
    induction l with
    | nil => simp
    | cons x l ih =>
        intro hl
        have hrest := ih fun y hy => hl y (List.mem_cons_of_mem _ hy)
        have hx := hl x List.mem_cons_self
        rw [List.map_cons, List.sum_cons]
        by_cases hp : p x = true
        · rw [List.countP_cons_of_pos hp]
          have := hx.mpr hp
          omega
        · rw [List.countP_cons_of_neg hp]
          omega
  induction l with
  | nil => simp
  | cons x l ih =>
      have hl := fun y hy => h y (List.mem_cons_of_mem x hy)
      have hrest := hle l hl
      have hx := h x List.mem_cons_self
      have hcount : (l.map f).sum = l.countP p ↔ ∀ y ∈ l, f y ≤ 1 := ih hl
      rw [List.forall_mem_cons, ← hcount, List.map_cons, List.sum_cons]
      by_cases hp : p x = true
      · rw [List.countP_cons_of_pos hp]
        have := hx.mpr hp
        omega
      · rw [List.countP_cons_of_neg hp]
        have hzero : f x = 0 := Nat.eq_zero_of_not_pos (fun hpos => hp (hx.mp hpos))
        omega

end AtMostOnce

section Counts

variable {N : Type u} {R : Type v} [DecidableEq N]
variable {js : List (LeftJoin N R)} {env : N → Option R}

/-- A condition holds of at most one joined row when all choices that satisfy it are
the same. -/
theorem countP_joinAll_le_one
    (h : Steady js env) (hnodup : (js.map LeftJoin.as).Nodup)
    (p : (N → Option R) → Bool) :
    (joinAll js env).countP p ≤ 1 ↔
      ∀ choice choice', Valid js env choice → Valid js env choice' →
        p (chosen choice js env) = true → p (chosen choice' js env) = true →
        ∀ j ∈ js, choice j.as = choice' j.as := by
  rw [countP_le_one_iff]
  induction js generalizing env with
  | nil => simp [joinAll]
  | cons j js ih =>
      have hnodup' := List.nodup_cons.mp (List.map_cons ▸ hnodup)
      rw [joinAll, List.pairwise_flatMap]
      constructor
      · rintro ⟨hsame, hother⟩ choice choice' hvalid hvalid' hp hp'
        have hn := hvalid j List.mem_cons_self
        have hn' := hvalid' j List.mem_cons_self
        rw [chosen, List.getD_eq_getElem _ _ hn] at hp
        rw [chosen, List.getD_eq_getElem _ _ hn'] at hp'
        have hmem := ((h.tail (j.candidates env)[choice j.as]).mem_joinAll hnodup'.2).mpr
          ⟨choice, ((h.valid_cons _).mp hvalid).2, rfl⟩
        have hmem' := ((h.tail (j.candidates env)[choice' j.as]).mem_joinAll hnodup'.2).mpr
          ⟨choice', ((h.valid_cons _).mp hvalid').2, rfl⟩
        rw [List.pairwise_iff_getElem] at hother
        have hplace : choice j.as = choice' j.as := by
          rcases Nat.lt_trichotomy (choice j.as) (choice' j.as) with hlt | heq | hgt
          · exact absurd ⟨hp, hp'⟩ (hother _ _ hn hn' hlt _ hmem _ hmem')
          · exact heq
          · exact absurd ⟨hp', hp⟩ (hother _ _ hn' hn hgt _ hmem' _ hmem)
        rw [List.forall_mem_cons]
        refine ⟨hplace, (ih (h.tail _) hnodup'.2).mp
          (hsame _ (List.getElem_mem hn)) choice choice' ((h.valid_cons _).mp hvalid).2
          ((h.valid_cons _).mp hvalid').2 hp ?_⟩
        simpa only [hplace] using hp'
      · intro hchoices
        constructor
        · intro row hrow
          obtain ⟨n, hn, rfl⟩ := List.getElem_of_mem hrow
          rw [ih (h.tail _) hnodup'.2]
          intro choice choice' hvalid hvalid' hp hp' j' hj'
          obtain ⟨hcons, heq⟩ := exists_choice_cons h hnodup'.1 hn hvalid
          obtain ⟨hcons', heq'⟩ := exists_choice_cons h hnodup'.1 hn hvalid'
          have hagree := hchoices _ _ hcons hcons' (heq ▸ hp) (heq' ▸ hp') j'
            (List.mem_cons_of_mem _ hj')
          have hne : j'.as ≠ j.as := by
            intro heq
            exact hnodup'.1 (heq ▸ List.mem_map_of_mem hj')
          rwa [Function.update_of_ne hne, Function.update_of_ne hne] at hagree
        · rw [List.pairwise_iff_getElem]
          rintro n n' hn hn' hlt x hx y hy ⟨hp, hp'⟩
          obtain ⟨choice, hvalid, rfl⟩ := ((h.tail _).mem_joinAll hnodup'.2).mp hx
          obtain ⟨choice', hvalid', rfl⟩ := ((h.tail _).mem_joinAll hnodup'.2).mp hy
          obtain ⟨hcons, heq⟩ := exists_choice_cons h hnodup'.1 hn hvalid
          obtain ⟨hcons', heq'⟩ := exists_choice_cons h hnodup'.1 hn' hvalid'
          have hagree := hchoices _ _ hcons hcons' (heq ▸ hp) (heq' ▸ hp') j
            List.mem_cons_self
          rw [Function.update_self, Function.update_self] at hagree
          omega

end Counts

/-! ### Groups -/

section Groups

variable {α : Type u} {β : Type v} {κ : Type*} [DecidableEq κ]
variable {l : List α} {rows : α → List β} {key : α → κ} {keyOf : β → κ}

/-- The rows of an element are those with its key. -/
theorem filter_flatMap_key
    (hkeys : (l.map key).Nodup) (hrows : ∀ a ∈ l, ∀ b ∈ rows a, keyOf b = key a) {a : α}
    (ha : a ∈ l) :
    (l.flatMap rows).filter (fun b => decide (keyOf b = key a)) = rows a := by
  have hown : ∀ a' ∈ l, key a' = key a →
      (rows a').filter (fun b => decide (keyOf b = key a)) = rows a' := by
    intro a' ha' hkey
    refine List.filter_eq_self.mpr fun b hb => decide_eq_true ?_
    rw [hrows a' ha' b hb, hkey]
  have hother : ∀ a' ∈ l, key a' ≠ key a →
      (rows a').filter (fun b => decide (keyOf b = key a)) = [] := by
    intro a' ha' hkey
    refine List.filter_eq_nil_iff.mpr fun b hb hb' => hkey ?_
    rw [← hrows a' ha' b hb]
    exact of_decide_eq_true hb'
  induction l with
  | nil => cases ha
  | cons first l ih =>
      rw [List.map_cons, List.nodup_cons] at hkeys
      rw [List.flatMap_cons, List.filter_append]
      have hrest := fun a' ha' => hrows a' (List.mem_cons_of_mem first ha')
      rcases List.mem_cons.mp ha with rfl | hmem
      · rw [hown a List.mem_cons_self rfl, List.filter_flatMap,
          List.flatMap_eq_nil_iff.mpr, List.append_nil]
        intro a' ha'
        refine hother a' (List.mem_cons_of_mem _ ha') fun hkey => hkeys.1 ?_
        exact hkey ▸ List.mem_map_of_mem ha'
      · rw [hother first List.mem_cons_self, List.nil_append,
          ih hkeys.2 hrest hmem
            (fun a' ha' => hown a' (List.mem_cons_of_mem _ ha'))
            (fun a' ha' => hother a' (List.mem_cons_of_mem _ ha'))]
        intro hkey
        exact hkeys.1 (hkey ▸ List.mem_map_of_mem hmem)

omit [DecidableEq κ] in
/-- When each element has one row at most, the keys of the rows are different. -/
theorem nodup_keys_flatMap
    (hkeys : (l.map key).Nodup) (hrows : ∀ a ∈ l, ∀ b ∈ rows a, keyOf b = key a)
    (hone : ∀ a ∈ l, (rows a).length ≤ 1) : ((l.flatMap rows).map keyOf).Nodup := by
  rw [List.map_flatMap, List.nodup_flatMap]
  constructor
  · intro a ha
    have hle := hone a ha
    match hrow : rows a with
    | [] => simp
    | [b] => simp
    | b :: b' :: rest =>
        rw [hrow] at hle
        simp at hle
  · refine (List.pairwise_map.mp hkeys).imp_of_mem ?_
    intro a a' ha ha' hne k hk hk'
    obtain ⟨b, hb, rfl⟩ := List.mem_map.mp hk
    obtain ⟨b', hb', heq⟩ := List.mem_map.mp hk'
    exact hne ((hrows a ha b hb).symm.trans (heq.symm.trans (hrows a' ha' b' hb')))

end Groups

end LeftJoins
end Lib
end Peerbit
