import Peerbit.Indexer.IndexIterators

/-!
# Iterators in series

`iteratorInSeries` reads its iterators one after the other.  A call goes to the current
iterator, and on to the next ones as long as the current one is done and the page is not
full.  Only the state of the current iterator changes.

The current iterator is never done at the start of a call, and no later one is, so that a
call ends with a full page or at the end of the series (`fetchLoop_spec`).  An iterator
that is done late, or that is empty, costs a round of the loop without results.
-/

namespace Peerbit
namespace Indexer

variable {R : Type}

/-- An iterator that has not been read, with the results that are left in each of its
states.  It is done at the latest after a page that is not full. -/
structure SeriesMember (R : Type) where
  State : Type
  init : State
  next : State → Nat → List R × State
  /-- `done()` read as a condition. -/
  done : State → Bool
  left : State → List R
  fresh : done init = false
  next_fst (s : State) {amount : Nat} (hamount : 0 < amount) :
    (next s amount).1 = (left s).take amount
  left_next (s : State) {amount : Nat} (hamount : 0 < amount) :
    left (next s amount).2 = (left s).drop amount
  done_next (s : State) {amount : Nat} (hamount : 0 < amount)
    (hshort : (left s).length < amount) : done (next s amount).2 = true
  left_of_done (s : State) : done s = true → left s = []

/-! ### The iterators of the engines -/

/-- An iterator over an index, as a member of a series. -/
def IndexIterator.seriesMember (engine : IndexIterator R) (results : List R)
    (hfresh : engine.done (engine.iterate results) = none)
    (hshort : ∀ s amount, 0 < amount → (engine.left s).length < amount →
      engine.done (engine.next s amount).2 = some true) : SeriesMember R where
  State := engine.State
  init := engine.iterate results
  next := engine.next
  done s := engine.done s == some true
  left := engine.left
  fresh := by
    rw [hfresh]
    rfl
  next_fst s _ hamount := engine.next_fst s hamount
  left_next s _ hamount := engine.left_next s hamount
  done_next s amount hamount h := by
    rw [hshort s amount hamount h]
    rfl
  left_of_done s hdone := engine.left_of_done s (beq_iff_eq.mp hdone)

/-- A page that may be larger than what is left is the last one. -/
theorem HashmapIterator.done_page {docs : List R} {s : HashmapIterator R} (h : Reached s)
    (hsome : s.done.isSome) {amount : Nat} (hshort : (s.left docs).length < amount) :
    (s.page amount).2.done = some true := by
  cases h with
  | fresh => cases hsome
  | loaded arr =>
      have hle : (arr.length : WithTop Nat) ≤ amount := Nat.cast_le.mpr hshort.le
      rw [page]
      dsimp only
      rw [if_pos hle]
  | @done queue hqueue =>
      cases queue with
      | none => rfl
      | some arr =>
          rw [page]
          dsimp only
          split
          · rfl
          · rfl

theorem hashmapIterator_done_next (s : (hashmapIterator R).State) {amount : Nat}
    (hshort : ((hashmapIterator R).left s).length < amount) :
    (hashmapIterator R).done ((hashmapIterator R).next s amount).2 = some true := by
  obtain ⟨hreached, hsome, hleft⟩ := HashmapIterator.opened_spec s.1.1 s.2
  have hfetch : s.1.2.fetch (pure s.1.1 : Id (List R)) amount =
      pure ((s.1.2.opened s.1.1).page amount) :=
    HashmapIterator.fetch_pure s.2 amount
  have hdone := HashmapIterator.done_page hreached hsome
    (show ((s.1.2.opened s.1.1).left s.1.1).length < amount by rw [hleft]; exact hshort)
  exact (congrArg (fun call => call.2.done) hfetch).trans hdone

def hashmapMember (results : List R) : SeriesMember R :=
  (hashmapIterator R).seriesMember results rfl
    (fun s _ _ hshort => hashmapIterator_done_next s hshort)

/-- After a page that is not full there is no more. -/
theorem SQLiteIterator.done_fetch {Row ε : Type} {src : SearchSource Row R ε}
    {s s' : SQLiteIterator Row} {amount : Nat} {batch : List R}
    (hfetch : s.fetch src amount = (.ok batch, s')) (hshort : batch.length < amount) :
    s'.done = some true := by
  have hlt : (batch.length : WithTop Nat) < amount := Nat.cast_lt.mpr hshort
  unfold fetch at hfetch
  simp only at hfetch
  split at hfetch
  · cases (Prod.mk.inj hfetch).1
  · split at hfetch
    · cases (Prod.mk.inj hfetch).1
    · split at hfetch
      · cases (Prod.mk.inj hfetch).1
      · obtain ⟨hbatch, rfl⟩ := Prod.mk.inj hfetch
        obtain rfl := Except.ok.inj hbatch
        simp [done, hlt]

theorem sqliteIterator_done_next (s : (sqliteIterator R).State) {amount : Nat}
    (hshort : ((sqliteIterator R).left s).length < amount) :
    (sqliteIterator R).done ((sqliteIterator R).next s amount).2 = some true := by
  obtain ⟨s', hfetch, _⟩ := s.2.counted.next
    (SQLiteIterator.results_countedSource s.1.1 false) s.2.runs amount
  have hlength : ((s.1.1.drop s.1.2.offset).take amount).length < amount :=
    (List.length_take_le' _ _).trans_lt hshort
  exact (congrArg (fun call => call.2.done) hfetch).trans
    (SQLiteIterator.done_fetch hfetch hlength)

def sqliteMember (results : List R) : SeriesMember R :=
  (sqliteIterator R).seriesMember results rfl
    (fun s _ _ hshort => sqliteIterator_done_next s hshort)

/-! ### The series -/

/-- A member and its state. -/
structure SeriesCursor (R : Type) where
  member : SeriesMember R
  state : member.State

namespace SeriesCursor

def next (c : SeriesCursor R) (count : Nat) : List R × SeriesCursor R :=
  ((c.member.next c.state count).1, ⟨c.member, (c.member.next c.state count).2⟩)

def done (c : SeriesCursor R) : Bool := c.member.done c.state

def left (c : SeriesCursor R) : List R := c.member.left c.state

/-- A page is taken off what is left; the member is done, or the page is full. -/
theorem next_spec (c : SeriesCursor R) {count : Nat} (hcount : 0 < count) :
    (c.next count).1 ++ (c.next count).2.left = c.left ∧
      ((c.next count).2.done = true ∨ count ≤ (c.next count).1.length) := by
  have hpage : (c.next count).1 = c.left.take count := c.member.next_fst c.state hcount
  have hleft : (c.next count).2.left = c.left.drop count := c.member.left_next c.state hcount
  rw [hpage, hleft]
  refine ⟨List.take_append_drop count c.left, ?_⟩
  by_cases hshort : c.left.length < count
  · exact Or.inl (c.member.done_next c.state hcount hshort)
  · refine Or.inr ?_
    rw [List.length_take]
    omega

end SeriesCursor

/-- What the closures of `iteratorInSeries` share.  Without iterators there is no current
one, and its `next` fails. -/
structure Series (R : Type) where
  iterators : List (SeriesCursor R)
  i : Nat
  nonempty : iterators ≠ []

/-- `iteratorInSeries`. -/
def iteratorInSeries (members : List (SeriesMember R)) (hmembers : members ≠ []) :
    Series R where
  iterators := members.map (fun member => ⟨member, member.init⟩)
  i := 0
  nonempty := by simpa using hmembers

namespace Series

def done (s : Series R) : Bool := decide (s.iterators.length ≤ s.i)

/-- The state after a call of the current iterator. -/
def setCurrent (s : Series R) (c : SeriesCursor R) : Series R where
  iterators := s.iterators.set s.i c
  i := s.i
  nonempty := by simpa using s.nonempty

/-- `i++`. -/
def advance (s : Series R) : Series R := { s with i := s.i + 1 }

/-- The loop of `next`, without result when there is not enough fuel. -/
def fetchLoop (count : Nat) : Nat → Series R → List R → Option (List R × Series R)
  | 0, _, _ => none
  | fuel + 1, s, acc =>
      match s.iterators[s.i]? with
      | none => some (acc, s)
      | some current =>
          if current.done then some (acc, s)
          else
            let acc := acc ++ (current.next count).1
            let s := s.setCurrent (current.next count).2
            if (current.next count).2.done then
              if s.advance.done then some (acc, s.advance)
              else if count ≤ acc.length then some (acc, s.advance)
              else fetchLoop count fuel s.advance acc
            else if count ≤ acc.length then some (acc, s)
            else fetchLoop count fuel s acc

/-- Each round ends the call or goes to another iterator. -/
def next (s : Series R) (count : Nat) : Option (List R × Series R) :=
  fetchLoop count (s.iterators.length - s.i + 1) s []

/-- The loop of `all`. -/
def allLoop : Nat → Series R → List R → Option (List R)
  | 0, _, _ => none
  | fuel + 1, s, results =>
      if s.done then some results
      else (s.next 100).bind (fun call => allLoop fuel call.2 (results ++ call.1))

/-- Calls of `next`, one after the other. -/
def calls (s : Series R) : List Nat → Option (List (List R) × Series R)
  | [] => some ([], s)
  | count :: counts =>
      (s.next count).bind (fun call =>
        (calls call.2 counts).map (fun rest => (call.1 :: rest.1, rest.2)))

/-! ### What is left -/

/-- The iterators from the current one on. -/
def ahead (s : Series R) : List (SeriesCursor R) := s.iterators.drop s.i

def left (s : Series R) : List R := s.ahead.flatMap SeriesCursor.left

/-- No iterator from the current one on is done. -/
def Live (s : Series R) : Prop := ∀ c ∈ s.ahead, c.done = false

variable {s : Series R} {count : Nat}

theorem live_iteratorInSeries (members : List (SeriesMember R)) (hmembers : members ≠ []) :
    (iteratorInSeries members hmembers).Live := by
  intro c hc
  obtain ⟨member, _, rfl⟩ := List.mem_map.mp (List.mem_of_mem_drop hc)
  exact member.fresh

theorem left_iteratorInSeries (members : List (SeriesMember R)) (hmembers : members ≠ []) :
    (iteratorInSeries members hmembers).left =
      members.flatMap (fun member => member.left member.init) := by
  rw [left, ahead, iteratorInSeries, List.drop_zero, List.flatMap_map]
  rfl

theorem ahead_nil_of_done (h : s.done = true) : s.ahead = [] :=
  List.drop_eq_nil_of_le (of_decide_eq_true h)

theorem left_of_done (h : s.done = true) : s.left = [] := by
  rw [left, ahead_nil_of_done h, List.flatMap_nil]

theorem ahead_of_current {current : SeriesCursor R}
    (h : s.iterators[s.i]? = some current) : s.ahead = current :: s.advance.ahead := by
  obtain ⟨hlt, rfl⟩ := List.getElem?_eq_some_iff.mp h
  exact List.drop_eq_getElem_cons hlt

theorem ahead_setCurrent {current : SeriesCursor R}
    (h : s.iterators[s.i]? = some current) (c : SeriesCursor R) :
    (s.setCurrent c).ahead = c :: s.advance.ahead := by
  obtain ⟨hlt, _⟩ := List.getElem?_eq_some_iff.mp h
  have hset : (s.setCurrent c).iterators[(s.setCurrent c).i]? = some c := by
    simp [setCurrent, hlt]
  rw [ahead_of_current hset]
  congr 1
  exact List.drop_set_of_lt (Nat.lt_succ_self s.i)

theorem ahead_advance_setCurrent (c : SeriesCursor R) :
    (s.setCurrent c).advance.ahead = s.advance.ahead :=
  List.drop_set_of_lt (Nat.lt_succ_self s.i)

section Round

variable {current : SeriesCursor R} (hcurrent : s.iterators[s.i]? = some current)
include hcurrent

theorem left_of_current : s.left = current.left ++ s.advance.left := by
  rw [left, ahead_of_current hcurrent, List.flatMap_cons, left]

theorem Live.advance (hlive : s.Live) : ∀ c ∈ s.advance.ahead, c.done = false :=
  fun c hc => hlive c (ahead_of_current hcurrent ▸ List.mem_cons_of_mem _ hc)

/-- A round whose iterator is done goes on to the next one. -/
theorem fetchLoop_done (hnot : current.done = false)
    (hdone : (current.next count).2.done = true) (fuel : Nat) (acc : List R) :
    fetchLoop count (fuel + 1) s acc =
      if (s.setCurrent (current.next count).2).advance.done = true ∨
          count ≤ (acc ++ (current.next count).1).length then
        some (acc ++ (current.next count).1,
          (s.setCurrent (current.next count).2).advance)
      else
        fetchLoop count fuel (s.setCurrent (current.next count).2).advance
          (acc ++ (current.next count).1) := by
  simp only [fetchLoop, hcurrent, hnot, hdone, Bool.false_eq_true, if_false, if_true]
  by_cases hend : (s.setCurrent (current.next count).2).advance.done = true
  · rw [if_pos hend, if_pos (Or.inl hend)]
  · simp only [hend, if_false, false_or, Bool.false_eq_true]

/-- A round whose iterator is not done ends the call, when the page is full. -/
theorem fetchLoop_full (hnot : current.done = false)
    (hdone : (current.next count).2.done = false) {acc : List R}
    (hfull : count ≤ (acc ++ (current.next count).1).length) (fuel : Nat) :
    fetchLoop count (fuel + 1) s acc =
      some (acc ++ (current.next count).1, s.setCurrent (current.next count).2) := by
  simp only [fetchLoop, hcurrent, hnot, hdone, hfull, Bool.false_eq_true, if_false,
    if_true]

end Round

theorem fetchLoop_end (h : s.iterators[s.i]? = none) (fuel : Nat) (acc : List R) :
    fetchLoop count (fuel + 1) s acc = some (acc, s) := by
  simp only [fetchLoop, h]

/-- A call takes a page off what is left.  The page is full, or the series ends. -/
theorem fetchLoop_spec (hcount : 0 < count) (hlive : s.Live) (acc : List R) :
    ∃ page s', (∀ fuel, s.iterators.length - s.i < fuel →
        fetchLoop count fuel s acc = some (page, s')) ∧
      s'.Live ∧ page ++ s'.left = acc ++ s.left ∧
      (s'.done = true ∨ count ≤ page.length) := by
  -- the induction is on the number of iterators ahead
  obtain ⟨n, hn⟩ : ∃ n, s.iterators.length - s.i = n := ⟨_, rfl⟩
  have hfuel : ∀ fuel, s.iterators.length - s.i < fuel → ∃ k, fuel = k + 1 ∧ n ≤ k :=
    fun fuel hfuel => ⟨fuel - 1, by omega, by omega⟩
  induction n generalizing s acc with
  | zero =>
      have hdone : s.done = true := decide_eq_true (by omega)
      have hnone : s.iterators[s.i]? = none :=
        List.getElem?_eq_none (of_decide_eq_true hdone)
      refine ⟨acc, s, fun fuel hlt => ?_, hlive, rfl, Or.inl hdone⟩
      obtain ⟨k, rfl, _⟩ := hfuel fuel hlt
      exact fetchLoop_end hnone k acc
  | succ n ih =>
      have hlt : s.i < s.iterators.length := by omega
      obtain ⟨current, hcurrent⟩ : ∃ current, s.iterators[s.i]? = some current :=
        ⟨_, List.getElem?_eq_getElem hlt⟩
      have hnot : current.done = false :=
        hlive current (ahead_of_current hcurrent ▸ List.mem_cons_self)
      have hrest := hlive.advance hcurrent
      have hleft := left_of_current hcurrent
      obtain ⟨htaken, hend⟩ := current.next_spec hcount
      cases hdone : (current.next count).2.done with
      | true =>
          -- on to the next iterator
          have hempty : (current.next count).2.left = [] :=
            current.member.left_of_done _ hdone
          rw [hempty, List.append_nil] at htaken
          let s₁ := (s.setCurrent (current.next count).2).advance
          have hahead₁ : s₁.ahead = s.advance.ahead := ahead_advance_setCurrent _
          have hlive₁ : s₁.Live := fun c hc => hrest c (hahead₁ ▸ hc)
          have hleft₁ : s₁.left = s.advance.left := by rw [left, hahead₁, left]
          have hlength₁ : s₁.iterators.length - s₁.i = n := by
            have : s₁.iterators.length = s.iterators.length := List.length_set
            have : s₁.i = s.i + 1 := rfl
            omega
          have htotal : (acc ++ (current.next count).1) ++ s₁.left = acc ++ s.left := by
            rw [hleft, hleft₁, htaken, List.append_assoc]
          by_cases hstop : s₁.done = true ∨ count ≤ (acc ++ (current.next count).1).length
          · refine ⟨acc ++ (current.next count).1, s₁, fun fuel hlt => ?_, hlive₁, htotal,
              hstop⟩
            obtain ⟨k, rfl, _⟩ := hfuel fuel hlt
            rw [fetchLoop_done hcurrent hnot hdone, if_pos hstop]
          · obtain ⟨page, s', hloop, hlive', htotal', hend'⟩ :=
              ih hlive₁ (acc ++ (current.next count).1) hlength₁
                (fun fuel hlt => ⟨fuel - 1, by omega, by omega⟩)
            refine ⟨page, s', fun fuel hlt => ?_, hlive', htotal'.trans htotal, hend'⟩
            obtain ⟨k, rfl, hk⟩ := hfuel fuel hlt
            rw [fetchLoop_done hcurrent hnot hdone, if_neg hstop]
            exact hloop k (by omega)
      | false =>
          -- the page is full
          have hfull : count ≤ (acc ++ (current.next count).1).length := by
            rw [List.length_append]
            exact (hend.resolve_left (by simp [hdone])).trans (Nat.le_add_left _ _)
          have hahead' := ahead_setCurrent hcurrent (current.next count).2
          refine ⟨acc ++ (current.next count).1, s.setCurrent (current.next count).2, ?_, ?_,
            ?_, Or.inr hfull⟩
          · intro fuel hlt
            obtain ⟨k, rfl, _⟩ := hfuel fuel hlt
            exact fetchLoop_full hcurrent hnot hdone hfull k
          · intro c hc
            rw [hahead'] at hc
            rcases List.mem_cons.mp hc with rfl | hc
            · exact hdone
            · exact hrest c hc
          · rw [left, hahead', List.flatMap_cons, List.append_assoc, ← left,
              ← List.append_assoc (current.next count).1, htaken, hleft]

/-- One call of `next`. -/
theorem next_spec (hcount : 0 < count) (hlive : s.Live) :
    ∃ page s', s.next count = some (page, s') ∧ s'.Live ∧ page ++ s'.left = s.left ∧
      (s'.done = true ∨ count ≤ page.length) := by
  obtain ⟨page, s', hloop, hlive', htotal, hend⟩ := fetchLoop_spec hcount hlive []
  exact ⟨page, s', hloop _ (Nat.lt_succ_self _), hlive', htotal, hend⟩

/-- `all` ends, with everything that is left. -/
theorem allLoop_spec (hlive : s.Live) (results : List R) {fuel : Nat}
    (hfuel : s.left.length + 1 < fuel) :
    allLoop fuel s results = some (results ++ s.left) := by
  induction fuel generalizing s results with
  | zero => omega
  | succ fuel ih =>
      rw [allLoop]
      by_cases hdone : s.done = true
      · rw [if_pos hdone, left_of_done hdone, List.append_nil]
      · obtain ⟨page, s', hnext, hlive', htotal, hend⟩ :=
          next_spec (show 0 < 100 by decide) hlive
        rw [if_neg hdone, hnext, Option.bind_some, ← htotal, ← List.append_assoc]
        have hlength : s.left.length = page.length + s'.left.length := by
          rw [← htotal, List.length_append]
        rcases hend with hdone' | hfull
        · obtain ⟨fuel, rfl⟩ : ∃ k, fuel = k + 1 := ⟨fuel - 1, by omega⟩
          rw [allLoop, if_pos hdone', left_of_done hdone', List.append_nil]
        · exact ih hlive' _ (by omega)

end Series

/-- Pages for these counts are cut off a list, one after the other, each as long as is
asked for when as many are left. -/
inductive Serves : List R → List Nat → List (List R) → List R → Prop where
  | nil (rest : List R) : Serves rest [] [] rest
  | cons {rest left page : List R} {count : Nat} {counts : List Nat} {pages : List (List R)}
      (hpage : min count (page ++ rest).length ≤ page.length)
      (hpages : Serves rest counts pages left) :
      Serves (page ++ rest) (count :: counts) (page :: pages) left

/-- Nothing is lost and nothing repeated. -/
theorem Serves.flatten_append {whole left : List R} {counts : List Nat}
    {pages : List (List R)} (h : Serves whole counts pages left) :
    pages.flatten ++ left = whole := by
  induction h with
  | nil rest => rfl
  | cons _ _ ih => rw [List.flatten_cons, List.append_assoc, ih]

theorem Series.calls_spec {s : Series R} (hlive : s.Live) {counts : List Nat}
    (hcounts : ∀ count ∈ counts, 0 < count) :
    ∃ pages s', s.calls counts = some (pages, s') ∧ s'.Live ∧
      Serves s.left counts pages s'.left := by
  induction counts generalizing s with
  | nil => exact ⟨[], s, rfl, hlive, .nil _⟩
  | cons count counts ih =>
      obtain ⟨page, s₁, hnext, hlive₁, htotal, hend⟩ :=
        next_spec (hcounts count List.mem_cons_self) hlive
      obtain ⟨pages, s', hcalls, hlive', hserves⟩ :=
        ih hlive₁ (fun count hcount => hcounts count (List.mem_cons_of_mem _ hcount))
      refine ⟨page :: pages, s', ?_, hlive', ?_⟩
      · rw [calls, hnext, Option.bind_some, hcalls, Option.map_some]
      · rw [← htotal]
        refine .cons ?_ hserves
        rcases hend with hdone | hfull
        · rw [left_of_done hdone, List.append_nil]
          exact min_le_right _ _
        · exact (min_le_left _ _).trans hfull

/-- Every sequence of calls returns the results of the iterators one after the other; the
series is done only when all have been returned; and `all` ends, with the rest. -/
theorem serves_iteratorInSeries (members : List (SeriesMember R)) (hmembers : members ≠ [])
    {counts : List Nat} (hcounts : ∀ count ∈ counts, 0 < count) :
    ∃ pages s, (iteratorInSeries members hmembers).calls counts = some (pages, s) ∧
      Serves (members.flatMap (fun member => member.left member.init)) counts pages s.left ∧
      pages.flatten ++ s.left = members.flatMap (fun member => member.left member.init) ∧
      (s.done = true → s.left = []) ∧
      ∃ fuel, ∀ more, fuel ≤ more → Series.allLoop more s [] = some s.left := by
  obtain ⟨pages, s, hcalls, hlive, hserves⟩ :=
    Series.calls_spec (Series.live_iteratorInSeries members hmembers) hcounts
  rw [Series.left_iteratorInSeries] at hserves
  refine ⟨pages, s, hcalls, hserves, hserves.flatten_append, Series.left_of_done,
    s.left.length + 2, fun more hmore => ?_⟩
  exact Series.allLoop_spec hlive [] (by omega)

theorem serves_two_engines :
    ∃ pages s, (iteratorInSeries [hashmapMember [1, 2], sqliteMember [3]]
        (by simp)).calls [1, 3] = some (pages, s) ∧
      Serves [1, 2, 3] [1, 3] pages s.left ∧ pages.flatten ++ s.left = [1, 2, 3] ∧
      (s.done = true → s.left = []) ∧
      ∃ fuel, ∀ more, fuel ≤ more → Series.allLoop more s [] = some s.left :=
  serves_iteratorInSeries [hashmapMember [1, 2], sqliteMember [3]] (by simp) (by simp)

end Indexer
end Peerbit
