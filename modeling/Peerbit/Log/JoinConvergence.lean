import Peerbit.Log.JoinInvariant
import Mathlib.Algebra.Order.BigOperators.Group.List
import Mathlib.Algebra.Order.Ring.Nat
import Mathlib.Algebra.Group.Action.Defs

/-!
# Joining a set of entries in any order

Two fresh logs join all entries of a set, one at a time, in two orders.  They
end with the same entries and the same heads, but for the contested ones: those
that a cut of the set reaches and that no cut cuts off whatever the order.  A
cut that comes before an entry which follows the cut one finds nothing that
keeps the cut entry, and deletes it; one that comes after does not.

A join ends: the depth of its recursion is bounded by the depth of the set, and
the deletions of a cut by how often its ancestors can be reached.
-/

namespace Peerbit
namespace Log

section Joins

variable {α σ : Type} {S : List (Entry α)} {env : LogEnv α σ}
variable {owed : Hash → Prop}

/-- A log without filter, without trim, and with handlers that do not fail and
leave the cache alone; all entries of the set can be fetched. -/
structure PlainEnv (S : List (Entry α)) (env : LogEnv α σ) : Prop where
  accepts : ∀ app index e, (env.canAppend app index e).1 = .ok true
  canAppend_cache : ∀ app index e,
    (env.canAppend app index e).2.cache = index.cache
  handles : ∀ app index change, (env.onChange app index change).1 = .ok ()
  onChange_cache : ∀ app index change,
    (env.onChange app index change).2.cache = index.cache
  noTrim : env.trim = none
  remote : ∀ e ∈ S, env.remote e.hash = some e

theorem PlainEnv.runCanAppend_eq
    (henv : PlainEnv S env) (s : LogState α σ) (e : Entry α) :
    ∃ s', runCanAppend env s e = (.ok true, s') ∧
      s'.entryIndex = s.entryIndex := by
  refine ⟨(runCanAppend env s e).2, ?_, ?_⟩
  · simp [runCanAppend, henv.accepts]
  · simp [runCanAppend, LogState.handled, henv.canAppend_cache]

theorem PlainEnv.runOnChange_eq
    (henv : PlainEnv S env) (s : LogState α σ) (change : Change α) :
    ∃ s', runOnChange env s change = (.ok (), s') ∧
      s'.entryIndex = s.entryIndex := by
  refine ⟨(runOnChange env s change).2, ?_, ?_⟩
  · simp [runOnChange, henv.handles]
  · simp [runOnChange, LogState.handled, henv.onChange_cache]

theorem PlainEnv.trim_eq
    (henv : PlainEnv S env) (s : LogState α σ) (now : Int) :
    trim env s none now = ([], s) := by
  simp [trim, henv.noTrim]

/-! ### What a cut deletes -/

/-- How many entries the deletions from one of a given rank can visit, when an
entry lists at most `b`. -/
def visitBound (b : Nat) : Nat → Nat
  | 0 => 1
  | rank + 1 => 1 + b * visitBound b rank

theorem visitBound_pos (b rank : Nat) : 1 ≤ visitBound b rank := by
  cases rank with
  | zero => exact Nat.le_refl _
  | succ rank => exact Nat.le_add_right _ _

theorem visitBound_mono {b r r' : Nat} (hb : 0 < b) (h : r ≤ r') :
    visitBound b r ≤ visitBound b r' := by
  induction h with
  | refl => exact Nat.le_refl _
  | @step r' _ ih =>
      have hmul : visitBound b r' ≤ b * visitBound b r' :=
        Nat.le_mul_of_pos_left _ hb
      simp only [visitBound]
      omega

/-- The bounds of a set: ranks that grow along next pointers, and a length that
no list of next pointers exceeds. -/
structure Bounds (S : List (Entry α)) (rank : Hash → Nat) (b : Nat) : Prop where
  rank : ∀ e ∈ S, ∀ n ∈ e.meta.next, rank n < rank e.hash
  pos : 0 < b
  next : ∀ e ∈ S, e.meta.next.length ≤ b

theorem EntrySet.bounds (hS : EntrySet S) : ∃ rank b, Bounds S rank b := by
  obtain ⟨rank, hrank⟩ := hS.acyclic
  refine ⟨rank, 1 + (S.map (fun e => e.meta.next.length)).sum, hrank, by omega,
    ?_⟩
  intro e he
  have hle : e.meta.next.length ≤ (S.map (fun e => e.meta.next.length)).sum :=
    List.single_le_sum (by simp) _ (List.mem_map_of_mem he)
  omega

def stackBound (rank : Hash → Nat) (b : Nat) (stack : List SortableEntry) :
    Nat :=
  (stack.map (fun x => visitBound b (rank x.hash))).sum

/-- What an entry pushes weighs less than the entry. -/
theorem Bounds.pushed_lt
    {rank : Hash → Nat} {b : Nat} (hb : Bounds S rank b) {e : Entry α}
    (he : e ∈ S) {pushed : List SortableEntry}
    (hnext : ∀ y ∈ pushed, y.hash ∈ e.meta.next)
    (hlength : pushed.length ≤ e.meta.next.length) :
    stackBound rank b pushed < visitBound b (rank e.hash) := by
  cases hrank : rank e.hash with
  | zero =>
      have hnil : pushed = [] := by
        cases pushed with
        | nil => rfl
        | cons y rest =>
            have hlt := hb.rank e he y.hash (hnext y List.mem_cons_self)
            omega
      subst hnil
      exact Nat.one_pos
  | succ r =>
      have heach : ∀ w ∈ pushed.map (fun x => visitBound b (rank x.hash)),
          w ≤ visitBound b r := by
        intro w hw
        obtain ⟨y, hy, rfl⟩ := List.mem_map.mp hw
        have hlt := hb.rank e he y.hash (hnext y hy)
        exact visitBound_mono hb.pos (by omega)
      have hsum := List.sum_le_card_nsmul _ _ heach
      rw [List.length_map, smul_eq_mul] at hsum
      have hle : pushed.length * visitBound b r ≤ b * visitBound b r :=
        Nat.mul_le_mul_right _ (hlength.trans (hb.next e he))
      simp only [stackBound, visitBound]
      omega

/-- The parents of an entry whose parents a cut reaches. -/
theorem pushNexts_join
    (entry : SortableEntry) {nexts : List Hash} {s : LogState α σ}
    (stack : List SortableEntry)
    (h : JoinInv S owed s.entryIndex) (hreach : ∀ n ∈ nexts, CutReach S n) :
    ∃ pushed s',
      pushNexts entry nexts s stack = (s', pushed ++ stack) ∧
      JoinInv S owed s'.entryIndex ∧
      s'.entryIndex.index = s.entryIndex.index ∧
      (∀ y ∈ pushed,
        (∃ e ∈ S, e.toSortableEntry = y) ∧ y.hash ∈ nexts) ∧
      pushed.length ≤ nexts.length ∧
      ∀ n ∈ nexts, s.entryIndex.index.Stored n →
        (∀ f ∈ s.entryIndex.index.sortables, n ∈ f.meta.next →
          f.meta.type = .CUT ∨ f.hash = entry.hash) →
        ∃ y ∈ pushed, y.hash = n := by
  induction nexts generalizing s stack with
  | nil =>
      exact ⟨[], s, rfl, h, rfl, by simp, Nat.le_refl _, by simp⟩
  | cons n nexts ih =>
      have hreach' : ∀ n ∈ nexts, CutReach S n :=
        fun m hm => hreach m (List.mem_cons_of_mem _ hm)
      unfold pushNexts
      simp only
      split
      · -- something else than a cut points to it
        rename_i halternative
        obtain ⟨pushed, s', heq, hinv, hindex, hpushed, hlength, hfound⟩ :=
          ih stack h hreach'
        refine ⟨pushed, s', heq, hinv, hindex, ?_, ?_, ?_⟩
        · intro y hy
          exact ⟨(hpushed y hy).1, List.mem_cons_of_mem _ (hpushed y hy).2⟩
        · rw [List.length_cons]
          omega
        · intro m hm hstored honly
          rcases List.mem_cons.mp hm with rfl | hm
          · obtain ⟨f, hf, hcond⟩ := List.any_eq_true.mp halternative
            simp only [HeadsIndex.getHasNext, List.mem_filter,
              decide_eq_true_eq] at hf
            simp only [Bool.and_eq_true, decide_eq_true_eq] at hcond
            rcases honly _ (HeadsIndex.mem_sortables.mpr ⟨f, hf.1, rfl⟩) hf.2
              with hcut | hself
            · exact absurd hcut hcond.1
            · exact absurd hself hcond.2
          · exact hfound m hm hstored honly
      · have hget := h.get (hreach n List.mem_cons_self)
        obtain ⟨hvalue, hhit⟩ := h.get_fst n
        have hindex₁ : (s.get n).2.entryIndex.index = s.entryIndex.index :=
          EntryIndex.get_index _ _
        cases hfound₁ : (s.entryIndex.get n).1 with
        | some ne =>
            have hs : s.get n = (some ne, (s.get n).2) := by
              rw [← hfound₁]
              rfl
            rw [hs]
            simp only
            obtain ⟨hne, hhash⟩ := hvalue ne hfound₁
            obtain ⟨pushed, s', heq, hinv, hindex, hpushed, hlength, hfound⟩ :=
              ih (s := (s.get n).2) (ne.toSortableEntry :: stack) hget hreach'
            refine ⟨pushed ++ [ne.toSortableEntry], s', ?_, hinv,
              hindex.trans hindex₁, ?_, ?_, ?_⟩
            · rw [heq, List.append_assoc]
              rfl
            · intro y hy
              rcases List.mem_append.mp hy with hy | hy
              · exact ⟨(hpushed y hy).1,
                  List.mem_cons_of_mem _ (hpushed y hy).2⟩
              · rw [List.mem_singleton.mp hy]
                exact ⟨⟨ne, hne, rfl⟩, by simp [hhash]⟩
            · simp only [List.length_append, List.length_cons, List.length_nil]
              omega
            · intro m hm hstored honly
              rcases List.mem_cons.mp hm with rfl | hm
              · exact ⟨ne.toSortableEntry, by simp, hhash⟩
              · rw [hindex₁] at hfound
                obtain ⟨y, hy, hyhash⟩ := hfound m hm hstored honly
                exact ⟨y, List.mem_append_left _ hy, hyhash⟩
        | none =>
            have hs : s.get n = (none, (s.get n).2) := by
              rw [← hfound₁]
              rfl
            rw [hs]
            simp only
            obtain ⟨pushed, s', heq, hinv, hindex, hpushed, hlength, hfound⟩ :=
              ih (s := (s.get n).2) stack hget hreach'
            refine ⟨pushed, s', heq, hinv, hindex.trans hindex₁, ?_, ?_, ?_⟩
            · intro y hy
              exact ⟨(hpushed y hy).1, List.mem_cons_of_mem _ (hpushed y hy).2⟩
            · rw [List.length_cons]
              omega
            · intro m hm hstored honly
              rcases List.mem_cons.mp hm with rfl | hm
              · obtain ⟨v, hv⟩ := hhit hstored
                rw [hfound₁] at hv
                cases hv
              · rw [hindex₁] at hfound
                exact hfound m hm hstored honly

/-- The loop of the recursive deletion ends, prepares deletions of entries that
a cut reaches, and prepares one for every stored entry on its stack. -/
theorem prepareDeleteLoop_join
    {rank : Hash → Nat} {b : Nat} (hb : Bounds S rank b) {fuel : Nat}
    {s : LogState α σ} {stack : List SortableEntry}
    (toDelete : List PendingDelete)
    (h : JoinInv S owed s.entryIndex)
    (hstack : ∀ x ∈ stack,
      (∃ e ∈ S, e.toSortableEntry = x) ∧ CutReach S x.hash)
    (hfuel : stackBound rank b stack ≤ fuel) :
    ∃ more s',
      prepareDeleteLoop fuel false s stack toDelete =
        (.ok (toDelete ++ more), s') ∧
      JoinInv S owed s'.entryIndex ∧
      s'.entryIndex.index = s.entryIndex.index ∧
      (∀ p ∈ more, p ∈ s.entryIndex.index ∧ CutReach S p.hash) ∧
      ∀ x ∈ stack, s.entryIndex.index.Stored x.hash →
        ∃ p ∈ more, p.hash = x.hash := by
  induction fuel generalizing s stack toDelete with
  | zero =>
      cases stack with
      | nil =>
          exact ⟨[], s, by simp [prepareDeleteLoop], h, rfl, by simp, by simp⟩
      | cons x stack =>
          have hpos := visitBound_pos b (rank x.hash)
          simp only [stackBound, List.map_cons, List.sum_cons] at hfuel
          omega
  | succ fuel ih =>
      cases stack with
      | nil =>
          exact ⟨[], s, by simp [prepareDeleteLoop], h, rfl, by simp, by simp⟩
      | cons x stack =>
          obtain ⟨⟨e, he, rfl⟩, hreach⟩ := hstack x List.mem_cons_self
          obtain ⟨pushed, s₁, hpush, hinv₁, hindex₁, hpushed, hlength, _⟩ :=
            pushNexts_join e.toSortableEntry stack h
              (fun n hn => .step he hreach hn)
          have hlighter :=
            hb.pushed_lt he (fun y hy => (hpushed y hy).2) hlength
          have hstack₁ : ∀ y ∈ pushed ++ stack,
              (∃ e ∈ S, e.toSortableEntry = y) ∧ CutReach S y.hash := by
            intro y hy
            rcases List.mem_append.mp hy with hy | hy
            · exact ⟨(hpushed y hy).1, .step he hreach (hpushed y hy).2⟩
            · exact hstack y (List.mem_cons_of_mem _ hy)
          have hfuel₁ : stackBound rank b (pushed ++ stack) ≤ fuel := by
            simp only [stackBound, List.map_append, List.sum_append,
              List.map_cons, List.sum_cons] at hfuel hlighter ⊢
            omega
          obtain ⟨more, s', hloop, hinv, hindex, hmore, hfound⟩ :=
            ih (toDelete ++ (prepareDelete s e.hash).toList)
              hinv₁ hstack₁ hfuel₁
          refine ⟨(prepareDelete s e.hash).toList ++ more, s', ?_, hinv,
            hindex.trans hindex₁, ?_, ?_⟩
          · simp only [prepareDeleteLoop, hpush, Bool.false_eq_true, if_false,
              hloop, List.append_assoc]
          · intro p hp
            rcases List.mem_append.mp hp with hp | hp
            · obtain ⟨hmem, hhash⟩ :=
                HeadsIndex.get_eq_some (Option.mem_toList.mp hp)
              exact ⟨hmem, hhash ▸ hreach⟩
            · rw [hindex₁] at hmore
              exact hmore p hp
          · intro y hy hstored
            rcases List.mem_cons.mp hy with rfl | hy
            · obtain ⟨p, hp⟩ := Option.isSome_iff_exists.mp
                (HeadsIndex.stored_iff_get.mp hstored)
              refine ⟨p, List.mem_append_left _ (Option.mem_toList.mpr hp), ?_⟩
              exact (HeadsIndex.get_eq_some hp).2
            · rw [hindex₁] at hfound
              obtain ⟨p, hp, hhash⟩ :=
                hfound y (List.mem_append_right _ hy) hstored
              exact ⟨p, List.mem_append_right _ hp, hhash⟩

/-- Running the deletions keeps the invariant and removes these entries. -/
theorem runDeletes_join
    {pending : List PendingDelete} {s : LogState α σ}
    (h : JoinInv S owed s.entryIndex)
    (hpending : ∀ p ∈ pending,
      (∃ e ∈ S, e.toSortableEntry = p.toSortableEntry) ∧ CutReach S p.hash) :
    JoinInv S owed (runDeletes env s pending).entryIndex ∧
      ∀ k, (runDeletes env s pending).entryIndex.index.Stored k ↔
        s.entryIndex.index.Stored k ∧ ∀ p ∈ pending, k ≠ p.hash := by
  induction pending generalizing s with
  | nil => exact ⟨h, fun k => by simp [runDeletes]⟩
  | cons p pending ih =>
      obtain ⟨hmem, hreach⟩ := hpending p List.mem_cons_self
      have hfirst : JoinInv S owed (runDelete env s p).entryIndex :=
        h.delete hmem hreach
      obtain ⟨hinv, hstored⟩ := ih (s := runDelete env s p) hfirst
        (fun q hq => hpending q (List.mem_cons_of_mem _ hq))
      refine ⟨hinv, ?_⟩
      intro k
      have hone : (runDelete env s p).entryIndex.index.Stored k ↔
          s.entryIndex.index.Stored k ∧ k ≠ p.hash :=
        HeadsIndex.stored_deleteEntry h.keyed
      constructor
      · intro hk
        obtain ⟨hk, hrest⟩ := (hstored k).mp hk
        obtain ⟨hk, hne⟩ := hone.mp hk
        refine ⟨hk, ?_⟩
        intro q hq
        rcases List.mem_cons.mp hq with rfl | hq
        · exact hne
        · exact hrest q hq
      · rintro ⟨hk, hall⟩
        exact (hstored k).mpr ⟨hone.mpr ⟨hk, hall p List.mem_cons_self⟩,
          fun q hq => hall q (List.mem_cons_of_mem _ hq)⟩

/-- After an entry is stored nothing is deleted but what a cut reaches, and a
cut deletes what it cuts off. -/
theorem afterPut_join
    {rank : Hash → Nat} {b : Nat} (hb : Bounds S rank b)
    (henv : PlainEnv S env) {fuel : Nat} {s : LogState α σ} {e : Entry α}
    (isHead : Bool) (now : Int)
    (h : JoinInv S owed s.entryIndex) (he : e ∈ S)
    (hfuel : visitBound b (rank e.hash) ≤ fuel) :
    ∃ s',
      afterPut env fuel s e isHead none now = (.ok (), s') ∧
      JoinInv S owed s'.entryIndex ∧
      (∀ k, s'.entryIndex.index.Stored k → s.entryIndex.index.Stored k) ∧
      (∀ k, ¬ CutReach S k → s.entryIndex.index.Stored k →
        s'.entryIndex.index.Stored k) ∧
      ∀ t ∈ S, CutsOff S env.sortFn e t → ¬ s'.entryIndex.index.Stored t.hash
    := by
  -- the deletions that the entry prepares
  have hprocess : ∃ pending s₁,
      processEntry fuel s e = (.ok pending, s₁) ∧
      JoinInv S owed s₁.entryIndex ∧
      s₁.entryIndex.index = s.entryIndex.index ∧
      (∀ p ∈ pending, p ∈ s.entryIndex.index ∧ CutReach S p.hash) ∧
      ∀ t ∈ S, CutsOff S env.sortFn e t → s.entryIndex.index.Stored t.hash →
        ∃ p ∈ pending, p.hash = t.hash := by
    unfold processEntry
    split
    · rename_i hcut
      cases fuel with
      | zero =>
          have hpos := visitBound_pos b (rank e.hash)
          omega
      | succ fuel =>
          obtain ⟨pushed, s₁, hpush, hinv₁, hindex₁, hpushed, hlength, hfound⟩ :=
            pushNexts_join e.toSortableEntry [] h
              (fun n hn => .cut he hcut hn)
          have hlighter :=
            hb.pushed_lt he (fun y hy => (hpushed y hy).2) hlength
          obtain ⟨more, s', hloop, hinv, hindex, hmore, hall⟩ :=
            prepareDeleteLoop_join hb [] hinv₁
              (fun y hy => ⟨(hpushed y hy).1,
                .cut he hcut (hpushed y hy).2⟩)
              (by omega : stackBound rank b pushed ≤ fuel)
          rw [hindex₁] at hmore hall
          refine ⟨more, s', ?_, hinv, hindex.trans hindex₁, hmore, ?_⟩
          · rw [List.append_nil] at hpush
            simp only [List.nil_append] at hloop
            simp only [prepareDeleteRecursively, List.reverse_singleton,
              prepareDeleteLoop, if_true, hpush, hloop]
          · intro t ht hoff hstored
            have honly : ∀ f ∈ s.entryIndex.index.sortables,
                t.hash ∈ f.meta.next →
                  f.meta.type = .CUT ∨ f.hash = e.toSortableEntry.hash := by
              intro f hf hnext
              obtain ⟨g, hg, rfl⟩ := h.sub f hf
              exact Or.inl (hoff.onlyCuts g hg hnext)
            obtain ⟨y, hy, hyhash⟩ := hfound t.hash hoff.lists hstored honly
            obtain ⟨p, hp, hphash⟩ := hall y hy (hyhash ▸ hstored)
            exact ⟨p, hp, hphash.trans hyhash⟩
    · rename_i hcut
      exact ⟨[], s, rfl, h, rfl, by simp,
        fun t _ hoff _ => absurd hoff.cut hcut⟩
  obtain ⟨pending, s₁, hprocess, hinv₁, hindex₁, hpending, htargets⟩ := hprocess
  unfold afterPut
  rw [hprocess]
  simp only [henv.trim_eq]
  obtain ⟨s₂, hchanged, hs₂⟩ := henv.runOnChange_eq s₁
    { added := [(isHead, e)]
      removed := pending.map ShallowOrFullEntry.shallow ++
        ([] : List (Entry α)).map ShallowOrFullEntry.full }
  rw [hchanged]
  have hinv₂ : JoinInv S owed s₂.entryIndex := hs₂ ▸ hinv₁
  have hpending₂ : ∀ p ∈ pending,
      (∃ e ∈ S, e.toSortableEntry = p.toSortableEntry) ∧ CutReach S p.hash := by
    intro p hp
    obtain ⟨hmem, hreach⟩ := hpending p hp
    exact ⟨h.sub _ (HeadsIndex.mem_sortables.mpr ⟨p, hmem, rfl⟩), hreach⟩
  obtain ⟨hinv, hstored⟩ :=
    runDeletes_join hinv₂ hpending₂
  rw [hs₂, hindex₁] at hstored
  refine ⟨_, rfl, hinv, fun k hk => ((hstored k).mp hk).1, ?_, ?_⟩
  · intro k hreach hk
    refine (hstored k).mpr ⟨hk, ?_⟩
    rintro p hp rfl
    exact hreach (hpending p hp).2
  · intro t ht hoff hk
    obtain ⟨hk, hne⟩ := (hstored _).mp hk
    obtain ⟨p, hp, hhash⟩ := htargets t ht hoff hk
    exact hne p hp hhash.symm

/-! ### Joining an entry -/

/-- No stored cut leaves an entry that it cuts off. -/
def CutInv (S : List (Entry α)) (sortFn : SortFn) (index : HeadsIndex) : Prop :=
  ∀ c ∈ S, ∀ e ∈ S, CutsOff S sortFn c e → index.Stored c.hash →
    ¬ index.Stored e.hash

/-- What a join keeps, and which entries it may store. -/
structure Grows (S : List (Entry α)) (allowed : Hash → Prop)
    (before after : HeadsIndex) : Prop where
  kept : ∀ k, ¬ CutReach S k → before.Stored k → after.Stored k
  fresh : ∀ k, after.Stored k → before.Stored k ∨ allowed k

theorem Grows.refl {allowed : Hash → Prop} (index : HeadsIndex) :
    Grows S allowed index index where
  kept _ _ h := h
  fresh _ h := Or.inl h

theorem Grows.trans
    {allowed : Hash → Prop} {a b c : HeadsIndex}
    (hab : Grows S allowed a b) (hbc : Grows S allowed b c) :
    Grows S allowed a c where
  kept k hreach h := hbc.kept k hreach (hab.kept k hreach h)
  fresh k h := (hbc.fresh k h).elim (fun h => hab.fresh k h) Or.inr

theorem Grows.mono
    {allowed allowed' : Hash → Prop} {a b : HeadsIndex}
    (h : Grows S allowed a b) (hsub : ∀ k, allowed k → allowed' k) :
    Grows S allowed' a b where
  kept := h.kept
  fresh k hk := (h.fresh k hk).imp id (hsub k)

/-- The hash of a listed entry below a rank: what the parents of an entry of
this rank may store. -/
def Below (S : List (Entry α)) (rank : Hash → Nat) (r : Nat) (k : Hash) :
    Prop :=
  rank k < r ∧ ∃ f ∈ S, k ∈ f.meta.next

/-- The entries that are found for a hash are those of the set. -/
theorem PlainEnv.findNested_eq
    (henv : PlainEnv S env) {options : JoinOptions α}
    (hreferences : ∀ r ∈ options.references, r ∈ S) {s : LogState α σ}
    (h : JoinInv S owed s.entryIndex) {f : Entry α} (hf : f ∈ S) :
    ∃ nested ∈ S, nested.hash = f.hash ∧
      findNested env s options f.hash = some nested := by
  unfold findNested
  cases hfind : options.references.find? (fun e => e.hash = f.hash) with
  | some r =>
      refine ⟨r, hreferences r (List.mem_of_find?_eq_some hfind), ?_, rfl⟩
      simpa using List.find?_some hfind
  | none =>
      unfold fromMultihash
      cases hblock : s.entryIndex.getBlock f.hash with
      | some v =>
          obtain ⟨hv, hhash⟩ := mem_of_getBlock hblock
          exact ⟨v, h.blocks v hv, hhash, rfl⟩
      | none => exact ⟨f, hf, rfl, henv.remote f hf⟩

/-- A stored cut is a head, so that the entries it cuts off are not joined. -/
theorem JoinInv.alreadyDeleted_of_cutsOff
    {s : LogState α σ} (h : JoinInv S owed s.entryIndex) (hS : EntrySet S)
    (howed : ∀ k, owed k → ∃ f ∈ S, k ∈ f.meta.next)
    {c e : Entry α} (hc : c ∈ S) (hoff : CutsOff S env.sortFn c e)
    (hstored : s.entryIndex.index.Stored c.hash) :
    alreadyDeleted env s e = true := by
  obtain ⟨x, hx, hhash⟩ := hstored
  obtain ⟨y, hy, rfl⟩ := HeadsIndex.mem_sortables.mp hx
  obtain ⟨c', hc', heq⟩ := h.sub _ hx
  have hsame : y.toSortableEntry = c.toSortableEntry := by
    rw [← heq, hS.content c' hc' c hc (by rw [heq]; exact hhash)]
  have hhead : y.head = true := by
    cases hflag : y.head with
    | true => rfl
    | false =>
        have hreach : ¬ CutReach S y.hash := by
          rw [hhash]
          exact not_cutReach_of_unlisted hoff.unlisted
        rcases (h.heads y hy hreach).2 hflag with ⟨f, hf, _, hnext⟩ | hcontra
        · obtain ⟨g, hg, rfl⟩ := h.sub f hf
          exact absurd (hhash ▸ hnext) (hoff.unlisted g hg)
        · obtain ⟨f, hf, hnext⟩ := howed _ hcontra
          exact absurd (hhash ▸ hnext) (hoff.unlisted f hf)
  have hmeta : y.meta = c.meta := congrArg SortableEntry.meta hsame
  unfold alreadyDeleted
  refine List.any_eq_true.mpr ⟨y, ?_, ?_⟩
  · simp only [HeadsIndex.getHeads, List.mem_filter, decide_eq_true_eq]
    refine ⟨hy, hhead, ?_⟩
    rintro g hg
    rw [Option.mem_some_iff.mp hg.symm, hmeta]
    exact hoff.gid
  · simp only [Bool.and_eq_true, decide_eq_true_eq]
    rw [hsame]
    exact ⟨⟨hoff.cut, hoff.lists⟩, hoff.newer⟩

section Recursion

variable {rank : Hash → Nat} {b F : Nat} {options : JoinOptions α}

/-- What joining one entry of the set does. -/
structure JoinedEntry (S : List (Entry α)) (sortFn : SortFn)
    (rank : Hash → Nat) (owed : Hash → Prop) (e : Entry α)
    (before after : EntryIndex α) : Prop where
  inv : JoinInv S owed after
  cut : CutInv S sortFn after.index
  grows : Grows S (fun k => k = e.hash ∨ Below S rank (rank e.hash) k)
    before.index after.index
  stored : ¬ CutReach S e.hash → after.index.Stored e.hash

/-- What the recursion needs of joining one entry, to go on with the next. -/
def JoinsEntries (S : List (Entry α)) (sortFn : SortFn) (rank : Hash → Nat)
    (r : Nat)
    (join : LogState α σ → Entry α → Except LogError Bool × LogState α σ) :
    Prop :=
  ∀ (owed : Hash → Prop) (s : LogState α σ) (e : Entry α),
    (∀ k, owed k → ∃ f ∈ S, k ∈ f.meta.next) →
    JoinInv S owed s.entryIndex → CutInv S sortFn s.entryIndex.index →
    e ∈ S → rank e.hash < r → owed e.hash →
    ∃ joined s', join s e = (.ok joined, s') ∧
      JoinedEntry S sortFn rank owed e s.entryIndex s'.entryIndex

theorem joinNexts_join
    {join : LogState α σ → Entry α → Except LogError Bool × LogState α σ}
    {r : Nat} (hjoin : JoinsEntries S env.sortFn rank r join)
    (hS : EntrySet S) (henv : PlainEnv S env)
    (hreset : options.reset = false)
    (hreferences : ∀ f ∈ options.references, f ∈ S)
    (howed : ∀ k, owed k → ∃ f ∈ S, k ∈ f.meta.next)
    {nexts : List Hash} (hnexts : ∀ n ∈ nexts, rank n < r ∧ owed n)
    {s : LogState α σ} (h : JoinInv S owed s.entryIndex)
    (hcut : CutInv S env.sortFn s.entryIndex.index) :
    ∃ s', joinNexts env join options nexts s = (.ok (), s') ∧
      JoinInv S owed s'.entryIndex ∧
      CutInv S env.sortFn s'.entryIndex.index ∧
      Grows S (Below S rank r) s.entryIndex.index s'.entryIndex.index ∧
      ∀ n ∈ nexts, ¬ CutReach S n → s'.entryIndex.index.Stored n := by
  induction nexts generalizing s with
  | nil => exact ⟨s, rfl, h, hcut, Grows.refl _, by simp⟩
  | cons n nexts ih =>
      have hrest : ∀ m ∈ nexts, rank m < r ∧ owed m :=
        fun m hm => hnexts m (List.mem_cons_of_mem _ hm)
      obtain ⟨hrank, hn⟩ := hnexts n List.mem_cons_self
      simp only [joinNexts, hreset, Bool.false_eq_true, or_false]
      split
      · obtain ⟨g, hg, hlisted⟩ := howed n hn
        obtain ⟨f, hf, rfl⟩ := hS.closed g hg n hlisted
        obtain ⟨nested, hnested, hhash, hfind⟩ :=
          henv.findNested_eq hreferences h hf
        rw [← hhash] at hrank hn
        obtain ⟨joined, s₁, heq, hone⟩ :=
          hjoin owed s nested howed h hcut hnested hrank hn
        obtain ⟨s', hrun, hinv, hcut', hgrows, hall⟩ :=
          ih hrest hone.inv hone.cut
        refine ⟨s', ?_, hinv, hcut', ?_, ?_⟩
        · simp only [hfind, heq, hrun]
        · refine Grows.trans (hone.grows.mono ?_) hgrows
          rintro k (rfl | hbelow)
          · exact ⟨hrank, howed _ hn⟩
          · exact ⟨hbelow.1.trans hrank, hbelow.2⟩
        · intro m hm hreach
          rcases List.mem_cons.mp hm with rfl | hm
          · rw [← hhash] at hreach ⊢
            exact hgrows.kept _ hreach (hone.stored hreach)
          · exact hall m hm hreach
      · rename_i hhas
        obtain ⟨s', hrun, hinv, hcut', hgrows, hall⟩ := ih hrest h hcut
        refine ⟨s', hrun, hinv, hcut', hgrows, ?_⟩
        intro m hm hreach
        rcases List.mem_cons.mp hm with rfl | hm
        · rw [Bool.not_eq_false] at hhas
          rcases h.of_has hhas with hstored | hcontra
          · exact hgrows.kept _ hreach hstored
          · exact absurd hcontra hreach
        · exact hall m hm hreach

variable (options) in
/-- Joining an entry of the set ends, keeps the invariants, and stores the entry
unless a cut reaches it. -/
theorem joinRecursively_join
    (hS : EntrySet S) (hb : Bounds S rank b) (henv : PlainEnv S env)
    (hF : ∀ e ∈ S, visitBound b (rank e.hash) ≤ F)
    (htrim : options.trim = none) (hreset : options.reset = false)
    (hreferences : ∀ f ∈ options.references, f ∈ S)
    {fuel : Nat} {s : LogState α σ} {e : Entry α} (isHead : Bool)
    (howed : ∀ k, owed k → ∃ f ∈ S, k ∈ f.meta.next)
    (h : JoinInv S owed s.entryIndex)
    (hcut : CutInv S env.sortFn s.entryIndex.index) (he : e ∈ S)
    (hfuel : rank e.hash + F < fuel) (hhead : isHead = false → owed e.hash) :
    ∃ joined s',
      joinRecursively env options fuel s e isHead = (.ok joined, s') ∧
      JoinedEntry S env.sortFn rank owed e s.entryIndex s'.entryIndex := by
  induction fuel generalizing owed s e isHead with
  | zero => omega
  | succ fuel ih =>
      unfold joinRecursively
      split
      · rename_i hhas
        refine ⟨false, s, rfl, h, hcut, Grows.refl _, ?_⟩
        intro hreach
        exact (h.of_has hhas.1).resolve_right hreach
      · rename_i hhas
        split
        · -- a cut that lists the entry
          rename_i hdeleted
          refine ⟨false, s, rfl, h, hcut, Grows.refl _, ?_⟩
          intro hreach
          obtain ⟨v, hv, hcond⟩ := List.any_eq_true.mp hdeleted
          simp only [Bool.and_eq_true, decide_eq_true_eq] at hcond
          obtain ⟨c, hc, heq⟩ := h.sub v.toSortableEntry
            (HeadsIndex.mem_sortables.mpr ⟨v, List.mem_of_mem_filter hv, rfl⟩)
          rw [← heq] at hcond
          exact absurd (.cut hc hcond.1.1 hcond.1.2) hreach
        · rename_i hnotDeleted
          -- the parents, which are owed to the entry
          let owed' : Hash → Prop :=
            fun k => owed k ∨ e.meta.type ≠ .CUT ∧ k ∈ e.meta.next
          have howed' : ∀ k, owed' k → ∃ f ∈ S, k ∈ f.meta.next := by
            rintro k (hk | ⟨_, hk⟩)
            · exact howed k hk
            · exact ⟨e, he, hk⟩
          have hjoin : JoinsEntries S env.sortFn rank (rank e.hash)
              (fun s nested =>
                joinRecursively env options fuel s nested false) := by
            intro owed₁ s₁ e₁ howed₁ h₁ hcut₁ he₁ hrank₁ hmem₁
            exact ih false howed₁ h₁ hcut₁ he₁ (by omega) (fun _ => hmem₁)
          have hnexts : ∀ n ∈ (if e.meta.type = .CUT then [] else e.meta.next),
              rank n < rank e.hash ∧ owed' n := by
            intro n hn
            split at hn
            · cases hn
            · rename_i htype
              exact ⟨hb.rank e he n hn, Or.inr ⟨htype, hn⟩⟩
          obtain ⟨s₁, hrun, hinv₁, hcut₁, hgrows₁, hparents⟩ :=
            joinNexts_join hjoin hS henv hreset hreferences howed' hnexts
              (h.mono (fun _ hk => Or.inl hk)) hcut
          obtain ⟨s₂, happend, hs₂⟩ := henv.runCanAppend_eq s₁ e
          simp only [hrun, happend]
          rw [← hs₂] at hinv₁ hcut₁ hgrows₁ hparents
          -- the entry is still missing
          have hmissing : ¬ s.entryIndex.index.Stored e.hash := by
            have hhas' : s.entryIndex.has e.hash = false := by
              simpa [hreset, LogState.has] using hhas
            exact ResolveInv.not_stored_of_has hhas'
          have hfresh : ¬ s₂.entryIndex.index.Stored e.hash := by
            intro hstored
            rcases hgrows₁.fresh _ hstored with hold | hbelow
            · exact hmissing hold
            · exact absurd hbelow.1 (Nat.lt_irrefl _)
          have hput : JoinInv S owed (s₂.entryIndex.put e false isHead true) :=
            hinv₁.put hS he hfresh
              (fun htype n hn hreach =>
                hparents n (by rw [if_neg htype]; exact hn) hreach)
              hhead
          have hstored : ∀ k,
              (s₂.entryIndex.put e false isHead true).index.Stored k ↔
                k = e.hash ∨ s₂.entryIndex.index.Stored k := by
            intro k
            rw [EntryIndex.put_index,
              HeadsIndex.stored_putEntry hinv₁.keyed]
          obtain ⟨s', hafter, hinv, hshrinks, hkept, hcutOff⟩ :=
            afterPut_join hb henv isHead options.now
              (s := { s₂ with
                entryIndex := s₂.entryIndex.put e false isHead true })
              hput he ((hF e he).trans (by omega : F ≤ fuel))
          refine ⟨true, s', ?_, hinv, ?_, ⟨?_, ?_⟩, ?_⟩
          · simp only [htrim, hafter]
          · intro c hc t ht hoff hcstored htstored
            rcases (hstored _).mp (hshrinks _ hcstored) with hce | hcold
            · rw [hS.content c hc e he hce] at hoff
              exact hcutOff t ht hoff htstored
            · rcases (hstored _).mp (hshrinks _ htstored) with hte | htold
              · -- the cut stood before the parents were joined
                rw [hS.content t ht e he hte] at hoff
                rcases hgrows₁.fresh _ hcold with hfirst | hbelow
                · exact hnotDeleted
                    (h.alreadyDeleted_of_cutsOff hS howed hc hoff hfirst)
                · obtain ⟨f, hf, hnext⟩ := hbelow.2
                  exact hoff.unlisted f hf hnext
              · exact hcut₁ c hc t ht hoff hcold htold
          · intro k hreach hk
            exact hkept k hreach
              ((hstored k).mpr (Or.inr (hgrows₁.kept k hreach hk)))
          · intro k hk
            rcases (hstored k).mp (hshrinks k hk) with rfl | hk
            · exact Or.inr (Or.inl rfl)
            · exact (hgrows₁.fresh k hk).imp id Or.inr
          · intro hreach
            exact hkept _ hreach ((hstored _).mpr (Or.inl rfl))

end Recursion

/-! ### Joining all entries -/

/-- The entries are joined one at a time. -/
def joinAll (env : LogEnv α σ) (fuel : Nat) :
    LogState α σ → List (Entry α) → Except LogError Unit × LogState α σ
  | s, [] => (.ok (), s)
  | s, e :: entries =>
      match join env fuel s [e] {} with
      | (.error error, s) => (.error error, s)
      | (.ok _, s) => joinAll env fuel s entries

/-- A log without entries; some blocks of the set may be there. -/
structure Fresh (S : List (Entry α)) (s : LogState α σ) : Prop where
  index : s.entryIndex.index = []
  cache : s.entryIndex.cache = Utils.Cache.empty ENTRY_CACHE_MAX_SIZE none
  blocks : ∀ v ∈ s.entryIndex.store, v ∈ S

/-- An entry with the hash is among the heads. -/
def HeadsIndex.HasHead (index : HeadsIndex) (k : Hash) : Prop :=
  ∃ x ∈ index.getHeads none, x.hash = k

/-- Two indexes agree on an entry: both store it or none, both as a head or
none. -/
structure Agree (index index' : HeadsIndex) (k : Hash) : Prop where
  stored : index.Stored k ↔ index'.Stored k
  head : index.HasHead k ↔ index'.HasHead k

/-- What holds when all entries of the set were joined. -/
structure AllJoined (S : List (Entry α)) (sortFn : SortFn) (s : EntryIndex α) :
    Prop where
  inv : JoinInv S (fun _ => False) s
  cut : CutInv S sortFn s.index
  stored : ∀ e ∈ S, ¬ CutReach S e.hash → s.index.Stored e.hash

theorem Fresh.joinInv {s : LogState α σ} (h : Fresh S s) :
    JoinInv S (fun _ => False) s.entryIndex := by
  refine
    { toResolveInv := .of_index_eq_nil h.index h.cache h.blocks
      cachedWhere := ?_, parents := ?_, heads := ?_ }
  · intro k v hlive
    rw [h.cache] at hlive
    cases hlive
  · rintro e _ ⟨x, hx, _⟩
    rw [h.index] at hx
    cases hx
  · intro x hx
    rw [h.index] at hx
    cases hx

theorem joinHeads_singleton {e : Entry α} (hself : e.hash ∉ e.meta.next) :
    (((joinHeads [e]).find? (fun x => x.1 = e.hash)).map Prod.snd).getD false =
      true := by
  have hkeep : ∀ (nexts : List Hash) (heads : List (Hash × Bool)),
      e.hash ∉ nexts →
      (nexts.foldl (fun heads next => setHead heads next false) heads).find?
          (fun x => x.1 = e.hash) =
        heads.find? (fun x => x.1 = e.hash) := by
    intro nexts
    induction nexts with
    | nil => exact fun _ _ => rfl
    | cons n nexts ih =>
        intro heads hnot
        obtain ⟨hne, hnot⟩ := not_or.mp (fun h => hnot (List.mem_cons.mpr h))
        rw [List.foldl_cons, ih _ hnot, setHead, List.find?_cons]
        have hn : decide (n = e.hash) = false := by simpa using Ne.symm hne
        simp only [hn, List.find?_filter]
        congr 1
        funext x
        by_cases hx : x.1 = e.hash
        · simp [hx, hne]
        · simp [hx]
  simp only [joinHeads, List.foldl_cons, List.foldl_nil, List.find?_nil,
    Option.isSome_none, Bool.false_eq_true, if_false]
  rw [hkeep _ _ hself]
  simp [setHead]

/-- Joining entries of the set ends, and keeps what holds between joins. -/
theorem joinAll_join
    {rank : Hash → Nat} {b F : Nat} (hS : EntrySet S) (hb : Bounds S rank b)
    (henv : PlainEnv S env) (hF : ∀ e ∈ S, visitBound b (rank e.hash) ≤ F)
    {fuel : Nat} (hfuel : ∀ e ∈ S, rank e.hash + F < fuel)
    {entries : List (Entry α)} (hentries : ∀ e ∈ entries, e ∈ S)
    {s : LogState α σ} (h : JoinInv S (fun _ => False) s.entryIndex)
    (hcut : CutInv S env.sortFn s.entryIndex.index) :
    ∃ s', joinAll env fuel s entries = (.ok (), s') ∧
      JoinInv S (fun _ => False) s'.entryIndex ∧
      CutInv S env.sortFn s'.entryIndex.index ∧
      (∀ k, ¬ CutReach S k → s.entryIndex.index.Stored k →
        s'.entryIndex.index.Stored k) ∧
      ∀ e ∈ entries, ¬ CutReach S e.hash →
        s'.entryIndex.index.Stored e.hash := by
  induction entries generalizing s with
  | nil => exact ⟨s, rfl, h, hcut, fun _ _ hk => hk, by simp⟩
  | cons e entries ih =>
      have he : e ∈ S := hentries e List.mem_cons_self
      have hself : e.hash ∉ e.meta.next := by
        intro hnext
        exact absurd (hb.rank e he _ hnext) (Nat.lt_irrefl _)
      obtain ⟨joined, s₁, heq, hone⟩ :=
        joinRecursively_join { references := [e] } hS hb henv hF rfl rfl
          (by simpa using he) true (fun _ hk => hk.elim) h hcut he (hfuel e he)
          (fun hfalse => nomatch hfalse)
      obtain ⟨s', hrun, hinv, hcut', hkept, hall⟩ :=
        ih (fun f hf => hentries f (List.mem_cons_of_mem _ hf)) hone.inv hone.cut
      refine ⟨s', ?_, hinv, hcut', ?_, ?_⟩
      · have hjoin : join env fuel s [e] {} = (.ok (), s₁) := by
          simp only [join, joinEntries, joinHeads_singleton hself,
            List.append_nil, heq]
        simp only [joinAll, hjoin, hrun]
      · intro k hreach hk
        exact hkept k hreach (hone.grows.kept k hreach hk)
      · intro f hf hreach
        rcases List.mem_cons.mp hf with rfl | hf
        · exact hkept _ hreach (hone.stored hreach)
        · exact hall f hf hreach

theorem JoinInv.mem_sortables_of_stored
    {s : EntryIndex α} (h : JoinInv S owed s) (hS : EntrySet S) {e : Entry α}
    (he : e ∈ S) (hstored : s.index.Stored e.hash) :
    e.toSortableEntry ∈ s.index.sortables := by
  obtain ⟨x, hx, hhash⟩ := hstored
  obtain ⟨f, hf, rfl⟩ := h.sub x hx
  rwa [hS.content f hf e he hhash] at hx

/-- An entry that no cut reaches is a head unless an entry of the set that is no
cut lists it. -/
theorem AllJoined.hasHead_iff
    {s : EntryIndex α} (h : AllJoined S env.sortFn s) (hS : EntrySet S)
    {e : Entry α} (he : e ∈ S) (hreach : ¬ CutReach S e.hash) :
    s.index.HasHead e.hash ↔
      ¬ ∃ f ∈ S, f.meta.type ≠ .CUT ∧ e.hash ∈ f.meta.next := by
  have hlisted : s.index.Listed e.hash ↔
      ∃ f ∈ S, f.meta.type ≠ .CUT ∧ e.hash ∈ f.meta.next := by
    constructor
    · rintro ⟨x, hx, htype, hnext⟩
      obtain ⟨f, hf, rfl⟩ := h.inv.sub x hx
      exact ⟨f, hf, htype, hnext⟩
    · rintro ⟨f, hf, htype, hnext⟩
      have hfreach : ¬ CutReach S f.hash :=
        fun hcontra => hreach (.step hf hcontra hnext)
      exact ⟨f.toSortableEntry,
        h.inv.mem_sortables_of_stored hS hf (h.stored f hf hfreach), htype, hnext⟩
  rw [← hlisted]
  constructor
  · rintro ⟨x, hx, hhash⟩
    simp only [HeadsIndex.getHeads, List.mem_filter, decide_eq_true_eq] at hx
    rw [← hhash] at hreach ⊢
    exact (h.inv.heads x hx.1 hreach).1 hx.2.1
  · intro hnot
    obtain ⟨y, hy, hhash⟩ := h.stored e he hreach
    obtain ⟨x, hx, rfl⟩ := HeadsIndex.mem_sortables.mp hy
    refine ⟨x, ?_, hhash⟩
    simp only [HeadsIndex.getHeads, List.mem_filter, decide_eq_true_eq]
    refine ⟨hx, ?_, by simp⟩
    cases hflag : x.head with
    | true => rfl
    | false =>
        rw [← hhash] at hreach hnot
        rcases (h.inv.heads x hx hreach).2 hflag with hcontra | hfalse
        · exact absurd hcontra hnot
        · exact hfalse.elim

/-- An entry that is cut off whatever the order is not stored. -/
theorem AllJoined.not_stored_of_cutsOff
    {s : EntryIndex α} (h : AllJoined S env.sortFn s) {c e : Entry α}
    (hc : c ∈ S) (he : e ∈ S) (hoff : CutsOff S env.sortFn c e) :
    ¬ s.index.Stored e.hash :=
  h.cut c hc e he hoff
    (h.stored c hc (not_cutReach_of_unlisted hoff.unlisted))

theorem not_hasHead_of_not_stored
    {index : HeadsIndex} {k : Hash} (h : ¬ index.Stored k) :
    ¬ index.HasHead k := by
  rintro ⟨x, hx, rfl⟩
  exact h (HeadsIndex.stored_of_mem (List.mem_of_mem_filter hx))

/-- Two logs that joined all entries agree on what is not contested. -/
theorem AllJoined.agree
    {s s' : EntryIndex α} (h : AllJoined S env.sortFn s)
    (h' : AllJoined S env.sortFn s') (hS : EntrySet S) {k : Hash}
    (hk : ¬ Contested S env.sortFn k) :
    Agree s.index s'.index k := by
  -- neither stores the hash
  have hneither : ¬ s.index.Stored k → ¬ s'.index.Stored k →
      Agree s.index s'.index k := by
    intro hnot hnot'
    exact ⟨iff_of_false hnot hnot',
      iff_of_false (not_hasHead_of_not_stored hnot)
        (not_hasHead_of_not_stored hnot')⟩
  by_cases hreach : CutReach S k
  · obtain ⟨c, hc, e, he, rfl, hoff⟩ :
        ∃ c ∈ S, ∃ e ∈ S, e.hash = k ∧ CutsOff S env.sortFn c e :=
      not_not.mp (fun hcontra => hk ⟨hreach, hcontra⟩)
    exact hneither (h.not_stored_of_cutsOff hc he hoff)
      (h'.not_stored_of_cutsOff hc he hoff)
  · by_cases hmem : ∃ e ∈ S, e.hash = k
    · obtain ⟨e, he, rfl⟩ := hmem
      exact ⟨iff_of_true (h.stored e he hreach) (h'.stored e he hreach),
        (h.hasHead_iff hS he hreach).trans (h'.hasHead_iff hS he hreach).symm⟩
    · refine hneither ?_ ?_
      · rintro ⟨x, hx, hhash⟩
        obtain ⟨e, he, rfl⟩ := h.inv.sub x hx
        exact hmem ⟨e, he, hhash⟩
      · rintro ⟨x, hx, hhash⟩
        obtain ⟨e, he, rfl⟩ := h'.inv.sub x hx
        exact hmem ⟨e, he, hhash⟩

variable (S env)

/-- With enough recursion depth, any two orders of joining all entries of the
set into fresh logs end, and with the same entries and heads, up to some
hashes. -/
def ConvergesUpTo (except : Hash → Prop) : Prop :=
  ∃ N, ∀ fuel, N ≤ fuel → ∀ order order' : List (Entry α),
    (∀ e, e ∈ order ↔ e ∈ S) → (∀ e, e ∈ order' ↔ e ∈ S) →
    ∀ s s' : LogState α σ, Fresh S s → Fresh S s' →
    ∃ t t', joinAll env fuel s order = (.ok (), t) ∧
      joinAll env fuel s' order' = (.ok (), t') ∧
      ∀ k, ¬ except k → Agree t.entryIndex.index t'.entryIndex.index k

variable {S env}

/-- From some depth on, joining entries of the set into a fresh log ends. -/
theorem exists_depth_joinAll (hS : EntrySet S) (henv : PlainEnv S env) :
    ∃ N, ∀ fuel, N ≤ fuel → ∀ (s : LogState α σ) (order : List (Entry α)),
      Fresh S s → (∀ e ∈ order, e ∈ S) →
      ∃ t, joinAll env fuel s order = (.ok (), t) ∧
        JoinInv S (fun _ => False) t.entryIndex ∧
        CutInv S env.sortFn t.entryIndex.index ∧
        ∀ e ∈ order, ¬ CutReach S e.hash →
          t.entryIndex.index.Stored e.hash := by
  obtain ⟨rank, b, hb⟩ := hS.bounds
  -- a bound on the depth for every entry
  have hbound : ∀ (f : Entry α → Nat) (e : Entry α), e ∈ S →
      f e ≤ (S.map f).sum :=
    fun f e he => List.single_le_sum (by simp) _ (List.mem_map_of_mem he)
  let F := (S.map (fun e => visitBound b (rank e.hash))).sum
  let R := (S.map (fun e => rank e.hash)).sum
  refine ⟨R + F + 1, ?_⟩
  intro fuel hfuel s order hs horder
  have hF : ∀ e ∈ S, visitBound b (rank e.hash) ≤ F :=
    hbound (fun e => visitBound b (rank e.hash))
  have hdepth : ∀ e ∈ S, rank e.hash + F < fuel := by
    intro e he
    have hR : rank e.hash ≤ R := hbound (fun e => rank e.hash) e he
    omega
  have hcut : CutInv S env.sortFn s.entryIndex.index := by
    rintro c _ e _ _ ⟨x, hx, _⟩
    rw [hs.index] at hx
    cases hx
  obtain ⟨t, hrun, hinv, hcut', _, hstored⟩ :=
    joinAll_join hS hb henv hF hdepth horder hs.joinInv hcut
  exact ⟨t, hrun, hinv, hcut', hstored⟩

/-- Joins converge up to the contested entries. -/
theorem convergesUpTo_contested (hS : EntrySet S) (henv : PlainEnv S env) :
    ConvergesUpTo S env (Contested S env.sortFn) := by
  obtain ⟨N, hN⟩ := exists_depth_joinAll hS henv
  refine ⟨N, ?_⟩
  intro fuel hfuel order order' horder horder' s s' hs hs'
  have hall : ∀ (s : LogState α σ) (order : List (Entry α)), Fresh S s →
      (∀ e, e ∈ order ↔ e ∈ S) →
      ∃ t, joinAll env fuel s order = (.ok (), t) ∧
        AllJoined S env.sortFn t.entryIndex := by
    intro s order hs horder
    obtain ⟨t, hrun, hinv, hcut, hstored⟩ :=
      hN fuel hfuel s order hs (fun e he => (horder e).mp he)
    exact ⟨t, hrun, hinv, hcut, fun e he => hstored e ((horder e).mpr he)⟩
  obtain ⟨t, hrun, ht⟩ := hall s order hs horder
  obtain ⟨t', hrun', ht'⟩ := hall s' order' hs' horder'
  exact ⟨t, t', hrun, hrun', fun k hk => ht.agree ht' hS hk⟩

end Joins

/-! ### A cut before or after an entry that follows -/

namespace EarlyCut

def clockAt (wallTime : Nat) : Clock :=
  { id := "writer", timestamp := { wallTime := wallTime, logical := 0 } }

def entryA : Entry String :=
  { hash := "a", «meta» := ⟨clockAt 1, "g", [], .APPEND⟩, payload := "a"
    payloadSize := 1 }

def entryB : Entry String :=
  { hash := "b", «meta» := ⟨clockAt 2, "g", ["a"], .APPEND⟩, payload := "b"
    payloadSize := 1 }

/-- A cut of the first entry. -/
def entryC : Entry String :=
  { hash := "c", «meta» := ⟨clockAt 3, "g", ["a"], .CUT⟩, payload := "c"
    payloadSize := 1 }

def entries : List (Entry String) := [entryA, entryB, entryC]

/-- A log of strings; all blocks can be fetched. -/
def env : LogEnv String Unit where
  sortFn := LastWriteWins
  canAppend app index _ := (.ok true, { app := app, cache := index.cache })
  onChange app index _ := (.ok (), { app := app, cache := index.cache })
  trim := none
  canTrim _ _ _ := true
  cacheId _ _ := none
  remote k := entries.find? (fun e => e.hash = k)
  hashOf _ payload := payload
  byteLengthOf _ := 1

theorem entrySet : EntrySet entries where
  content := by decide
  closed := by decide
  acyclic := ⟨fun k => if k = "a" then 0 else 1, by decide⟩

theorem plainEnv : PlainEnv entries env where
  accepts _ _ _ := rfl
  canAppend_cache _ _ _ := rfl
  handles _ _ _ := rfl
  onChange_cache _ _ _ := rfl
  noTrim := rfl
  remote := by decide

theorem fresh : Fresh entries (LogState.open (α := String) ()) where
  index := rfl
  cache := rfl
  blocks := by simp [LogState.open, EntryIndex.empty]

/-- Joining all entries ends with the same log but for the contested ones. -/
theorem convergesUpTo_entries :
    EntrySet entries ∧ PlainEnv entries env ∧
      ConvergesUpTo entries env (Contested entries env.sortFn) :=
  ⟨entrySet, plainEnv, convergesUpTo_contested entrySet plainEnv⟩

/-- The cut deletes its entry when it comes before the one that follows, and
leaves it when it comes after. -/
theorem not_convergesUpTo :
    EntrySet entries ∧ PlainEnv entries env ∧
      ¬ ConvergesUpTo entries env (fun _ => False) := by
  refine ⟨entrySet, plainEnv, ?_⟩
  rintro ⟨N, hN⟩
  obtain ⟨t, t', hrun, hrun', hagree⟩ :=
    hN (N + 4) (by omega) [entryA, entryC, entryB] [entryA, entryB, entryC]
      (fun e => by simp [entries]; tauto) (fun e => Iff.rfl)
      (.open ()) (.open ()) fresh fresh
  have hearly :
      (joinAll env (N + 4) (.open ()) [entryA, entryC, entryB]).2.entryIndex.index =
        [entryC.toShallow true, entryB.toShallow true] := rfl
  have hlate :
      (joinAll env (N + 4) (.open ()) [entryA, entryB, entryC]).2.entryIndex.index =
        [entryA.toShallow false, entryB.toShallow true, entryC.toShallow true] :=
    rfl
  rw [hrun] at hearly
  rw [hrun'] at hlate
  have hstored := (hagree "a" (fun h => h)).stored
  simp only [HeadsIndex.stored_iff_get] at hstored
  rw [hearly, hlate] at hstored
  exact absurd hstored (by decide)

end EarlyCut

end Log
end Peerbit
