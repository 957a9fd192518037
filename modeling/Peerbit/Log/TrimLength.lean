import Peerbit.Log.IndexLength
import Peerbit.Log.ToArray

/-!
# Trimming to a length

A trim to a length deletes entries from the oldest one on.  From a deleted entry it
goes on to the first one `after` it, and that query asks for another wall time: the
entries with the same wall time are passed over, and the trim does not come back
to them.  When the entries run out, it starts again at the tail, which is where it
started, and which is gone: it stops.

So the trim does its work exactly when the entries to be deleted have different
wall times (`trimsTo_iff`).
-/

namespace Peerbit
namespace Log

/-- The trim option of a length, without a filter. -/
def lengthOption (to_ : Nat) (from_ : Option Nat) : TrimOptions where
  condition := .length to_ from_
  canTrim := none
  cacheId := none

/-- The index is short enough, no more is deleted than that takes, and no kept entry
comes before a deleted one. -/
structure TrimsTo (sortFn : SortFn) (to_ : Nat) (index index' : HeadsIndex) : Prop where
  kept : index'.sortables.Sublist index.sortables
  fits : index'.length ≤ to_
  noMore : min index.length to_ ≤ index'.length
  first : ∀ x ∈ index'.sortables, ∀ y ∈ index.sortables, y ∉ index'.sortables →
    sortFn.sort x y ≠ .lt

/-- The entries that are to be deleted, the first ones in the order, have different wall
times. -/
def FirstsDiffer (sortFn : SortFn) (to_ : Nat) (index : HeadsIndex) : Prop :=
  (((index.sortables.insertionSort sortFn.le).take (index.length - to_)).map
    (fun x => x.meta.clock.timestamp.wallTime)).Nodup

/-! ### Orders that begin with the wall time -/

/-- The order begins with the wall time, and `after` asks for nothing else. -/
structure SortFn.ByWallTime (sortFn : SortFn) : Prop where
  lawful : sortFn.Lawful
  after_iff : ∀ a b, sortFn.sort a b ≠ .gt →
    (sortFn.after a b = true ↔
      a.meta.clock.timestamp.wallTime ≠ b.meta.clock.timestamp.wallTime)
  lt_of_after : ∀ a b, sortFn.after a b = true → sortFn.sort a b = .lt
  after_congr : ∀ a a' b,
    a.meta.clock.timestamp.wallTime = a'.meta.clock.timestamp.wallTime →
      sortFn.after a b = sortFn.after a' b
  after_trans : ∀ a b c, sortFn.after a b = true → sortFn.after b c = true →
    sortFn.after a c = true

theorem compareTimestamp_eq_lt (a b : Timestamp) :
    compareTimestamp a b = .lt ↔
      a.wallTime < b.wallTime ∨ a.wallTime = b.wallTime ∧ a.logical < b.logical := by
  rw [compareTimestamp, Ordering.then_eq_lt, Nat.compare_eq_lt, Nat.compare_eq_eq,
    Nat.compare_eq_lt]

theorem lastWriteWins_byWallTime : LastWriteWins.ByWallTime where
  lawful := lastWriteWins_lawful
  after_iff a b h := by
    have hle := (compareTimestamp_ne_gt _ _).mp h
    simp only [LastWriteWins, decide_eq_true_eq]
    omega
  lt_of_after a b h := by
    simp only [LastWriteWins, decide_eq_true_eq] at h
    exact (compareTimestamp_eq_lt _ _).mpr (.inl h)
  after_congr a a' b h := by simp only [LastWriteWins, h]
  after_trans a b c hab hbc := by
    simp only [LastWriteWins, decide_eq_true_eq] at hab hbc ⊢
    omega

theorem firstWriteWins_byWallTime : FirstWriteWins.ByWallTime where
  lawful := firstWriteWins_lawful
  after_iff a b h := by
    have hle := (compareTimestamp_ne_gt _ _).mp h
    simp only [FirstWriteWins, decide_eq_true_eq]
    omega
  lt_of_after a b h := by
    simp only [FirstWriteWins, decide_eq_true_eq] at h
    exact (compareTimestamp_eq_lt _ _).mpr (.inl h)
  after_congr a a' b h := by simp only [FirstWriteWins, h]
  after_trans a b c hab hbc := by
    simp only [FirstWriteWins, decide_eq_true_eq] at hab hbc ⊢
    omega

theorem SortFn.ByWallTime.after_self {sortFn : SortFn} (h : sortFn.ByWallTime)
    (x : SortableEntry) : sortFn.after x x = false := by
  cases hafter : sortFn.after x x with
  | false => rfl
  | true =>
      have hlt := h.lt_of_after x x hafter
      have hswap := h.lawful.oriented x x
      rw [hlt] at hswap
      cases hswap

/-! ### What the trim walks over -/

/-- The entries that a walk deletes from a sorted list: it goes on after the wall time
of each. -/
def walk (sortFn : SortFn) : Nat → List SortableEntry → List SortableEntry
  | 0, _ => []
  | _ + 1, [] => []
  | count + 1, x :: rest => x :: walk sortFn count (rest.filter (sortFn.after x))

section Walk

variable {sortFn : SortFn} {count : Nat} {entries : List SortableEntry}

theorem walk_sublist (sortFn : SortFn) (count : Nat) (entries : List SortableEntry) :
    (walk sortFn count entries).Sublist entries := by
  induction count generalizing entries with
  | zero => exact List.nil_sublist _
  | succ count ih =>
      cases entries with
      | nil => exact .slnil
      | cons x rest => exact ((ih _).trans List.filter_sublist).cons_cons x

theorem length_walk_le (sortFn : SortFn) (count : Nat) (entries : List SortableEntry) :
    (walk sortFn count entries).length ≤ count := by
  induction count generalizing entries with
  | zero => exact Nat.le_refl 0
  | succ count ih =>
      cases entries with
      | nil => exact Nat.zero_le _
      | cons x rest => exact Nat.succ_le_succ (ih _)

/-- Where the first entries have different wall times, the walk deletes them. -/
theorem walk_eq_take (h : sortFn.ByWallTime) (hsorted : entries.Pairwise sortFn.le)
    (hdiffer : ((entries.take count).map
      (fun x => x.meta.clock.timestamp.wallTime)).Nodup) :
    walk sortFn count entries = entries.take count := by
  induction count generalizing entries with
  | zero => rfl
  | succ count ih =>
      cases entries with
      | nil => rfl
      | cons x rest =>
          obtain ⟨hx, hrest⟩ := List.pairwise_cons.mp hsorted
          rw [List.take_succ_cons, List.map_cons, List.nodup_cons] at hdiffer
          have hafter : ∀ y ∈ rest.take count, sortFn.after x y = true := by
            intro y hy
            refine (h.after_iff x y (hx y (List.mem_of_mem_take hy))).mpr ?_
            intro heq
            exact hdiffer.1 (List.mem_map.mpr ⟨y, hy, heq.symm⟩)
          have htake : (rest.filter (sortFn.after x)).take count = rest.take count := by
            have hfilter : (rest.take count).filter (sortFn.after x) = rest.take count :=
              List.filter_eq_self.mpr hafter
            have hprefix : rest.take count <+: rest.filter (sortFn.after x) := by
              rw [← hfilter]
              exact (List.take_prefix count rest).filter _
            by_cases hlength : count ≤ rest.length
            · have htaken := List.prefix_iff_eq_take.mp hprefix
              rw [List.length_take, Nat.min_eq_left hlength] at htaken
              exact htaken.symm
            · have hall : rest.take count = rest :=
                List.take_of_length_le (Nat.le_of_not_le hlength)
              rw [hall] at hfilter
              rw [hfilter]
          rw [walk, List.take_succ_cons, ih (hrest.filter _) (by rw [htake]; exact hdiffer.2),
            htake]

/-- Where the walk deletes enough and keeps none before a deleted one, the first entries
have different wall times. -/
theorem nodup_of_walk (h : sortFn.ByWallTime) (hsorted : entries.Pairwise sortFn.le)
    (hnodup : entries.Nodup) (hcount : count ≤ (walk sortFn count entries).length)
    (hfirst : ∀ x ∈ entries, x ∉ walk sortFn count entries →
      ∀ y ∈ walk sortFn count entries, sortFn.sort x y ≠ .lt) :
    ((entries.take count).map (fun x => x.meta.clock.timestamp.wallTime)).Nodup := by
  induction count generalizing entries with
  | zero => exact List.nodup_nil
  | succ count ih =>
      cases entries with
      | nil => exact List.nodup_nil
      | cons x rest =>
          obtain ⟨hx, hrest⟩ := List.pairwise_cons.mp hsorted
          obtain ⟨hxrest, hnodup⟩ := List.nodup_cons.mp hnodup
          rw [walk] at hcount hfirst
          rw [List.length_cons, Nat.add_le_add_iff_right] at hcount
          rw [List.take_succ_cons, List.map_cons]
          cases count with
          | zero => exact List.nodup_singleton _
          | succ count =>
              obtain ⟨y, hy⟩ := List.exists_mem_of_length_pos
                (Nat.lt_of_lt_of_le (Nat.succ_pos count) hcount)
              have hafterY := List.of_mem_filter ((walk_sublist _ _ _).mem hy)
              -- An entry with the wall time of the first one would stay, before `y`.
              have hall : ∀ z ∈ rest, sortFn.after x z = true := by
                intro z hz
                rw [h.after_iff x z (hx z hz)]
                intro heq
                have hnot : z ∉ x :: walk sortFn (count + 1) (rest.filter (sortFn.after x)) := by
                  intro hmem
                  rcases List.mem_cons.mp hmem with rfl | hmem
                  · exact hxrest hz
                  · have hafterZ := List.of_mem_filter ((walk_sublist _ _ _).mem hmem)
                    exact (h.after_iff x z (hx z hz)).mp hafterZ heq
                refine hfirst z (List.mem_cons_of_mem x hz) hnot y
                  (List.mem_cons_of_mem x hy) (h.lt_of_after z y ?_)
                rw [← h.after_congr x z y heq]
                exact hafterY
              have hfilter : rest.filter (sortFn.after x) = rest :=
                List.filter_eq_self.mpr hall
              rw [hfilter] at hcount hfirst
              refine List.nodup_cons.mpr ⟨?_, ih hrest hnodup hcount ?_⟩
              · intro hmem
                obtain ⟨z, hz, heq⟩ := List.mem_map.mp hmem
                have hz := List.mem_of_mem_take hz
                exact (h.after_iff x z (hx z hz)).mp (hall z hz) heq.symm
              · intro z hz hnot w hw
                refine hfirst z (List.mem_cons_of_mem x hz) ?_ w (List.mem_cons_of_mem x hw)
                intro hmem
                rcases List.mem_cons.mp hmem with rfl | hmem
                · exact hxrest hz
                · exact hnot hmem

end Walk

/-! ### The loop -/

section Loop

variable {α : Type}

/-- Deleting a stored node takes one entry off the index. -/
theorem deleteNode_spec {s : EntryIndex α} (hs : Counted s) {node : ShallowEntry}
    (hnode : node.toSortableEntry ∈ s.index.sortables) :
    Counted (deleteNode s node).2 ∧
      (deleteNode s node).2.index.sortables =
        s.index.sortables.filter (fun x => decide (x ≠ node.toSortableEntry)) ∧
      (deleteNode s node).2.index.length + 1 = s.index.length := by
  have hread : Counted (s.get node.hash).2 := hs.get node.hash
  have hsortables : (deleteNode s node).2.index.sortables =
      s.index.sortables.filter (fun x => decide (x ≠ node.toSortableEntry)) := by
    change ((s.get node.hash).2.delete node.hash none).index.sortables = _
    rw [hread.sortables_delete, EntryIndex.get_index]
    refine List.filter_congr ?_
    intro x hx
    refine decide_eq_decide.mpr (not_congr ⟨?_, ?_⟩)
    · exact fun hhash => hs.keyed.sortables_inj hx hnode hhash
    · rintro rfl
      rfl
  refine ⟨(hread.delete node.hash none).congr rfl rfl, hsortables, ?_⟩
  have hcount := List.length_eq_length_filter_add
    (l := s.index.sortables) (fun x => decide (x ≠ node.toSortableEntry))
  have hsingle : (s.index.sortables.filter
      (fun x => !decide (x ≠ node.toSortableEntry))).length = 1 := by
    have hcountNode := List.count_eq_one_of_mem hs.keyed.nodup_sortables hnode
    rw [← List.countP_eq_length_filter]
    rw [List.count] at hcountNode
    refine (List.countP_congr ?_).trans hcountNode
    intro x _
    simp
  rw [hsingle, ← hsortables, length_sortables, length_sortables] at hcount
  exact hcount.symm

variable {sortFn : SortFn} {env : TrimEnv} {to_ : Nat} {from_ : Option Nat}

/-- The trim asks for the first one of the entries after the node. -/
theorem map_getAfter (index : HeadsIndex) (node : ShallowEntry) :
    (getAfter sortFn index node).map ShallowEntry.toSortableEntry =
      ((index.sortables.filter (sortFn.after node.toSortableEntry)).insertionSort
        sortFn.le).head? := by
  have hfilter : HeadsIndex.sortables
      (index.filter (fun e => sortFn.after node.toSortableEntry e.toSortableEntry)) =
        index.sortables.filter (sortFn.after node.toSortableEntry) := by
    simp only [HeadsIndex.sortables, List.filter_map]
    rfl
  rw [← hfilter, ← sortables_sorted, HeadsIndex.sortables, List.head?_map]
  rfl

/-- A trim that came back to its tail stops. -/
theorem trimLoop_of_looped (option : TrimOptions) (tail : Option ShallowEntry)
    (fuel : Nat) {l : TrimLoop α} (hnode : l.node = tail) (hlooped : l.looped = true) :
    trimLoop env option tail tail true fuel l = l := by
  cases fuel with
  | zero => rfl
  | succ fuel =>
      unfold trimLoop
      split
      · rfl
      · rename_i node heq
        rw [if_neg]
        rintro ⟨-, -, hfalse | hne⟩
        · rw [hlooped] at hfalse
          cases hfalse
        · rw [← hnode, heq] at hne
          exact hne rfl

/-- The node of the loop is the first entry that it can still walk over. -/
structure AtFirst (sortFn : SortFn) (left : SortableEntry → Bool) (l : TrimLoop α) :
    Prop where
  counted : Counted l.entryIndex
  node : l.node.map ShallowEntry.toSortableEntry =
    ((l.entryIndex.index.sortables.filter left).insertionSort sortFn.le).head?
  upward : ∀ x y, left x = true → sortFn.after x y = true → left y = true
  looped : l.looped = false

/-- What comes after the first entry, of all that come after it. -/
theorem AtFirst.sorted_after (h : sortFn.ByWallTime) {left : SortableEntry → Bool}
    {l : TrimLoop α} (hl : AtFirst sortFn left l) {x : SortableEntry}
    {rest : List SortableEntry}
    (hwalked : (l.entryIndex.index.sortables.filter left).insertionSort sortFn.le =
      x :: rest) :
    (l.entryIndex.index.sortables.filter (sortFn.after x)).insertionSort sortFn.le =
      rest.filter (sortFn.after x) := by
  have hx : x ∈ l.entryIndex.index.sortables.filter left := by
    refine (List.mem_insertionSort sortFn.le).mp ?_
    rw [hwalked]
    exact List.mem_cons_self
  have hsame : l.entryIndex.index.sortables.filter (sortFn.after x) =
      (l.entryIndex.index.sortables.filter left).filter (sortFn.after x) := by
    rw [List.filter_filter]
    refine List.filter_congr ?_
    intro y _
    cases hy : sortFn.after x y with
    | false => rfl
    | true =>
        rw [hl.upward x y (List.of_mem_filter hx) hy]
        rfl
  rw [hsame, Lib.StableSort.insertionSort_filter h.lawful.total h.lawful.trans, hwalked,
    List.filter_cons_of_neg (by rw [h.after_self]; decide)]

variable (to_ from_) in
/-- One pass deletes the first entry, and goes to the first one after it. -/
theorem AtFirst.visit (h : sortFn.ByWallTime) (henv : env.sortFn = sortFn)
    {left : SortableEntry → Bool} {l : TrimLoop α} (hl : AtFirst sortFn left l)
    {node : ShallowEntry} (hstored : node.toSortableEntry ∈ l.entryIndex.index.sortables) :
    let l' := trimVisit env (lengthOption to_ from_) l node
    AtFirst sortFn (sortFn.after node.toSortableEntry) l' ∧
      l'.entryIndex.index.sortables =
        l.entryIndex.index.sortables.filter (fun x => decide (x ≠ node.toSortableEntry)) ∧
      l'.entryIndex.index.sortables.filter (sortFn.after node.toSortableEntry) =
        l.entryIndex.index.sortables.filter (sortFn.after node.toSortableEntry) ∧
      l'.entryIndex.index.length + 1 = l.entryIndex.index.length := by
  subst henv
  obtain ⟨hdeleted, hsortables, hcount⟩ := deleteNode_spec hl.counted hstored
  have hafter : (deleteNode l.entryIndex node).2.index.sortables.filter
      (env.sortFn.after node.toSortableEntry) =
        l.entryIndex.index.sortables.filter (env.sortFn.after node.toSortableEntry) := by
    rw [hsortables, List.filter_filter]
    refine List.filter_congr ?_
    intro x _
    by_cases hx : x = node.toSortableEntry
    · subst hx
      rw [h.after_self]
      rfl
    · simp [hx]
  refine ⟨⟨hdeleted, ?_, fun x y => h.after_trans _ x y, hl.looped⟩, hsortables, hafter,
    hcount⟩
  change (getAfter env.sortFn l.entryIndex.index node).map ShallowEntry.toSortableEntry =
    (((deleteNode l.entryIndex node).2.index.sortables.filter
      (env.sortFn.after node.toSortableEntry)).insertionSort env.sortFn.le).head?
  rw [hafter]
  exact map_getAfter _ _

theorem filter_not_mem_walk_zero (entries l : List SortableEntry) :
    entries.filter (fun x => decide (x ∉ walk sortFn 0 l)) = entries :=
  List.filter_eq_self.mpr (fun _ _ => rfl)

theorem filter_not_mem_walk_nil (entries : List SortableEntry) (count : Nat) :
    entries.filter (fun x => decide (x ∉ walk sortFn count [])) = entries := by
  cases count with
  | zero => exact filter_not_mem_walk_zero entries []
  | succ count => exact List.filter_eq_self.mpr (fun _ _ => rfl)

theorem filter_not_mem_walk_cons (entries rest : List SortableEntry) (count : Nat)
    (x : SortableEntry) :
    entries.filter (fun y => decide (y ∉ walk sortFn (count + 1) (x :: rest))) =
      (entries.filter (fun y => decide (y ≠ x))).filter (fun y =>
        decide (y ∉ walk sortFn count (rest.filter (sortFn.after x)))) := by
  rw [List.filter_filter]
  refine List.filter_congr ?_
  intro y _
  by_cases hy : y = x
  · simp [walk, hy]
  · simp [walk, hy]

variable (to_ from_) in
/-- The loop deletes what the walk goes over. -/
theorem trimLoop_walk (h : sortFn.ByWallTime) (henv : env.sortFn = sortFn)
    (tail : Option ShallowEntry) (fuel : Nat) {left : SortableEntry → Bool}
    {l : TrimLoop α} (hl : AtFirst sortFn left l)
    (hfuel : l.entryIndex.index.length ≤ fuel) :
    (trimLoop env (lengthOption to_ from_) tail tail true fuel l).entryIndex.index.sortables =
      l.entryIndex.index.sortables.filter (fun x =>
        decide (x ∉ walk sortFn (l.entryIndex.index.length - to_)
          ((l.entryIndex.index.sortables.filter left).insertionSort sortFn.le))) := by
  induction fuel generalizing left l with
  | zero =>
      rw [Nat.le_zero.mp hfuel, Nat.zero_sub, filter_not_mem_walk_zero]
      rfl
  | succ fuel ih =>
      have hnode := hl.node
      unfold trimLoop
      cases hcurrent : l.node with
      | none =>
          rw [hcurrent, Option.map_none] at hnode
          rw [List.head?_eq_none_iff.mp hnode.symm, filter_not_mem_walk_nil]
      | some node =>
          rw [hcurrent, Option.map_some] at hnode
          obtain ⟨rest, hwalked⟩ := List.head?_eq_some_iff.mp hnode.symm
          have hmem : node.toSortableEntry ∈ l.entryIndex.index.sortables.filter left := by
            refine (List.mem_insertionSort sortFn.le).mp ?_
            rw [hwalked]
            exact List.mem_cons_self
          obtain ⟨hnext, hsortables, hafter, hcount⟩ :=
            hl.visit to_ from_ h henv (List.mem_of_mem_filter hmem)
          by_cases hshort : l.entryIndex.index.length ≤ to_
          · -- The log is short enough.
            have hdone : (lengthOption to_ from_).condition.done env l.entryIndex = true := by
              simp only [lengthOption, TrimCondition.done, hl.counted.length, decide_eq_true_eq]
              omega
            dsimp only
            rw [if_neg (fun hboth => by rw [hdone] at hboth; cases hboth.1),
              Nat.sub_eq_zero_of_le hshort, filter_not_mem_walk_zero]
          · have hgoes : (lengthOption to_ from_).condition.done env l.entryIndex = false ∧
                0 < l.entryIndex.length ∧ (l.looped = false ∨
                  some node.hash ≠ tail.map (fun e => e.hash)) := by
              refine ⟨?_, ?_, .inl hl.looped⟩
              · simp only [lengthOption, TrimCondition.done, hl.counted.length,
                  decide_eq_false_iff_not]
                omega
              · rw [hl.counted.length]
                omega
            obtain ⟨count, hcounted⟩ : ∃ count, l.entryIndex.index.length - to_ = count + 1 :=
              ⟨l.entryIndex.index.length - to_ - 1, by omega⟩
            have hdone := ih hnext (by omega)
            rw [hafter, hl.sorted_after h hwalked, hsortables,
              show (trimVisit env (lengthOption to_ from_) l node).entryIndex.index.length - to_ =
                count by omega] at hdone
            rw [hcounted, hwalked, filter_not_mem_walk_cons, ← hdone]
            dsimp only
            rw [if_pos hgoes]
            split
            · rename_i hnone
              have hlast : ∀ l' : TrimLoop α, l'.node = none →
                  trimLoop env (lengthOption to_ from_) tail tail true fuel l' = l' := by
                intro l' hl'
                cases fuel with
                | zero => rfl
                | succ fuel => rw [trimLoop, hl']
              rw [hlast _ (Option.isNone_iff_eq_none.mp hnone),
                if_pos ⟨hnext.looped, rfl⟩]
              exact congrArg (fun l' => l'.entryIndex.index.sortables)
                (trimLoop_of_looped (lengthOption to_ from_) tail fuel
                  (l := { trimVisit env (lengthOption to_ from_) l node with
                    node := tail, looped := true }) rfl rfl)
            · rfl

end Loop

/-! ### The trim -/

section Trim

variable {α : Type} {sortFn : SortFn} {env : TrimEnv} {to_ : Nat} {from_ : Option Nat}
variable {s : EntryIndex α}

/-- The trim deletes what the walk goes over, from the oldest entry on. -/
theorem sortables_trimTask (h : sortFn.ByWallTime) (henv : env.sortFn = sortFn)
    (hs : Counted s) (hfrom : from_.getD to_ ≤ s.index.length) (t : TrimState) :
    (trimTask env (lengthOption to_ from_) s t).2.1.index.sortables =
      s.index.sortables.filter (fun x =>
        decide (x ∉ walk sortFn (s.index.length - to_)
          (s.index.sortables.insertionSort sortFn.le))) := by
  have hstarts : (lengthOption to_ from_).condition.starts s = true := by
    simp only [lengthOption, TrimCondition.starts, hs.length, decide_eq_true_eq]
    omega
  have hall : s.index.sortables.filter (fun _ => true) = s.index.sortables :=
    List.filter_eq_self.mpr (fun _ _ => rfl)
  have hfirst : AtFirst sortFn (fun _ => true)
      (trimStart s (getOldest env.sortFn s.index)) := by
    refine ⟨hs, ?_, fun _ _ _ _ => rfl, rfl⟩
    change (getOldest env.sortFn s.index).map ShallowEntry.toSortableEntry =
      ((s.index.sortables.filter (fun _ => true)).insertionSort sortFn.le).head?
    rw [hall, henv, getOldest, ← sortables_sorted, HeadsIndex.sortables, List.head?_map]
  have hloop := trimLoop_walk to_ from_ h henv
    (getOldest env.sortFn s.index) (2 * s.index.length + 2) hfirst
    (by change s.index.length ≤ _; omega)
  have hresets : trimResets t none = true := Bool.or_true _
  have hchanged : trimChanged env (lengthOption to_ from_) s t none = true := by
    simp only [trimChanged, hresets, Bool.true_or]
  have hseed : (lengthOption to_ from_).cacheId.bind env.cacheId = none := rfl
  simp only [trimTask, hseed, hstarts, hchanged, hresets, Bool.true_eq_false, or_self,
    if_false, if_true, Option.isNone_none]
  rw [hloop]
  change s.index.sortables.filter (fun x => decide (x ∉ walk sortFn (s.index.length - to_)
    ((s.index.sortables.filter (fun _ => true)).insertionSort sortFn.le))) = _
  rw [hall]

theorem length_filter_not_mem {β : Type} [DecidableEq β] {l l' : List β} (hl : l.Nodup)
    (hl' : l'.Nodup) (hsub : l' ⊆ l) :
    (l.filter (fun x => decide (x ∉ l'))).length + l'.length = l.length := by
  have hperm : (l.filter (fun x => decide (x ∈ l'))).Perm l' := by
    refine (List.perm_ext_iff_of_nodup (hl.filter _) hl').mpr ?_
    intro x
    rw [List.mem_filter, decide_eq_true_eq]
    exact and_iff_right_of_imp (fun hx => hsub hx)
  have hcount := List.length_eq_length_filter_add (l := l) (fun x => decide (x ∈ l'))
  have hnot : l.filter (fun x => !decide (x ∈ l')) = l.filter (fun x => decide (x ∉ l')) :=
    List.filter_congr (fun x _ => (decide_not).symm)
  rw [hperm.length_eq, hnot] at hcount
  omega

/-- The trim does what it should exactly when the entries to be deleted have different
wall times. -/
theorem trimsTo_iff (hsort : sortFn = LastWriteWins ∨ sortFn = FirstWriteWins)
    (henv : env.sortFn = sortFn) (hs : Counted s)
    (hfrom : from_.getD to_ ≤ s.index.length) (t : TrimState) :
    TrimsTo sortFn to_ s.index (trimTask env (lengthOption to_ from_) s t).2.1.index ↔
      FirstsDiffer sortFn to_ s.index := by
  have h : sortFn.ByWallTime := by
    rcases hsort with rfl | rfl
    · exact lastWriteWins_byWallTime
    · exact firstWriteWins_byWallTime
  have hkept := sortables_trimTask h henv hs hfrom t
  generalize (trimTask env (lengthOption to_ from_) s t).2.1.index = index' at hkept ⊢
  have hperm := List.perm_insertionSort sortFn.le s.index.sortables
  have hsorted : (s.index.sortables.insertionSort sortFn.le).Pairwise sortFn.le := by
    have : Std.Total sortFn.le := ⟨h.lawful.total⟩
    have : IsTrans SortableEntry sortFn.le := ⟨h.lawful.trans⟩
    exact List.pairwise_insertionSort sortFn.le _
  have hnodup := hperm.nodup_iff.mpr hs.keyed.nodup_sortables
  generalize hentries : s.index.sortables.insertionSort sortFn.le = entries
    at hkept hperm hsorted hnodup
  have hwalk := walk_sublist sortFn (s.index.length - to_) entries
  have hmem : ∀ x, x ∈ index'.sortables ↔
      x ∈ s.index.sortables ∧ x ∉ walk sortFn (s.index.length - to_) entries := by
    intro x
    rw [hkept, List.mem_filter, decide_eq_true_eq]
  have hlength : index'.length + (walk sortFn (s.index.length - to_) entries).length =
      s.index.length := by
    have hcount := length_filter_not_mem hs.keyed.nodup_sortables (hnodup.sublist hwalk)
      (fun x hx => hperm.mem_iff.mp (hwalk.mem hx))
    rw [← hkept, length_sortables, length_sortables] at hcount
    exact hcount
  have hmost := length_walk_le sortFn (s.index.length - to_) entries
  unfold FirstsDiffer
  rw [hentries]
  constructor
  · intro htrims
    have hfits := htrims.fits
    refine nodup_of_walk h hsorted hnodup (by omega) ?_
    intro x hx hnot y hy
    refine htrims.first x ((hmem x).mpr ⟨hperm.mem_iff.mp hx, hnot⟩) y
      (hperm.mem_iff.mp (hwalk.mem hy)) ?_
    intro hstays
    exact ((hmem y).mp hstays).2 hy
  · intro hdiffer
    have htake := walk_eq_take h hsorted hdiffer
    have hcount : (entries.take (s.index.length - to_)).length = s.index.length - to_ := by
      rw [List.length_take, hperm.length_eq, length_sortables]
      omega
    rw [htake] at hmem hlength
    refine ⟨?_, by omega, by omega, ?_⟩
    · rw [hkept]
      exact List.filter_sublist
    · intro x hx y hy hgone hlt
      obtain ⟨hx, hnot⟩ := (hmem x).mp hx
      have hdropped : x ∈ entries.drop (s.index.length - to_) := by
        have hin := hperm.mem_iff.mpr hx
        rw [← List.take_append_drop (s.index.length - to_) entries] at hin
        exact (List.mem_append.mp hin).resolve_left hnot
      have htaken : y ∈ entries.take (s.index.length - to_) := by
        by_contra hnot
        exact hgone ((hmem y).mpr ⟨hy, hnot⟩)
      rw [← List.take_append_drop (s.index.length - to_) entries] at hsorted
      have hle := (List.pairwise_append.mp hsorted).2.2 y htaken x hdropped
      rw [SortFn.le, h.lawful.oriented x y, hlt] at hle
      exact hle rfl

end Trim

namespace SameWallTime

def entryAt (hash : String) (wallTime logical : Nat) : Entry String where
  hash := hash
  «meta» :=
    { clock := { id := "writer", timestamp := { wallTime := wallTime, logical := logical } }
      gid := "g"
      next := []
      type := .APPEND }
  payload := hash
  payloadSize := 1

def logOf (entries : List (Entry String)) : EntryIndex String :=
  entries.foldl (fun s e => s.put e true true true) .empty

def env : TrimEnv where
  sortFn := LastWriteWins
  canTrim _ _ := true
  cacheId _ := none
  now := 0

/-- Two entries have one wall time. -/
def log : EntryIndex String :=
  logOf [entryAt "1" 1 0, entryAt "2" 1 1, entryAt "3" 2 0]

/-- The second entry is passed over, and the third one is deleted in its place. -/
theorem not_trimsTo :
    ¬ TrimsTo LastWriteWins 1 log.index
      (trimTask env (lengthOption 1 none) log .init).2.1.index := by
  intro htrims
  have hkept : (trimTask env (lengthOption 1 none) log .init).2.1.index.sortables =
      [(entryAt "2" 1 1).toSortableEntry] := by
    decide +kernel
  have hfirst := htrims.first
  rw [hkept] at hfirst
  exact hfirst (entryAt "2" 1 1).toSortableEntry (by decide)
    (entryAt "3" 2 0).toSortableEntry (by decide) (by decide) (by decide)

/-- The entries that are to be deleted have different wall times. -/
theorem trimsTo_two :
    TrimsTo LastWriteWins 2 log.index
      (trimTask env (lengthOption 2 (some 3)) log .init).2.1.index := by
  have hcounted : Counted log := ⟨by unfold HeadsIndex.Keyed; decide, by decide⟩
  refine (trimsTo_iff (.inl rfl) rfl hcounted (by decide) .init).mpr ?_
  unfold FirstsDiffer
  decide

end SameWallTime

end Log
end Peerbit
