import Peerbit.Lib.Machines
import Peerbit.Utils.Cache

/-!
# Runs of the cache

The size of a cache should be the sum of the sizes of its live entries, and a key
should be found only within the time to live after it was last added.

Both fail when a key is added again that is still in the list.  The size of a live
key is replaced but not counted again, and that of a deleted key, which was taken
off, is not counted at all (`not_accounts_readded`).  And the key gets a new time at
its old place, so that `trim` stops there and does not come to the older entries
behind it.
-/

namespace Peerbit
namespace Utils

open Lib (Machine)

universe u v

inductive CacheAction (K : Type u) (V : Type v) where
  | add (time : Int) (key : K) (value : Option V) (size : Int)
  | get (time : Int) (key : K)
  | has (time : Int) (key : K)
  | del (key : K)
  | trim (time : Int)
  | clear
deriving Repr, DecidableEq

/-- A cache with the time of the last call that read the clock, and the times at
which the keys were last added. -/
structure CacheRun (K : Type u) (V : Type v) where
  cache : Cache K V
  now : Int
  lastAdded : K → Option Int

namespace Cache

variable {K : Type u} {V : Type v} [DecidableEq K]

/-- The sizes of the entries that are not deleted. -/
def liveSizeOf (deleted : List K) : List (K × CacheData V) → Int
  | [] => 0
  | (key, data) :: rest =>
      if key ∈ deleted then liveSizeOf deleted rest
      else data.size + liveSizeOf deleted rest

def liveSize (cache : Cache K V) : Int := liveSizeOf cache.deleted cache.entries

/-- The entries behind a key in the list. -/
def behind (cache : Cache K V) (key : K) : List (K × CacheData V) :=
  (cache.entries.dropWhile (fun e => decide (e.1 ≠ key))).tail

section LiveSize

variable {deleted deleted' : List K} {entries front back : List (K × CacheData V)}
  {key : K} {data : CacheData V}

theorem liveSizeOf_append :
    liveSizeOf deleted (front ++ back) =
      liveSizeOf deleted front + liveSizeOf deleted back := by
  induction front with
  | nil => simp [liveSizeOf]
  | cons e front ih =>
      obtain ⟨key, data⟩ := e
      rw [List.cons_append, liveSizeOf, liveSizeOf, ih]
      split
      · rfl
      · omega

theorem liveSizeOf_congr (h : ∀ e ∈ entries, (e.1 ∈ deleted ↔ e.1 ∈ deleted')) :
    liveSizeOf deleted entries = liveSizeOf deleted' entries := by
  induction entries with
  | nil => rfl
  | cons e entries ih =>
      obtain ⟨key, data⟩ := e
      have hkey := h (key, data) List.mem_cons_self
      rw [liveSizeOf, liveSizeOf, ih (fun e he => h e (List.mem_cons_of_mem _ he))]
      by_cases hmem : key ∈ deleted
      · rw [if_pos hmem, if_pos (hkey.mp hmem)]
      · rw [if_neg hmem, if_neg (fun h => hmem (hkey.mpr h))]

/-- Taking a key off the deleted ones changes nothing for the other keys. -/
theorem mem_filter_ne {e : K × CacheData V} (hne : e.1 ≠ key) :
    e.1 ∈ deleted.filter (· ≠ key) ↔ e.1 ∈ deleted := by
  simp [hne]

theorem liveSizeOf_filter (hnot : ∀ e ∈ entries, e.1 ≠ key) :
    liveSizeOf (deleted.filter (· ≠ key)) entries = liveSizeOf deleted entries :=
  liveSizeOf_congr (fun e he => mem_filter_ne (hnot e he))

/-- Trimming takes as much off the size as off the live entries. -/
theorem trimLoop_accounts (time max : Int) (ttl : Option Int)
    (hkeys : (entries.map Prod.fst).Nodup) (currentSize : Int) :
    let r := trimLoop time max ttl entries deleted currentSize
    r.2.2 - liveSizeOf r.2.1 r.1 = currentSize - liveSizeOf deleted entries := by
  induction entries generalizing deleted currentSize with
  | nil => rfl
  | cons e rest ih =>
      obtain ⟨key, data⟩ := e
      obtain ⟨hnot, hrest⟩ := List.nodup_cons.mp hkeys
      have hne : ∀ e ∈ rest, e.1 ≠ key := by
        intro e he heq
        exact hnot (List.mem_map.mpr ⟨e, he, heq⟩)
      simp only [trimLoop_cons]
      split
      · split
        · rename_i hmem
          rw [ih hrest, liveSizeOf_filter hne, liveSizeOf, if_pos hmem]
        · rename_i hmem
          rw [ih hrest, liveSizeOf, if_neg hmem]
          omega
      · rfl

theorem trim_accounts (cache : Cache K V)
    (hkeys : (cache.entries.map Prod.fst).Nodup) (time : Int) :
    (cache.trim time).currentSize - (cache.trim time).liveSize =
      cache.currentSize - cache.liveSize :=
  trimLoop_accounts time cache.max cache.ttl hkeys cache.currentSize

end LiveSize

/-- An entry has one place in the list. -/
theorem exists_split {cache : Cache K V} (hkeys : (cache.entries.map Prod.fst).Nodup)
    {key : K} {data : CacheData V} (h : cache.lookup key = some data) :
    ∃ front, cache.entries = front ++ (key, data) :: cache.behind key ∧
      (∀ e ∈ front, e.1 ≠ key) ∧ ∀ e ∈ cache.behind key, e.1 ≠ key := by
  obtain ⟨front, back, heq⟩ := List.append_of_mem (lookup_eq_some h)
  have hnodup := hkeys
  rw [heq, List.map_append, List.map_cons] at hnodup
  have hfront : ∀ e ∈ front, e.1 ≠ key := by
    intro e he heq
    exact (List.nodup_append.mp hnodup).2.2 key (List.mem_map.mpr ⟨e, he, heq⟩) key
      List.mem_cons_self rfl
  have hback : ∀ e ∈ back, e.1 ≠ key := by
    intro e he heq
    exact (List.nodup_cons.mp (List.nodup_append.mp hnodup).2.1).1
      (List.mem_map.mpr ⟨e, he, heq⟩)
  have hbehind : cache.behind key = back := by
    unfold behind
    rw [heq, List.dropWhile_append_of_pos (by simpa using hfront),
      List.dropWhile_cons_of_neg (by simp), List.tail_cons]
  rw [hbehind]
  exact ⟨front, heq, hfront, hback⟩

/-- What is replaced in the place of a key. -/
theorem replace_split {cache : Cache K V} (hkeys : (cache.entries.map Prod.fst).Nodup)
    {key : K} {old : CacheData V} (hlookup : cache.lookup key = some old)
    (data : CacheData V) :
    ∃ front, cache.entries = front ++ (key, old) :: cache.behind key ∧
      (∀ e ∈ front, e.1 ≠ key) ∧ (∀ e ∈ cache.behind key, e.1 ≠ key) ∧
      cache.entries.map (fun e => if e.1 = key then (key, data) else e) =
        front ++ (key, data) :: cache.behind key := by
  obtain ⟨front, heq, hfront, hback⟩ := exists_split hkeys hlookup
  refine ⟨front, heq, hfront, hback, ?_⟩
  have hother : ∀ entries : List (K × CacheData V), (∀ e ∈ entries, e.1 ≠ key) →
      entries.map (fun e => if e.1 = key then (key, data) else e) = entries := by
    intro entries hne
    refine (List.map_congr_left (fun e he => ?_)).trans (List.map_id entries)
    exact if_neg (hne e he)
  generalize cache.behind key = back at heq hback
  rw [heq, List.map_append, List.map_cons, if_pos rfl, hother front hfront,
    hother back hback]

theorem nodup_replace {cache : Cache K V} (hkeys : (cache.entries.map Prod.fst).Nodup)
    {key : K} {old : CacheData V} (hlookup : cache.lookup key = some old)
    (data : CacheData V) :
    ((cache.entries.map (fun e =>
      if e.1 = key then (key, data) else e)).map Prod.fst).Nodup := by
  obtain ⟨front, heq, -, -, hentries⟩ := replace_split hkeys hlookup data
  rw [heq, List.map_append, List.map_cons] at hkeys
  rwa [hentries, List.map_append, List.map_cons]

/-- What calls keep when no key is added again in a wrong way. -/
structure Sound (cache : Cache K V) (now : Int) (lastAdded : K → Option Int) : Prop where
  keys : (cache.entries.map Prod.fst).Nodup
  accounts : cache.currentSize = cache.liveSize
  added : ∀ e ∈ cache.entries, lastAdded e.1 = some e.2.time
  past : ∀ e ∈ cache.entries, e.2.time ≤ now
  /-- A live entry is not older than the ones before it. -/
  ordered : cache.ttl ≠ none → cache.entries.Pairwise
    (fun a b => b.1 ∉ cache.deleted → a.2.time ≤ b.2.time)

theorem sound_empty (max : Int) (ttl : Option Int) (now : Int)
    (lastAdded : K → Option Int) : Sound (empty max ttl : Cache K V) now lastAdded where
  keys := List.nodup_nil
  accounts := rfl
  added := by simp [empty]
  past := by simp [empty]
  ordered := fun _ => List.Pairwise.nil

namespace Sound

variable {cache : Cache K V} {now time : Int} {lastAdded : K → Option Int}

omit [DecidableEq K] in
theorem pairwise_congr {deleted deleted' : List K} {entries : List (K × CacheData V)}
    (h : entries.Pairwise (fun a b => b.1 ∉ deleted → a.2.time ≤ b.2.time))
    (hmem : ∀ e ∈ entries, (e.1 ∈ deleted ↔ e.1 ∈ deleted')) :
    entries.Pairwise (fun a b => b.1 ∉ deleted' → a.2.time ≤ b.2.time) :=
  h.imp_of_mem (fun _ hb hab hlive => hab (fun hdeleted => hlive ((hmem _ hb).mp hdeleted)))

theorem trim (h : Sound cache now lastAdded) (htime : now ≤ time) :
    Sound (cache.trim time) time lastAdded := by
  obtain ⟨⟨dropped, heq, hdeleted⟩, -⟩ :=
    trimLoop_spec time cache.max cache.ttl cache.entries cache.deleted cache.currentSize
  have haccounts := trim_accounts cache h.keys time
  have hbefore := h.accounts
  have hkeys := h.keys
  have hentries : (cache.trim time).entries = (trimLoop time cache.max cache.ttl
    cache.entries cache.deleted cache.currentSize).1 := rfl
  rw [← hentries] at heq
  rw [heq, List.map_append] at hkeys
  have hkept : ∀ e ∈ (cache.trim time).entries,
      (e.1 ∈ (cache.trim time).deleted ↔ e.1 ∈ cache.deleted) := by
    intro e he
    refine hdeleted e.1 (fun hdropped => ?_)
    exact (List.nodup_append.mp hkeys).2.2 e.1 hdropped e.1 (List.mem_map_of_mem he) rfl
  have hold : ∀ e ∈ (cache.trim time).entries, e ∈ cache.entries := by
    intro e he
    rw [heq]
    exact List.mem_append_right _ he
  exact
    { keys := (List.nodup_append.mp hkeys).2.1
      accounts := by omega
      added := fun e he => h.added e (hold e he)
      past := fun e he => Int.le_trans (h.past e (hold e he)) htime
      ordered := by
        intro httl
        have hordered := h.ordered httl
        rw [heq] at hordered
        refine pairwise_congr (List.pairwise_append.mp hordered).2.1 ?_
        exact fun e he => (hkept e he).symm }

theorem del (h : Sound cache now lastAdded) (key : K) :
    Sound (cache.del key) now lastAdded := by
  unfold Cache.del
  cases hlookup : cache.lookup key with
  | none => exact h
  | some data =>
      simp only
      split
      · exact h
      · rename_i hlive
        obtain ⟨front, heq, hfront, hback⟩ := exists_split h.keys hlookup
        have hsame : ∀ (entries : List (K × CacheData V)), (∀ e ∈ entries, e.1 ≠ key) →
            liveSizeOf (cache.deleted ++ [key]) entries = liveSizeOf cache.deleted entries :=
          fun entries hne => liveSizeOf_congr (fun e he => by simp [hne e he])
        have haccounts := h.accounts
        unfold liveSize at haccounts
        rw [heq, liveSizeOf_append, liveSizeOf, if_neg hlive] at haccounts
        exact
          { keys := h.keys
            accounts := by
              simp only [liveSize]
              rw [heq, liveSizeOf_append, liveSizeOf, if_pos (by simp), hsame _ hfront,
                hsame _ hback, haccounts]
              omega
            added := h.added
            past := h.past
            ordered := fun httl => (h.ordered httl).imp
              (fun hab hlive => hab (fun hmem => hlive (List.mem_append_left _ hmem))) }

/-- The cache before `add` trims it, when the key is not in the list. -/
theorem add_fresh (h : Sound cache now lastAdded) (htime : now ≤ time)
    {key : K} (hfresh : cache.lookup key = none) (value : Option V) (size : Int) :
    Sound { cache with
        deleted := cache.deleted.filter (· ≠ key)
        entries := cache.entries ++ [(key, { value := value, time := time, size := size })]
        currentSize := cache.currentSize + size }
      time (Function.update lastAdded key (some time)) := by
  have hne : ∀ e ∈ cache.entries, e.1 ≠ key := by
    intro e he heq
    have hnone := List.find?_eq_none.mp (Option.map_eq_none_iff.mp hfresh) e he
    exact hnone (by simpa using heq)
  refine
    { keys := ?_, accounts := ?_, added := ?_, past := ?_, ordered := ?_ }
  · rw [List.map_append]
    refine List.Nodup.append h.keys (List.nodup_singleton _) ?_
    intro k hk hk'
    obtain ⟨e, he, rfl⟩ := List.mem_map.mp hk
    exact hne e he (List.mem_singleton.mp hk')
  · have haccounts := h.accounts
    simp only [liveSize] at haccounts ⊢
    rw [liveSizeOf_append, liveSizeOf_filter hne, liveSizeOf, if_neg (by simp), liveSizeOf,
      ← haccounts, Int.add_zero]
  · intro e he
    rcases List.mem_append.mp he with he | he
    · rw [Function.update_of_ne (hne e he)]
      exact h.added e he
    · rw [List.mem_singleton.mp he, Function.update_self]
  · intro e he
    rcases List.mem_append.mp he with he | he
    · exact Int.le_trans (h.past e he) htime
    · obtain rfl := List.mem_singleton.mp he
      exact Int.le_refl time
  · intro httl
    refine List.pairwise_append.mpr ⟨?_, List.pairwise_singleton _ _, ?_⟩
    · exact pairwise_congr (h.ordered httl) (fun e he => (mem_filter_ne (hne e he)).symm)
    · intro a ha b hb _
      rw [List.mem_singleton.mp hb]
      exact Int.le_trans (h.past a ha) htime

/-- What replaces an entry counts instead of it. -/
theorem liveSize_replace (hkeys : (cache.entries.map Prod.fst).Nodup)
    {key : K} {old : CacheData V} (hlookup : cache.lookup key = some old)
    (data : CacheData V) :
    liveSizeOf (cache.deleted.filter (· ≠ key))
        (cache.entries.map (fun e => if e.1 = key then (key, data) else e)) =
      cache.liveSize - (if key ∈ cache.deleted then 0 else old.size) + data.size := by
  obtain ⟨front, heq, hfront, hback, hentries⟩ := replace_split hkeys hlookup data
  rw [hentries, liveSize, heq, liveSizeOf_append, liveSizeOf, if_neg (by simp),
    liveSizeOf_filter hfront, liveSizeOf_filter hback, liveSizeOf_append, liveSizeOf]
  split
  · omega
  · omega

/-- The cache before `add` trims it, when the key is in the list. -/
theorem add_known (h : Sound cache now lastAdded) (htime : now ≤ time)
    {key : K} {old : CacheData V} (hlookup : cache.lookup key = some old)
    (value : Option V) {size : Int}
    (hsize : size = if key ∈ cache.deleted then 0 else old.size)
    (hbehind : cache.ttl ≠ none →
      ∀ e ∈ cache.behind key, e.1 ∉ cache.deleted → time ≤ e.2.time) :
    Sound { cache with
        deleted := cache.deleted.filter (· ≠ key)
        entries := cache.entries.map (fun e => if e.1 = key then
          (key, { value := value, time := time, size := size }) else e) }
      time (Function.update lastAdded key (some time)) := by
  generalize hdata : ({ value := value, time := time, size := size } : CacheData V) = data
  have hdtime : data.time = time := by rw [← hdata]
  have hlive := liveSize_replace h.keys hlookup data
  obtain ⟨front, heq, hfront, hback, hentries⟩ := replace_split h.keys hlookup data
  generalize cache.behind key = back at heq hback hbehind hentries
  have hmem : ∀ e ∈ front ++ (key, data) :: back,
      e = (key, data) ∨ (e.1 ≠ key ∧ e ∈ cache.entries) := by
    intro e he
    rw [heq]
    rcases List.mem_append.mp he with he | he
    · exact Or.inr ⟨hfront e he, List.mem_append_left _ he⟩
    · rcases List.mem_cons.mp he with rfl | he
      · exact Or.inl rfl
      · exact Or.inr ⟨hback e he, List.mem_append_right _ (List.mem_cons_of_mem _ he)⟩
  rw [hentries] at hlive ⊢
  refine { keys := ?_, accounts := ?_, added := ?_, past := ?_, ordered := ?_ }
  · exact hentries ▸ nodup_replace h.keys hlookup data
  · have hdsize : data.size = size := by rw [← hdata]
    rw [liveSize, hlive, h.accounts, hdsize, hsize]
    omega
  · intro e he
    rcases hmem e he with rfl | ⟨hne, hold⟩
    · rw [Function.update_self, hdtime]
    · rw [Function.update_of_ne hne]
      exact h.added e hold
  · intro e he
    rcases hmem e he with rfl | ⟨_, hold⟩
    · exact Int.le_of_eq hdtime
    · exact Int.le_trans (h.past e hold) htime
  · intro httl
    have hordered := h.ordered httl
    rw [heq] at hordered
    obtain ⟨hof, hob, hacross⟩ := List.pairwise_append.mp hordered
    obtain ⟨-, hob⟩ := List.pairwise_cons.mp hob
    have hfilter : ∀ entries : List (K × CacheData V), (∀ e ∈ entries, e.1 ≠ key) →
        ∀ e ∈ entries, (e.1 ∈ cache.deleted ↔ e.1 ∈ cache.deleted.filter (· ≠ key)) :=
      fun entries hne e he => (mem_filter_ne (hne e he)).symm
    refine List.pairwise_append.mpr ⟨pairwise_congr hof (hfilter front hfront),
      List.pairwise_cons.mpr ⟨?_, pairwise_congr hob (hfilter back hback)⟩, ?_⟩
    · -- the key is not newer than the live entries behind it
      intro b hb hlive
      rw [hdtime]
      exact hbehind httl b hb (fun hdeleted => hlive ((hfilter back hback b hb).mp hdeleted))
    · intro a ha b hb hlive
      rcases List.mem_cons.mp hb with rfl | hb
      · rw [hdtime]
        refine Int.le_trans (h.past a ?_) htime
        rw [heq]
        exact List.mem_append_left _ ha
      · exact hacross a ha b (List.mem_cons_of_mem _ hb)
          (fun hdeleted => hlive ((hfilter back hback b hb).mp hdeleted))

/-- The size of a key that is added again has to be the one that is counted for it. -/
theorem accounts_add_iff (h : Sound cache now lastAdded) (htime : now ≤ time) (key : K)
    (value : Option V) (size : Int) :
    (cache.add time key value size).currentSize =
        (cache.add time key value size).liveSize ↔
      ∀ old, cache.lookup key = some old →
        size = if key ∈ cache.deleted then 0 else old.size := by
  cases hlookup : cache.lookup key with
  | none =>
      have hwide := h.add_fresh htime hlookup value size
      unfold Cache.add
      rw [hlookup]
      simp only [Option.isSome_none, Bool.false_eq_true, if_false]
      exact iff_of_true (hwide.trim (Int.le_refl time)).accounts (by simp)
  | some old =>
      have hkeys := nodup_replace h.keys hlookup
        { value := value, time := time, size := size }
      have hlive := liveSize_replace h.keys hlookup
        { value := value, time := time, size := size }
      have haccounts := h.accounts
      unfold Cache.add
      rw [hlookup]
      simp only [Option.isSome_some, if_true, Option.some.injEq, forall_eq']
      generalize hwide : ({ cache with
        deleted := cache.deleted.filter (· ≠ key)
        entries := cache.entries.map (fun e => if e.1 = key then
          (key, { value := value, time := time, size := size }) else e) } : Cache K V) = wide
      have hdrift := trim_accounts wide (by rw [← hwide]; exact hkeys) time
      have hsize : wide.currentSize = cache.currentSize := by rw [← hwide]
      have hsizes : wide.liveSize = cache.liveSize -
          (if key ∈ cache.deleted then 0 else old.size) + size := by
        rw [← hwide]
        exact hlive
      generalize (if key ∈ cache.deleted then 0 else old.size) = counted at hsizes ⊢
      constructor
      · intro heq
        omega
      · intro heq
        omega

/-- Trimming leaves a cache within its bounds. -/
theorem trim_le_max (h : Sound cache now lastAdded) (htime : now ≤ time)
    (hmax : 0 < cache.max) : (cache.trim time).currentSize ≤ cache.max := by
  obtain ⟨-, hnil | hfits⟩ :=
    trimLoop_spec time cache.max cache.ttl cache.entries cache.deleted cache.currentSize
  · have haccounts := (h.trim htime).accounts
    have hentries : (cache.trim time).entries = [] := hnil
    rw [haccounts, liveSize, hentries, liveSizeOf]
    exact Int.le_of_lt hmax
  · exact hfits

/-- What trimming leaves is within the time to live. -/
theorem within_of_trim (h : Sound cache now lastAdded) (htime : now ≤ time)
    {key : K} {data : CacheData V} (hlookup : (cache.trim time).lookup key = some data)
    (hlive : key ∉ (cache.trim time).deleted) :
    lastAdded key = some data.time ∧
      ∀ ttl, cache.ttl = some ttl → time - ttl ≤ data.time := by
  have htrim := h.trim htime
  have hmem := lookup_eq_some hlookup
  refine ⟨htrim.added _ hmem, ?_⟩
  intro ttl httl
  have hordered := htrim.ordered (by
    intro hnone
    rw [show (cache.trim time).ttl = cache.ttl from rfl, httl] at hnone
    cases hnone)
  cases hentries : (cache.trim time).entries with
  | nil =>
      rw [hentries] at hmem
      cases hmem
  | cons e rest =>
      have hfirst : time - ttl ≤ e.2.time := by
        have hkept : (trimLoop time cache.max (some ttl) cache.entries cache.deleted
            cache.currentSize).1 = e :: rest := by
          rw [← httl]
          exact hentries
        exact trimLoop_head time cache.max cache.entries cache.deleted cache.currentSize
          hkept
      rw [hentries] at hmem hordered
      rcases List.mem_cons.mp hmem with rfl | hrest
      · exact hfirst
      · exact Int.le_trans hfirst ((List.pairwise_cons.mp hordered).1 _ hrest hlive)

end Sound

end Cache

namespace CacheRun

variable {K : Type u} {V : Type v} [DecidableEq K]

/-- A key that is added is not in the list; or it has the size that is counted for it,
and with a time to live nothing alive behind it is older. -/
def Keeps (s : CacheRun K V) : CacheAction K V → Prop
  | .add time key _ size =>
      ∀ old, s.cache.lookup key = some old →
        (size = if key ∈ s.cache.deleted then 0 else old.size) ∧
          (s.cache.ttl ≠ none →
            ∀ e ∈ s.cache.behind key, e.1 ∉ s.cache.deleted → time ≤ e.2.time)
  | _ => True

/-- A call that reads the clock. -/
def tick (s : CacheRun K V) (time : Int) (cache : Cache K V) : Option (CacheRun K V) :=
  if s.now ≤ time then some { s with cache := cache, now := time } else none

def step (s : CacheRun K V) : CacheAction K V → Option (CacheRun K V)
  | .add time key value size =>
      { s with lastAdded := Function.update s.lastAdded key (some time) }.tick time
        (s.cache.add time key value size)
  | .get time key => s.tick time (s.cache.get time key).2
  | .has time key => s.tick time (s.cache.has time key).2
  | .del key => some { s with cache := s.cache.del key }
  | .trim time => s.tick time (s.cache.trim time)
  | .clear => some { s with cache := .empty s.cache.max s.cache.ttl }

/-- A cache that is made at a time, and calls that come one after the other. -/
def machine (max : Int) (ttl : Option Int) (made : Int) :
    Machine (CacheRun K V) (CacheAction K V) where
  init := { cache := .empty max ttl, now := made, lastAdded := fun _ => none }
  step := step

/-- The key was added, and at the time not longer ago than the time to live. -/
def AddedWithin (s : CacheRun K V) (time : Int) (key : K) : Prop :=
  ∃ added, s.lastAdded key = some added ∧
    ∀ ttl, s.cache.ttl = some ttl → time - ttl ≤ added

variable {s : CacheRun K V} {max : Int} {ttl : Option Int} {made : Int}

theorem keeps_add_fresh {time : Int} {key : K} {value : Option V} {size : Int}
    (hfresh : s.cache.lookup key = none) : s.Keeps (.add time key value size) := by
  intro old hold
  rw [hfresh] at hold
  cases hold

omit [DecidableEq K] in
theorem tick_eq_some {time : Int} {cache : Cache K V} {s' : CacheRun K V} :
    s.tick time cache = some s' ↔
      s.now ≤ time ∧ s' = { s with cache := cache, now := time } := by
  unfold tick
  split
  · rename_i htime
    simp [htime, eq_comm]
  · rename_i htime
    simp [htime]

/-- The cache that `add` trims is sound. -/
theorem exists_wide {time : Int} {key : K} {value : Option V} {size : Int}
    (h : s.cache.Sound s.now s.lastAdded) (htime : s.now ≤ time)
    (hkeeps : s.Keeps (.add time key value size)) :
    ∃ wide : Cache K V, s.cache.add time key value size = wide.trim time ∧
      wide.max = s.cache.max ∧
      wide.Sound time (Function.update s.lastAdded key (some time)) := by
  unfold Cache.add
  cases hlookup : s.cache.lookup key with
  | none => exact ⟨_, rfl, rfl, h.add_fresh htime hlookup value size⟩
  | some old =>
      obtain ⟨hsize, hbehind⟩ := hkeeps old hlookup
      exact ⟨_, rfl, rfl, h.add_known htime hlookup value hsize hbehind⟩

/-- A step that meets the condition keeps a cache sound. -/
theorem sound_step {a : CacheAction K V} {s' : CacheRun K V}
    (h : s.cache.Sound s.now s.lastAdded) (hkeeps : s.Keeps a) (hstep : s.step a = some s') :
    s'.cache.Sound s'.now s'.lastAdded ∧ s'.cache.max = s.cache.max := by
  cases a with
  | add time key value size =>
      obtain ⟨htime, rfl⟩ := tick_eq_some.mp hstep
      obtain ⟨wide, hwide, hmax, hsound⟩ := exists_wide h htime hkeeps
      simp only [hwide]
      exact ⟨hsound.trim (Int.le_refl time), hmax⟩
  | get time key =>
      obtain ⟨htime, rfl⟩ := tick_eq_some.mp hstep
      exact ⟨h.trim htime, rfl⟩
  | has time key =>
      obtain ⟨htime, rfl⟩ := tick_eq_some.mp hstep
      exact ⟨h.trim htime, rfl⟩
  | del key =>
      obtain rfl := Option.some.inj hstep
      refine ⟨h.del key, ?_⟩
      simp only [Cache.del]
      split
      · split
        · rfl
        · rfl
      · rfl
  | trim time =>
      obtain ⟨htime, rfl⟩ := tick_eq_some.mp hstep
      exact ⟨h.trim htime, rfl⟩
  | clear =>
      obtain rfl := Option.some.inj hstep
      exact ⟨Cache.sound_empty _ _ _ _, rfl⟩

/-- The cache is sound, and its maximum is the one that it was made with. -/
def IsSound (max : Int) (s : CacheRun K V) : Prop :=
  s.cache.Sound s.now s.lastAdded ∧ s.cache.max = max

theorem sound_of_run (hrun : (machine max ttl made).Run Keeps s) : IsSound max s := by
  refine hrun.invariant ?_ ?_
  · exact ⟨Cache.sound_empty _ _ _ _, rfl⟩
  · rintro s a s' ⟨hsound, hmax⟩ hkeeps hstep
    obtain ⟨hsound', hmax'⟩ := sound_step hsound hkeeps hstep
    exact ⟨hsound', hmax'.trans hmax⟩

/-- When no key in the list is added with another size, or in front of older live
keys, the size is that of the live entries, it is at most the maximum after every
addition, and keys are found only within the time to live after they were added. -/
theorem accounts_of_run (hmax : 0 < max) (hrun : (machine max ttl made).Run Keeps s) :
    s.cache.currentSize = s.cache.liveSize ∧
      (∀ time key value size s', s.Keeps (.add time key value size) →
        s.step (.add time key value size) = some s' →
          s'.cache.currentSize ≤ s'.cache.max) ∧
      ∀ time key, s.now ≤ time →
        ((s.cache.has time key).1 = true → s.AddedWithin time key) ∧
          ((s.cache.get time key).1 ≠ none → s.AddedWithin time key) := by
  obtain ⟨hsound, hsame⟩ := sound_of_run hrun
  refine ⟨hsound.accounts, ?_, ?_⟩
  · intro time key value size s' hkeeps hstep
    obtain ⟨htime, rfl⟩ := tick_eq_some.mp hstep
    obtain ⟨wide, hwide, hmax', hwide'⟩ := exists_wide hsound htime hkeeps
    simp only [hwide]
    exact hwide'.trim_le_max (Int.le_refl time) (by omega)
  · intro time key htime
    have hfound : ∀ data, (s.cache.trim time).lookup key = some data →
        key ∉ (s.cache.trim time).deleted → s.AddedWithin time key := by
      intro data hlookup hlive
      obtain ⟨hadded, hwithin⟩ := hsound.within_of_trim htime hlookup hlive
      exact ⟨data.time, hadded, hwithin⟩
    constructor
    · intro hhas
      simp only [Cache.has, Bool.and_eq_true, decide_eq_true_eq] at hhas
      obtain ⟨data, hdata⟩ := Option.isSome_iff_exists.mp hhas.2
      exact hfound data hdata hhas.1
    · intro hget
      simp only [Cache.get] at hget
      split at hget
      · exact absurd rfl hget
      · rename_i hlive
        obtain ⟨value, hvalue⟩ := Option.ne_none_iff_exists'.mp hget
        obtain ⟨data, hdata, _⟩ := Option.map_eq_some_iff.mp hvalue
        exact hfound data hdata hlive

/-- Two keys are added, and one is deleted. -/
theorem accounts_twoKeys :
    ∃ s : CacheRun String Unit, s.cache.entries.length = 2 ∧
      s.cache.currentSize = s.cache.liveSize ∧
      (∀ time key value size s', s.Keeps (.add time key value size) →
        s.step (.add time key value size) = some s' →
          s'.cache.currentSize ≤ s'.cache.max) ∧
      ∀ time key, s.now ≤ time →
        ((s.cache.has time key).1 = true → s.AddedWithin time key) ∧
          ((s.cache.get time key).1 ≠ none → s.AddedWithin time key) := by
  have hone : (machine (K := String) (V := Unit) 10 (some 5) 0).Run Keeps _ :=
    .step (a := .add 1 "a" none 2) .init (keeps_add_fresh rfl) rfl
  have htwo : (machine (K := String) (V := Unit) 10 (some 5) 0).Run Keeps _ :=
    .step (a := .add 2 "b" none 3) hone (keeps_add_fresh rfl) rfl
  have hthree : (machine (K := String) (V := Unit) 10 (some 5) 0).Run Keeps _ :=
    .step (a := .del "a") htwo trivial rfl
  exact ⟨_, rfl, accounts_of_run (by decide) hthree⟩

/-- A key that is added again with another size is counted with its first one, and it
keeps an older key behind it from expiring. -/
theorem not_accounts_readded :
    (∃ s : CacheRun String Unit, (machine 10 none 0).Run Machine.Free s ∧
      s.cache.currentSize ≠ s.cache.liveSize) ∧
    ∃ s : CacheRun String Unit, (machine 10 (some 5) 0).Run Machine.Free s ∧
      s.now ≤ 8 ∧ (s.cache.has 8 "b").1 = true ∧ ¬ s.AddedWithin 8 "b" := by
  constructor
  · exact ⟨_, .of_exec .init [.add 0 "a" none 1, .add 0 "a" none 5] rfl, by decide⟩
  · refine ⟨_, .of_exec .init [.add 1 "a" none 1, .add 2 "b" none 1, .add 6 "a" none 1] rfl,
      by decide, by decide, ?_⟩
    rintro ⟨added, hadded, hwithin⟩
    obtain rfl : added = 2 := (Option.some.inj hadded).symm
    exact absurd (hwithin 5 rfl) (by decide)

end CacheRun

end Utils
end Peerbit
