import Mathlib.Data.List.Nodup

/-!
# The FIFO cache

`Cache<T>` keeps a map from keys to values, a list of the keys in the order in
which they were first added, and a set of keys that were deleted but still wait
in the list.  The source keeps the list and the map in step: a key is pushed to
the list exactly when it enters the map, and `trim` drops it from both.  They
are one association list here, in the order of the key list, so that the
source's "Cache value not found" cannot happen.

Every operation of the source that reads the clock takes the reading as an
argument.
-/

namespace Peerbit
namespace Utils

universe u v

/-- `CacheData`: a value with the time it was added and its size. -/
structure CacheData (V : Type v) where
  value : Option V
  time : Int
  size : Int
deriving Repr, DecidableEq

/-- The fields of `Cache`. -/
structure Cache (K : Type u) (V : Type v) where
  entries : List (K × CacheData V)
  deleted : List K
  currentSize : Int
  max : Int
  ttl : Option Int
deriving Repr, DecidableEq

namespace Cache

variable {K : Type u} {V : Type v} [DecidableEq K]

/-- The cache right after construction, and after `clear`. -/
def empty (max : Int) (ttl : Option Int) : Cache K V where
  entries := []
  deleted := []
  currentSize := 0
  max := max
  ttl := ttl

/-- `this._map.get(key)`. -/
def lookup (cache : Cache K V) (key : K) : Option (CacheData V) :=
  (cache.entries.find? (fun e => e.1 = key)).map Prod.snd

/-- The loop of `trim` over the list of keys, with the size and the deleted
keys it updates. -/
def trimLoop (time max : Int) (ttl : Option Int) :
    List (K × CacheData V) → List K → Int →
      List (K × CacheData V) × List K × Int
  | [], deleted, currentSize => ([], deleted, currentSize)
  | (key, data) :: rest, deleted, currentSize =>
      let outOfDate :=
        match ttl with
        | some ttl => decide (data.time < time - ttl)
        | none => false
      if outOfDate || decide (max < currentSize) then
        if key ∈ deleted then
          trimLoop time max ttl rest (deleted.filter (· ≠ key)) currentSize
        else
          trimLoop time max ttl rest deleted (currentSize - data.size)
      else
        ((key, data) :: rest, deleted, currentSize)

def trim (cache : Cache K V) (time : Int) : Cache K V :=
  let r := trimLoop time cache.max cache.ttl
    cache.entries cache.deleted cache.currentSize
  { cache with entries := r.1, deleted := r.2.1, currentSize := r.2.2 }

/-- `has`: trims, then looks the key up. -/
def has (cache : Cache K V) (time : Int) (key : K) : Bool × Cache K V :=
  let cache := cache.trim time
  (decide (key ∉ cache.deleted) && (cache.lookup key).isSome, cache)

/-- `get`: trims, then reads the value: `none` for `undefined`, `some none` for
`null`. -/
def get (cache : Cache K V) (time : Int) (key : K) :
    Option (Option V) × Cache K V :=
  let cache := cache.trim time
  (if key ∈ cache.deleted then none
    else (cache.lookup key).map CacheData.value, cache)

def del (cache : Cache K V) (key : K) : Cache K V :=
  match cache.lookup key with
  | some data =>
      if key ∈ cache.deleted then cache
      else
        { cache with
          deleted := cache.deleted ++ [key]
          currentSize := cache.currentSize - data.size }
  | none => cache

def add (cache : Cache K V) (time : Int) (key : K)
    (value : Option V) (size : Int) : Cache K V :=
  let deleted := cache.deleted.filter (· ≠ key)
  let data : CacheData V := { value := value, time := time, size := size }
  let cache :=
    if (cache.lookup key).isSome then
      { cache with
        deleted := deleted
        entries := cache.entries.map
          (fun e => if e.1 = key then (key, data) else e) }
    else
      { cache with
        deleted := deleted
        entries := cache.entries ++ [(key, data)]
        currentSize := cache.currentSize + size }
  cache.trim time

/-! ### Reading a cache without time to live -/

/-- What `get` reads when there is nothing to trim. -/
def live (cache : Cache K V) (key : K) : Option (Option V) :=
  if key ∈ cache.deleted then none
  else (cache.lookup key).map CacheData.value

/-- What the operations keep of a cache without time to live: its keys are
different, and it is trimmed. -/
structure Ready (cache : Cache K V) : Prop where
  keys : (cache.entries.map Prod.fst).Nodup
  sizes : ∀ e ∈ cache.entries, 0 ≤ e.2.size
  ttl : cache.ttl = none
  fits : cache.entries = [] ∨ cache.currentSize ≤ cache.max

omit [DecidableEq K] in
theorem ready_empty (max : Int) : Ready (empty max none : Cache K V) where
  keys := List.nodup_nil
  sizes := by simp [empty]
  ttl := rfl
  fits := Or.inl rfl

/-- The entry has outlived the time to live. -/
def outOfDate (time : Int) (ttl : Option Int) (data : CacheData V) : Bool :=
  match ttl with
  | some ttl => decide (data.time < time - ttl)
  | none => false

theorem trimLoop_cons (time max : Int) (ttl : Option Int) (key : K) (data : CacheData V)
    (rest : List (K × CacheData V)) (deleted : List K) (currentSize : Int) :
    trimLoop time max ttl ((key, data) :: rest) deleted currentSize =
      if outOfDate time ttl data = true ∨ max < currentSize then
        if key ∈ deleted then
          trimLoop time max ttl rest (deleted.filter (· ≠ key)) currentSize
        else trimLoop time max ttl rest deleted (currentSize - data.size)
      else ((key, data) :: rest, deleted, currentSize) := by
  cases ttl with
  | none => simp [trimLoop, outOfDate]
  | some ttl => simp [trimLoop, outOfDate]

/-- Trimming drops the oldest entries, and forgets of the dropped ones alone
that they were deleted. -/
theorem trimLoop_spec (time max : Int) (ttl : Option Int)
    (entries : List (K × CacheData V)) (deleted : List K) (currentSize : Int) :
    let r := trimLoop time max ttl entries deleted currentSize
    (∃ dropped, entries = dropped ++ r.1 ∧
      ∀ k, k ∉ dropped.map Prod.fst → (k ∈ r.2.1 ↔ k ∈ deleted)) ∧
    (r.1 = [] ∨ r.2.2 ≤ max) := by
  induction entries generalizing deleted currentSize with
  | nil => exact ⟨⟨[], rfl, fun k _ => Iff.rfl⟩, Or.inl rfl⟩
  | cons e rest ih =>
      obtain ⟨key, data⟩ := e
      simp only [trimLoop_cons]
      split
      · split
        · rename_i hdeleted
          obtain ⟨⟨dropped, heq, hkeys⟩, hfits⟩ :=
            ih (deleted.filter (· ≠ key)) currentSize
          refine ⟨⟨(key, data) :: dropped, ?_, ?_⟩, hfits⟩
          · rw [List.cons_append, ← heq]
          · intro k hk
            simp only [List.map_cons, List.mem_cons, not_or] at hk
            rw [hkeys k hk.2]
            simp [hk.1]
        · obtain ⟨⟨dropped, heq, hkeys⟩, hfits⟩ :=
            ih deleted (currentSize - data.size)
          refine ⟨⟨(key, data) :: dropped, ?_, ?_⟩, hfits⟩
          · rw [List.cons_append, ← heq]
          · intro k hk
            simp only [List.map_cons, List.mem_cons, not_or] at hk
            exact hkeys k hk.2
      · rename_i hfits
        exact ⟨⟨[], rfl, fun k _ => Iff.rfl⟩,
          Or.inr (Int.not_lt.mp (fun h => hfits (Or.inr h)))⟩

/-- Trimming stops at an entry within the time to live. -/
theorem trimLoop_head (time max : Int) {ttl : Int}
    (entries : List (K × CacheData V)) (deleted : List K) (currentSize : Int)
    {e : K × CacheData V} {rest : List (K × CacheData V)}
    (h : (trimLoop time max (some ttl) entries deleted currentSize).1 = e :: rest) :
    time - ttl ≤ e.2.time := by
  induction entries generalizing deleted currentSize with
  | nil => cases h
  | cons first entries ih =>
      obtain ⟨key, data⟩ := first
      rw [trimLoop_cons] at h
      split at h
      · split at h
        · exact ih _ _ h
        · exact ih _ _ h
      · rename_i hkept
        obtain ⟨rfl, -⟩ := List.cons.inj h
        exact Int.not_lt.mp (fun hlt => hkept (Or.inl (decide_eq_true hlt)))

theorem lookup_eq_some
    {cache : Cache K V} {key : K} {data : CacheData V}
    (h : cache.lookup key = some data) : (key, data) ∈ cache.entries := by
  unfold lookup at h
  obtain ⟨e, he, rfl⟩ := Option.map_eq_some_iff.mp h
  have hkey : e.1 = key := by simpa using List.find?_some he
  rw [← hkey]
  exact List.mem_of_find?_eq_some he

theorem Ready.lookup_of_mem
    {cache : Cache K V} (h : cache.Ready) {key : K} {data : CacheData V}
    (hmem : (key, data) ∈ cache.entries) :
    cache.lookup key = some data := by
  cases hfind : cache.entries.find? (fun e => e.1 = key) with
  | none =>
      have hnone := List.find?_eq_none.mp hfind _ hmem
      simp at hnone
  | some e =>
      have hkey : e.1 = key := by simpa using List.find?_some hfind
      have heq : e = (key, data) :=
        List.inj_on_of_nodup_map h.keys (List.mem_of_find?_eq_some hfind) hmem
          hkey
      simp [lookup, hfind, heq]

/-- A live entry is an entry that is not deleted. -/
theorem Ready.live_eq_some
    {cache : Cache K V} (h : cache.Ready) {key : K} {value : Option V} :
    cache.live key = some value ↔
      key ∉ cache.deleted ∧
        ∃ data, (key, data) ∈ cache.entries ∧ data.value = value := by
  unfold live
  split
  · rename_i hdeleted
    simp [hdeleted]
  · rename_i hdeleted
    rw [Option.map_eq_some_iff]
    constructor
    · rintro ⟨data, hdata, hvalue⟩
      exact ⟨hdeleted, data, lookup_eq_some hdata, hvalue⟩
    · rintro ⟨_, data, hmem, hvalue⟩
      exact ⟨data, h.lookup_of_mem hmem, hvalue⟩

/-- Trimming keeps a cache ready, and what is live after it was live before. -/
theorem ready_trim
    {cache : Cache K V} (hkeys : (cache.entries.map Prod.fst).Nodup)
    (hsizes : ∀ e ∈ cache.entries, 0 ≤ e.2.size) (httl : cache.ttl = none)
    (time : Int) :
    (cache.trim time).Ready ∧
      ∀ key value, (cache.trim time).live key = some value →
        key ∉ cache.deleted ∧
          ∃ data, (key, data) ∈ cache.entries ∧ data.value = value := by
  obtain ⟨⟨dropped, heq, hdeleted⟩, hfits⟩ :=
    trimLoop_spec time cache.max none cache.entries cache.deleted cache.currentSize
  have htrim : cache.trim time =
      { cache with
        entries := (trimLoop time cache.max none cache.entries cache.deleted
          cache.currentSize).1
        deleted := (trimLoop time cache.max none cache.entries cache.deleted
          cache.currentSize).2.1
        currentSize := (trimLoop time cache.max none cache.entries cache.deleted
          cache.currentSize).2.2 } := by
    simp [trim, httl]
  generalize trimLoop time cache.max none cache.entries cache.deleted
    cache.currentSize = r at heq hdeleted hfits htrim
  have hready : (cache.trim time).Ready := by
    rw [htrim]
    rw [heq, List.map_append] at hkeys
    exact
      { keys := (List.nodup_append.mp hkeys).2.1
        sizes := fun e he => hsizes e (heq ▸ List.mem_append_right _ he)
        ttl := httl
        fits := hfits }
  refine ⟨hready, ?_⟩
  intro key value hlive
  obtain ⟨hnot, data, hmem, hvalue⟩ := hready.live_eq_some.mp hlive
  rw [htrim] at hnot hmem
  have hkept : key ∉ dropped.map Prod.fst := by
    intro hdropped
    rw [heq, List.map_append] at hkeys
    exact (List.nodup_append.mp hkeys).2.2 key hdropped key
      (List.mem_map_of_mem hmem) rfl
  refine ⟨fun h => hnot ((hdeleted key hkept).mpr h), data, ?_, hvalue⟩
  rw [heq]
  exact List.mem_append_right _ hmem

/-- There is nothing to trim in a ready cache. -/
theorem Ready.trim_eq
    {cache : Cache K V} (h : cache.Ready) (time : Int) :
    cache.trim time = cache := by
  obtain ⟨entries, deleted, currentSize, max, ttl⟩ := cache
  have httl : ttl = none := h.ttl
  subst httl
  cases entries with
  | nil => rfl
  | cons e rest =>
      have hfits : currentSize ≤ max := by
        rcases h.fits with hnil | hfits
        · cases hnil
        · exact hfits
      have hnot : ¬ max < currentSize := by omega
      simp [trim, trimLoop, hnot]

theorem Ready.get_eq
    {cache : Cache K V} (h : cache.Ready) (time : Int) (key : K) :
    cache.get time key = (cache.live key, cache) := by
  simp only [get, h.trim_eq time]
  rfl

theorem Ready.del
    {cache : Cache K V} (h : cache.Ready) (key : K) :
    (cache.del key).Ready := by
  unfold Cache.del
  split
  · rename_i data hdata
    split
    · exact h
    · have hsize := h.sizes _ (lookup_eq_some hdata)
      refine { keys := h.keys, sizes := h.sizes, ttl := h.ttl, fits := ?_ }
      rcases h.fits with hnil | hfits
      · exact Or.inl hnil
      · simp only at hsize ⊢
        exact Or.inr (by omega)
  · exact h

@[simp] theorem del_entries (cache : Cache K V) (key : K) :
    (cache.del key).entries = cache.entries := by
  unfold Cache.del
  split
  · split <;> rfl
  · rfl

theorem mem_del_deleted
    {cache : Cache K V} {key other : K} (hother : other ∈ cache.deleted) :
    other ∈ (cache.del key).deleted := by
  unfold Cache.del
  split
  · split
    · exact hother
    · exact List.mem_append_left _ hother
  · exact hother

theorem self_mem_del_deleted
    {cache : Cache K V} {key : K} {data : CacheData V}
    (hdata : cache.lookup key = some data) :
    key ∈ (cache.del key).deleted := by
  unfold Cache.del
  rw [hdata]
  simp only
  split
  · assumption
  · simp

/-- What is live after a deletion was live before, under another key. -/
theorem Ready.live_del
    {cache : Cache K V} (h : cache.Ready) {key other : K} {value : Option V}
    (hlive : (cache.del key).live other = some value) :
    other ≠ key ∧ cache.live other = some value := by
  obtain ⟨hnot, data, hmem, hvalue⟩ := (h.del key).live_eq_some.mp hlive
  rw [del_entries] at hmem
  refine ⟨?_, h.live_eq_some.mpr
    ⟨fun hdeleted => hnot (mem_del_deleted hdeleted), data, hmem, hvalue⟩⟩
  rintro rfl
  exact hnot (self_mem_del_deleted (h.lookup_of_mem hmem))

/-- The cache that `add` trims. -/
theorem add_untrimmed
    {cache : Cache K V} (h : cache.Ready) (time : Int) (key : K)
    (value : Option V) {size : Int} (hsize : 0 ≤ size) :
    ∃ wide : Cache K V,
      cache.add time key value size = wide.trim time ∧
      (wide.entries.map Prod.fst).Nodup ∧
      (∀ e ∈ wide.entries, 0 ≤ e.2.size) ∧ wide.ttl = none ∧
      wide.deleted = cache.deleted.filter (· ≠ key) ∧
      ∀ e ∈ wide.entries,
        e = (key, { value := value, time := time, size := size }) ∨
          (e.1 ≠ key ∧ e ∈ cache.entries) := by
  unfold add
  simp only
  by_cases hknown : (cache.lookup key).isSome = true
  · rw [if_pos hknown]
    refine ⟨_, rfl, ?_, ?_, h.ttl, rfl, ?_⟩
    · have hkeys :
          (cache.entries.map (fun e =>
            if e.1 = key then
              (key, ({ value := value, time := time, size := size } :
                CacheData V))
            else e)).map Prod.fst = cache.entries.map Prod.fst := by
        rw [List.map_map]
        refine List.map_congr_left ?_
        intro e _
        simp only [Function.comp_apply]
        split
        · rename_i heq
          exact heq.symm
        · rfl
      rw [hkeys]
      exact h.keys
    · intro e he
      obtain ⟨x, hx, rfl⟩ := List.mem_map.mp he
      split
      · exact hsize
      · exact h.sizes x hx
    · intro e he
      obtain ⟨x, hx, rfl⟩ := List.mem_map.mp he
      split
      · exact Or.inl rfl
      · rename_i hne
        exact Or.inr ⟨hne, hx⟩
  · rw [if_neg hknown]
    have hfresh : ∀ e ∈ cache.entries, e.1 ≠ key := by
      rintro ⟨k, data⟩ he rfl
      rw [h.lookup_of_mem he] at hknown
      exact hknown rfl
    refine ⟨_, rfl, ?_, ?_, h.ttl, rfl, ?_⟩
    · rw [List.map_append]
      refine List.Nodup.append h.keys (List.nodup_singleton _) ?_
      intro k hk hk'
      obtain ⟨e, he, rfl⟩ := List.mem_map.mp hk
      exact hfresh e he (List.mem_singleton.mp hk')
    · intro e he
      rcases List.mem_append.mp he with he | he
      · exact h.sizes e he
      · rw [List.mem_singleton.mp he]
        exact hsize
    · intro e he
      rcases List.mem_append.mp he with he | he
      · exact Or.inr ⟨hfresh e he, he⟩
      · exact Or.inl (List.mem_singleton.mp he)

theorem Ready.add
    {cache : Cache K V} (h : cache.Ready) (time : Int) (key : K)
    (value : Option V) {size : Int} (hsize : 0 ≤ size) :
    (cache.add time key value size).Ready := by
  obtain ⟨wide, heq, hkeys, hsizes, httl, _, _⟩ :=
    add_untrimmed h time key value hsize
  rw [heq]
  exact (ready_trim hkeys hsizes httl time).1

/-- What is live after an addition is the added value, or was live before. -/
theorem Ready.live_add
    {cache : Cache K V} (h : cache.Ready) {time : Int} {key other : K}
    {value found : Option V} {size : Int} (hsize : 0 ≤ size)
    (hlive : (cache.add time key value size).live other = some found) :
    (other = key ∧ found = value) ∨
      (other ≠ key ∧ cache.live other = some found) := by
  obtain ⟨wide, heq, hkeys, hsizes, httl, hdeleted, hentries⟩ :=
    add_untrimmed h time key value hsize
  rw [heq] at hlive
  obtain ⟨hnot, data, hmem, hvalue⟩ :=
    (ready_trim hkeys hsizes httl time).2 other found hlive
  rcases hentries _ hmem with hnew | ⟨hne, hold⟩
  · obtain ⟨rfl, rfl⟩ := Prod.mk.inj hnew
    exact Or.inl ⟨rfl, hvalue.symm⟩
  · refine Or.inr ⟨hne, h.live_eq_some.mpr ⟨?_, data, hold, hvalue⟩⟩
    intro hmem'
    rw [hdeleted] at hnot
    exact hnot (List.mem_filter.mpr ⟨hmem', by simpa using hne⟩)

end Cache

end Utils
end Peerbit
