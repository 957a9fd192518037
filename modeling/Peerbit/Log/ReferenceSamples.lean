import Mathlib
import Peerbit.Lib.FirstMet
import Peerbit.Log.RecursiveDelete

/-!
# Samples of the entries that an entry refers to

`getReferenceSamples` goes back from an entry along the nexts, level by level, and takes
the levels that are 1, 3, 7, 15, ... links away.  It stops when it has as many entries as
it was asked for, or when their payloads are larger than the memory limit.

A limit of zero is taken for no limit.  So the samples are right exactly when the limit is
not zero, or all that could be sampled is empty (`referenceSamples_iff`).
-/

namespace Peerbit
namespace Log

/-! ### The function -/

section Model

variable {α : Type}

/-- `add` of a set that is kept in the order of its additions. -/
def addHash (hashes : List Hash) (k : Hash) : List Hash :=
  if k ∈ hashes then hashes else hashes ++ [k]

/-- The nexts of a level. -/
def nextNext : List Hash → List Hash → EntryIndex α → List Hash × EntryIndex α
  | [], acc, s => (acc, s)
  | n :: next, acc, s =>
      match s.get n with
      | (some nentry, s) => nextNext next (nentry.meta.next.foldl addHash acc) s
      | (none, s) => nextNext next acc s

/-- The inner loop, for a number of levels.  It ends the outer one where a level is
empty. -/
def goBack : Nat → List Hash → EntryIndex α → Option (List Hash) × EntryIndex α
  | 0, next, s => (some next, s)
  | j + 1, next, s =>
      if next = [] then (none, s)
      else
        let level := nextNext next [] s
        goBack j level.1 level.2

structure Sampling (α : Type) where
  hashes : List Hash
  memoryCounter : Int
  entryIndex : EntryIndex α

/-- Adds a level.  The flag says whether the outer loop ends. -/
def addLevel (pointerCount : Nat) (memoryLimit : Option Int) :
    List Hash → Sampling α → Bool × Sampling α
  | [], t => (false, t)
  | n :: next, t =>
      match memoryLimit.filter (fun limit => decide (limit ≠ 0)) with
      | none =>
          let t := { t with hashes := addHash t.hashes n }
          if t.hashes.length = pointerCount then (true, t)
          else addLevel pointerCount memoryLimit next t
      | some limit =>
          match t.entryIndex.get n with
          | (none, s) => (true, { t with entryIndex := s })
          | (some entry, s) =>
              let t :=
                { t with
                  entryIndex := s, memoryCounter := t.memoryCounter + entry.payloadSize }
              if t.memoryCounter > limit then (true, t)
              else
                let t := { t with hashes := addHash t.hashes n }
                if t.hashes.length = pointerCount then (true, t)
                else addLevel pointerCount memoryLimit next t

/-- The outer loop.  Since `i` doubles, it ends before the fuel does. -/
def sampleLevels (pointerCount : Nat) (memoryLimit : Option Int) (maxDistance : Int) :
    Nat → Nat → Nat → List Hash → Sampling α → Sampling α
  | 0, _, _, _, t => t
  | fuel + 1, i, prev, next, t =>
      if (i : Int) ≤ maxDistance - 1 then
        match goBack (i - prev) next t.entryIndex with
        | (none, s) => { t with entryIndex := s }
        | (some next, s) =>
            match addLevel pointerCount memoryLimit next { t with entryIndex := s } with
            | (true, t) => t
            | (false, t) =>
                sampleLevels pointerCount memoryLimit maxDistance fuel (i * 2) i next t
      else t

/-- The entries under the hashes, as far as they are there. -/
def getAll : List Hash → EntryIndex α → List (Entry α) × EntryIndex α
  | [], s => ([], s)
  | hash :: hashes, s =>
      match s.get hash with
      | (some entry, s) =>
          let rest := getAll hashes s
          (entry :: rest.1, rest.2)
      | (none, s) => getAll hashes s

/-- `getReferenceSamples`. -/
def getReferenceSamples (s : EntryIndex α) (from_ : Entry α) (pointerCount : Nat)
    (memoryLimit : Option Int) : List (Entry α) × EntryIndex α :=
  let maxDistance := min (pointerCount : Int) s.length
  if maxDistance = 0 then ([], s)
  else
    let t : Sampling α :=
      { hashes := [from_.hash], memoryCounter := from_.payloadSize, entryIndex := s }
    let t :=
      if from_.meta.next.length > 0 ∧ pointerCount ≥ 2 then
        sampleLevels pointerCount memoryLimit maxDistance maxDistance.toNat 2 2
          (from_.meta.next.foldl addHash []) t
      else t
    getAll t.hashes t.entryIndex

end Model

/-! ### What the samples should be -/

section Specification

variable {α : Type} (found : Hash → Option (Entry α)) (from_ : Entry α)

/-- The nexts of the entry under a hash. -/
def nextsOf (k : Hash) : List Hash :=
  match found k with
  | some entry => entry.meta.next
  | none => []

/-- So many next links lead from the entry to the hash. -/
def Away (d : Nat) (k : Hash) : Prop :=
  k ∈ Lib.level (nextsOf found) [from_.hash] d

/-- The samples are different entries, no more than asked for, the given one and such
that are 1, 3, 7, ... links away, and with a limit they are not too large. -/
structure SamplesRight (pointerCount : Nat) (memoryLimit : Option Int)
    (samples : List (Entry α)) : Prop where
  once : (samples.map (fun e => e.hash)).Nodup
  given : from_ ∈ samples
  count : samples.length ≤ pointerCount
  distance : ∀ e ∈ samples, e = from_ ∨ ∃ k ≥ 1, Away found from_ (2 ^ k - 1) e.hash
  memory : ∀ limit, memoryLimit = some limit →
    (samples.map (fun e => (e.payloadSize : Int))).sum ≤ max limit from_.payloadSize

/-- The hashes that are so many links, and one, away, each once. -/
def layer : Nat → List Hash
  | 0 => Lib.firsts id [] from_.meta.next
  | n + 1 => Lib.firsts id [] ((layer n).flatMap (nextsOf found))

/-- The hashes that can be sampled, level by level. -/
def candidates (maxDistance : Int) : List Hash :=
  (List.range maxDistance.toNat).flatMap (fun k =>
    if (2 ^ (k + 1) : Int) < maxDistance then layer found from_ (2 ^ (k + 1) - 2) else [])

/-- What is sampled besides the entry when the memory does not matter. -/
def unlimited (pointerCount : Nat) (maxDistance : Int) : List Hash :=
  (Lib.firsts id [from_.hash] (candidates found from_ maxDistance)).take (pointerCount - 1)

end Specification

/-! ### Reading -/

section Reads

variable {α : Type} {found : Hash → Option (Entry α)} {s : EntryIndex α}

/-- What is read under a hash is what the blocks have. -/
structure Finds (found : Hash → Option (Entry α)) (s : EntryIndex α) : Prop where
  ready : s.cache.Ready
  blocks : ∀ k, s.getBlock k = found k
  cached : ∀ k v, s.cache.live k = some v → v = found k

theorem Finds.get_fst (h : Finds found s) (k : Hash) : (s.get k).1 = found k := by
  unfold EntryIndex.get EntryIndex.cached
  rw [h.ready.get_eq]
  split
  · rename_i mem hmem
    exact h.cached k mem hmem
  · exact h.blocks k

theorem Finds.get (h : Finds found s) (k : Hash) : Finds found (s.get k).2 := by
  refine { ready := ?_, blocks := ?_, cached := ?_ }
  · unfold EntryIndex.get
    split
    · exact h.ready
    · exact h.ready.add 0 k _ (by decide)
  · intro j
    rw [EntryIndex.getBlock, EntryIndex.get_store]
    exact h.blocks j
  · intro j v hlive
    unfold EntryIndex.get at hlive
    split at hlive
    · exact h.cached j v hlive
    · rcases h.ready.live_add (by decide) hlive with ⟨rfl, rfl⟩ | ⟨-, hold⟩
      · exact h.blocks j
      · exact h.cached j v hold

/-- A log whose entries, blocks and cached entries are the same ones is read so. -/
theorem StoredDag.finds {U : Entry α → Prop} (h : StoredDag U s) : Finds s.getBlock s where
  ready := h.ready
  blocks := fun _ => rfl
  cached := by
    intro k v hlive
    cases v with
    | none =>
        cases hblock : s.getBlock k with
        | none => rfl
        | some e =>
            obtain ⟨hmem, rfl⟩ := mem_of_getBlock hblock
            exact absurd hlive (h.resolvable e.hash (h.blocksStored e hmem)).1
    | some e =>
        obtain ⟨he, rfl⟩ := h.cached k e hlive
        obtain ⟨f, hf⟩ := h.getBlock_of_stored (h.cachedStored e.hash e hlive)
        obtain ⟨hUf, hhash⟩ := h.block hf
        rw [hf, h.content f e hUf he hhash]

theorem Finds.opened (index : HeadsIndex) (store : List (Entry α)) :
    Finds (EntryIndex.opened index store).getBlock (.opened index store) where
  ready := Utils.Cache.ready_empty _
  blocks := fun _ => rfl
  cached := fun _ _ hlive => nomatch hlive

/-- With the state that is read goes the next one. -/
theorem Finds.get_eq (h : Finds found s) (k : Hash) :
    ∃ t, s.get k = (found k, t) ∧ Finds found t :=
  ⟨(s.get k).2, Prod.ext (h.get_fst k) rfl, h.get k⟩

/-- The hash of an entry is the one under which it is found. -/
theorem Finds.hash_eq (h : Finds found s) {k : Hash} {e : Entry α} (he : found k = some e) :
    e.hash = k :=
  (mem_of_getBlock ((h.blocks k).trans he)).2

theorem getAll_eq (h : Finds found s) (hashes : List Hash) :
    (getAll hashes s).1 = hashes.filterMap found := by
  induction hashes generalizing s with
  | nil => rfl
  | cons k hashes ih =>
      obtain ⟨t, ht, hfinds⟩ := h.get_eq k
      unfold getAll
      rw [ht]
      cases hk : found k with
      | none =>
          rw [List.filterMap_cons_none hk]
          exact ih hfinds
      | some e =>
          rw [List.filterMap_cons_some hk, ← ih hfinds]

end Reads

/-! ### Sets of hashes -/

section Hashes

theorem foldl_addHash (l acc : List Hash) :
    l.foldl addHash acc = acc ++ Lib.firsts id acc l := by
  induction l generalizing acc with
  | nil => exact (List.append_nil _).symm
  | cons k l ih =>
      rw [List.foldl_cons, ih]
      unfold addHash
      by_cases hk : k ∈ acc
      · rw [if_pos hk, Lib.firsts, if_pos (show id k ∈ acc from hk)]
      · rw [if_neg hk, Lib.firsts, if_neg (show ¬ id k ∈ acc from hk), List.append_assoc]
        rfl

theorem mem_foldl_addHash {l acc : List Hash} {k : Hash} :
    k ∈ l.foldl addHash acc ↔ k ∈ acc ∨ k ∈ l := by
  have hmem : k ∈ acc ++ (Lib.firsts id acc l).map id ↔ k ∈ acc ∨ ∃ j ∈ l, id j = k :=
    Lib.mem_append_firsts
  rw [List.map_id] at hmem
  rw [foldl_addHash, hmem]
  simp

theorem mem_firsts {l : List Hash} {k : Hash} : k ∈ Lib.firsts id [] l ↔ k ∈ l := by
  have hmem : k ∈ l.foldl addHash [] ↔ k ∈ ([] : List Hash) ∨ k ∈ l := mem_foldl_addHash
  rw [foldl_addHash, List.nil_append] at hmem
  rw [hmem]
  simp

theorem nodup_addHash {hashes : List Hash} (h : hashes.Nodup) (k : Hash) :
    (addHash hashes k).Nodup := by
  unfold addHash
  split
  · exact h
  · rename_i hnew
    exact (List.perm_append_singleton _ _).nodup_iff.mpr (List.nodup_cons.mpr ⟨hnew, h⟩)

theorem mem_addHash {hashes : List Hash} {j k : Hash} :
    j ∈ addHash hashes k ↔ j ∈ hashes ∨ j = k := by
  unfold addHash
  split
  · rename_i hk
    constructor
    · exact .inl
    · rintro (hj | rfl)
      · exact hj
      · exact hk
  · rw [List.mem_append, List.mem_singleton]

theorem length_addHash_le (hashes : List Hash) (k : Hash) :
    (addHash hashes k).length ≤ hashes.length + 1 := by
  unfold addHash
  split
  · exact Nat.le_succ _
  · rw [List.length_append]
    exact le_rfl

end Hashes

/-! ### The levels -/

section Levels

variable {α : Type} {found : Hash → Option (Entry α)} {s : EntryIndex α} {from_ : Entry α}

theorem layer_eq_nil_of_le {m n : Nat} (hmn : m ≤ n) (h : layer found from_ m = []) :
    layer found from_ n = [] := by
  induction hmn with
  | refl => exact h
  | step _ ih =>
      rw [layer, ih]
      rfl

/-- A layer has the hashes that are so many links away. -/
theorem mem_layer (hfrom : found from_.hash = some from_) {n : Nat} {k : Hash} :
    k ∈ layer found from_ n ↔ Away found from_ (n + 1) k := by
  induction n generalizing k with
  | zero =>
      unfold Away
      rw [layer, mem_firsts, Lib.level_succ, Lib.level, List.flatMap_singleton, nextsOf,
        hfrom]
  | succ n ih =>
      unfold Away
      rw [layer, mem_firsts, Lib.level_succ, List.mem_flatMap, List.mem_flatMap]
      exact exists_congr fun j => and_congr_left' ih

theorem nextNext_eq (h : Finds found s) (next acc : List Hash) :
    ∃ t, nextNext next acc s =
        ((next.flatMap (nextsOf found)).foldl addHash acc, t) ∧ Finds found t := by
  induction next generalizing acc s with
  | nil => exact ⟨s, rfl, h⟩
  | cons n next ih =>
      obtain ⟨t, ht, hfinds⟩ := h.get_eq n
      unfold nextNext
      rw [ht, List.flatMap_cons, List.foldl_append, nextsOf]
      cases found n with
      | none => exact ih hfinds acc
      | some nentry => exact ih hfinds _

variable (from_) in
/-- Going back from a layer leads to a layer, or ends where one is empty. -/
theorem goBack_eq (h : Finds found s) (n m : Nat) :
    ∃ t, Finds found t ∧
      (goBack n (layer found from_ m) s = (some (layer found from_ (m + n)), t) ∨
        goBack n (layer found from_ m) s = (none, t) ∧ layer found from_ (m + n) = []) := by
  induction n generalizing m s with
  | zero => exact ⟨s, h, .inl rfl⟩
  | succ n ih =>
      unfold goBack
      by_cases hempty : layer found from_ m = []
      · rw [if_pos hempty]
        exact ⟨s, h, .inr ⟨rfl, layer_eq_nil_of_le (Nat.le_add_right _ _) hempty⟩⟩
      · obtain ⟨t, ht, hfinds⟩ := nextNext_eq h (layer found from_ m) []
        rw [foldl_addHash, List.nil_append] at ht
        rw [if_neg hempty, ht]
        obtain ⟨u, hu, hcases⟩ := ih hfinds (m + 1)
        rw [Nat.add_right_comm, Nat.add_assoc] at hcases
        exact ⟨u, hu, hcases⟩

end Levels

/-! ### What the loops keep -/

section Invariant

variable {α : Type} {found : Hash → Option (Entry α)} {from_ : Entry α}
variable {pointerCount : Nat} {memoryLimit : Option Int} {t : Sampling α}

/-- The sizes of the payloads under the hashes. -/
def sizes (found : Hash → Option (Entry α)) (hashes : List Hash) : Int :=
  ((hashes.filterMap found).map (fun e => (e.payloadSize : Int))).sum

theorem sizes_addHash_le (hashes : List Hash) {k : Hash} {e : Entry α}
    (hk : found k = some e) :
    sizes found (addHash hashes k) ≤ sizes found hashes + e.payloadSize := by
  unfold addHash
  split
  · omega
  · simp [sizes, hk]

/-- What holds between the additions. -/
structure SampleInv (found : Hash → Option (Entry α)) (from_ : Entry α)
    (pointerCount : Nat) (memoryLimit : Option Int) (t : Sampling α) : Prop where
  finds : Finds found t.entryIndex
  once : t.hashes.Nodup
  given : from_.hash ∈ t.hashes
  count : t.hashes.length ≤ pointerCount
  distance : ∀ k ∈ t.hashes, k = from_.hash ∨ ∃ n ≥ 1, Away found from_ (2 ^ n - 1) k
  counted : ∀ limit, memoryLimit = some limit → limit ≠ 0 →
    sizes found t.hashes ≤ t.memoryCounter
  memory : ∀ limit, memoryLimit = some limit → limit ≠ 0 →
    sizes found t.hashes ≤ max limit from_.payloadSize

/-- Adding a hash that is far enough away, and for which there is memory. -/
theorem SampleInv.add (h : SampleInv found from_ pointerCount memoryLimit t)
    {k : Hash} {n : Nat} (hn : n ≥ 1) (haway : Away found from_ (2 ^ n - 1) k)
    (hcount : t.hashes.length < pointerCount) {s : EntryIndex α} (hfinds : Finds found s)
    (counter : Int)
    (hmemory : ∀ limit, memoryLimit = some limit → limit ≠ 0 →
      sizes found (addHash t.hashes k) ≤ counter ∧ counter ≤ limit) :
    SampleInv found from_ pointerCount memoryLimit
      { hashes := addHash t.hashes k, memoryCounter := counter, entryIndex := s } where
  finds := hfinds
  once := nodup_addHash h.once k
  given := mem_addHash.mpr (.inl h.given)
  count := (length_addHash_le t.hashes k).trans hcount
  distance := by
    intro j hj
    rcases mem_addHash.mp hj with hj | rfl
    · exact h.distance j hj
    · exact .inr ⟨n, hn, haway⟩
  counted := fun limit hlimit hne => (hmemory limit hlimit hne).1
  memory := by
    intro limit hlimit hne
    obtain ⟨hsizes, hle⟩ := hmemory limit hlimit hne
    exact (hsizes.trans hle).trans (le_max_left _ _)

theorem SampleInv.addLevel (h : SampleInv found from_ pointerCount memoryLimit t)
    (hcount : t.hashes.length < pointerCount) {next : List Hash} {n : Nat} (hn : n ≥ 1)
    (haway : ∀ k ∈ next, Away found from_ (2 ^ n - 1) k) :
    SampleInv found from_ pointerCount memoryLimit
        (Log.addLevel pointerCount memoryLimit next t).2 ∧
      ((Log.addLevel pointerCount memoryLimit next t).1 = false →
        (Log.addLevel pointerCount memoryLimit next t).2.hashes.length < pointerCount) := by
  induction next generalizing t with
  | nil => exact ⟨h, fun _ => hcount⟩
  | cons k next ih =>
      have hk := haway k List.mem_cons_self
      have hnext : ∀ j ∈ next, Away found from_ (2 ^ n - 1) j :=
        fun j hj => haway j (List.mem_cons_of_mem _ hj)
      unfold Log.addLevel
      split
      · rename_i hnone
        have hadd := h.add hn hk hcount h.finds t.memoryCounter (by
          intro limit hlimit hne
          rw [hlimit, Option.filter_some, if_pos (decide_eq_true hne)] at hnone
          cases hnone)
        dsimp only
        split
        · exact ⟨hadd, fun hfalse => nomatch hfalse⟩
        · rename_i hlength
          exact ih hadd (Nat.lt_of_le_of_ne hadd.count hlength) hnext
      · rename_i limit hsome
        obtain ⟨s, hs, hfinds⟩ := h.finds.get_eq k
        rw [hs]
        split
        · rename_i u hu
          obtain ⟨-, rfl⟩ := Prod.mk.inj hu
          exact ⟨{ h with finds := hfinds }, fun hfalse => nomatch hfalse⟩
        · rename_i entry u hu
          obtain ⟨hentry, rfl⟩ := Prod.mk.inj hu
          have hlimit : memoryLimit = some limit :=
            (Option.filter_eq_some_iff.mp hsome).1
          have hsame : ∀ l, memoryLimit = some l → l = limit :=
            fun l hl => Option.some.inj (hl.symm.trans hlimit)
          have hne : limit ≠ 0 := of_decide_eq_true (Option.filter_eq_some_iff.mp hsome).2
          have hcounted := h.counted limit hlimit hne
          dsimp only
          split
          · refine ⟨{ h with finds := hfinds, counted := ?_ }, fun hfalse => nomatch hfalse⟩
            intro l hl _
            obtain rfl := hsame l hl
            dsimp only
            omega
          · rename_i hle
            have hadd := h.add hn hk hcount hfinds
              (t.memoryCounter + entry.payloadSize) (by
                intro l hl _
                obtain rfl := hsame l hl
                have hsizes := sizes_addHash_le t.hashes hentry
                omega)
            split
            · exact ⟨hadd, fun hfalse => nomatch hfalse⟩
            · rename_i hlength
              exact ih hadd (Nat.lt_of_le_of_ne hadd.count hlength) hnext

variable (maxDistance : Int)

theorem SampleInv.sampleLevels (hfrom : found from_.hash = some from_)
    (h : SampleInv found from_ pointerCount memoryLimit t)
    (hcount : t.hashes.length < pointerCount) {prev m : Nat} (htwo : 2 ≤ prev)
    (hprev : prev ≤ 2 ^ (m + 1)) (fuel : Nat) :
    SampleInv found from_ pointerCount memoryLimit
      (Log.sampleLevels pointerCount memoryLimit maxDistance fuel (2 ^ (m + 1)) prev
        (layer found from_ (prev - 2)) t) := by
  induction fuel generalizing t prev m with
  | zero => exact h
  | succ fuel ih =>
      unfold Log.sampleLevels
      split
      · obtain ⟨s, hs, hback⟩ := goBack_eq from_ h.finds (2 ^ (m + 1) - prev) (prev - 2)
        have hlayer : prev - 2 + (2 ^ (m + 1) - prev) = 2 ^ (m + 1) - 2 := by omega
        rw [hlayer] at hback
        rcases hback with hback | ⟨hback, -⟩
        · rw [hback]
          dsimp only
          have haway : ∀ k ∈ layer found from_ (2 ^ (m + 1) - 2),
              Away found from_ (2 ^ (m + 1) - 1) k := by
            intro k hk
            have hk := (mem_layer hfrom).mp hk
            have hpred : 2 ^ (m + 1) - 2 + 1 = 2 ^ (m + 1) - 1 := by omega
            rwa [hpred] at hk
          obtain ⟨hadded, hmore⟩ := SampleInv.addLevel (t := { t with entryIndex := s })
            { h with finds := hs } hcount (Nat.succ_pos m) haway
          split
          · rename_i u hu
            rw [hu] at hadded
            exact hadded
          · rename_i u hu
            rw [hu] at hadded hmore
            rw [← Nat.pow_succ]
            exact ih hadded (hmore rfl) (htwo.trans hprev)
              (Nat.pow_le_pow_right Nat.two_pos (Nat.le_succ _))
        · rw [hback]
          exact { h with finds := hs }
      · exact h

end Invariant

/-! ### Without a limit -/

section Unlimited

variable {α : Type} {found : Hash → Option (Entry α)} {from_ : Entry α}
variable {pointerCount : Nat} {memoryLimit : Option Int} {maxDistance : Int}
variable {t : Sampling α}

theorem length_le_foldl_addHash (l hashes : List Hash) :
    hashes.length ≤ (l.foldl addHash hashes).length := by
  rw [foldl_addHash, List.length_append]
  exact Nat.le_add_right _ _

/-- When there are as many as were asked for, what comes after does not matter. -/
theorem take_foldl_addHash {hashes : List Hash} (h : pointerCount ≤ hashes.length)
    (l : List Hash) :
    (l.foldl addHash hashes).take pointerCount = hashes.take pointerCount := by
  rw [foldl_addHash, List.take_append_of_le_length h]

theorem length_addHash (hashes : List Hash) (k : Hash) :
    (addHash hashes k).length = hashes.length ∨
      (addHash hashes k).length = hashes.length + 1 := by
  unfold addHash
  split
  · exact .inl rfl
  · exact .inr List.length_append

/-- Without a limit, or with a limit of zero, all hashes of the level are added until
there are enough. -/
theorem addLevel_unlimited (hlimit : memoryLimit.filter (fun l => decide (l ≠ 0)) = none)
    (hcount : t.hashes.length < pointerCount) (next : List Hash) :
    (Log.addLevel pointerCount memoryLimit next t = (false,
        { t with hashes := next.foldl addHash t.hashes }) ∧
        (next.foldl addHash t.hashes).length < pointerCount) ∨
      (Log.addLevel pointerCount memoryLimit next t = (true,
        { t with hashes := (next.foldl addHash t.hashes).take pointerCount }) ∧
        pointerCount ≤ (next.foldl addHash t.hashes).length) := by
  induction next generalizing t with
  | nil => exact .inl ⟨rfl, hcount⟩
  | cons k next ih =>
      unfold Log.addLevel
      rw [hlimit, List.foldl_cons]
      dsimp only
      by_cases hlength : (addHash t.hashes k).length = pointerCount
      · rw [if_pos hlength]
        refine .inr ⟨?_, ?_⟩
        · rw [take_foldl_addHash hlength.ge, List.take_of_length_le hlength.le]
        · rw [← hlength]
          exact length_le_foldl_addHash _ _
      · rw [if_neg hlength]
        have hless : (addHash t.hashes k).length < pointerCount := by
          have hadd := length_addHash t.hashes k
          omega
        exact ih (t := { t with hashes := addHash t.hashes k }) hless

/-- The layers from one on that are near enough. -/
def layersFrom (found : Hash → Option (Entry α)) (from_ : Entry α) (maxDistance : Int)
    (m fuel : Nat) : List Hash :=
  (List.range' m fuel).flatMap (fun k =>
    if (2 ^ (k + 1) : Int) < maxDistance then layer found from_ (2 ^ (k + 1) - 2) else [])

theorem layersFrom_succ (m fuel : Nat) :
    layersFrom found from_ maxDistance m (fuel + 1) =
      (if (2 ^ (m + 1) : Int) < maxDistance then layer found from_ (2 ^ (m + 1) - 2)
        else []) ++ layersFrom found from_ maxDistance (m + 1) fuel := by
  rw [layersFrom, List.range'_succ, List.flatMap_cons]
  rfl

/-- Where no layer is left, the loop adds nothing. -/
theorem layersFrom_eq_nil {m fuel : Nat}
    (h : ∀ k ≥ m, (2 ^ (k + 1) : Int) < maxDistance →
      layer found from_ (2 ^ (k + 1) - 2) = []) :
    layersFrom found from_ maxDistance m fuel = [] := by
  rw [layersFrom, List.flatMap_eq_nil_iff]
  intro k hk
  split
  · rename_i hnear
    exact h k (List.mem_range'_1.mp hk).1 hnear
  · rfl

theorem sampleLevels_unlimited (from_ : Entry α) (maxDistance : Int)
    (hlimit : memoryLimit.filter (fun l => decide (l ≠ 0)) = none)
    (hfinds : Finds found t.entryIndex) (hcount : t.hashes.length < pointerCount)
    {prev m : Nat} (htwo : 2 ≤ prev) (hprev : prev ≤ 2 ^ (m + 1)) (fuel : Nat) :
    (Log.sampleLevels pointerCount memoryLimit maxDistance fuel (2 ^ (m + 1)) prev
        (layer found from_ (prev - 2)) t).hashes =
      ((layersFrom found from_ maxDistance m fuel).foldl addHash t.hashes).take
        pointerCount := by
  induction fuel generalizing t prev m with
  | zero => exact (List.take_of_length_le hcount.le).symm
  | succ fuel ih =>
      have hnone : t.hashes = (([] : List Hash).foldl addHash t.hashes).take pointerCount :=
        (List.take_of_length_le hcount.le).symm
      have hpow : ∀ k ≥ m, 2 ^ (m + 1) ≤ 2 ^ (k + 1) :=
        fun k hk => Nat.pow_le_pow_right Nat.two_pos (Nat.succ_le_succ hk)
      unfold Log.sampleLevels
      split
      · rename_i hnear
        obtain ⟨s, hs, hback⟩ := goBack_eq from_ hfinds (2 ^ (m + 1) - prev) (prev - 2)
        have hlayer : prev - 2 + (2 ^ (m + 1) - prev) = 2 ^ (m + 1) - 2 := by omega
        rw [hlayer] at hback
        have hlt : (2 ^ (m + 1) : Int) < maxDistance := by
          push_cast at hnear
          omega
        rcases hback with hback | ⟨hback, hempty⟩
        · rw [hback, layersFrom_succ, if_pos hlt, List.foldl_append]
          dsimp only
          rcases addLevel_unlimited (t := { t with entryIndex := s }) hlimit hcount
            (layer found from_ (2 ^ (m + 1) - 2)) with ⟨hadded, hless⟩ | ⟨hadded, hfull⟩
          · rw [hadded, ← Nat.pow_succ]
            exact ih (t := { t with entryIndex := s, hashes := _ }) hs hless
              (htwo.trans hprev) (hpow (m + 1) (Nat.le_succ m))
          · rw [hadded, take_foldl_addHash hfull]
        · rw [hback, layersFrom_eq_nil]
          · exact hnone
          · intro k hk _
            exact layer_eq_nil_of_le (Nat.sub_le_sub_right (hpow k hk) 2) hempty
      · rename_i hfar
        rw [layersFrom_eq_nil]
        · exact hnone
        · intro k hk hnear
          have hle : (2 ^ (m + 1) : Int) ≤ 2 ^ (k + 1) := by exact_mod_cast hpow k hk
          push_cast at hfar
          omega

theorem layersFrom_zero (maxDistance : Int) :
    layersFrom found from_ maxDistance 0 maxDistance.toNat =
      candidates found from_ maxDistance := by
  rw [layersFrom, candidates, List.range_eq_range']

end Unlimited

/-! ### The samples -/

section Samples

variable {α : Type} {found : Hash → Option (Entry α)} {s : EntryIndex α} {from_ : Entry α}
variable {pointerCount : Nat} {memoryLimit : Option Int}

theorem sizes_cons {k : Hash} {e : Entry α} (hk : found k = some e) (hashes : List Hash) :
    sizes found (k :: hashes) = e.payloadSize + sizes found hashes := by
  simp [sizes, hk]

theorem sizes_nonneg (hashes : List Hash) : 0 ≤ sizes found hashes := by
  refine List.sum_nonneg ?_
  intro x hx
  obtain ⟨e, -, rfl⟩ := List.mem_map.mp hx
  exact Int.natCast_nonneg _

/-- Only empty payloads take no memory. -/
theorem sizes_le_zero_iff (hashes : List Hash) :
    sizes found hashes ≤ 0 ↔ ∀ k ∈ hashes, ∀ e, found k = some e → e.payloadSize = 0 := by
  induction hashes with
  | nil => simp [sizes]
  | cons k hashes ih =>
      rw [List.forall_mem_cons, ← ih]
      cases hk : found k with
      | none => simp [sizes, hk]
      | some e =>
          have hnonneg : 0 ≤ sizes found hashes := sizes_nonneg hashes
          rw [sizes_cons hk]
          constructor
          · intro hle
            refine ⟨?_, by omega⟩
            rintro _ ⟨⟩
            omega
          · rintro ⟨hzero, hle⟩
            have hsize := hzero e rfl
            omega

theorem nodup_map_hash (hfinds : Finds found s) {hashes : List Hash} (h : hashes.Nodup) :
    ((hashes.filterMap found).map (fun e => e.hash)).Nodup := by
  refine h.sublist ?_
  clear h
  induction hashes with
  | nil => exact .slnil
  | cons k hashes ih =>
      cases hk : found k with
      | none =>
          rw [List.filterMap_cons_none hk]
          exact ih.cons k
      | some e =>
          rw [List.filterMap_cons_some hk, List.map_cons, hfinds.hash_eq hk]
          exact ih.cons_cons k

variable (memoryLimit) in
/-- The last state of the loops, and the samples that come of it. -/
theorem getReferenceSamples_eq (hfinds : Finds found s) (hfrom : found from_.hash = some from_)
    (hlength : s.length ≠ 0) (htwo : 2 ≤ pointerCount) :
    ∃ t, SampleInv found from_ pointerCount memoryLimit t ∧
      (getReferenceSamples s from_ pointerCount memoryLimit).1 =
        t.hashes.filterMap found ∧
      (memoryLimit.filter (fun l => decide (l ≠ 0)) = none →
        t.hashes = from_.hash ::
          unlimited found from_ pointerCount (min pointerCount s.length)) := by
  let start : Sampling α :=
    { hashes := [from_.hash], memoryCounter := from_.payloadSize, entryIndex := s }
  have hsize : sizes found [from_.hash] = from_.payloadSize := by
    rw [sizes_cons hfrom]
    exact Int.add_zero _
  have hstart : SampleInv found from_ pointerCount memoryLimit start :=
    { finds := hfinds, once := List.nodup_singleton _, given := List.mem_singleton_self _
      count := (Nat.le_succ 1).trans htwo
      distance := fun k hk => .inl (List.mem_singleton.mp hk)
      counted := fun _ _ _ => hsize.le
      memory := fun _ _ _ => hsize.le.trans (le_max_right _ _) }
  have hcount : start.hashes.length < pointerCount := htwo
  have hunlimited : ∀ l : List Hash, (l.foldl addHash [from_.hash]).take pointerCount =
      from_.hash :: (Lib.firsts id [from_.hash] l).take (pointerCount - 1) := by
    intro l
    rw [foldl_addHash, List.singleton_append, List.take_cons (by omega)]
  have hdistance : min (pointerCount : Int) s.length ≠ 0 := by omega
  unfold getReferenceSamples
  rw [if_neg hdistance]
  dsimp only
  split
  · have hlayer : from_.meta.next.foldl addHash [] = layer found from_ (2 - 2) :=
      foldl_addHash _ _
    rw [hlayer]
    have hinv := hstart.sampleLevels (min (pointerCount : Int) s.length) (m := 0) hfrom
      hcount le_rfl le_rfl (min (pointerCount : Int) s.length).toNat
    refine ⟨_, hinv, getAll_eq hinv.finds _, ?_⟩
    intro hlimit
    have hall := sampleLevels_unlimited from_ (min (pointerCount : Int) s.length) (t := start)
      (m := 0) hlimit hfinds hcount le_rfl le_rfl (min (pointerCount : Int) s.length).toNat
    rw [layersFrom_zero] at hall
    exact hall.trans (hunlimited _)
  · rename_i hnot
    refine ⟨start, hstart, getAll_eq hfinds _, ?_⟩
    intro _
    have hnext : from_.meta.next = [] := by
      rw [← List.length_eq_zero_iff]
      omega
    have hnone : candidates found from_ (min pointerCount s.length) = [] := by
      rw [← layersFrom_zero, layersFrom_eq_nil]
      intro k _ _
      refine layer_eq_nil_of_le (Nat.zero_le _) ?_
      rw [layer, hnext]
      rfl
    rw [unlimited, hnone, ← hunlimited]
    exact (List.take_of_length_le hcount.le).symm

/-- For a log that is read from its blocks, and an entry of it: the samples are right if
the memory limit is not zero, or all that is sampled without a limit is empty. -/
theorem referenceSamples_iff (hfinds : Finds found s) (hfrom : found from_.hash = some from_)
    (hlength : s.length ≠ 0) (htwo : 2 ≤ pointerCount) :
    SamplesRight found from_ pointerCount memoryLimit
        (getReferenceSamples s from_ pointerCount memoryLimit).1 ↔
      (memoryLimit = some 0 →
        ∀ k ∈ unlimited found from_ pointerCount (min pointerCount s.length),
          ∀ e, found k = some e → e.payloadSize = 0) := by
  obtain ⟨t, hinv, hsamples, hunlimited⟩ :=
    getReferenceSamples_eq memoryLimit hfinds hfrom hlength htwo
  rw [hsamples]
  have hzero : memoryLimit = some 0 → sizes found t.hashes = from_.payloadSize +
      sizes found (unlimited found from_ pointerCount (min pointerCount s.length)) := by
    rintro rfl
    rw [hunlimited rfl, sizes_cons hfrom]
  constructor
  · intro hright hlimit
    rw [← sizes_le_zero_iff]
    have hmemory : sizes found t.hashes ≤ max 0 (from_.payloadSize : Int) :=
      hright.memory 0 hlimit
    rw [hzero hlimit] at hmemory
    omega
  · intro hempty
    have hhash : ∀ e ∈ t.hashes.filterMap found, e.hash ∈ t.hashes ∧ found e.hash = some e := by
      intro e he
      obtain ⟨k, hk, hfound⟩ := List.mem_filterMap.mp he
      obtain rfl := hfinds.hash_eq hfound
      exact ⟨hk, hfound⟩
    exact
      { once := nodup_map_hash hfinds hinv.once
        given := List.mem_filterMap.mpr ⟨_, hinv.given, hfrom⟩
        count := List.length_filterMap_le _ _ |>.trans hinv.count
        distance := by
          intro e he
          obtain ⟨hmem, hfound⟩ := hhash e he
          refine (hinv.distance _ hmem).imp_left ?_
          intro heq
          rw [heq, hfrom] at hfound
          exact (Option.some.inj hfound).symm
        memory := by
          intro limit hlimit
          change sizes found t.hashes ≤ _
          by_cases hlimitZero : limit = 0
          · obtain rfl := hlimitZero
            have hle := (sizes_le_zero_iff _).mpr (hempty hlimit)
            have heq := hzero hlimit
            omega
          · exact hinv.memory limit hlimit hlimitZero }

end Samples

namespace ShortChain

def entry (hash : Hash) (next : List Hash) : Entry String where
  hash := hash
  «meta» :=
    { clock := { id := "writer", timestamp := { wallTime := 1, logical := 0 } }
      gid := "g"
      next := next
      type := .APPEND }
  payload := hash
  payloadSize := 1

def first : Entry String := entry "1" []

def second : Entry String := entry "2" ["1"]

def third : Entry String := entry "3" ["2"]

/-- Three entries, each of which follows the one before. -/
def log : EntryIndex String :=
  .opened [first.toShallow false, second.toShallow false, third.toShallow true]
    [first, second, third]

/-- With a limit of zero the second entry is sampled all the same. -/
theorem not_samplesRight :
    ¬ SamplesRight log.getBlock third 3 (some 0)
      (getReferenceSamples log third 3 (some 0)).1 := by
  intro hright
  exact absurd (hright.memory 0 rfl) (by decide +kernel)

theorem samplesRight_limit :
    SamplesRight log.getBlock third 3 (some 2)
        (getReferenceSamples log third 3 (some 2)).1 ∧
      (getReferenceSamples log third 3 (some 2)).1.length = 2 := by
  refine ⟨?_, by decide +kernel⟩
  refine (referenceSamples_iff (Finds.opened _ _) (by decide +kernel) (by decide)
    (by decide)).mpr ?_
  intro hlimit
  exact absurd hlimit (by decide)

end ShortChain

end Log
end Peerbit
