import Peerbit.Log.HeadInvariant
import Peerbit.Log.Resolve

/-!
# What joining a set of entries keeps

A set of entries that is closed under next pointers is joined into a fresh log,
in any order.  A cut deletes what it lists, and what only the deleted entries
list; so whatever an order decides, it decides about entries that some cut of
the set reaches.  `JoinInv` says what holds of all others at any time of the
joining, and what the cache and the blocks may hold.
-/

namespace Peerbit
namespace Log

/-! ### Sets of entries -/

section Sets

variable {α : Type}

/-- Entries under their content hashes, closed under next pointers.  A content
hash can only be listed by an entry that was made later. -/
structure EntrySet (S : List (Entry α)) : Prop where
  content : ∀ e ∈ S, ∀ f ∈ S, e.hash = f.hash → e = f
  closed : ∀ e ∈ S, ∀ n ∈ e.meta.next, ∃ f ∈ S, f.hash = n
  acyclic : ∃ rank : Hash → Nat,
    ∀ e ∈ S, ∀ n ∈ e.meta.next, rank n < rank e.hash

/-- A cut of the set reaches the hash along next pointers. -/
inductive CutReach (S : List (Entry α)) : Hash → Prop
  | cut {c : Entry α} {k : Hash} (hc : c ∈ S) (hcut : c.meta.type = .CUT)
      (hk : k ∈ c.meta.next) : CutReach S k
  | step {f : Entry α} {k : Hash} (hf : f ∈ S) (hreach : CutReach S f.hash)
      (hk : k ∈ f.meta.next) : CutReach S k

/-- A cut that nothing lists, of the entry's graph and newer than the entry,
lists the entry, and nothing but cuts does. -/
structure CutsOff (S : List (Entry α)) (sortFn : SortFn) (c e : Entry α) :
    Prop where
  cut : c.meta.type = .CUT
  lists : e.hash ∈ c.meta.next
  gid : c.meta.gid = e.meta.gid
  newer : sortFn.sort e.toSortableEntry c.toSortableEntry = .lt
  unlisted : ∀ f ∈ S, c.hash ∉ f.meta.next
  onlyCuts : ∀ f ∈ S, e.hash ∈ f.meta.next → f.meta.type = .CUT

/-- A cut reaches the hash, and none cuts it off whatever the order. -/
def Contested (S : List (Entry α)) (sortFn : SortFn) (k : Hash) : Prop :=
  CutReach S k ∧ ¬ ∃ c ∈ S, ∃ e ∈ S, e.hash = k ∧ CutsOff S sortFn c e

theorem not_cutReach_of_unlisted
    {S : List (Entry α)} {k : Hash} (h : ∀ f ∈ S, k ∉ f.meta.next) :
    ¬ CutReach S k := by
  intro hreach
  cases hreach with
  | cut hc _ hk => exact h _ hc hk
  | step hf _ hk => exact h _ hf hk

end Sets

/-! ### The invariant -/

section Invariant

variable {α : Type} (S : List (Entry α))

/-- What holds between the joins.  `owed` are the hashes that an entry which is
just being joined lists: their entries are stored before it, as no heads. -/
structure JoinInv (owed : Hash → Prop) (s : EntryIndex α) : Prop extends
    ResolveInv (· ∈ S) s where
  cachedWhere : ∀ k v, s.cache.live k = some (some v) →
    s.index.Stored k ∨ CutReach S k
  parents : ∀ e ∈ S, s.index.Stored e.hash → e.meta.type ≠ .CUT →
    ∀ n ∈ e.meta.next, ¬ CutReach S n → s.index.Stored n
  heads : ∀ x ∈ s.index, ¬ CutReach S x.hash →
    (x.head = true → ¬ s.index.Listed x.hash) ∧
      (x.head = false → s.index.Listed x.hash ∨ owed x.hash)

variable {S}
variable {owed : Hash → Prop} {s : EntryIndex α}

theorem JoinInv.mono
    {owed' : Hash → Prop} (h : JoinInv S owed s)
    (hsub : ∀ k, owed k → owed' k) :
    JoinInv S owed' s :=
  { h with
    heads := fun x hx hreach =>
      ⟨(h.heads x hx hreach).1, fun hfalse =>
        ((h.heads x hx hreach).2 hfalse).imp id (hsub x.hash)⟩ }

/-- An entry that the log says it has is stored, or a cut reaches it. -/
theorem JoinInv.of_has
    (h : JoinInv S owed s) {k : Hash} (hhas : s.has k = true) :
    s.index.Stored k ∨ CutReach S k := by
  unfold EntryIndex.has at hhas
  split at hhas
  · rename_i v hv
    rw [h.cached_eq] at hv
    exact h.cachedWhere k v hv
  · exact Or.inl (HeadsIndex.stored_iff_get.mpr hhas)

/-- Reading an entry that a cut reaches keeps the invariant. -/
theorem JoinInv.get
    (h : JoinInv S owed s) {k : Hash} (hreach : CutReach S k) :
    JoinInv S owed (s.get k).2 := by
  refine
    { toResolveInv := h.toResolveInv.get k, cachedWhere := ?_, parents := ?_
      heads := ?_ }
  · intro j v hlive
    rw [EntryIndex.get_index]
    rcases h.live_get hlive with hold | ⟨rfl, _⟩
    · exact h.cachedWhere j v hold
    · exact Or.inr hreach
  · rw [EntryIndex.get_index]
    exact h.parents
  · rw [EntryIndex.get_index]
    exact h.heads

/-- Deleting an entry that a cut reaches keeps the invariant. -/
theorem JoinInv.delete
    (h : JoinInv S owed s) {p : SortableEntry}
    (hmem : ∃ e ∈ S, e.toSortableEntry = p) (hreach : CutReach S p.hash) :
    JoinInv S owed (s.delete p.hash (some p)) := by
  have hindex :
      (s.delete p.hash (some p)).index = s.index.deleteEntry p.hash p := rfl
  have hcache : (s.delete p.hash (some p)).cache = s.cache.del p.hash := rfl
  have hstored : ∀ k, (s.delete p.hash (some p)).index.Stored k ↔
      s.index.Stored k ∧ k ≠ p.hash := by
    intro k
    rw [hindex, HeadsIndex.stored_deleteEntry h.keyed]
  -- what a cut does not reach is listed as before
  have hlisted : ∀ k, ¬ CutReach S k →
      ((s.delete p.hash (some p)).index.Listed k ↔ s.index.Listed k) := by
    intro k hk
    rw [hindex]
    constructor
    · rintro ⟨f, hf, htype, hnext⟩
      exact ⟨f, ((HeadsIndex.mem_sortables_deleteEntry h.keyed).mp hf).1, htype,
        hnext⟩
    · rintro ⟨f, hf, htype, hnext⟩
      refine ⟨f, (HeadsIndex.mem_sortables_deleteEntry h.keyed).mpr ⟨hf, ?_⟩,
        htype, hnext⟩
      intro hhash
      obtain ⟨e, he, rfl⟩ := h.sub f hf
      exact hk (.step he (hhash ▸ hreach) hnext)
  refine
    { toResolveInv := h.toResolveInv.delete _ _, cachedWhere := ?_
      parents := ?_, heads := ?_ }
  · intro k v hlive
    rw [hcache] at hlive
    obtain ⟨hne, hlive⟩ := h.ready.live_del hlive
    exact (h.cachedWhere k v hlive).imp (fun hk => (hstored k).mpr ⟨hk, hne⟩) id
  · intro e he hk htype n hn hreach'
    refine (hstored n).mpr
      ⟨h.parents e he ((hstored _).mp hk).1 htype n hn hreach', ?_⟩
    rintro rfl
    exact hreach' hreach
  · intro x hx hreach'
    rw [hindex] at hx
    have hold : x ∈ s.index := by
      by_cases hget : (s.index.get p.hash).isSome = true
      · rw [HeadsIndex.deleteEntry_eq_map h.keyed hget, List.mem_map] at hx
        obtain ⟨y, hy, rfl⟩ := hx
        have hnext : y.hash ∉ p.meta.next := by
          intro hnext
          obtain ⟨e, he, rfl⟩ := hmem
          refine hreach' ?_
          have hy' : CutReach S y.hash := .step he hreach hnext
          split <;> exact hy'
        rw [if_neg (fun hc => hnext hc.2.1)]
        exact (HeadsIndex.mem_del.mp hy).1
      · unfold HeadsIndex.deleteEntry at hx
        rwa [if_neg hget] at hx
    obtain ⟨htrue, hfalse⟩ := h.heads x hold hreach'
    rw [hlisted _ hreach']
    exact ⟨htrue, hfalse⟩

/-- Storing an entry whose parents are stored settles what it owes them. -/
theorem JoinInv.put
    {e : Entry α} {isHead : Bool}
    (h : JoinInv S
      (fun k => owed k ∨ e.meta.type ≠ .CUT ∧ k ∈ e.meta.next) s)
    (hS : EntrySet S) (he : e ∈ S) (hfresh : ¬ s.index.Stored e.hash)
    (hparents : e.meta.type ≠ .CUT → ∀ n ∈ e.meta.next, ¬ CutReach S n →
      s.index.Stored n)
    (howed : isHead = false → owed e.hash) :
    JoinInv S owed (s.put e false isHead true) := by
  have hindex : (s.put e false isHead true).index = s.index.putEntry e isHead :=
    EntryIndex.put_index _ _ _ _ _
  have hstored : ∀ k, (s.put e false isHead true).index.Stored k ↔
      k = e.hash ∨ s.index.Stored k := by
    intro k
    rw [hindex, HeadsIndex.stored_putEntry h.keyed]
  have hself : e.hash ∉ e.meta.next := by
    intro hnext
    obtain ⟨rank, hrank⟩ := hS.acyclic
    exact absurd (hrank e he e.hash hnext) (Nat.lt_irrefl _)
  have hlisted : ∀ k, (s.index.putEntry e isHead).Listed k ↔
      (e.meta.type ≠ .CUT ∧ k ∈ e.meta.next) ∨ s.index.Listed k := by
    intro k
    constructor
    · rintro ⟨f, hf, htype, hk⟩
      rcases (HeadsIndex.mem_sortables_putEntry h.keyed).mp hf with rfl | ⟨hf, _⟩
      · exact Or.inl ⟨htype, hk⟩
      · exact Or.inr ⟨f, hf, htype, hk⟩
    · rintro (⟨htype, hk⟩ | ⟨f, hf, htype, hk⟩)
      · exact ⟨_, (HeadsIndex.mem_sortables_putEntry h.keyed).mpr (Or.inl rfl),
          htype, hk⟩
      · refine ⟨f, (HeadsIndex.mem_sortables_putEntry h.keyed).mpr
          (Or.inr ⟨hf, ?_⟩), htype, hk⟩
        intro hhash
        exact hfresh ⟨f, hf, hhash⟩
  refine
    { toResolveInv := h.toResolveInv.put he (Or.inl rfl), cachedWhere := ?_
      parents := ?_, heads := ?_ }
  · intro k v hlive
    rcases h.live_put hlive with ⟨rfl, _⟩ | ⟨_, hold⟩
    · exact Or.inl ((hstored _).mpr (Or.inl rfl))
    · exact (h.cachedWhere k v hold).imp (fun hk => (hstored k).mpr (Or.inr hk)) id
  · intro f hf hk htype n hn hreach
    refine (hstored n).mpr (Or.inr ?_)
    rcases (hstored _).mp hk with hhash | hk
    · rw [hS.content f hf e he hhash] at htype hn
      exact hparents htype n hn hreach
    · exact h.parents f hf hk htype n hn hreach
  · intro x hx hreach
    rw [hindex, HeadsIndex.putEntry_eq_map h.keyed, List.mem_map] at hx
    rw [hindex]
    obtain ⟨y, hy, rfl⟩ := hx
    split
    · -- a parent
      rename_i hnext
      exact ⟨fun h => (nomatch h), fun _ => Or.inl ((hlisted _).mpr
        (Or.inl hnext))⟩
    · rename_i hnext
      rw [if_neg hnext] at hreach
      rcases HeadsIndex.mem_put.mp hy with rfl | ⟨hy, _⟩
      · -- the entry: what listed it would have stored it before
        refine ⟨fun _ hcontra => ?_, fun hfalse => Or.inr (howed hfalse)⟩
        rcases (hlisted _).mp hcontra with hself' | ⟨f, hf, htype, hk⟩
        · exact hself hself'.2
        · obtain ⟨g, hg, rfl⟩ := h.sub f hf
          exact hfresh (h.parents g hg ⟨_, hf, rfl⟩ htype _ hk hreach)
      · obtain ⟨htrue, hfalse⟩ := h.heads y hy hreach
        constructor
        · intro hhead hcontra
          rcases (hlisted _).mp hcontra with hnew | hold
          · exact hnext hnew
          · exact htrue hhead hold
        · intro hhead
          rcases hfalse hhead with hold | howed' | hnew
          · exact Or.inl ((hlisted _).mpr (Or.inr hold))
          · exact Or.inr howed'
          · exact absurd hnew hnext

end Invariant

end Log
end Peerbit
