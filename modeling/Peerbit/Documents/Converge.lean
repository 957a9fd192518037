import Peerbit.Documents.Store
import Peerbit.Lib.TreeOrders
import Peerbit.Log.JoinConvergence

/-!
# Edits of a document in any order

Two stores receive the edits of one document, each after the one it points to,
and accept them all.  An edit is accepted when it points to the current head or
to an entry in its history, and then it becomes the head itself.  So a store
accepts the orders of a depth first visit through the tree of the edits, and
ends with the edit that it visited last: two stores agree for certain only when
the tree is a chain.
-/

namespace Peerbit
namespace Documents

open Log Lib Relation

section Edits

variable {K D I : Type}

/-- The first entry points to the second, both of the set. -/
def PointsTo (S : List (Entry (Operation K D)))
    (e p : Entry (Operation K D)) : Prop :=
  e ∈ S ∧ p ∈ S ∧ e.meta.next = [p.hash]

/-- The put entries of one document: a first one, and edits of earlier ones. -/
structure Edits (options : DocumentsOptions K D I) (key : K)
    (S : List (Entry (Operation K D))) (first : Entry (Operation K D)) :
    Prop where
  content : ∀ e ∈ S, ∀ f ∈ S, e.hash = f.hash → e = f
  put : ∀ e ∈ S, ∃ data, e.payload = .put data ∧ options.idResolver data = key
  type : ∀ e ∈ S, e.meta.type = .APPEND
  first_mem : first ∈ S
  first_next : first.meta.next = []
  next : ∀ e ∈ S, e ≠ first → ∃ p ∈ S, e.meta.next = [p.hash]
  acyclic : ∃ rank : Hash → Nat,
    ∀ e ∈ S, ∀ n ∈ e.meta.next, rank n < rank e.hash

/-- Of any two entries, one lies in the history of the other. -/
def Sequential (S : List (Entry (Operation K D))) : Prop :=
  ∀ e ∈ S, ∀ f ∈ S,
    ReflTransGen (PointsTo S) e f ∨ ReflTransGen (PointsTo S) f e

/-- An order of all entries in which each comes after the one it points to. -/
structure Arrival (S order : List (Entry (Operation K D))) : Prop where
  nodup : order.Nodup
  mem : ∀ e, e ∈ order ↔ e ∈ S
  parentsFirst : ParentsFirst (PointsTo S) order

/-! ### The tree of the edits -/

section Tree

variable {options : DocumentsOptions K D I} {key : K} {S : List (Entry (Operation K D))}
variable {first : Entry (Operation K D)}

theorem Edits.rightUnique (h : Edits options key S first) :
    Relator.RightUnique (PointsTo S) := by
  rintro e p q ⟨_, hp, hep⟩ ⟨_, hq, heq⟩
  rw [hep] at heq
  exact h.content p hp q hq (by simpa using heq)

theorem Edits.orphan (h : Edits options key S first)
    (p : Entry (Operation K D)) : ¬ PointsTo S first p := by
  rintro ⟨_, _, hnext⟩
  rw [h.first_next] at hnext
  cases hnext

theorem Edits.exists_rank (h : Edits options key S first) :
    ∃ rank : Entry (Operation K D) → Nat,
      ∀ e p, PointsTo S e p → rank p < rank e := by
  obtain ⟨rank, hrank⟩ := h.acyclic
  refine ⟨fun e => rank e.hash, ?_⟩
  rintro e p ⟨he, _, hnext⟩
  exact hrank e he p.hash (by simp [hnext])

theorem Edits.tree
    [DecidableEq (Entry (Operation K D))] (h : Edits options key S first) :
    Tree (PointsTo S) S.toFinset first where
  root_mem := List.mem_toFinset.mpr h.first_mem
  orphan := h.orphan
  parent := by
    intro e he hne
    rw [List.mem_toFinset] at he
    obtain ⟨p, hp, hnext⟩ := h.next e he hne
    exact ⟨p, List.mem_toFinset.mpr hp, he, hp, hnext⟩
  unique := h.rightUnique
  rank := h.exists_rank

theorem Edits.self_not_mem_next (h : Edits options key S first)
    {e : Entry (Operation K D)} (he : e ∈ S) : e.hash ∉ e.meta.next := by
  intro hnext
  obtain ⟨rank, hrank⟩ := h.acyclic
  exact absurd (hrank e he _ hnext) (Nat.lt_irrefl _)

end Tree

/-! ### What the stores receive -/

/-- A store that is not immutable and does not trim, and whose checks of single
entries the entries pass. -/
structure PlainStore (options : DocumentsOptions K D I)
    (log : LogEnv (Operation K D) (DocumentsState K D I))
    (S : List (Entry (Operation K D))) : Prop where
  mutable : options.immutable = false
  noTrim : log.trim = none
  accepts : ∀ e ∈ S,
    options.sharedLogCanAppend e = true ∧ options.canPerform e = true

variable [DecidableEq K]
variable (options : DocumentsOptions K D I)
variable (log : LogEnv (Operation K D) (DocumentsState K D I))

/-- A new store receives the entries in the order and accepts them all. -/
def Receives (fuel : Nat) (S order : List (Entry (Operation K D)))
    (s : StoreState K D I) : Prop :=
  joinAll (documentsEnv { options with depth := fuel } log) fuel (.open .empty)
    order = (.ok (), s) ∧ ∀ e ∈ S, s.entryIndex.index.Stored e.hash

/-- Stores that receive and accept the entries in any two orders end with the
same row for the key. -/
def RowConverges (key : K) (S : List (Entry (Operation K D))) : Prop :=
  ∀ (fuel : Nat) (order order' : List (Entry (Operation K D)))
    (s s' : StoreState K D I), Arrival S order → Arrival S order' →
    Receives options log fuel S order s →
    Receives options log fuel S order' s' →
    s.app.row key = s'.app.row key

/-! ### Accepting an edit -/

section Accept

variable {options} {key : K} {S : List (Entry (Operation K D))}
variable {first : Entry (Operation K D)}

/-- The entries of a store that received some of the edits. -/
structure Holds (S visited : List (Entry (Operation K D)))
    (index : EntryIndex (Operation K D)) : Prop extends
    ResolveInv (· ∈ S) index where
  stored : ∀ e ∈ S, index.index.Stored e.hash ↔ e ∈ visited
  cachedStored : ∀ k v, index.cache.live k = some (some v) →
    index.index.Stored k

omit [DecidableEq K] in
/-- Reading a stored entry finds it, and keeps what the store holds. -/
theorem Holds.get
    {visited : List (Entry (Operation K D))}
    {index : EntryIndex (Operation K D)} (h : Holds S visited index)
    (hS : Edits options key S first) {e : Entry (Operation K D)} (he : e ∈ S)
    (hvisited : e ∈ visited) :
    ∃ index', index.get e.hash = (some e, index') ∧ Holds S visited index' ∧
      index' = { index with cache := index'.cache } := by
  obtain ⟨hfound, hsome⟩ := h.get_fst e.hash
  have hstored : index.index.Stored e.hash := (h.stored e he).mpr hvisited
  obtain ⟨v, hv⟩ := hsome hstored
  obtain ⟨hvS, hhash⟩ := hfound v hv
  obtain rfl := hS.content v hvS e he hhash
  refine ⟨(index.get v.hash).2, Prod.ext hv rfl, ?_, EntryIndex.get_snd _ _⟩
  refine
    { toResolveInv := h.toResolveInv.get _, stored := ?_, cachedStored := ?_ }
  · rw [EntryIndex.get_index]
    exact h.stored
  · intro k w hlive
    rw [EntryIndex.get_index]
    rcases h.live_get hlive with hold | ⟨rfl, _⟩
    · exact h.cachedStored k w hold
    · exact hstored

omit [DecidableEq K] in
/-- The walk from the head finds an entry of its history. -/
theorem pointsToHistory_of_above
    {visited : List (Entry (Operation K D))} (hS : Edits options key S first)
    {rank : Hash → Nat}
    (hrank : ∀ e ∈ S, ∀ n ∈ e.meta.next, rank n < rank e.hash)
    {p x : Entry (Operation K D)} (hx : x ∈ S)
    (habove : ReflTransGen (PointsTo S) x p)
    (hvisited : ∀ c, ReflTransGen (PointsTo S) x c → c ∈ visited)
    {depth : Nat} (hdepth : rank x.hash ≤ depth)
    {index : EntryIndex (Operation K D)} (h : Holds S visited index) :
    ∃ index', pointsToHistory p.hash depth index (some x) = (.ok true, index') ∧
      Holds S visited index' ∧ index' = { index with cache := index'.cache } := by
  induction habove using ReflTransGen.head_induction_on generalizing depth index
    with
  | refl =>
      refine ⟨index, ?_, h, rfl⟩
      unfold pointsToHistory
      simp
  | @head x c hxc hcp ih =>
      unfold pointsToHistory
      by_cases hhash : x.hash = p.hash
      · exact ⟨index, by simp [hhash], h, rfl⟩
      · obtain ⟨_, hc, hnext⟩ := hxc
        have hlt : rank c.hash < rank x.hash :=
          hrank x hx c.hash (by simp [hnext])
        cases depth with
        | zero => omega
        | succ depth =>
            obtain ⟨index₁, hget, hread, hcache⟩ :=
              h.get hS hc (hvisited c (.single ⟨hx, hc, hnext⟩))
            obtain ⟨index', hwalk, hread', hcache'⟩ :=
              ih hc (fun d hd => hvisited d (.head ⟨hx, hc, hnext⟩ hd))
                (by omega : rank c.hash ≤ depth) hread
            refine ⟨index', ?_, hread', ?_⟩
            · simp only [hhash, if_false, hnext, hget, hwalk]
            · rw [hcache', hcache]

variable {log}

/-- The state after an entry was accepted. -/
def storeEdit (options : DocumentsOptions K D I)
    (s : StoreState K D I) (index : EntryIndex (Operation K D))
    (e : Entry (Operation K D)) (data : D) : StoreState K D I :=
  let stored := index.put e false true true
  { s with
    entryIndex := stored
    app :=
      indexPut options
        { s.app with
          changes := s.app.changes ++
            [{ change := { added := [(true, e)], removed := [] }
               entryIndex := stored }] }
        data e (options.idResolver data) }

/-- What joining a single edit does, when the store has the entry it points to
and accepts it. -/
theorem join_of_accepted
    {fuel : Nat} {s : StoreState K D I} {e : Entry (Operation K D)} {data : D}
    {index : EntryIndex (Operation K D)} (hnoTrim : log.trim = none)
    (htype : e.meta.type = .APPEND) (hpayload : e.payload = .put data)
    (hself : e.hash ∉ e.meta.next) (hhas : s.has e.hash = false)
    (hnexts : ∀ n ∈ e.meta.next, s.has n = true)
    (hdeleted : alreadyDeleted (documentsEnv options log) s e = false)
    (happend : canAppend options s.app s.entryIndex e = (.ok true, index))
    (hread : index = { s.entryIndex with cache := index.cache }) :
    join (documentsEnv options log) (fuel + 1) s [e] {} =
      (.ok (), storeEdit options s index e data) := by
  have hjoinNexts : ∀ (nexts : List Hash) (options' : JoinOptions (Operation K D))
      (join : StoreState K D I → Entry (Operation K D) →
        Except LogError Bool × StoreState K D I),
      options'.reset = false → (∀ n ∈ nexts, s.has n = true) →
      joinNexts (documentsEnv options log) join options' nexts s =
        (.ok (), s) := by
    intro nexts options' join hreset hall
    induction nexts with
    | nil => rfl
    | cons n nexts ih =>
        simp only [joinNexts, hall n List.mem_cons_self, hreset,
          Bool.true_eq_false, Bool.false_eq_true, or_self, if_false]
        exact ih (fun m hm => hall m (List.mem_cons_of_mem _ hm))
  have haccept : runCanAppend (documentsEnv options log) s e =
      (.ok true, { s with entryIndex := index }) := by
    simp only [runCanAppend, documentsEnv, happend, LogState.handled]
    rw [← hread]
  have hafter : afterPut (documentsEnv options log) fuel
      { s with entryIndex := index.put e false true true } e true none 0 =
      (.ok (), storeEdit options s index e data) := by
    simp only [afterPut, processEntry, htype, trim, documentsEnv, hnoTrim,
      runOnChange, handleChanges, resolveRemoved, removedHashes, handleItems,
      handleItem, hpayload, LogState.handled, runDeletes, storeEdit,
      List.map_nil, List.map_cons, List.append_nil, List.not_mem_nil,
      List.foldl_nil, Option.or_none, if_false, reduceCtorEq]
  simp only [join, joinEntries, joinHeads_singleton hself, List.append_nil,
    joinRecursively, hhas, hdeleted, htype, Bool.false_eq_true, false_and,
    if_false, reduceCtorEq]
  rw [hjoinNexts _ _ _ rfl hnexts]
  simp only [haccept, hafter]

/-- The row that a store has for the key after it accepted some edits, the last
of them at the head of the list. -/
structure Received (S : List (Entry (Operation K D))) (key : K)
    (s : StoreState K D I) (last : Entry (Operation K D))
    (visited : List (Entry (Operation K D))) : Prop where
  holds : Holds S visited s.entryIndex
  row : ∃ row, s.app.row key = some row ∧ row.context.head = last.hash

omit [DecidableEq K] in
theorem Holds.put
    {visited : List (Entry (Operation K D))}
    {index : EntryIndex (Operation K D)} (h : Holds S visited index)
    (hS : Edits options key S first) {e : Entry (Operation K D)} (he : e ∈ S) :
    Holds S (e :: visited) (index.put e false true true) := by
  have hstored : ∀ k, (index.put e false true true).index.Stored k ↔
      k = e.hash ∨ index.index.Stored k := by
    intro k
    rw [EntryIndex.put_index, HeadsIndex.stored_putEntry h.keyed]
  refine
    { toResolveInv := h.toResolveInv.put he (Or.inl rfl), stored := ?_
      cachedStored := ?_ }
  · intro f hf
    rw [hstored, List.mem_cons, h.stored f hf]
    refine or_congr_left ?_
    constructor
    · exact fun hhash => hS.content f hf e he hhash
    · rintro rfl
      rfl
  · intro k v hlive
    rw [hstored]
    rcases h.live_put hlive with ⟨rfl, _⟩ | ⟨_, hold⟩
    · exact Or.inl rfl
    · exact Or.inr (h.cachedStored k v hold)

omit [DecidableEq K] in
theorem Holds.has_eq_false
    {visited : List (Entry (Operation K D))} {s : StoreState K D I}
    (h : Holds S visited s.entryIndex) {e : Entry (Operation K D)} (he : e ∈ S)
    (hnew : e ∉ visited) :
    s.has e.hash = false := by
  have hnot : ¬ s.entryIndex.index.Stored e.hash :=
    fun hstored => hnew ((h.stored e he).mp hstored)
  unfold LogState.has EntryIndex.has
  rw [h.cached_eq]
  split
  · rename_i v hv
    exact absurd (h.cachedStored _ v hv) hnot
  · rw [← Bool.not_eq_true, ← HeadsIndex.stored_iff_get]
    exact hnot

/-- None of the edits is a cut. -/
theorem Holds.not_alreadyDeleted
    {visited : List (Entry (Operation K D))} {s : StoreState K D I}
    (h : Holds S visited s.entryIndex) (hS : Edits options key S first)
    (e : Entry (Operation K D)) :
    alreadyDeleted (documentsEnv options log) s e = false := by
  unfold alreadyDeleted
  rw [List.any_eq_false]
  intro v hv
  obtain ⟨f, hf, heq⟩ := h.sub v.toSortableEntry
    (HeadsIndex.mem_sortables.mpr ⟨v, List.mem_of_mem_filter hv, rfl⟩)
  rw [← heq, hS.type f hf]
  simp

/-- A store that accepts an edit goes on with it as its head. -/
theorem received_of_accepted
    {fuel : Nat} {visited : List (Entry (Operation K D))}
    {s : StoreState K D I} (h : Holds S visited s.entryIndex)
    (hS : Edits options key S first) (hnoTrim : log.trim = none)
    {e : Entry (Operation K D)} (he : e ∈ S) (hnew : e ∉ visited)
    (hnexts : ∀ n ∈ e.meta.next, s.entryIndex.index.Stored n)
    {index : EntryIndex (Operation K D)} (hholds : Holds S visited index)
    (happend : canAppend options s.app s.entryIndex e = (.ok true, index))
    (hread : index = { s.entryIndex with cache := index.cache }) :
    ∃ s', join (documentsEnv options log) (fuel + 1) s [e] {} = (.ok (), s') ∧
      Received S key s' e (e :: visited) := by
  obtain ⟨data, hpayload, hkey⟩ := hS.put e he
  refine ⟨storeEdit options s index e data,
    join_of_accepted hnoTrim (hS.type e he) hpayload (hS.self_not_mem_next he)
      (h.has_eq_false he hnew)
      (fun n hn => ResolveInv.has_of_stored (hnexts n hn))
      (h.not_alreadyDeleted hS e) happend hread, ?_⟩
  refine ⟨hholds.put hS he, ?_⟩
  rw [← hkey]
  exact ⟨_, row_indexPut _ _ _ _ _, rfl⟩

variable (log) in
/-- The first entry is accepted by a new store. -/
theorem received_first
    (hS : Edits options key S first) (hstore : PlainStore options log S)
    (fuel : Nat) :
    ∃ s, join (documentsEnv options log) (fuel + 1) (.open .empty) [first] {} =
        (.ok (), s) ∧
      Received S key s first [first] := by
  obtain ⟨data, hpayload, hkey⟩ := hS.put first hS.first_mem
  obtain ⟨hshared, hperform⟩ := hstore.accepts first hS.first_mem
  have hholds : Holds S []
      (LogState.open (α := Operation K D)
        (DocumentsState.empty (K := K) (D := D) (I := I))).entryIndex := by
    refine
      { toResolveInv := .of_index_eq_nil rfl rfl (fun v hv => nomatch hv)
        stored := ?_, cachedStored := ?_ }
    · intro e _
      refine iff_of_false ?_ (List.not_mem_nil)
      rintro ⟨x, hx, _⟩
      cases hx
    · intro k v hlive
      cases hlive
  refine received_of_accepted hholds hS hstore.noTrim hS.first_mem
    List.not_mem_nil ?_ hholds ?_ rfl
  · rw [hS.first_next]
    exact fun n hn => nomatch hn
  · simp [canAppend, hshared, canAppendHistory, hpayload, canAppendPut,
      getDetailed, hstore.mutable, LogState.open, DocumentsState.row,
      DocumentsState.empty, hS.first_next, hperform]

/-- An edit is accepted when it points into the history of the head. -/
theorem Received.next
    {s : StoreState K D I} {x b p : Entry (Operation K D)}
    {l : List (Entry (Operation K D))} (h : Received S key s x (x :: l))
    (fuel : Nat)
    (hS : Edits options key S first) (hstore : PlainStore options log S)
    {rank : Hash → Nat}
    (hrank : ∀ e ∈ S, ∀ n ∈ e.meta.next, rank n < rank e.hash)
    (hdepth : ∀ e ∈ S, rank e.hash ≤ options.depth) (hx : x ∈ S)
    (hparent : PointsTo S b p) (habove : ReflTransGen (PointsTo S) x p)
    (hvisited : ∀ c, ReflTransGen (PointsTo S) x c → c ∈ x :: l)
    (hnew : b ∉ x :: l) :
    ∃ s', join (documentsEnv options log) (fuel + 1) s [b] {} = (.ok (), s') ∧
      Received S key s' b (b :: x :: l) := by
  obtain ⟨hb, hp, hnext⟩ := hparent
  obtain ⟨data, hpayload, hkey⟩ := hS.put b hb
  obtain ⟨hshared, hperform⟩ := hstore.accepts b hb
  obtain ⟨row, hrow, hhead⟩ := h.row
  have hxb : x.hash ≠ b.hash := by
    intro hhash
    exact hnew (hS.content x hx b hb hhash ▸ List.mem_cons_self)
  -- the head is loaded with the row, read again, and then followed
  obtain ⟨index₁, hget₁, hholds₁, hread₁⟩ :=
    h.holds.get hS hx List.mem_cons_self
  obtain ⟨index₂, hget₂, hholds₂, hread₂⟩ := hholds₁.get hS hx List.mem_cons_self
  obtain ⟨index₃, hwalk, hholds₃, hread₃⟩ :=
    pointsToHistory_of_above hS hrank hx habove hvisited (hdepth x hx) hholds₂
  have hthrow : index₁.getOrThrow x.hash = (.ok (some x), index₂) := by
    rw [hholds₁.getOrThrow ((hholds₁.stored x hx).mpr List.mem_cons_self), hget₂]
  have happend : canAppend options s.app s.entryIndex b = (.ok true, index₃) := by
    simp only [canAppend, hshared, if_true, canAppendHistory, hpayload,
      canAppendPut, getDetailed, hkey, hrow, hhead, hget₁, hxb, hstore.mutable,
      Bool.false_eq_true, if_false, hnext, hthrow, hwalk, hperform]
  refine received_of_accepted h.holds hS hstore.noTrim hb hnew ?_ hholds₃ happend
    ?_
  · intro n hn
    rw [hnext, List.mem_singleton] at hn
    rw [hn]
    exact (h.holds.stored p hp).mpr (hvisited p habove)
  · rw [hread₃, hread₂, hread₁]

end Accept

/-! ### The orders that stores accept -/

section Orders

variable {options} {log} {key : K} {S : List (Entry (Operation K D))}
variable {first : Entry (Operation K D)}

theorem joinAll_concat {α σ : Type} {env : LogEnv α σ} {fuel : Nat}
    {s t u : LogState α σ} {entries : List (Entry α)} {e : Entry α}
    (hfirst : joinAll env fuel s entries = (.ok (), t))
    (hlast : join env fuel t [e] {} = (.ok (), u)) :
    joinAll env fuel s (entries ++ [e]) = (.ok (), u) := by
  induction entries generalizing s with
  | nil =>
      obtain rfl : s = t := (Prod.mk.inj hfirst).2
      simp only [List.nil_append, joinAll, hlast]
  | cons f entries ih =>
      simp only [List.cons_append, joinAll] at hfirst ⊢
      split at hfirst
      · cases hfirst
      · exact ih hfirst

/-- A store accepts the entries in the order of a visit, and ends with the last
one. -/
theorem received_of_visit
    (hS : Edits options key S first) (hstore : PlainStore options log S)
    {rank : Hash → Nat}
    (hrank : ∀ e ∈ S, ∀ n ∈ e.meta.next, rank n < rank e.hash)
    (hdepth : ∀ e ∈ S, rank e.hash ≤ options.depth) (fuel : Nat)
    {x : Entry (Operation K D)} {l : List (Entry (Operation K D))}
    (hvisit : Visit (PointsTo S) first (x :: l)) :
    x ∈ S ∧ ∃ s,
      joinAll (documentsEnv options log) (fuel + 1) (.open .empty)
        (x :: l).reverse = (.ok (), s) ∧
      Received S key s x (x :: l) := by
  generalize hlist : x :: l = list at hvisit
  induction hvisit generalizing x l with
  | root =>
      obtain ⟨rfl, rfl⟩ := List.cons.inj hlist
      obtain ⟨s, hjoin, hreceived⟩ := received_first log hS hstore fuel
      refine ⟨hS.first_mem, s, ?_, hreceived⟩
      simp only [List.reverse_singleton, joinAll, hjoin]
  | @next b p y rest hvisit hparent habove hnew ih =>
      obtain ⟨rfl, rfl⟩ := List.cons.inj hlist
      obtain ⟨hy, s, hall, hreceived⟩ := ih rfl
      obtain ⟨s', hjoin, hreceived'⟩ :=
        hreceived.next fuel hS hstore hrank hdepth hy hparent habove
          (fun c hc => hvisit.above_mem hS.orphan hS.rightUnique hc) hnew
      refine ⟨hparent.1, s', ?_, hreceived'⟩
      rw [List.reverse_cons]
      exact joinAll_concat hall hjoin

/-- The stores end with the same row, whatever the orders, exactly when no two
of the edits are concurrent. -/
theorem rowConverges_iff
    (hS : Edits options key S first) (hstore : PlainStore options log S) :
    RowConverges options log key S ↔ Sequential S := by
  classical
  constructor
  · intro hconverges
    by_contra hconcurrent
    simp only [Sequential, not_forall, not_or] at hconcurrent
    obtain ⟨a, ha, b, hb, hab, hba⟩ := hconcurrent
    obtain ⟨l, hl, l', hl', hleaf, hleaf', hne⟩ :=
      hS.tree.exists_two_leaves (List.mem_toFinset.mpr ha)
        (List.mem_toFinset.mpr hb) hab hba
    obtain ⟨rank, hrank⟩ := hS.acyclic
    let fuel := (S.map (fun e => rank e.hash)).sum + 1
    have hdepth : ∀ e ∈ S, rank e.hash ≤ fuel := by
      intro e he
      have hle : rank e.hash ≤ (S.map (fun e => rank e.hash)).sum :=
        List.single_le_sum (by simp) _
          (List.mem_map_of_mem (f := fun e => rank e.hash) he)
      omega
    have hends : ∀ l ∈ S.toFinset, Leaf (PointsTo S) S.toFinset l →
        ∃ order s, Arrival S order ∧ Receives options log fuel S order s ∧
          ∃ row, s.app.row key = some row ∧ row.context.head = l.hash := by
      intro l hl hleaf
      obtain ⟨rest, hvisit, hmem⟩ := hS.tree.exists_visit hl hleaf
      have hS' : Edits { options with depth := fuel } key S first :=
        { hS with put := hS.put }
      have hstore' : PlainStore { options with depth := fuel } log S :=
        { hstore with mutable := hstore.mutable, accepts := hstore.accepts }
      obtain ⟨_, s, hrun, hreceived⟩ :=
        received_of_visit hS' hstore' hrank hdepth
          (S.map (fun e => rank e.hash)).sum hvisit
      refine ⟨(l :: rest).reverse, s, ⟨?_, ?_, ?_⟩, ⟨hrun, ?_⟩, hreceived.row⟩
      · exact List.nodup_reverse.mpr hvisit.nodup
      · intro e
        rw [List.mem_reverse, hmem e, List.mem_toFinset]
      · exact hvisit.parentsFirst hS.orphan hS.rightUnique
      · intro e he
        exact (hreceived.holds.stored e he).mpr
          ((hmem e).mpr (List.mem_toFinset.mpr he))
    obtain ⟨order, s, harrival, hreceives, row, hrow, hhead⟩ := hends l hl hleaf
    obtain ⟨order', s', harrival', hreceives', row', hrow', hhead'⟩ :=
      hends l' hl' hleaf'
    have hsame := hconverges fuel order order' s s' harrival harrival' hreceives
      hreceives'
    rw [hrow, hrow'] at hsame
    obtain rfl := Option.some.inj hsame
    exact hne (hS.content l (List.mem_toFinset.mp hl) l'
      (List.mem_toFinset.mp hl') (hhead.symm.trans hhead'))
  · intro hchain fuel order order' s s' harrival harrival' hreceives hreceives'
    have horder : order = order' :=
      eq_of_chain hS.exists_rank harrival.nodup harrival'.nodup
        (fun e => (harrival.mem e).trans (harrival'.mem e).symm)
        harrival.parentsFirst harrival'.parentsFirst
        (fun a ha b hb =>
          hchain a ((harrival.mem a).mp ha) b ((harrival.mem b).mp hb))
    subst horder
    have hrun := hreceives.1.symm.trans hreceives'.1
    rw [(Prod.mk.inj hrun).2]

end Orders

end Edits

/-! ### Two concurrent edits -/

namespace ConcurrentEdits

/-- Documents are pairs of an id and a text, indexed as they are. -/
def options : DocumentsOptions String (String × String) (String × String) where
  immutable := false
  idResolver := Prod.fst
  transformer value _ := value
  indexedTypeIsDocumentType := true
  asDocument value := value
  sharedLogCanAppend _ := true
  canPerform _ := true
  remoteResult _ := none
  depth := 5

def log :
    LogEnv (Operation String (String × String))
      (DocumentsState String (String × String) (String × String)) where
  sortFn := LastWriteWins
  canAppend app index _ := (.ok true, { app := app, cache := index.cache })
  onChange app index _ := (.ok (), { app := app, cache := index.cache })
  trim := none
  canTrim _ _ _ := true
  cacheId _ _ := none
  remote _ := none
  hashOf _ operation :=
    match operation with
    | .put data => data.2
    | .delete key => key
  byteLengthOf _ := 1

def edit (hash : Hash) (wallTime : Nat) (next : List Hash) :
    Entry (Operation String (String × String)) :=
  { hash := hash
    «meta» :=
      { clock :=
          { id := "writer"
            timestamp := { wallTime := wallTime, logical := 0 } }
        gid := "g", next := next, type := .APPEND }
    payload := .put ("doc", hash), payloadSize := 1 }

def first : Entry (Operation String (String × String)) := edit "first" 1 []

def left : Entry (Operation String (String × String)) := edit "left" 2 ["first"]

def right : Entry (Operation String (String × String)) :=
  edit "right" 3 ["first"]

def entries : List (Entry (Operation String (String × String))) :=
  [first, left, right]

theorem edits : Edits options "doc" entries first where
  content := by decide
  put := by
    intro e he
    simp only [entries, List.mem_cons, List.not_mem_nil, or_false] at he
    rcases he with rfl | rfl | rfl
    · exact ⟨_, rfl, rfl⟩
    · exact ⟨_, rfl, rfl⟩
    · exact ⟨_, rfl, rfl⟩
  type := by decide
  first_mem := by decide
  first_next := rfl
  next := by decide
  acyclic := ⟨fun k => if k = "first" then 0 else 1, by decide⟩

theorem plainStore : PlainStore options log entries where
  mutable := rfl
  noTrim := rfl
  accepts _ _ := ⟨rfl, rfl⟩

/-- The condition is about the edits alone. -/
theorem rowConverges_entries_iff :
    Edits options "doc" entries first ∧ PlainStore options log entries ∧
      (RowConverges options log "doc" entries ↔ Sequential entries) :=
  ⟨edits, plainStore, rowConverges_iff edits plainStore⟩

/-- The store after it received entries in an order. -/
def received (order : List (Entry (Operation String (String × String)))) :
    StoreState String (String × String) (String × String) :=
  (joinAll (documentsEnv { options with depth := 5 } log) 5 (.open .empty)
    order).2

theorem receives_left_right :
    Receives options log 5 entries [first, left, right]
      (received [first, left, right]) :=
  ⟨rfl, by simp only [HeadsIndex.stored_iff_get]; decide⟩

theorem receives_right_left :
    Receives options log 5 entries [first, right, left]
      (received [first, right, left]) :=
  ⟨rfl, by simp only [HeadsIndex.stored_iff_get]; decide⟩

theorem pointsTo_left : PointsTo entries left first := by
  exact ⟨by decide, by decide, rfl⟩

theorem pointsTo_right : PointsTo entries right first := by
  exact ⟨by decide, by decide, rfl⟩

theorem arrival_left_right : Arrival entries [first, left, right] where
  nodup := by decide
  mem _ := Iff.rfl
  parentsFirst :=
    (Visit.next (.next .root pointsTo_left .refl (by decide)) pointsTo_right
      (.single pointsTo_left) (by decide)).parentsFirst
      edits.orphan edits.rightUnique

theorem arrival_right_left : Arrival entries [first, right, left] where
  nodup := by decide
  mem e := by
    simp only [entries, List.mem_cons, List.not_mem_nil, or_false]
    tauto
  parentsFirst :=
    (Visit.next (.next .root pointsTo_right .refl (by decide)) pointsTo_left
      (.single pointsTo_right) (by decide)).parentsFirst
      edits.orphan edits.rightUnique

/-- Each store ends with the edit that it received last. -/
theorem not_rowConverges :
    Edits options "doc" entries first ∧ PlainStore options log entries ∧
      ¬ RowConverges options log "doc" entries := by
  refine ⟨edits, plainStore, ?_⟩
  intro hconverges
  have hsame := hconverges 5 _ _ _ _ arrival_left_right arrival_right_left
    receives_left_right receives_right_left
  have hvalues :
      ((received [first, left, right]).app.row "doc").map
          (fun row => row.value) ≠
        ((received [first, right, left]).app.row "doc").map
          (fun row => row.value) := by
    decide
  exact hvalues (congrArg _ hsame)

end ConcurrentEdits

end Documents
end Peerbit
