import Peerbit.Documents.Iterate

/-!
# Iteration as a merge

What matters of an iteration is what was returned, the results that are
collected but not returned, the documents that no one has handled yet, and the
keys that were visited.  Handling a result and returning a batch are steps on
these four; all other steps keep them.
-/

namespace Peerbit
namespace Documents

universe u v w

variable {P : Type u} {D : Type v} {K : Type w}

/-- What holds of an iteration while it collects and returns documents. -/
structure MergeInv (cfg : IterateConfig P D K) (returned : List D)
    (visited : List K) (collected unserved : P → List D) : Prop where
  returned_sorted : returned.Pairwise (fun a b => cfg.sorts a b)
  returned_once : (returned.map cfg.indexByResolver).Nodup
  collected_once : ∀ p, ((collected p).map cfg.indexByResolver).Nodup
  collected_apart : ∀ p q, p ≠ q → ∀ d ∈ collected p, ∀ e ∈ collected q,
    cfg.indexByResolver d ≠ cfg.indexByResolver e
  returned_apart : ∀ r ∈ returned, ∀ p, ∀ d ∈ collected p,
    cfg.indexByResolver r ≠ cfg.indexByResolver d
  mem_visited : ∀ k, k ∈ visited ↔
    (∃ r ∈ returned, cfg.indexByResolver r = k) ∨
      ∃ p, ∃ d ∈ collected p, cfg.indexByResolver d = k
  handled : ∀ p ∈ cfg.peers, ∃ before, before ++ unserved p = cfg.docs p ∧
    ∀ d ∈ before, cfg.indexByResolver d ∈ visited
  sublist : ∀ p ∈ cfg.peers,
    (collected p ++ unserved p).Sublist (cfg.docs p)
  before_collected : ∀ r ∈ returned, ∀ p, ∀ d ∈ collected p, cfg.sorts r d
  before_unserved : ∀ r ∈ returned, ∀ p ∈ cfg.peers, ∀ d ∈ unserved p,
    cfg.indexByResolver d ∉ visited → cfg.sorts r d

namespace MergeInv

variable {cfg : IterateConfig P D K} {returned : List D}
  {visited : List K} {collected unserved : P → List D}

theorem seen (h : MergeInv cfg returned visited collected unserved) {p : P}
    (hp : p ∈ cfg.peers) {d : D} (hd : d ∈ cfg.docs p) :
    cfg.indexByResolver d ∈ visited ∨ d ∈ unserved p := by
  obtain ⟨before, hdocs, hbefore⟩ := h.handled p hp
  rw [← hdocs, List.mem_append] at hd
  exact hd.imp_left (hbefore d)

theorem mem_docs (h : MergeInv cfg returned visited collected unserved) {p : P}
    (hp : p ∈ cfg.peers) {d : D} (hd : d ∈ unserved p) : d ∈ cfg.docs p :=
  (h.sublist p hp).subset (List.mem_append_right _ hd)

variable [DecidableEq P]

omit [DecidableEq P] in
/-- The first document that is left is handled when its key is visited. -/
theorem handled_cons (h : MergeInv cfg returned visited collected unserved)
    {visited' : List K} {p : P} {d : D} {rest : List D}
    (hpeer : p ∈ cfg.peers) (hp : unserved p = d :: rest)
    (hmore : ∀ k ∈ visited, k ∈ visited')
    (hd : cfg.indexByResolver d ∈ visited') :
    ∃ before, before ++ rest = cfg.docs p ∧
      ∀ e ∈ before, cfg.indexByResolver e ∈ visited' := by
  obtain ⟨before, hdocs, hbefore⟩ := h.handled p hpeer
  refine ⟨before ++ [d], ?_, ?_⟩
  · rw [List.append_assoc, List.singleton_append, ← hp, hdocs]
  · intro e he
    rcases List.mem_append.mp he with he | he
    · exact hmore _ (hbefore e he)
    · rwa [List.mem_singleton.mp he]

/-- A result that was visited before is passed over. -/
theorem take_visited (h : MergeInv cfg returned visited collected unserved)
    {p : P} {d : D} {rest : List D} (hp : unserved p = d :: rest)
    (hd : cfg.indexByResolver d ∈ visited) :
    MergeInv cfg returned visited collected
      (Function.update unserved p rest) where
  returned_sorted := h.returned_sorted
  returned_once := h.returned_once
  collected_once := h.collected_once
  collected_apart := h.collected_apart
  returned_apart := h.returned_apart
  mem_visited := h.mem_visited
  handled := by
    intro q hq
    by_cases hqp : q = p
    · subst hqp
      rw [Function.update_self]
      exact h.handled_cons hq hp (fun _ hk => hk) hd
    · rw [Function.update_of_ne hqp]
      exact h.handled q hq
  sublist := by
    intro q hq
    by_cases hqp : q = p
    · subst hqp
      rw [Function.update_self]
      refine List.Sublist.trans ?_ (h.sublist q hq)
      rw [hp]
      exact List.Sublist.append_left (List.sublist_cons_self d rest) _
    · rw [Function.update_of_ne hqp]
      exact h.sublist q hq
  before_collected := h.before_collected
  before_unserved := by
    intro r hr q hq e he hnew
    by_cases hqp : q = p
    · subst hqp
      rw [Function.update_self] at he
      exact h.before_unserved r hr q hq e (hp ▸ List.mem_cons_of_mem d he) hnew
    · rw [Function.update_of_ne hqp] at he
      exact h.before_unserved r hr q hq e he hnew

/-- A result that was not visited before is collected. -/
theorem take_new (h : MergeInv cfg returned visited collected unserved)
    {p : P} {d : D} {rest : List D} (hpeer : p ∈ cfg.peers)
    (hp : unserved p = d :: rest) (hd : cfg.indexByResolver d ∉ visited) :
    MergeInv cfg returned (cfg.indexByResolver d :: visited)
      (Function.update collected p (collected p ++ [d]))
      (Function.update unserved p rest) := by
  have hmem : ∀ q e, e ∈ Function.update collected p (collected p ++ [d]) q ↔
      e ∈ collected q ∨ q = p ∧ e = d := by
    intro q e
    by_cases hqp : q = p
    · subst hqp
      simp
    · simp [hqp]
  have hfresh : ∀ q, ∀ e ∈ collected q,
      cfg.indexByResolver e ≠ cfg.indexByResolver d := by
    intro q e he heq
    exact hd ((h.mem_visited _).mpr (.inr ⟨q, e, he, heq⟩))
  have hreturned : ∀ r ∈ returned,
      cfg.indexByResolver r ≠ cfg.indexByResolver d := by
    intro r hr heq
    exact hd ((h.mem_visited _).mpr (.inl ⟨r, hr, heq⟩))
  refine
    { returned_sorted := h.returned_sorted, returned_once := h.returned_once,
      collected_once := ?collected_once, collected_apart := ?collected_apart,
      returned_apart := ?returned_apart, mem_visited := ?mem_visited,
      handled := ?handled, sublist := ?sublist,
      before_collected := ?before_collected,
      before_unserved := ?before_unserved }
  case collected_once =>
    intro q
    by_cases hqp : q = p
    · subst hqp
      rw [Function.update_self, List.map_append]
      refine List.nodup_append.mpr ⟨h.collected_once q, by simp, ?_⟩
      intro a ha b hb
      obtain ⟨e, he, rfl⟩ := List.mem_map.mp ha
      obtain rfl : b = cfg.indexByResolver d := by simpa using hb
      exact hfresh q e he
    · rw [Function.update_of_ne hqp]
      exact h.collected_once q
  case collected_apart =>
    intro q q' hne e he e' he'
    rw [hmem] at he he'
    rcases he with he | ⟨rfl, rfl⟩
    · rcases he' with he' | ⟨rfl, rfl⟩
      · exact h.collected_apart q q' hne e he e' he'
      · exact hfresh q e he
    · rcases he' with he' | ⟨rfl, _⟩
      · exact (hfresh q' e' he').symm
      · exact absurd rfl hne
  case returned_apart =>
    intro r hr q e he
    rcases (hmem q e).mp he with he | ⟨_, rfl⟩
    · exact h.returned_apart r hr q e he
    · exact hreturned r hr
  case mem_visited =>
    intro k
    rw [List.mem_cons, h.mem_visited]
    constructor
    · rintro (rfl | hr | ⟨q, e, he, hk⟩)
      · exact .inr ⟨p, d, (hmem p d).mpr (.inr ⟨rfl, rfl⟩), rfl⟩
      · exact .inl hr
      · exact .inr ⟨q, e, (hmem q e).mpr (.inl he), hk⟩
    · rintro (hr | ⟨q, e, he, rfl⟩)
      · exact .inr (.inl hr)
      · rcases (hmem q e).mp he with he | ⟨_, rfl⟩
        · exact .inr (.inr ⟨q, e, he, rfl⟩)
        · exact .inl rfl
  case handled =>
    intro q hq
    by_cases hqp : q = p
    · subst hqp
      rw [Function.update_self]
      exact h.handled_cons hq hp (fun _ hk => List.mem_cons_of_mem _ hk)
        List.mem_cons_self
    · rw [Function.update_of_ne hqp]
      obtain ⟨before, hdocs, hbefore⟩ := h.handled q hq
      exact ⟨before, hdocs,
        fun e he => List.mem_cons_of_mem _ (hbefore e he)⟩
  case sublist =>
    intro q hq
    by_cases hqp : q = p
    · subst hqp
      rw [Function.update_self, Function.update_self, List.append_assoc,
        List.singleton_append, ← hp]
      exact h.sublist q hq
    · rw [Function.update_of_ne hqp, Function.update_of_ne hqp]
      exact h.sublist q hq
  case before_collected =>
    intro r hr q e he
    rcases (hmem q e).mp he with he | ⟨_, rfl⟩
    · exact h.before_collected r hr q e he
    · exact h.before_unserved r hr p hpeer e (hp ▸ List.mem_cons_self) hd
  case before_unserved =>
    intro r hr q hq e he hnew
    have hnew' := fun hvisited => hnew (List.mem_cons_of_mem _ hvisited)
    by_cases hqp : q = p
    · subst hqp
      rw [Function.update_self] at he
      exact h.before_unserved r hr q hq e (hp ▸ List.mem_cons_of_mem d he) hnew'
    · rw [Function.update_of_ne hqp] at he
      exact h.before_unserved r hr q hq e he hnew'

omit [DecidableEq P] in
/-- A batch of collected results is returned, when none of them sorts after one
that stays or that is still to come. -/
theorem return_batch (h : MergeInv cfg returned visited collected unserved)
    {batch : List (P × D)} {collected' : P → List D}
    (hbatch : ∀ p d, (p, d) ∈ batch → d ∈ collected p ∧ d ∉ collected' p)
    (hsub : ∀ p, (collected' p).Sublist (collected p))
    (hstay : ∀ p d, d ∈ collected p → d ∈ collected' p ∨ (p, d) ∈ batch)
    (honce : (batch.map (fun r => cfg.indexByResolver r.2)).Nodup)
    (hsorted : batch.Pairwise (fun a b => cfg.sorts a.2 b.2))
    (hbefore : ∀ r ∈ batch, ∀ p, ∀ d ∈ collected' p, cfg.sorts r.2 d)
    (hunserved : ∀ r ∈ batch, ∀ p ∈ cfg.peers, ∀ d ∈ unserved p,
      cfg.indexByResolver d ∉ visited → cfg.sorts r.2 d) :
    MergeInv cfg (returned ++ batch.map (fun r => r.2)) visited collected'
      unserved := by
  have hmem : ∀ r, r ∈ returned ++ batch.map (fun r => r.2) ↔
      r ∈ returned ∨ ∃ p, (p, r) ∈ batch := by
    intro r
    simp only [List.mem_append, List.mem_map, Prod.exists,
      exists_eq_right]
  refine
    { returned_sorted := ?returned_sorted, returned_once := ?returned_once
      collected_once := fun p => ((hsub p).map _).nodup (h.collected_once p)
      collected_apart := ?collected_apart, returned_apart := ?returned_apart
      mem_visited := ?mem_visited, handled := h.handled, sublist := ?sublist
      before_collected := ?before_collected
      before_unserved := ?before_unserved }
  case returned_sorted =>
    refine List.pairwise_append.mpr
      ⟨h.returned_sorted, List.pairwise_map.mpr hsorted, ?_⟩
    intro r hr d hd
    obtain ⟨⟨p, e⟩, hbatched, rfl⟩ := List.mem_map.mp hd
    exact h.before_collected r hr p e (hbatch p e hbatched).1
  case returned_once =>
    rw [List.map_append]
    refine List.nodup_append.mpr ⟨h.returned_once, ?_, ?_⟩
    · rw [List.map_map]
      exact honce
    · intro a ha b hb
      obtain ⟨r, hr, rfl⟩ := List.mem_map.mp ha
      obtain ⟨d, hd, rfl⟩ := List.mem_map.mp hb
      obtain ⟨⟨p, e⟩, hbatched, rfl⟩ := List.mem_map.mp hd
      exact h.returned_apart r hr p e (hbatch p e hbatched).1
  case collected_apart =>
    intro p q hne d hd e he
    exact h.collected_apart p q hne d ((hsub p).subset hd) e
      ((hsub q).subset he)
  case returned_apart =>
    intro r hr p d hd
    rcases (hmem r).mp hr with hr | ⟨q, hr⟩
    · exact h.returned_apart r hr p d ((hsub p).subset hd)
    · by_cases hqp : q = p
      · subst hqp
        intro heq
        obtain rfl := List.inj_on_of_nodup_map (h.collected_once q)
          (hbatch q r hr).1 ((hsub q).subset hd) heq
        exact (hbatch q r hr).2 hd
      · exact h.collected_apart q p hqp r (hbatch q r hr).1 d
          ((hsub p).subset hd)
  case mem_visited =>
    intro k
    rw [h.mem_visited]
    constructor
    · rintro (⟨r, hr, hk⟩ | ⟨p, d, hd, hk⟩)
      · exact .inl ⟨r, (hmem r).mpr (.inl hr), hk⟩
      · rcases hstay p d hd with hd | hd
        · exact .inr ⟨p, d, hd, hk⟩
        · exact .inl ⟨d, (hmem d).mpr (.inr ⟨p, hd⟩), hk⟩
    · rintro (⟨r, hr, hk⟩ | ⟨p, d, hd, hk⟩)
      · rcases (hmem r).mp hr with hr | ⟨p, hr⟩
        · exact .inl ⟨r, hr, hk⟩
        · exact .inr ⟨p, r, (hbatch p r hr).1, hk⟩
      · exact .inr ⟨p, d, (hsub p).subset hd, hk⟩
  case sublist =>
    intro p hp
    exact (List.Sublist.append_right (hsub p) _).trans (h.sublist p hp)
  case before_collected =>
    intro r hr p d hd
    rcases (hmem r).mp hr with hr | ⟨q, hr⟩
    · exact h.before_collected r hr p d ((hsub p).subset hd)
    · exact hbefore (q, r) hr p d hd
  case before_unserved =>
    intro r hr p hp d hd hnew
    rcases (hmem r).mp hr with hr | ⟨q, hr⟩
    · exact h.before_unserved r hr p hp d hd hnew
    · exact hunserved (q, r) hr p hp d hd hnew

end MergeInv

end Documents
end Peerbit
