import Mathlib
import Peerbit.Lib.InsertionMap
import Peerbit.Lib.Machines

/-!
# Distributed iteration

An iterator asks all peers for their first page.  A later `next(n)` asks those
of whom it has fewer than `n` results left and who said that they keep more.
The new results of a page are put into the buffer of its peer; the first `n`
results of all buffers, in the order of the request, are returned.

The answers arrive in any order, and the results of different pages are handled
in turns.  Calls of `next` do not overlap.
-/

namespace Peerbit
namespace Documents

universe u v w

/-- The peers of an iteration with the documents that each of them serves, in
the order of the request. -/
structure IterateConfig (P : Type u) (D : Type v) (K : Type w) where
  peers : List P
  self : P
  docs : P → List D
  indexByResolver : D → K
  /-- `extractSortCompare` is not positive. -/
  sorts : D → D → Bool
  sorts_total : ∀ a b, sorts a b ∨ sorts b a
  sorts_trans : ∀ a b c, sorts a b → sorts b c → sorts a c
  sorted : ∀ p ∈ peers, (docs p).Pairwise (fun a b => sorts a b)

/-- A value of `peerBufferMap`. -/
structure PeerBuffer (D : Type v) where
  kept : Nat
  buffer : List D

/-- What the iterator waits for from a peer: nothing, an answer, or that the
results of an answer are handled. -/
inductive PeerRequest (D : Type v) where
  | none
  | asked (amount : Nat)
  | answered (kept : Nat) (results buffer : List D)

def PeerRequest.results {D : Type v} : PeerRequest D → List D
  | .answered _ results _ => results
  | _ => []

def PeerRequest.buffer {D : Type v} : PeerRequest D → List D
  | .answered _ _ buffer => buffer
  | _ => []

/-- The branch of `fetchAtLeast` that a call of `next` has taken. -/
inductive Fetch where
  | skipped
  | first
  | later (resultsLeft : Nat)
deriving Repr, DecidableEq

/-- `done` is `none` when it is undefined. -/
structure IterateState (P : Type u) (D : Type v) (K : Type w) where
  /-- The documents that a peer has not yet served. -/
  remote : P → List D
  peerBufferMap : Lib.InsertionMap P (PeerBuffer D)
  visited : List K
  done : Option Bool
  first : Bool
  /-- The call of `next` that is in progress. -/
  call : Option (Nat × Fetch)
  requests : P → PeerRequest D
  /-- What the calls of `next` have returned. -/
  returned : List D

section Steps

variable {P : Type u} {D : Type v} {K : Type w}
variable [DecidableEq P] [DecidableEq D] [DecidableEq K]

/-- The loop of `dedup`. -/
def dedupLoop (dedupBy : D → K) (unique : List K) : List D → List D
  | [] => []
  | result :: results =>
      if dedupBy result ∈ unique then
        dedupLoop dedupBy unique results
      else
        result :: dedupLoop dedupBy (dedupBy result :: unique) results

def dedup (dedupBy : D → K) (allResult : List D) : List D :=
  dedupLoop dedupBy [] allResult

/-- The results of all buffers, with the peers they are from. -/
def peerBuffers (m : Lib.InsertionMap P (PeerBuffer D)) : List (P × D) :=
  m.entries.flatMap (fun e => e.2.buffer.map (fun d => (e.1, d)))

/-- Takes the results of a batch out of the buffers they are from. -/
def spliceBatch (m : Lib.InsertionMap P (PeerBuffer D)) :
    List (P × D) → Lib.InsertionMap P (PeerBuffer D)
  | [] => m
  | result :: batch =>
      spliceBatch
        (m.modify result.1
          (fun b => { b with buffer := b.buffer.erase result.2 }))
        batch

variable (cfg : IterateConfig P D K)

def sortedResults (m : Lib.InsertionMap P (PeerBuffer D)) : List (P × D) :=
  (peerBuffers m).insertionSort (fun a b => cfg.sorts a.2 b.2)

/-- The start of `fetchFirst`. -/
def fetchFirst (s : IterateState P D K) (n : Nat) : IterateState P D K :=
  { s with
    done := some true, first := true, call := some (n, .first)
    requests := fun p => if p ∈ cfg.peers then .asked n else .none }

/-- The loop of `fetchAtLeast` over the buffers. -/
def fetchLater (s : IterateState P D K) (n : Nat) : IterateState P D K :=
  { s with
    peerBufferMap :=
      s.peerBufferMap.filter
        (fun _ b => !(b.buffer.length < n && b.kept == 0 && b.buffer.isEmpty))
    requests := fun p =>
      match s.peerBufferMap.get p with
      | some b =>
          if b.buffer.length < n ∧ b.kept ≠ 0 then
            .asked (n - b.buffer.length)
          else
            .none
      | none => .none
    call :=
      some (n, .later
        ((s.peerBufferMap.entries.filter
          (fun e => n ≤ e.2.buffer.length)).map (fun e => e.2.kept)).sum) }

/-- The begin of `next(n)`, up to the requests. -/
def fetchAtLeast (s : IterateState P D K) (n : Nat) : IterateState P D K :=
  if s.done = some true ∧ s.first then
    { s with call := some (n, .skipped) }
  else if s.first then
    fetchLater s n
  else
    fetchFirst cfg s n

/-- The buffer of a peer that sent an empty page is dropped when it is empty. -/
def dropEmpty (m : Lib.InsertionMap P (PeerBuffer D)) (p : P) :
    Lib.InsertionMap P (PeerBuffer D) :=
  match m.get p with
  | some b => if b.buffer.isEmpty then m.delete p else m
  | none => m

/-- An answer to the first request.  The iterator never sees an empty page of
its own node. -/
def firstResponse (s : IterateState P D K) (p : P) (kept : Nat)
    (page : List D) : IterateState P D K :=
  if page.isEmpty ∧ (kept = 0 ∨ p = cfg.self) then
    { s with requests := Function.update s.requests p .none }
  else
    { s with
      done := if 0 < kept then some false else s.done
      requests := Function.update s.requests p (.answered kept page []) }

/-- An answer to a later request. -/
def laterResponse (s : IterateState P D K) (n resultsLeft : Nat) (p : P)
    (kept : Nat) (page : List D) : IterateState P D K :=
  if page.isEmpty then
    { s with
      call := some (n, .later (resultsLeft + kept))
      peerBufferMap := dropEmpty s.peerBufferMap p
      requests := Function.update s.requests p .none }
  else
    { s with
      call := some (n, .later (resultsLeft + kept))
      requests := Function.update s.requests p (.answered kept page []) }

/-- The next result of a page is added when no page has brought it before. -/
def takeResult (s : IterateState P D K) (p : P) (kept : Nat) (result : D)
    (results buffer : List D) : IterateState P D K :=
  if cfg.indexByResolver result ∈ s.visited then
    { s with
      requests :=
        Function.update s.requests p (.answered kept results buffer) }
  else
    { s with
      visited := cfg.indexByResolver result :: s.visited
      requests :=
        Function.update s.requests p
          (.answered kept results (buffer ++ [result])) }

/-- All results of a page are handled.  The first page makes the buffer of its
peer, a later one is appended to it. -/
def finishPage (s : IterateState P D K) (fetch : Fetch) (p : P) (kept : Nat)
    (buffer : List D) : IterateState P D K :=
  { s with
    peerBufferMap :=
      match fetch with
      | .first => s.peerBufferMap.set p { kept := kept, buffer := buffer }
      | _ =>
          s.peerBufferMap.modify p
            (fun b => { kept := kept, buffer := b.buffer ++ buffer })
    requests := Function.update s.requests p .none }

/-- What `fetchAtLeast` returns. -/
def fetchedAll (s : IterateState P D K) : Fetch → Option Bool
  | .skipped => none
  | .first => s.done
  | .later resultsLeft => some (resultsLeft = 0)

/-- The rest of `next(n)`, when all answers are handled. -/
def returnBatch (s : IterateState P D K) (n : Nat) (fetch : Fetch) :
    IterateState P D K :=
  let results := sortedResults cfg s.peerBufferMap
  let batch := results.take n
  { s with
    peerBufferMap := spliceBatch s.peerBufferMap batch
    done := (fetchedAll s fetch).map (fun all => all && !(n < results.length))
    call := none
    returned :=
      s.returned ++ dedup cfg.indexByResolver (batch.map (fun r => r.2)) }

/-- A peer answers with at most as many of its next documents as it was asked
for, and says how many it keeps; among these may be some that it never
serves. -/
inductive IterateAction (P : Type u) where
  | next (n : Nat)
  | respond (p : P) (served kept : Nat)
  | take (p : P)
  | finish (p : P)
  | return_
deriving Repr, DecidableEq

/-- The state after a peer has sent a page. -/
def IterateState.served (s : IterateState P D K) (p : P) (served : Nat) :
    IterateState P D K :=
  { s with remote := Function.update s.remote p ((s.remote p).drop served) }

def iterateStep (s : IterateState P D K) :
    IterateAction P → Option (IterateState P D K)
  | .next n =>
      if s.call = none ∧ 1 ≤ n then some (fetchAtLeast cfg s n) else none
  | .respond p served kept =>
      match s.requests p with
      | .asked amount =>
          if served ≤ amount ∧ ((s.remote p).drop served).length ≤ kept then
            let page := (s.remote p).take served
            match s.call with
            | some (_, .first) =>
                some (firstResponse cfg (s.served p served) p kept page)
            | some (n, .later resultsLeft) =>
                some
                  (laterResponse (s.served p served) n resultsLeft p kept page)
            | _ => none
          else
            none
      | _ => none
  | .take p =>
      match s.requests p with
      | .answered kept (result :: results) buffer =>
          some (takeResult cfg s p kept result results buffer)
      | _ => none
  | .finish p =>
      match s.requests p, s.call with
      | .answered kept [] buffer, some (_, fetch) =>
          some (finishPage s fetch p kept buffer)
      | _, _ => none
  | .return_ =>
      match s.call with
      | some (n, fetch) =>
          if ∀ p ∈ cfg.peers, s.requests p matches .none then
            some (returnBatch cfg s n fetch)
          else
            none
      | none => none

def iterateMachine :
    Lib.Machine (IterateState P D K) (IterateAction P) where
  init :=
    { remote := fun p => if p ∈ cfg.peers then cfg.docs p else []
      peerBufferMap := .empty, visited := [], done := some false
      first := false, call := none, requests := fun _ => .none
      returned := [] }
  step := iterateStep cfg

end Steps

/-! ### The buffers -/

section Buffers

variable {P : Type u} {D : Type v} {K : Type w}

/-- The results in the buffer of a peer. -/
def bufferOf (m : Lib.InsertionMap P (PeerBuffer D)) (p : P) : List D :=
  (m.get p).elim [] (fun b => b.buffer)

theorem bufferOf_of_get {m : Lib.InsertionMap P (PeerBuffer D)} {p : P}
    {b : PeerBuffer D} (h : m.get p = some b) : bufferOf m p = b.buffer := by
  simp [bufferOf, h]

theorem bufferOf_of_none {m : Lib.InsertionMap P (PeerBuffer D)} {p : P}
    (h : m.get p = none) : bufferOf m p = [] := by
  simp [bufferOf, h]

theorem mem_peerBuffers {m : Lib.InsertionMap P (PeerBuffer D)} {p : P}
    {d : D} : (p, d) ∈ peerBuffers m ↔ d ∈ bufferOf m p := by
  unfold peerBuffers
  rw [List.mem_flatMap]
  constructor
  · rintro ⟨⟨q, b⟩, he, hd⟩
    obtain ⟨d', hd', hpair⟩ := List.mem_map.mp hd
    obtain ⟨rfl, rfl⟩ := Prod.mk.inj hpair
    rw [bufferOf_of_get (Lib.InsertionMap.mem_entries.mp he)]
    exact hd'
  · intro hd
    cases hp : m.get p with
    | none =>
        rw [bufferOf_of_none hp] at hd
        exact absurd hd List.not_mem_nil
    | some b =>
        rw [bufferOf_of_get hp] at hd
        exact ⟨(p, b), Lib.InsertionMap.mem_entries.mpr hp,
          List.mem_map.mpr ⟨d, hd, rfl⟩⟩

/-- When no key is twice in a buffer or in two buffers, it is once in all. -/
theorem nodup_peerBuffers {m : Lib.InsertionMap P (PeerBuffer D)}
    {indexBy : D → K}
    (honce : ∀ p, ((bufferOf m p).map indexBy).Nodup)
    (hapart : ∀ p q, p ≠ q → ∀ d ∈ bufferOf m p, ∀ e ∈ bufferOf m q,
      indexBy d ≠ indexBy e) :
    ((peerBuffers m).map (fun r => indexBy r.2)).Nodup := by
  unfold peerBuffers
  rw [List.map_flatMap]
  refine List.nodup_flatMap.mpr ⟨?_, ?_⟩
  · rintro ⟨p, b⟩ he
    have hp := bufferOf_of_get (Lib.InsertionMap.mem_entries.mp he)
    rw [List.map_map]
    exact hp ▸ honce p
  · refine Lib.InsertionMap.pairwise_entries.imp_of_mem ?_
    rintro ⟨p, b⟩ ⟨q, c⟩ hp hq hne k hkp hkq
    simp only [List.map_map] at hkp hkq
    obtain ⟨d, hd, rfl⟩ := List.mem_map.mp hkp
    obtain ⟨e, he, heq⟩ := List.mem_map.mp hkq
    have hpb := bufferOf_of_get (Lib.InsertionMap.mem_entries.mp hp)
    have hqc := bufferOf_of_get (Lib.InsertionMap.mem_entries.mp hq)
    exact hapart p q hne d (hpb ▸ hd) e (hqc ▸ he) heq.symm

theorem dedupLoop_of_nodup [DecidableEq K] {dedupBy : D → K}
    {results : List D} {unique : List K}
    (honce : (results.map dedupBy).Nodup)
    (hnew : ∀ r ∈ results, dedupBy r ∉ unique) :
    dedupLoop dedupBy unique results = results := by
  induction results generalizing unique with
  | nil => rfl
  | cons result results ih =>
      rw [List.map_cons, List.nodup_cons] at honce
      rw [dedupLoop, if_neg (hnew result List.mem_cons_self), ih honce.2]
      intro r hr hmem
      rcases List.mem_cons.mp hmem with heq | hmem
      · exact honce.1 (heq ▸ List.mem_map_of_mem hr)
      · exact hnew r (List.mem_cons_of_mem _ hr) hmem

theorem dedup_of_nodup [DecidableEq K] {dedupBy : D → K} {results : List D}
    (honce : (results.map dedupBy).Nodup) : dedup dedupBy results = results :=
  dedupLoop_of_nodup honce (fun _ _ => List.not_mem_nil)

variable [DecidableEq P] [DecidableEq D]

/-- A buffer without the results of a batch that are from its peer. -/
def spliced (p : P) (buffer : List D) : List (P × D) → List D
  | [] => buffer
  | result :: batch =>
      spliced p (if p = result.1 then buffer.erase result.2 else buffer) batch

theorem get_spliceBatch (m : Lib.InsertionMap P (PeerBuffer D))
    (batch : List (P × D)) (p : P) :
    (spliceBatch m batch).get p =
      (m.get p).map (fun b => { b with buffer := spliced p b.buffer batch }) := by
  induction batch generalizing m with
  | nil => simp [spliceBatch, spliced]
  | cons result batch ih =>
      rw [spliceBatch, ih]
      by_cases hp : p = result.1
      · subst hp
        rw [Lib.InsertionMap.get_modify_self, Option.map_map]
        simp only [spliced, if_true, Function.comp_def]
      · rw [Lib.InsertionMap.get_modify_of_ne _ _ hp]
        simp only [spliced, if_neg hp]

theorem bufferOf_spliceBatch (m : Lib.InsertionMap P (PeerBuffer D))
    (batch : List (P × D)) (p : P) :
    bufferOf (spliceBatch m batch) p = spliced p (bufferOf m p) batch := by
  unfold bufferOf
  rw [get_spliceBatch]
  cases m.get p with
  | some b => rfl
  | none =>
      symm
      induction batch with
      | nil => rfl
      | cons result batch ih => simpa [spliced] using ih

theorem spliced_sublist (p : P) (buffer : List D) (batch : List (P × D)) :
    (spliced p buffer batch).Sublist buffer := by
  induction batch generalizing buffer with
  | nil => exact List.Sublist.refl _
  | cons result batch ih =>
      rw [spliced]
      split
      · exact (ih _).trans List.erase_sublist
      · exact ih _

theorem mem_spliced {p : P} {buffer : List D} {batch : List (P × D)} {d : D}
    (honce : buffer.Nodup) :
    d ∈ spliced p buffer batch ↔ d ∈ buffer ∧ (p, d) ∉ batch := by
  induction batch generalizing buffer with
  | nil => simp [spliced]
  | cons result batch ih =>
      rw [spliced, List.mem_cons, not_or]
      split
      · rename_i hp
        rw [ih (honce.erase _), honce.mem_erase_iff]
        have hpair : (p, d) = result ↔ d = result.2 :=
          ⟨fun h => h ▸ rfl, fun h => Prod.ext hp h⟩
        rw [hpair]
        tauto
      · rename_i hp
        rw [ih honce]
        have hpair : (p, d) ≠ result := fun h => hp (h ▸ rfl)
        tauto

end Buffers

/-! ### The sorted results -/

section SortedResults

variable {P : Type u} {D : Type v} {K : Type w}
variable (cfg : IterateConfig P D K) (m : Lib.InsertionMap P (PeerBuffer D))

theorem perm_sortedResults : (sortedResults cfg m).Perm (peerBuffers m) :=
  List.perm_insertionSort _ _

theorem pairwise_sortedResults :
    (sortedResults cfg m).Pairwise (fun a b => cfg.sorts a.2 b.2) := by
  have htotal : Std.Total (fun a b : P × D => cfg.sorts a.2 b.2 = true) :=
    ⟨fun a b => cfg.sorts_total a.2 b.2⟩
  have htrans : IsTrans (P × D) (fun a b => cfg.sorts a.2 b.2 = true) :=
    ⟨fun a b c => cfg.sorts_trans a.2 b.2 c.2⟩
  exact List.pairwise_insertionSort _ _

/-- What is taken does not sort after what stays. -/
theorem sorts_take_drop {n : Nat} {a b : P × D}
    (ha : a ∈ (sortedResults cfg m).take n)
    (hb : b ∈ (sortedResults cfg m).drop n) : cfg.sorts a.2 b.2 := by
  have h := pairwise_sortedResults cfg m
  rw [← List.take_append_drop n (sortedResults cfg m)] at h
  exact (List.pairwise_append.mp h).2.2 a ha b hb

/-- When `n` results, or all, sort before a document, then the first `n` do. -/
theorem sorts_take_of_count {n : Nat} {d : D}
    (hcount : min n (peerBuffers m).length ≤
      ((peerBuffers m).filter (fun r => cfg.sorts r.2 d)).length)
    {a : P × D} (ha : a ∈ (sortedResults cfg m).take n) :
    cfg.sorts a.2 d := by
  by_contra hafter
  have hperm := perm_sortedResults cfg m
  -- nothing that stays sorts before the document, since `a` does not
  have hdrop : ((sortedResults cfg m).drop n).filter
      (fun r => cfg.sorts r.2 d) = [] := by
    refine List.filter_eq_nil_iff.mpr (fun b hb hbd => hafter ?_)
    exact cfg.sorts_trans _ _ _ (sorts_take_drop cfg m ha hb) hbd
  have htake : (((sortedResults cfg m).take n).filter
      (fun r => cfg.sorts r.2 d)).length <
        ((sortedResults cfg m).take n).length :=
    List.length_filter_lt_length_iff_exists.mpr ⟨a, ha, hafter⟩
  have hsplit : ((peerBuffers m).filter (fun r => cfg.sorts r.2 d)).length =
      (((sortedResults cfg m).take n).filter
        (fun r => cfg.sorts r.2 d)).length := by
    rw [← (hperm.filter _).length_eq]
    conv_lhs => rw [← List.take_append_drop n (sortedResults cfg m)]
    rw [List.filter_append, hdrop, List.append_nil]
  rw [List.length_take, hperm.length_eq] at htake
  omega

end SortedResults

end Documents
end Peerbit
