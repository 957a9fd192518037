import Peerbit.Documents.IterateMerge

/-!
# Runs of an iteration

An iterator keeps account of which peers still keep documents: it waits for an
answer of such a peer, or it remembers the number of documents that the peer
said to keep.  When it is done there is no such peer.
-/

namespace Peerbit
namespace Documents

universe u v w

variable {P : Type u} {D : Type v} {K : Type w}

/-- The results of a peer that are visited but not returned. -/
def collected (s : IterateState P D K) (p : P) : List D :=
  bufferOf s.peerBufferMap p ++ (s.requests p).buffer

/-- The documents of a peer that the iterator has not handled. -/
def unserved (s : IterateState P D K) (p : P) : List D :=
  (s.requests p).results ++ s.remote p

/-- The iterator knows that the peer may keep more documents. -/
def Awaited (s : IterateState P D K) (p : P) : Prop :=
  match s.requests p with
  | .asked _ => True
  | .answered kept _ _ => 0 < kept
  | .none => ∃ b, s.peerBufferMap.get p = some b ∧ 0 < b.kept

structure FetchInv (cfg : IterateConfig P D K) (s : IterateState P D K) :
    Prop where
  strangers : ∀ p, p ∉ cfg.peers →
    s.peerBufferMap.get p = none ∧ s.requests p = .none
  quiet : (∀ n fetch, s.call = some (n, fetch) → fetch = .skipped) →
    ∀ p, s.requests p = .none
  fresh : s.first = false → s.call = none ∧ ∀ p, s.peerBufferMap.get p = none
  absent : ∀ n, s.call = some (n, .first) →
    ∀ p, s.requests p ≠ .none → s.peerBufferMap.get p = none
  present : ∀ n resultsLeft, s.call = some (n, .later resultsLeft) →
    ∀ p, s.requests p ≠ .none →
      ∃ b, s.peerBufferMap.get p = some b ∧ 0 < b.kept
  awaited : s.first = true →
    ∀ p ∈ cfg.peers, s.remote p ≠ [] → Awaited s p
  served : ∀ n fetch, s.call = some (n, fetch) →
    fetchedAll s fetch = some true →
      ∀ p ∈ cfg.peers, (∀ amount, s.requests p ≠ .asked amount) →
        s.remote p = []

section Lossless

variable [DecidableEq P] [DecidableEq D] [DecidableEq K]
variable (cfg : IterateConfig P D K)

/-- What was returned is sorted, has no key twice, and has all documents when
the iterator is done and no call of `next` is in progress. -/
structure LosslessMerge (s : IterateState P D K) : Prop where
  sorted : s.returned.Pairwise (fun a b => cfg.sorts a b)
  once : (s.returned.map cfg.indexByResolver).Nodup
  complete : s.call = none → s.done = some true →
    ∀ p ∈ cfg.peers, ∀ d ∈ cfg.docs p,
      cfg.indexByResolver d ∈ s.returned.map cfg.indexByResolver

/-- No peer has a version of the document that sorts after it. -/
def latestVersion (d : D) : Bool :=
  cfg.peers.all (fun q => (cfg.docs q).all (fun e =>
    cfg.indexByResolver e ≠ cfg.indexByResolver d || cfg.sorts e d))

/-- What a peer has brought and no batch has returned, when `left` is what it
keeps: its buffer, and of the documents it has served those that no other peer
has in a later version. -/
def brought (s : IterateState P D K) (p : P) (left : List D) : List K :=
  let served := (cfg.docs p).take ((cfg.docs p).length - left.length)
  (((collected s p ++ served.filter (latestVersion cfg)).map
    cfg.indexByResolver).filter
      (fun k => k ∉ s.returned.map cfg.indexByResolver)).dedup

/-- A peer brings enough for a batch of `n`: all that it keeps was visited, or
it has brought `n` documents, or what the other peers have sorts before what it
keeps. -/
def Brings (s : IterateState P D K) (n : Nat) (p : P) (left : List D) : Prop :=
  (∀ d ∈ left, cfg.indexByResolver d ∈ s.visited) ∨
    n ≤ (brought cfg s p left).length ∨
      ∀ q ∈ cfg.peers, q ≠ p → ∀ e ∈ cfg.docs q,
        cfg.indexByResolver e ∈ s.returned.map cfg.indexByResolver ∨
          ∀ d ∈ left, cfg.sorts e d

/-- A page brings enough, and it is not empty while the buffer of its peer is
empty and the peer has documents left. -/
def IterateClean (s : IterateState P D K) : IterateAction P → Prop
  | .respond p served _ =>
      ∀ n fetch, s.call = some (n, fetch) →
        Brings cfg s n p ((s.remote p).drop served) ∧
          ((s.remote p).take served = [] → s.remote p ≠ [] →
            (fetch = .first ∧ p ≠ cfg.self) ∨
              bufferOf s.peerBufferMap p ≠ [])
  | _ => True

structure IterateInv (s : IterateState P D K) : Prop where
  merge : MergeInv cfg s.returned s.visited (collected s) (unserved s)
  fetch : FetchInv cfg s
  brings : ∀ n fetch, s.call = some (n, fetch) → ∀ p ∈ cfg.peers,
    (∀ amount, s.requests p ≠ .asked amount) →
      Brings cfg s n p (s.remote p)
  complete : s.call = none → s.done = some true →
    ∀ p ∈ cfg.peers, ∀ d ∈ cfg.docs p,
      cfg.indexByResolver d ∈ s.returned.map cfg.indexByResolver

theorem iterateInv_init : IterateInv cfg (iterateMachine cfg).init where
  merge :=
    { returned_sorted := List.Pairwise.nil, returned_once := List.nodup_nil
      collected_once := fun _ => List.nodup_nil
      collected_apart := fun _ _ _ _ hd => absurd hd List.not_mem_nil
      returned_apart := fun _ hr => absurd hr List.not_mem_nil
      mem_visited := by simp [iterateMachine, collected, bufferOf,
        PeerRequest.buffer]
      handled := by
        intro p hp
        refine ⟨[], ?_, fun _ hd => absurd hd List.not_mem_nil⟩
        simp [iterateMachine, unserved, PeerRequest.results, hp]
      sublist := by
        intro p hp
        simp [iterateMachine, collected, unserved, bufferOf,
          PeerRequest.results, PeerRequest.buffer, hp]
      before_collected := fun _ hr => absurd hr List.not_mem_nil
      before_unserved := fun _ hr => absurd hr List.not_mem_nil }
  fetch :=
    { strangers := fun _ _ => ⟨rfl, rfl⟩
      quiet := fun _ _ => rfl
      fresh := fun _ => ⟨rfl, fun _ => rfl⟩
      absent := fun _ h => nomatch h
      present := fun _ _ h => nomatch h
      awaited := fun h => nomatch h
      served := fun _ _ h => nomatch h }
  brings := fun _ _ h => nomatch h
  complete := fun _ h => nomatch h

end Lossless

/-! ### The requests -/

section Requests

variable {cfg : IterateConfig P D K} {s : IterateState P D K}

theorem FetchInv.skipped (h : FetchInv cfg s) (hfirst : s.first = true)
    (hcall : s.call = none) (n : Nat) :
    FetchInv cfg { s with call := some (n, .skipped) } where
  strangers := h.strangers
  quiet _ := h.quiet (fun _ _ hsome => nomatch hcall ▸ hsome)
  fresh hfresh := nomatch hfirst ▸ hfresh
  absent _ hsome := by simp at hsome
  present _ _ hsome := by simp at hsome
  awaited := h.awaited
  served _ _ hsome hall := by
    obtain ⟨_, rfl⟩ := Prod.mk.inj (Option.some.inj hsome)
    exact nomatch hall

theorem FetchInv.mem_peers (h : FetchInv cfg s) {p : P}
    (hp : s.requests p ≠ .none) : p ∈ cfg.peers := by
  by_contra hpeer
  exact hp (h.strangers p hpeer).2

theorem FetchInv.first_of_call (h : FetchInv cfg s) {c : Nat × Fetch}
    (hcall : s.call = some c) : s.first = true := by
  by_contra hfirst
  exact nomatch hcall ▸ (h.fresh (Bool.eq_false_iff.mpr hfirst)).1

theorem fetchedAll_of_done {s' : IterateState P D K} {fetch : Fetch}
    (hall : fetchedAll s' fetch = some true) (hdone : s'.done = s.done) :
    fetchedAll s fetch = some true := by
  cases fetch with
  | skipped => exact hall
  | first => exact hdone.symm.trans hall
  | later left => exact hall

/-- A step of a fetch that changes what is known of one peer. -/
theorem FetchInv.of_local (h : FetchInv cfg s) {s' : IterateState P D K}
    {n : Nat} {fetch fetch' : Fetch} {p : P} (hp : s.requests p ≠ .none)
    (hcall : s.call = some (n, fetch)) (hcall' : s'.call = some (n, fetch'))
    (hbranch : fetch = .first ∧ fetch' = .first ∨
      ∃ left left', fetch = .later left ∧ fetch' = .later left')
    (hfirst : s'.first = s.first)
    (hothers : ∀ q, q ≠ p → s'.requests q = s.requests q ∧
      s'.peerBufferMap.get q = s.peerBufferMap.get q ∧
        s'.remote q = s.remote q)
    (habsent : fetch' = .first → s'.requests p ≠ .none →
      s'.peerBufferMap.get p = none)
    (hpresent : fetch' ≠ .first → s'.requests p ≠ .none →
      ∃ b, s'.peerBufferMap.get p = some b ∧ 0 < b.kept)
    (hawaited : s'.remote p ≠ [] → Awaited s' p)
    (hserved : fetchedAll s' fetch' = some true →
      fetchedAll s fetch = some true ∧
        ((∀ amount, s'.requests p ≠ .asked amount) → s'.remote p = [])) :
    FetchInv cfg s' := by
  have hpeer := h.mem_peers hp
  refine
    { strangers := ?strangers, quiet := ?quiet, fresh := ?fresh
      absent := ?absent, present := ?present, awaited := ?awaited
      served := ?served }
  case strangers =>
    intro q hq
    obtain ⟨hrequest, hget, _⟩ :=
      hothers q (fun heq => hq (heq ▸ hpeer))
    rw [hrequest, hget]
    exact h.strangers q hq
  case quiet =>
    intro hquiet
    obtain rfl := hquiet n fetch' hcall'
    rcases hbranch with ⟨_, hnot⟩ | ⟨_, _, _, hnot⟩
    · exact nomatch hnot
    · exact nomatch hnot
  case fresh =>
    intro hfresh
    exact nomatch hfresh ▸ hfirst.trans (h.first_of_call hcall)
  case absent =>
    intro m hsome q hq
    obtain ⟨rfl, rfl⟩ := Prod.mk.inj (Option.some.inj (hcall'.symm.trans hsome))
    by_cases hqp : q = p
    · subst hqp
      exact habsent rfl hq
    · obtain ⟨hrequest, hget, _⟩ := hothers q hqp
      rw [hget]
      refine h.absent n ?_ q (hrequest ▸ hq)
      rcases hbranch with ⟨rfl, _⟩ | ⟨_, _, _, hnot⟩
      · exact hcall
      · exact nomatch hnot
  case present =>
    intro m left hsome q hq
    obtain ⟨rfl, rfl⟩ := Prod.mk.inj (Option.some.inj (hcall'.symm.trans hsome))
    by_cases hqp : q = p
    · subst hqp
      exact hpresent (fun hnot => nomatch hnot) hq
    · obtain ⟨hrequest, hget, _⟩ := hothers q hqp
      rw [hget]
      rcases hbranch with ⟨_, hnot⟩ | ⟨left', _, rfl, _⟩
      · exact nomatch hnot
      · exact h.present n left' hcall q (hrequest ▸ hq)
  case awaited =>
    intro htrue q hq hremote
    by_cases hqp : q = p
    · subst hqp
      exact hawaited hremote
    · obtain ⟨hrequest, hget, hrest⟩ := hothers q hqp
      have hold := h.awaited (hfirst ▸ htrue) q hq (hrest ▸ hremote)
      rw [Awaited] at hold ⊢
      rw [hrequest, hget]
      exact hold
  case served =>
    intro m f hsome hall q hq hasked
    obtain ⟨rfl, rfl⟩ := Prod.mk.inj (Option.some.inj (hcall'.symm.trans hsome))
    obtain ⟨hall, hlocal⟩ := hserved hall
    by_cases hqp : q = p
    · subst hqp
      exact hlocal hasked
    · obtain ⟨hrequest, _, hrest⟩ := hothers q hqp
      rw [hrest]
      exact h.served n fetch hcall hall q hq (hrequest ▸ hasked)

variable [DecidableEq P]

theorem FetchInv.fetchFirst (h : FetchInv cfg s) (hfirst : s.first = false)
    (n : Nat) : FetchInv cfg (fetchFirst cfg s n) where
  strangers p hp := ⟨(h.strangers p hp).1, if_neg hp⟩
  quiet hquiet := nomatch hquiet n .first rfl
  fresh hfresh := nomatch hfresh
  absent _ _ p _ := (h.fresh hfirst).2 p
  present _ _ hcall := nomatch hcall
  awaited _ p hp _ := by
    have : (Documents.fetchFirst cfg s n).requests p = .asked n := if_pos hp
    rw [Awaited, this]
    trivial
  served _ _ _ _ p hp hasked := absurd (if_pos hp) (hasked n)

omit [DecidableEq P] in
/-- The peers that are asked are those with a short buffer that said to keep
more; the others have nothing left, or they count for `resultsLeft`. -/
theorem FetchInv.fetchLater (h : FetchInv cfg s) (hfirst : s.first = true)
    (hcall : s.call = none) (n : Nat) : FetchInv cfg (fetchLater s n) := by
  have hidle : ∀ p, s.requests p = .none :=
    h.quiet (fun _ _ hsome => nomatch hcall ▸ hsome)
  have hrequest : ∀ p, (Documents.fetchLater s n).requests p ≠ .none →
      ∃ b, s.peerBufferMap.get p = some b ∧ b.buffer.length < n ∧
        b.kept ≠ 0 := by
    intro p hp
    simp only [Documents.fetchLater] at hp
    split at hp
    · rename_i b hb
      split at hp
      · rename_i hshort
        exact ⟨b, hb, hshort⟩
      · exact absurd rfl hp
    · exact absurd rfl hp
  have hkeep : ∀ p b, s.peerBufferMap.get p = some b → b.kept ≠ 0 →
      (Documents.fetchLater s n).peerBufferMap.get p = some b := by
    intro p b hb hkept
    simp [Documents.fetchLater, hb, hkept]
  have hheld : ∀ p ∈ cfg.peers, s.remote p ≠ [] →
      ∃ b, s.peerBufferMap.get p = some b ∧ 0 < b.kept := by
    intro p hp hremote
    have hawaited := h.awaited hfirst p hp hremote
    rw [Awaited, hidle p] at hawaited
    exact hawaited
  refine
    { strangers := ?strangers, quiet := ?quiet, fresh := ?fresh
      absent := ?absent, present := ?present, awaited := ?awaited
      served := ?served }
  case strangers =>
    intro p hp
    simp [Documents.fetchLater, (h.strangers p hp).1]
  case quiet =>
    intro hquiet
    exact nomatch hquiet n _ rfl
  case fresh =>
    intro hfresh
    exact nomatch hfirst ▸ hfresh
  case absent =>
    intro m hsome
    simp [Documents.fetchLater] at hsome
  case present =>
    intro m resultsLeft _ p hp
    obtain ⟨b, hb, _, hkept⟩ := hrequest p hp
    exact ⟨b, hkeep p b hb hkept, by omega⟩
  case awaited =>
    intro _ p hp hremote
    obtain ⟨b, hb, hkept⟩ := hheld p hp hremote
    by_cases hshort : b.buffer.length < n
    · have : (Documents.fetchLater s n).requests p =
          .asked (n - b.buffer.length) := by
        simp [Documents.fetchLater, hb, hshort, Nat.ne_of_gt hkept]
      rw [Awaited, this]
      trivial
    · have : (Documents.fetchLater s n).requests p = .none := by
        simp [Documents.fetchLater, hb, hshort]
      rw [Awaited, this]
      exact ⟨b, hkeep p b hb (by omega), hkept⟩
  case served =>
    intro m fetch hsome hall p hp hasked
    by_contra hremote
    obtain ⟨b, hb, hkept⟩ := hheld p hp hremote
    by_cases hshort : b.buffer.length < n
    · refine hasked (n - b.buffer.length) ?_
      simp [Documents.fetchLater, hb, hshort, Nat.ne_of_gt hkept]
    · obtain ⟨_, rfl⟩ := Prod.mk.inj (Option.some.inj hsome)
      have hsum := of_decide_eq_true (Option.some.inj hall)
      have hmem : b.kept ∈ (s.peerBufferMap.entries.filter
          (fun e => n ≤ e.2.buffer.length)).map (fun e => e.2.kept) := by
        refine List.mem_map.mpr ⟨(p, b), List.mem_filter.mpr
          ⟨Lib.InsertionMap.mem_entries.mpr hb, ?_⟩, rfl⟩
        exact decide_eq_true (Nat.le_of_not_lt hshort)
      have hzero := List.sum_eq_zero_iff_forall_eq_nat.mp hsum b.kept hmem
      omega

section Responses

variable {p : P} {amount size kept : Nat}

omit [DecidableEq P] in
/-- Nothing is left when a peer says to keep nothing, or sends an empty page
without keeping anything. -/
theorem drop_eq_nil_of_kept
    (hkept : ((s.remote p).drop size).length ≤ kept) (hzero : kept = 0) :
    (s.remote p).drop size = [] := by
  rw [hzero, Nat.le_zero] at hkept
  exact List.length_eq_zero_iff.mp hkept

omit [DecidableEq P] in
theorem drop_of_take_nil {l : List D} (h : l.take size = []) :
    l.drop size = l := by
  conv_rhs => rw [← List.take_append_drop size l, h, List.nil_append]

theorem served_self :
    (s.served p size).remote p = (s.remote p).drop size :=
  Function.update_self ..

theorem FetchInv.firstResponse (h : FetchInv cfg s) {n : Nat}
    (hcall : s.call = some (n, .first)) (hp : s.requests p = .asked amount)
    (hkept : ((s.remote p).drop size).length ≤ kept)
    (hclean : (s.remote p).take size = [] → s.remote p ≠ [] →
      p ≠ cfg.self) :
    FetchInv cfg
      (firstResponse cfg (s.served p size) p kept
        ((s.remote p).take size)) := by
  have hasked : s.requests p ≠ .none := by simp [hp]
  unfold Documents.firstResponse
  split
  · rename_i hempty
    have hnil : (s.remote p).take size = [] := List.isEmpty_iff.mp hempty.1
    have hdone : (s.remote p).drop size = [] := by
      rcases hempty.2 with hzero | hself
      · exact drop_eq_nil_of_kept hkept hzero
      · rw [drop_of_take_nil hnil]
        by_contra hleft
        exact hclean hnil hleft hself
    refine h.of_local hasked hcall hcall (.inl ⟨rfl, rfl⟩) rfl
      (fun q hq => ⟨?_, rfl, ?_⟩) ?_ ?_ ?_ ?_
    · exact Function.update_of_ne hq ..
    · exact Function.update_of_ne hq ..
    · intro _ hnot
      exact absurd (Function.update_self ..) hnot
    · intro hnot
      exact absurd rfl hnot
    · intro hleft
      exact absurd (served_self.trans hdone) hleft
    · intro hall
      exact ⟨hall, fun _ => served_self.trans hdone⟩
  · refine h.of_local hasked hcall hcall (.inl ⟨rfl, rfl⟩) rfl
      (fun q hq => ⟨?_, rfl, ?_⟩) ?_ ?_ ?_ ?_
    · exact Function.update_of_ne hq ..
    · exact Function.update_of_ne hq ..
    · intro _ _
      exact h.absent n hcall p hasked
    · intro hnot
      exact absurd rfl hnot
    · intro hleft
      rw [Awaited]
      simp only [Function.update_self]
      by_contra hzero
      refine hleft (served_self.trans ?_)
      exact drop_eq_nil_of_kept hkept (by omega)
    · intro hall
      simp only [fetchedAll] at hall
      split at hall
      · exact nomatch hall
      · rename_i hzero
        refine ⟨hall, fun _ => served_self.trans ?_⟩
        exact drop_eq_nil_of_kept hkept (by omega)

theorem get_dropEmpty_of_ne {m : Lib.InsertionMap P (PeerBuffer D)} {q : P}
    (hq : q ≠ p) : (dropEmpty m p).get q = m.get q := by
  unfold dropEmpty
  split
  · split
    · exact m.get_delete_of_ne hq
    · rfl
  · rfl

theorem dropEmpty_of_buffer {m : Lib.InsertionMap P (PeerBuffer D)}
    (h : bufferOf m p ≠ []) : dropEmpty m p = m := by
  unfold dropEmpty
  split
  · rename_i b hb
    rw [bufferOf_of_get hb] at h
    rw [if_neg (by simpa using h)]
  · rfl

theorem FetchInv.laterResponse (h : FetchInv cfg s) {n left : Nat}
    (hcall : s.call = some (n, .later left))
    (hp : s.requests p = .asked amount)
    (hkept : ((s.remote p).drop size).length ≤ kept)
    (hclean : (s.remote p).take size = [] → s.remote p ≠ [] →
      bufferOf s.peerBufferMap p ≠ []) :
    FetchInv cfg
      (laterResponse (s.served p size) n left p kept
        ((s.remote p).take size)) := by
  have hasked : s.requests p ≠ .none := by simp [hp]
  have hbranch : ∀ left', Fetch.later left = .first ∧ Fetch.later left' = .first ∨
      ∃ l l', Fetch.later left = .later l ∧ Fetch.later left' = .later l' :=
    fun _ => .inr ⟨_, _, rfl, rfl⟩
  have hserved : ∀ s' : IterateState P D K,
      fetchedAll s' (.later (left + kept)) = some true →
        fetchedAll s (.later left) = some true ∧
          (s.remote p).drop size = [] := by
    intro s' hall
    have hsum := of_decide_eq_true (Option.some.inj hall)
    refine ⟨congrArg some (decide_eq_true (by omega)), ?_⟩
    exact drop_eq_nil_of_kept hkept (by omega)
  unfold Documents.laterResponse
  split
  · rename_i hempty
    have hnil : (s.remote p).take size = [] := List.isEmpty_iff.mp hempty
    refine h.of_local hasked hcall rfl (hbranch _) rfl
      (fun q hq => ⟨?_, ?_, ?_⟩) ?_ ?_ ?_ ?_
    · exact Function.update_of_ne hq ..
    · exact get_dropEmpty_of_ne hq
    · exact Function.update_of_ne hq ..
    · intro hnot
      exact nomatch hnot
    · intro _ hnot
      exact absurd (Function.update_self ..) hnot
    · intro hleft
      have hremote : s.remote p ≠ [] := by
        rw [← drop_of_take_nil hnil]
        intro hnot
        exact hleft (served_self.trans hnot)
      rw [Awaited]
      simp only [Function.update_self]
      rw [IterateState.served, dropEmpty_of_buffer (hclean hnil hremote)]
      exact h.present n left hcall p hasked
    · intro hall
      obtain ⟨hold, hnone⟩ := hserved _ hall
      exact ⟨hold, fun _ => served_self.trans hnone⟩
  · refine h.of_local hasked hcall rfl (hbranch _) rfl
      (fun q hq => ⟨?_, rfl, ?_⟩) ?_ ?_ ?_ ?_
    · exact Function.update_of_ne hq ..
    · exact Function.update_of_ne hq ..
    · intro hnot
      exact nomatch hnot
    · intro _ _
      exact h.present n left hcall p hasked
    · intro hleft
      rw [Awaited]
      simp only [Function.update_self]
      by_contra hzero
      refine hleft (served_self.trans ?_)
      exact drop_eq_nil_of_kept hkept (by omega)
    · intro hall
      obtain ⟨hold, hnone⟩ := hserved _ hall
      exact ⟨hold, fun _ => served_self.trans hnone⟩

end Responses

section Results

variable {p : P} {n kept : Nat} {fetch : Fetch} {buffer : List D}

omit [DecidableEq P] in
/-- A peer whose answer is handled was asked by one of the two fetches. -/
theorem FetchInv.branch (h : FetchInv cfg s) (hcall : s.call = some (n, fetch))
    (hp : s.requests p ≠ .none) :
    fetch = .first ∨ ∃ left, fetch = .later left := by
  cases fetch with
  | skipped =>
      refine absurd (h.quiet ?_ p) hp
      intro m f hsome
      obtain ⟨_, rfl⟩ := Prod.mk.inj (Option.some.inj (hcall.symm.trans hsome))
      rfl
  | first => exact .inl rfl
  | later left => exact .inr ⟨left, rfl⟩

/-- Only what is left of an answer, and what is collected of it, changes. -/
theorem FetchInv.answered (h : FetchInv cfg s)
    (hcall : s.call = some (n, fetch)) {results results' buffer' : List D}
    (hp : s.requests p = .answered kept results buffer) {visited : List K} :
    FetchInv cfg
      { s with
        visited := visited
        requests :=
          Function.update s.requests p (.answered kept results' buffer') } := by
  have hrequest : s.requests p ≠ .none := by simp [hp]
  have hfetch := h.branch hcall hrequest
  refine h.of_local hrequest hcall hcall ?_ rfl
    (fun q hq => ⟨Function.update_of_ne hq .., rfl, rfl⟩) ?_ ?_ ?_ ?_
  · rcases hfetch with rfl | ⟨left, rfl⟩
    · exact .inl ⟨rfl, rfl⟩
    · exact .inr ⟨_, _, rfl, rfl⟩
  · rintro rfl _
    exact h.absent n hcall p hrequest
  · intro hne _
    rcases hfetch with rfl | ⟨left, rfl⟩
    · exact absurd rfl hne
    · exact h.present n left hcall p hrequest
  · intro hremote
    have hawaited :=
      h.awaited (h.first_of_call hcall) p (h.mem_peers hrequest) hremote
    rw [Awaited, hp] at hawaited
    rw [Awaited]
    simp only [Function.update_self]
    exact hawaited
  · intro hall
    have hold := fetchedAll_of_done (s := s) hall rfl
    exact ⟨hold, fun _ => h.served n fetch hcall hold p (h.mem_peers hrequest)
      (by simp [hp])⟩

theorem FetchInv.finishPage (h : FetchInv cfg s)
    (hcall : s.call = some (n, fetch))
    (hp : s.requests p = .answered kept [] buffer) :
    FetchInv cfg (finishPage s fetch p kept buffer) := by
  have hrequest : s.requests p ≠ .none := by simp [hp]
  have hbranch := h.branch hcall hrequest
  have hawaited : s.remote p ≠ [] → 0 < kept := by
    intro hremote
    have hawaited :=
      h.awaited (h.first_of_call hcall) p (h.mem_peers hrequest) hremote
    rw [Awaited, hp] at hawaited
    exact hawaited
  -- the entry of the peer is made, or it is there and its number is replaced
  have hentry : ∃ b, (Documents.finishPage s fetch p kept buffer).peerBufferMap.get p
      = some b ∧ b.kept = kept := by
    rcases hbranch with rfl | ⟨left, rfl⟩
    · exact ⟨_, Lib.InsertionMap.get_set_self .., rfl⟩
    · obtain ⟨b, hb, _⟩ := h.present n left hcall p hrequest
      refine ⟨{ kept := kept, buffer := b.buffer ++ buffer }, ?_, rfl⟩
      simp [Documents.finishPage, hb]
  have hnone : (Documents.finishPage s fetch p kept buffer).requests p = .none :=
    Function.update_self ..
  refine h.of_local hrequest hcall hcall ?_ rfl
    (fun q hq => ⟨Function.update_of_ne hq .., ?_, rfl⟩) ?_ ?_ ?_ ?_
  · rcases hbranch with rfl | ⟨left, rfl⟩
    · exact .inl ⟨rfl, rfl⟩
    · exact .inr ⟨_, _, rfl, rfl⟩
  · rcases hbranch with rfl | ⟨left, rfl⟩
    · exact Lib.InsertionMap.get_set_of_ne _ _ hq
    · exact Lib.InsertionMap.get_modify_of_ne _ _ hq
  · intro _ hnot
    exact absurd hnone hnot
  · intro _ hnot
    exact absurd hnone hnot
  · intro hremote
    obtain ⟨b, hb, hkept⟩ := hentry
    rw [Awaited, hnone]
    exact ⟨b, hb, hkept ▸ hawaited hremote⟩
  · intro hall
    have hold := fetchedAll_of_done (s := s) hall rfl
    exact ⟨hold, fun _ => h.served n fetch hcall hold p (h.mem_peers hrequest)
      (by simp [hp])⟩

variable [DecidableEq D] [DecidableEq K]

theorem returnBatch_get (n : Nat) (fetch : Fetch) (p : P) :
    (returnBatch cfg s n fetch).peerBufferMap.get p =
      (s.peerBufferMap.get p).map (fun b =>
        { b with
          buffer :=
            spliced p b.buffer ((sortedResults cfg s.peerBufferMap).take n) }) :=
  get_spliceBatch ..

theorem FetchInv.returnBatch (h : FetchInv cfg s)
    (hcall : s.call = some (n, fetch))
    (hnone : ∀ p, s.requests p = .none) :
    FetchInv cfg (returnBatch cfg s n fetch) where
  strangers p hp := by
    refine ⟨?_, hnone p⟩
    rw [returnBatch_get, (h.strangers p hp).1]
    rfl
  quiet _ := hnone
  fresh hfresh := nomatch (h.first_of_call hcall).symm.trans hfresh
  absent _ hsome := nomatch hsome
  present _ _ hsome := nomatch hsome
  awaited hfirst p hp hremote := by
    have hawaited := h.awaited hfirst p hp hremote
    rw [Awaited, hnone p] at hawaited
    obtain ⟨b, hb, hkept⟩ := hawaited
    have hnone' : (Documents.returnBatch cfg s n fetch).requests p = .none :=
      hnone p
    rw [Awaited, hnone']
    exact ⟨{ b with
      buffer :=
        spliced p b.buffer ((sortedResults cfg s.peerBufferMap).take n) },
      (returnBatch_get n fetch p).trans (by rw [hb]; rfl), hkept⟩
  served _ _ hsome := nomatch hsome

end Results

end Requests

/-! ### What is collected and what is left -/

section Views

variable {cfg : IterateConfig P D K} {s : IterateState P D K} {p : P}

/-- A request that is not answered has collected nothing, and nothing of it is
left. -/
theorem views_of_request {s' : IterateState P D K} {q : P}
    (hbuffer : bufferOf s'.peerBufferMap q = bufferOf s.peerBufferMap q)
    (hremote : (s'.requests q).results ++ s'.remote q =
      (s.requests q).results ++ s.remote q)
    (hcollected : (s'.requests q).buffer = (s.requests q).buffer) :
    collected s' q = collected s q ∧ unserved s' q = unserved s q := by
  refine ⟨?_, hremote⟩
  rw [collected, collected, hbuffer, hcollected]

theorem collected_of_idle (hp : s.requests p = .none) :
    collected s p = bufferOf s.peerBufferMap p := by
  rw [collected, hp]
  exact List.append_nil _

theorem unserved_of_idle (hp : s.requests p = .none) :
    unserved s p = s.remote p := by
  rw [unserved, hp]
  rfl

variable [DecidableEq P]

theorem views_fetchFirst (hidle : ∀ p, s.requests p = .none) (n : Nat) (q : P) :
    collected (fetchFirst cfg s n) q = collected s q ∧
      unserved (fetchFirst cfg s n) q = unserved s q := by
  have hnew : ((fetchFirst cfg s n).requests q).results = [] ∧
      ((fetchFirst cfg s n).requests q).buffer = [] := by
    simp only [fetchFirst]
    split
    · exact ⟨rfl, rfl⟩
    · exact ⟨rfl, rfl⟩
  refine views_of_request rfl ?_ ?_
  · rw [hnew.1, hidle q]
    rfl
  · rw [hnew.2, hidle q]
    rfl

omit [DecidableEq P] in
theorem views_fetchLater (hidle : ∀ p, s.requests p = .none) (n : Nat) (q : P) :
    collected (fetchLater s n) q = collected s q ∧
      unserved (fetchLater s n) q = unserved s q := by
  have hnew : ((fetchLater s n).requests q).results = [] ∧
      ((fetchLater s n).requests q).buffer = [] := by
    simp only [fetchLater]
    split
    · split
      · exact ⟨rfl, rfl⟩
      · exact ⟨rfl, rfl⟩
    · exact ⟨rfl, rfl⟩
  refine views_of_request ?_ ?_ ?_
  · simp only [fetchLater, bufferOf, Lib.InsertionMap.get_filter]
    cases hq : s.peerBufferMap.get q with
    | none => rfl
    | some b =>
        rw [Option.filter_some]
        split
        · rfl
        · rename_i hdropped
          have hempty : b.buffer = [] := by
            by_contra hne
            exact hdropped (by simp [hne])
          simp [hempty]
  · rw [hnew.1, hidle q]
    rfl
  · rw [hnew.2, hidle q]
    rfl

theorem bufferOf_dropEmpty (m : Lib.InsertionMap P (PeerBuffer D)) (q : P) :
    bufferOf (dropEmpty m p) q = bufferOf m q := by
  by_cases hempty : bufferOf m p = []
  · by_cases hqp : q = p
    · subst hqp
      rw [hempty]
      unfold dropEmpty
      split
      · split
        · rw [bufferOf_of_none (m.get_delete_self q)]
        · exact hempty
      · exact hempty
    · unfold bufferOf
      rw [get_dropEmpty_of_ne hqp]
  · rw [dropEmpty_of_buffer hempty]

/-- The documents of a page were not handled before it came, and are not yet. -/
theorem views_response {s' : IterateState P D K} {amount size : Nat} (kept : Nat)
    (hp : s.requests p = .asked amount)
    (hremote : s'.remote = (s.served p size).remote)
    (hmap : ∀ q, bufferOf s'.peerBufferMap q = bufferOf s.peerBufferMap q)
    (hrequests : (s.remote p).take size = [] ∧
        s'.requests = Function.update s.requests p .none ∨
      s'.requests = Function.update s.requests p
        (.answered kept ((s.remote p).take size) [])) (q : P) :
    collected s' q = collected s q ∧ unserved s' q = unserved s q := by
  refine views_of_request (hmap q) ?_ ?_
  · rw [hremote]
    by_cases hqp : q = p
    · subst hqp
      rw [served_self, hp]
      rcases hrequests with ⟨hnil, hnew⟩ | hnew
      · rw [hnew, Function.update_self, drop_of_take_nil hnil]
        rfl
      · rw [hnew, Function.update_self]
        exact List.take_append_drop size (s.remote q)
    · have hrest : (s.served p size).remote q = s.remote q :=
        Function.update_of_ne hqp ..
      rw [hrest]
      rcases hrequests with ⟨_, hnew⟩ | hnew
      · rw [hnew, Function.update_of_ne hqp]
      · rw [hnew, Function.update_of_ne hqp]
  · by_cases hqp : q = p
    · subst hqp
      rw [hp]
      rcases hrequests with ⟨_, hnew⟩ | hnew
      · rw [hnew, Function.update_self]
        rfl
      · rw [hnew, Function.update_self]
        rfl
    · rcases hrequests with ⟨_, hnew⟩ | hnew
      · rw [hnew, Function.update_of_ne hqp]
      · rw [hnew, Function.update_of_ne hqp]

theorem views_finishPage (h : FetchInv cfg s) {n kept : Nat} {fetch : Fetch}
    {buffer : List D} (hcall : s.call = some (n, fetch))
    (hp : s.requests p = .answered kept [] buffer) (q : P) :
    collected (finishPage s fetch p kept buffer) q = collected s q ∧
      unserved (finishPage s fetch p kept buffer) q = unserved s q := by
  have hrequest : s.requests p ≠ .none := by simp [hp]
  by_cases hqp : q = p
  · subst hqp
    have hnone : (finishPage s fetch q kept buffer).requests q = .none :=
      Function.update_self ..
    refine ⟨?_, ?_⟩
    · rw [collected, collected, hnone, hp]
      rcases h.branch hcall hrequest with rfl | ⟨left, rfl⟩
      · have hget : (finishPage s .first q kept buffer).peerBufferMap.get q =
            some { kept := kept, buffer := buffer } :=
          Lib.InsertionMap.get_set_self ..
        rw [bufferOf_of_none (h.absent n hcall q hrequest),
          bufferOf_of_get hget]
        exact List.append_nil _
      · obtain ⟨b, hb, _⟩ := h.present n left hcall q hrequest
        have hget : (finishPage s (.later left) q kept buffer).peerBufferMap.get q
            = some { kept := kept, buffer := b.buffer ++ buffer } := by
          simp [finishPage, hb]
        rw [bufferOf_of_get hb, bufferOf_of_get hget]
        exact List.append_nil _
    · rw [unserved, unserved, hnone, hp]
      rfl
  · have hother : (finishPage s fetch p kept buffer).requests q =
        s.requests q := Function.update_of_ne hqp ..
    have hget : (finishPage s fetch p kept buffer).peerBufferMap.get q =
        s.peerBufferMap.get q := by
      rcases h.branch hcall hrequest with rfl | ⟨left, rfl⟩
      · exact Lib.InsertionMap.get_set_of_ne _ _ hqp
      · exact Lib.InsertionMap.get_modify_of_ne _ _ hqp
    refine views_of_request ?_ (by rw [hother]; rfl) (by rw [hother])
    unfold bufferOf
    rw [hget]

end Views

/-! ### What the peers bring -/

section Brings

variable [DecidableEq K] {cfg : IterateConfig P D K}
variable {s s' : IterateState P D K} {n : Nat} {p : P} {left : List D}

theorem mem_brought {k : K} : k ∈ brought cfg s p left ↔
    k ∉ s.returned.map cfg.indexByResolver ∧
      ((∃ d ∈ collected s p, cfg.indexByResolver d = k) ∨
        ∃ d ∈ (cfg.docs p).take ((cfg.docs p).length - left.length),
          latestVersion cfg d ∧ cfg.indexByResolver d = k) := by
  simp only [brought, List.mem_dedup, List.mem_filter, decide_eq_true_eq,
    List.map_append, List.mem_append, List.mem_map, and_assoc]
  exact and_comm

theorem sorts_of_latestVersion {d e : D} (hd : latestVersion cfg d) {q : P}
    (hq : q ∈ cfg.peers) (he : e ∈ cfg.docs q)
    (hkey : cfg.indexByResolver e = cfg.indexByResolver d) : cfg.sorts e d := by
  have h := List.all_eq_true.mp (List.all_eq_true.mp hd q hq) e he
  simpa [hkey] using h

/-- In the course of a call only more is visited and collected. -/
theorem Brings.mono (h : Brings cfg s n p left)
    (hreturned : s'.returned = s.returned)
    (hvisited : ∀ k ∈ s.visited, k ∈ s'.visited)
    (hcollected : collected s p ⊆ collected s' p) :
    Brings cfg s' n p left := by
  rcases h with hold | hmany | hothers
  · exact .inl (fun d hd => hvisited _ (hold d hd))
  · refine .inr (.inl (hmany.trans ?_))
    refine (List.subperm_of_subset (List.nodup_dedup _) ?_).length_le
    intro k hk
    obtain ⟨hnew, hk⟩ := mem_brought.mp hk
    refine mem_brought.mpr ⟨hreturned.symm ▸ hnew, hk.imp_left ?_⟩
    rintro ⟨d, hd, hkey⟩
    exact ⟨d, hcollected hd, hkey⟩
  · exact .inr (.inr (hreturned.symm ▸ hothers))

/-- A peer of whom `n` results are collected need not be asked. -/
theorem brings_of_collected
    (h : MergeInv cfg s.returned s.visited (collected s) (unserved s))
    (hmany : n ≤ (collected s p).length) : Brings cfg s n p left := by
  refine .inr (.inl (hmany.trans ?_))
  rw [← List.length_map cfg.indexByResolver]
  refine (List.subperm_of_subset (h.collected_once p) ?_).length_le
  intro k hk
  obtain ⟨d, hd, rfl⟩ := List.mem_map.mp hk
  refine mem_brought.mpr ⟨?_, .inl ⟨d, hd, rfl⟩⟩
  intro hreturned
  obtain ⟨r, hr, hkey⟩ := List.mem_map.mp hreturned
  exact h.returned_apart r hr p d hd hkey

end Brings

/-! ### The invariant of a run -/

section Invariant

variable {cfg : IterateConfig P D K} {s : IterateState P D K}

theorem MergeInv.of_views {s' : IterateState P D K}
    (h : MergeInv cfg s.returned s.visited (collected s) (unserved s))
    (hreturned : s'.returned = s.returned) (hvisited : s'.visited = s.visited)
    (hviews : ∀ q, collected s' q = collected s q ∧
      unserved s' q = unserved s q) :
    MergeInv cfg s'.returned s'.visited (collected s') (unserved s') := by
  rw [hreturned, hvisited, funext (fun q => (hviews q).1),
    funext (fun q => (hviews q).2)]
  exact h

variable [DecidableEq K]

/-- A peer that `fetchAtLeast` does not ask has nothing left, or its buffer is
long enough. -/
theorem IterateInv.brings_fetchLater (h : IterateInv cfg s)
    (hfirst : s.first = true) (hidle : ∀ p, s.requests p = .none) {n : Nat}
    {p : P} (hp : p ∈ cfg.peers)
    (hasked : ∀ amount, (fetchLater s n).requests p ≠ .asked amount) :
    Brings cfg (fetchLater s n) n p (s.remote p) := by
  by_cases hremote : s.remote p = []
  · exact .inl (fun d hd => absurd (hremote ▸ hd) List.not_mem_nil)
  · have hawaited := h.fetch.awaited hfirst p hp hremote
    rw [Awaited, hidle p] at hawaited
    obtain ⟨b, hb, hkept⟩ := hawaited
    have hlong : n ≤ b.buffer.length := by
      by_contra hshort
      refine hasked (n - b.buffer.length) ?_
      simp [fetchLater, hb, Nat.lt_of_not_le hshort, Nat.ne_of_gt hkept]
    have hcollected : collected s p = b.buffer :=
      (collected_of_idle (hidle p)).trans (bufferOf_of_get hb)
    have hviews := views_fetchLater (s := s) hidle n p
    exact (brings_of_collected h.merge (hcollected ▸ hlong)).mono rfl
      (fun _ hk => hk) (fun d hd => hviews.1.symm ▸ hd)

/-- A step of a fetch that concerns one peer keeps what the others bring. -/
theorem IterateInv.brings_of_local (h : IterateInv cfg s)
    {s' : IterateState P D K} {n : Nat} {fetch fetch' : Fetch} {p : P}
    (hcall : s.call = some (n, fetch)) (hcall' : s'.call = some (n, fetch'))
    (hreturned : s'.returned = s.returned)
    (hvisited : ∀ k ∈ s.visited, k ∈ s'.visited)
    (hcollected : ∀ q, collected s q ⊆ collected s' q)
    (hothers : ∀ q, q ≠ p → s'.requests q = s.requests q ∧
      s'.remote q = s.remote q)
    (hbrings : Brings cfg s n p (s'.remote p)) :
    ∀ m f, s'.call = some (m, f) → ∀ q ∈ cfg.peers,
      (∀ amount, s'.requests q ≠ .asked amount) →
        Brings cfg s' m q (s'.remote q) := by
  intro m f hsome q hq hasked
  obtain ⟨rfl, rfl⟩ := Prod.mk.inj (Option.some.inj (hcall'.symm.trans hsome))
  have hold : Brings cfg s n q (s'.remote q) := by
    by_cases hqp : q = p
    · exact hqp ▸ hbrings
    · obtain ⟨hrequest, hremote⟩ := hothers q hqp
      exact hremote ▸ h.brings n fetch hcall q hq (hrequest ▸ hasked)
  exact hold.mono hreturned hvisited (hcollected q)

theorem IterateInv.brings_of_views (h : IterateInv cfg s)
    {s' : IterateState P D K} {n : Nat} {fetch fetch' : Fetch} {p : P}
    (hcall : s.call = some (n, fetch)) (hcall' : s'.call = some (n, fetch'))
    (hreturned : s'.returned = s.returned) (hvisited : s'.visited = s.visited)
    (hviews : ∀ q, collected s' q = collected s q ∧
      unserved s' q = unserved s q)
    (hothers : ∀ q, q ≠ p → s'.requests q = s.requests q ∧
      s'.remote q = s.remote q)
    (hbrings : Brings cfg s n p (s'.remote p)) :
    ∀ m f, s'.call = some (m, f) → ∀ q ∈ cfg.peers,
      (∀ amount, s'.requests q ≠ .asked amount) →
        Brings cfg s' m q (s'.remote q) :=
  h.brings_of_local hcall hcall' hreturned (fun _ hk => hvisited.symm ▸ hk)
    (fun q _ hd => (hviews q).1.symm ▸ hd) hothers hbrings

variable [DecidableEq P]

theorem IterateInv.next (h : IterateInv cfg s) (hcall : s.call = none)
    (n : Nat) : IterateInv cfg (fetchAtLeast cfg s n) := by
  have hidle : ∀ p, s.requests p = .none :=
    h.fetch.quiet (fun _ _ hsome => nomatch hcall ▸ hsome)
  unfold fetchAtLeast
  split
  · rename_i hdone
    exact
      { merge := h.merge, fetch := h.fetch.skipped hdone.2 hcall n
        brings := fun _ _ _ p hp _ => .inl (fun d hd => by
          have hdocs := h.merge.mem_docs hp
            (List.mem_append_right (s.requests p).results hd)
          exact (h.merge.mem_visited _).mpr
            (.inl (List.mem_map.mp (h.complete hcall hdone.1 p hp d hdocs))))
        complete := fun hnone => nomatch hnone }
  · split
    · rename_i hfirst
      exact
        { merge := h.merge.of_views rfl rfl (views_fetchLater hidle n)
          fetch := h.fetch.fetchLater hfirst hcall n
          brings := by
            intro m fetch hsome p hp hasked
            obtain ⟨rfl, _⟩ := Prod.mk.inj (Option.some.inj hsome)
            exact h.brings_fetchLater hfirst hidle hp hasked
          complete := fun hnone => nomatch hnone }
    · rename_i hfirst
      exact
        { merge := h.merge.of_views rfl rfl (views_fetchFirst hidle n)
          fetch := h.fetch.fetchFirst (Bool.eq_false_iff.mpr hfirst) n
          brings := fun m _ _ p hp hasked =>
            absurd (if_pos hp) (hasked n)
          complete := fun hnone => nomatch hnone }

theorem IterateInv.firstResponse (h : IterateInv cfg s) {p : P}
    {n amount size kept : Nat} (hcall : s.call = some (n, .first))
    (hp : s.requests p = .asked amount)
    (hkept : ((s.remote p).drop size).length ≤ kept)
    (hbrings : Brings cfg s n p ((s.remote p).drop size))
    (hclean : (s.remote p).take size = [] → s.remote p ≠ [] →
      p ≠ cfg.self) :
    IterateInv cfg
      (firstResponse cfg (s.served p size) p kept
        ((s.remote p).take size)) where
  merge := by
    unfold Documents.firstResponse
    split
    · rename_i hempty
      exact h.merge.of_views rfl rfl (views_response kept hp rfl
        (fun _ => rfl) (.inl ⟨List.isEmpty_iff.mp hempty.1, rfl⟩))
    · exact h.merge.of_views rfl rfl
        (views_response kept hp rfl (fun _ => rfl) (.inr rfl))
  fetch := h.fetch.firstResponse hcall hp hkept hclean
  brings := by
    have hserved : (s.served p size).remote p = (s.remote p).drop size := served_self
    have hbrings' := hserved.symm ▸ hbrings
    unfold Documents.firstResponse
    split
    · rename_i hempty
      exact h.brings_of_views hcall hcall rfl rfl
        (views_response kept hp rfl (fun _ => rfl)
          (.inl ⟨List.isEmpty_iff.mp hempty.1, rfl⟩))
        (fun q hq => ⟨Function.update_of_ne hq .., Function.update_of_ne hq ..⟩)
        hbrings'
    · exact h.brings_of_views hcall hcall rfl rfl
        (views_response kept hp rfl (fun _ => rfl)
          (.inr rfl))
        (fun q hq => ⟨Function.update_of_ne hq .., Function.update_of_ne hq ..⟩)
        hbrings'
  complete := by
    intro hnone
    unfold Documents.firstResponse at hnone
    split at hnone
    · exact nomatch hcall.symm.trans hnone
    · exact nomatch hcall.symm.trans hnone

theorem IterateInv.laterResponse (h : IterateInv cfg s) {p : P}
    {n left amount size kept : Nat} (hcall : s.call = some (n, .later left))
    (hp : s.requests p = .asked amount)
    (hkept : ((s.remote p).drop size).length ≤ kept)
    (hbrings : Brings cfg s n p ((s.remote p).drop size))
    (hclean : (s.remote p).take size = [] → s.remote p ≠ [] →
      bufferOf s.peerBufferMap p ≠ []) :
    IterateInv cfg
      (laterResponse (s.served p size) n left p kept
        ((s.remote p).take size)) where
  merge := by
    unfold Documents.laterResponse
    split
    · rename_i hempty
      exact h.merge.of_views rfl rfl (views_response kept hp rfl
        (bufferOf_dropEmpty _) (.inl ⟨List.isEmpty_iff.mp hempty, rfl⟩))
    · exact h.merge.of_views rfl rfl
        (views_response kept hp rfl (fun _ => rfl) (.inr rfl))
  fetch := h.fetch.laterResponse hcall hp hkept hclean
  brings := by
    have hserved : (s.served p size).remote p = (s.remote p).drop size := served_self
    have hbrings' := hserved.symm ▸ hbrings
    unfold Documents.laterResponse
    split
    · rename_i hempty
      exact h.brings_of_views hcall rfl rfl rfl
        (views_response kept hp rfl (bufferOf_dropEmpty _)
          (.inl ⟨List.isEmpty_iff.mp hempty, rfl⟩))
        (fun q hq => ⟨Function.update_of_ne hq .., Function.update_of_ne hq ..⟩)
        hbrings'
    · exact h.brings_of_views hcall rfl rfl rfl
        (views_response kept hp rfl (fun _ => rfl)
          (.inr rfl))
        (fun q hq => ⟨Function.update_of_ne hq .., Function.update_of_ne hq ..⟩)
        hbrings'
  complete := by
    intro hnone
    unfold Documents.laterResponse at hnone
    split at hnone
    · exact nomatch hnone
    · exact nomatch hnone

theorem IterateInv.finish (h : IterateInv cfg s) {p : P} {n kept : Nat}
    {fetch : Fetch} {buffer : List D} (hcall : s.call = some (n, fetch))
    (hp : s.requests p = .answered kept [] buffer) :
    IterateInv cfg (finishPage s fetch p kept buffer) where
  merge := h.merge.of_views rfl rfl (views_finishPage h.fetch hcall hp)
  fetch := h.fetch.finishPage hcall hp
  brings :=
    h.brings_of_views hcall hcall rfl rfl (views_finishPage h.fetch hcall hp)
      (fun q hq => ⟨Function.update_of_ne hq .., rfl⟩)
      (h.brings n fetch hcall p (h.fetch.mem_peers (by simp [hp]))
        (by simp [hp]))
  complete hnone := nomatch hcall.symm.trans hnone

theorem IterateInv.take (h : IterateInv cfg s) {p : P} {n kept : Nat}
    {fetch : Fetch} {result : D} {results buffer : List D}
    (hcall : s.call = some (n, fetch))
    (hp : s.requests p = .answered kept (result :: results) buffer) :
    IterateInv cfg (takeResult cfg s p kept result results buffer) := by
  have hrest : unserved s p = result :: (results ++ s.remote p) := by
    rw [unserved, hp]
    rfl
  have hpeer : p ∈ cfg.peers := h.fetch.mem_peers (by simp [hp])
  have hleft : ∀ (visited : List K) (buffer' : List D),
      unserved { s with
        visited := visited
        requests :=
          Function.update s.requests p (.answered kept results buffer') } =
        Function.update (unserved s) p (results ++ s.remote p) := by
    intro visited buffer'
    funext q
    by_cases hqp : q = p
    · subst hqp
      simp [unserved, PeerRequest.results]
    · simp [unserved, hqp]
  have hbrings := h.brings n fetch hcall p hpeer (by simp [hp])
  unfold takeResult
  split
  · rename_i hvisited
    have hsame : collected { s with
        requests :=
          Function.update s.requests p (.answered kept results buffer) } =
        collected s := by
      funext q
      by_cases hqp : q = p
      · subst hqp
        simp [collected, hp, PeerRequest.buffer]
      · simp [collected, hqp]
    exact
      { merge := by
          rw [hsame, hleft s.visited buffer]
          exact h.merge.take_visited hrest hvisited
        fetch := h.fetch.answered hcall hp
        brings := h.brings_of_local hcall hcall rfl (fun _ hk => hk)
          (fun q d => (congrArg (d ∈ ·) (congrFun hsame q)).mpr)
          (fun q hq => ⟨Function.update_of_ne hq .., rfl⟩) hbrings
        complete := fun hnone => nomatch hcall.symm.trans hnone }
  · rename_i hnew
    have hmore : collected { s with
        visited := cfg.indexByResolver result :: s.visited
        requests :=
          Function.update s.requests p
            (.answered kept results (buffer ++ [result])) } =
        Function.update (collected s) p (collected s p ++ [result]) := by
      funext q
      by_cases hqp : q = p
      · subst hqp
        simp [collected, hp, PeerRequest.buffer]
      · simp [collected, hqp]
    have hgrows : ∀ q, collected s q ⊆
        Function.update (collected s) p (collected s p ++ [result]) q := by
      intro q
      by_cases hqp : q = p
      · subst hqp
        rw [Function.update_self]
        exact List.subset_append_left ..
      · rw [Function.update_of_ne hqp]
        exact List.Subset.refl _
    exact
      { merge := by
          rw [hmore, hleft]
          exact h.merge.take_new hpeer hrest hnew
        fetch := h.fetch.answered hcall hp
        brings := h.brings_of_local hcall hcall rfl
          (fun _ hk => List.mem_cons_of_mem _ hk)
          (fun q d hd => (congrArg (d ∈ ·) (congrFun hmore q)).mpr (hgrows q hd))
          (fun q hq => ⟨Function.update_of_ne hq .., rfl⟩) hbrings
        complete := fun hnone => nomatch hcall.symm.trans hnone }

omit [DecidableEq P] in
/-- What is collected of a peer sorts before what it has left. -/
theorem IterateInv.sorts_collected (h : IterateInv cfg s) {p : P}
    (hp : p ∈ cfg.peers) {e d : D} (he : e ∈ collected s p)
    (hd : d ∈ unserved s p) : cfg.sorts e d := by
  have hsorted := (cfg.sorted p hp).sublist (h.merge.sublist p hp)
  exact (List.pairwise_append.mp hsorted).2.2 e he d hd

omit [DecidableEq P] in
/-- For each document that a peer has brought there is a result in some buffer,
which sorts before all that the peer has left. -/
theorem IterateInv.sorts_brought (h : IterateInv cfg s)
    (hnone : ∀ p, s.requests p = .none) {p : P} (hp : p ∈ cfg.peers) {k : K}
    (hk : k ∈ brought cfg s p (s.remote p)) {d : D} (hd : d ∈ s.remote p) :
    ∃ r ∈ peerBuffers s.peerBufferMap,
      cfg.sorts r.2 d ∧ cfg.indexByResolver r.2 = k := by
  have hd' : d ∈ unserved s p := (unserved_of_idle (hnone p)).symm ▸ hd
  have hmem : ∀ q e, e ∈ collected s q → (q, e) ∈ peerBuffers s.peerBufferMap :=
    fun q e he => mem_peerBuffers.mpr (collected_of_idle (hnone q) ▸ he)
  obtain ⟨hnew, hk⟩ := mem_brought.mp hk
  rcases hk with ⟨e, he, hkey⟩ | ⟨x, hx, hlatest, hkey⟩
  · exact ⟨(p, e), hmem p e he, h.sorts_collected hp he hd', hkey⟩
  · -- the served document was visited, so that a version of it is collected
    obtain ⟨before, hdocs, hvisited⟩ := h.merge.handled p hp
    rw [unserved_of_idle (hnone p)] at hdocs
    have hserved : (cfg.docs p).take
        ((cfg.docs p).length - (s.remote p).length) = before := by
      rw [← hdocs, List.length_append, Nat.add_sub_cancel]
      exact List.take_left
    rw [hserved] at hx
    have hxd : cfg.sorts x d := by
      have hsorted := cfg.sorted p hp
      rw [← hdocs] at hsorted
      exact (List.pairwise_append.mp hsorted).2.2 x hx d hd
    rcases (h.merge.mem_visited k).mp (hkey ▸ hvisited x hx) with
      hreturned | ⟨q, e, he, hek⟩
    · exact absurd (List.mem_map.mpr hreturned) hnew
    · have hq : q ∈ cfg.peers := by
        by_contra hstranger
        rw [collected_of_idle (hnone q),
          bufferOf_of_none (h.fetch.strangers q hstranger).1] at he
        exact absurd he List.not_mem_nil
      have hed := (h.merge.sublist q hq).subset (List.mem_append_left _ he)
      have hex := sorts_of_latestVersion hlatest hq hed (hek.trans hkey.symm)
      exact ⟨(q, e), hmem q e he, cfg.sorts_trans e x d hex hxd, hek⟩

omit [DecidableEq P] in
/-- No result of a batch sorts after a new document that a peer has left. -/
theorem IterateInv.sorts_batch (h : IterateInv cfg s) {n : Nat} {fetch : Fetch}
    (hcall : s.call = some (n, fetch)) (hnone : ∀ p, s.requests p = .none)
    {r : P × D} (hr : r ∈ (sortedResults cfg s.peerBufferMap).take n) {p : P}
    (hp : p ∈ cfg.peers) {d : D} (hd : d ∈ s.remote p)
    (hnew : cfg.indexByResolver d ∉ s.visited) : cfg.sorts r.2 d := by
  rcases h.brings n fetch hcall p hp (by simp [hnone p]) with
    hold | hmany | hothers
  · exact absurd (hold d hd) hnew
  · refine sorts_take_of_count cfg _ ((min_le_left ..).trans ?_) hr
    have hsubset : brought cfg s p (s.remote p) ⊆
        ((peerBuffers s.peerBufferMap).filter (fun r => cfg.sorts r.2 d)).map
          (fun r => cfg.indexByResolver r.2) := by
      intro k hk
      obtain ⟨r, hr, hsorts, hkey⟩ := h.sorts_brought hnone hp hk hd
      exact List.mem_map.mpr ⟨r, List.mem_filter.mpr ⟨hr, hsorts⟩, hkey⟩
    have hcount := (List.subperm_of_subset (List.nodup_dedup _) hsubset).length_le
    rw [List.length_map] at hcount
    exact hmany.trans hcount
  · obtain ⟨q, e⟩ := r
    have he : e ∈ collected s q := by
      rw [collected_of_idle (hnone q), ← mem_peerBuffers,
        ← (perm_sortedResults cfg s.peerBufferMap).mem_iff]
      exact List.mem_of_mem_take hr
    by_cases hqp : q = p
    · subst hqp
      exact h.sorts_collected hp he ((unserved_of_idle (hnone q)).symm ▸ hd)
    · have hq : q ∈ cfg.peers := by
        by_contra hstranger
        rw [collected_of_idle (hnone q),
          bufferOf_of_none (h.fetch.strangers q hstranger).1] at he
        exact absurd he List.not_mem_nil
      have hed := (h.merge.sublist q hq).subset (List.mem_append_left _ he)
      rcases hothers q hq hqp e hed with hreturned | hbefore
      · obtain ⟨r, hr, hkey⟩ := List.mem_map.mp hreturned
        exact absurd hkey (h.merge.returned_apart r hr q e he)
      · exact hbefore d hd

variable [DecidableEq D]

/-- A batch is returned.  When the fetch has left nothing and the batch is all
that was collected, every document is returned. -/
theorem IterateInv.return_ (h : IterateInv cfg s) {n : Nat} {fetch : Fetch}
    (hcall : s.call = some (n, fetch)) (hnone : ∀ p, s.requests p = .none) :
    IterateInv cfg (returnBatch cfg s n fetch) := by
  have hcollected : ∀ p, collected s p = bufferOf s.peerBufferMap p :=
    fun p => collected_of_idle (hnone p)
  have hleft : ∀ p, unserved s p = s.remote p :=
    fun p => unserved_of_idle (hnone p)
  have hresults : ∀ p d, (p, d) ∈ sortedResults cfg s.peerBufferMap ↔
      d ∈ bufferOf s.peerBufferMap p := by
    intro p d
    rw [(perm_sortedResults cfg s.peerBufferMap).mem_iff, mem_peerBuffers]
  have honce : ((sortedResults cfg s.peerBufferMap).map
      (fun r => cfg.indexByResolver r.2)).Nodup := by
    rw [((perm_sortedResults cfg s.peerBufferMap).map _).nodup_iff]
    refine nodup_peerBuffers ?_ ?_
    · intro p
      rw [← hcollected]
      exact h.merge.collected_once p
    · intro p q
      rw [← hcollected, ← hcollected]
      exact h.merge.collected_apart p q
  have hbuffer : ∀ p, (bufferOf s.peerBufferMap p).Nodup := by
    intro p
    rw [← hcollected]
    exact List.Nodup.of_map _ (h.merge.collected_once p)
  generalize hbatch : (sortedResults cfg s.peerBufferMap).take n = batch
  have htaken : ∀ r ∈ batch, r ∈ sortedResults cfg s.peerBufferMap := by
    intro r hr
    exact List.mem_of_mem_take (hbatch ▸ hr)
  have hbatchOnce : (batch.map (fun r => cfg.indexByResolver r.2)).Nodup := by
    rw [← hbatch]
    exact ((List.take_sublist n _).map _).nodup honce
  have hdedup : dedup cfg.indexByResolver (batch.map (fun r => r.2)) =
      batch.map (fun r => r.2) :=
    dedup_of_nodup (by rw [List.map_map]; exact hbatchOnce)
  have hcollected' : ∀ p, collected (returnBatch cfg s n fetch) p =
      spliced p (bufferOf s.peerBufferMap p) batch := by
    intro p
    rw [← hbatch, ← bufferOf_spliceBatch]
    change _ ++ (s.requests p).buffer = _
    rw [hnone p]
    exact List.append_nil _
  have hstays : ∀ p d, d ∈ spliced p (bufferOf s.peerBufferMap p) batch →
      (p, d) ∈ (sortedResults cfg s.peerBufferMap).drop n := by
    intro p d hd
    rw [mem_spliced (hbuffer p)] at hd
    have hmem := (hresults p d).mpr hd.1
    rw [← List.take_append_drop n (sortedResults cfg s.peerBufferMap), hbatch,
      List.mem_append] at hmem
    exact hmem.resolve_left hd.2
  refine
    { merge := ?merge, fetch := h.fetch.returnBatch hcall hnone
      brings := fun _ _ hsome => nomatch hsome
      complete := ?complete }
  case merge =>
    have hreturned : (returnBatch cfg s n fetch).returned =
        s.returned ++ batch.map (fun r => r.2) := by
      rw [← hdedup, ← hbatch]
      rfl
    rw [hreturned, funext hcollected']
    refine h.merge.return_batch ?_ ?_ ?_ hbatchOnce ?_ ?_ ?_
    · intro p d hd
      rw [hcollected, mem_spliced (hbuffer p)]
      exact ⟨(hresults p d).mp (htaken _ hd), fun hnot => hnot.2 hd⟩
    · intro p
      rw [hcollected]
      exact spliced_sublist ..
    · intro p d hd
      rw [hcollected] at hd
      rw [mem_spliced (hbuffer p)]
      by_cases hmem : (p, d) ∈ batch
      · exact .inr hmem
      · exact .inl ⟨hd, hmem⟩
    · rw [← hbatch]
      exact (pairwise_sortedResults cfg s.peerBufferMap).sublist
        (List.take_sublist ..)
    · intro r hr p d hd
      exact sorts_take_drop cfg _ (hbatch ▸ hr) (hstays p d hd)
    · intro r hr p hp d hd hnew
      rw [hleft] at hd
      exact h.sorts_batch hcall hnone (hbatch ▸ hr) hp hd hnew
  case complete =>
    intro _ hdone p hp d hd
    obtain ⟨all, hall, hpending⟩ := Option.map_eq_some_iff.mp hdone
    rw [Bool.and_eq_true, Bool.not_eq_true', decide_eq_false_iff_not] at hpending
    obtain ⟨rfl, hlength⟩ := hpending
    have hremote := h.fetch.served n fetch hcall hall p hp
      (by simp [hnone p])
    rcases h.merge.seen hp hd with hvisited | hnot
    · rcases (h.merge.mem_visited _).mp hvisited with ⟨r, hr, heq⟩ | ⟨q, e, he, heq⟩
      · refine List.mem_map.mpr ⟨r, List.mem_append_left _ hr, heq⟩
      · -- the batch is all that was collected
        have hall : batch = sortedResults cfg s.peerBufferMap := by
          rw [← hbatch]
          exact List.take_of_length_le (by omega)
        rw [hcollected] at he
        refine List.mem_map.mpr ⟨e, List.mem_append_right _ ?_, heq⟩
        rw [hbatch, hdedup]
        exact List.mem_map.mpr ⟨(q, e), hall ▸ (hresults q e).mpr he, rfl⟩
    · rw [hleft, hremote] at hnot
      exact absurd hnot List.not_mem_nil

theorem iterateInv_step {a : IterateAction P} {s' : IterateState P D K}
    (h : IterateInv cfg s) (hclean : IterateClean cfg s a)
    (hstep : iterateStep cfg s a = some s') : IterateInv cfg s' := by
  cases a with
  | next n =>
      obtain ⟨⟨hcall, _⟩, hs⟩ := Option.ite_none_right_eq_some.mp hstep
      exact Option.some.inj hs ▸ h.next hcall n
  | respond p size kept =>
      simp only [iterateStep] at hstep
      split at hstep
      · rename_i amount hp
        obtain ⟨⟨_, hkept⟩, hpage⟩ := Option.ite_none_right_eq_some.mp hstep
        split at hpage
        · rename_i n hcall
          obtain ⟨hbrings, hempty⟩ := hclean n .first hcall
          refine Option.some.inj hpage ▸
            h.firstResponse hcall hp hkept hbrings ?_
          intro hnil hleft
          rcases hempty hnil hleft with ⟨_, hself⟩ | hbuffer
          · exact hself
          · have habsent := h.fetch.absent n hcall p (by simp [hp])
            exact absurd (bufferOf_of_none habsent) hbuffer
        · rename_i n left hcall
          obtain ⟨hbrings, hempty⟩ := hclean n _ hcall
          refine Option.some.inj hpage ▸
            h.laterResponse hcall hp hkept hbrings ?_
          intro hnil hleft
          exact (hempty hnil hleft).resolve_left (fun hnot => nomatch hnot.1)
        · exact nomatch hpage
      · exact nomatch hstep
  | take p =>
      simp only [iterateStep] at hstep
      split at hstep
      · rename_i kept result results buffer hp
        obtain ⟨⟨n, fetch⟩, hcall⟩ : ∃ c, s.call = some c := by
          by_contra hnone
          have hidle := h.fetch.quiet
            (fun n fetch hsome => absurd ⟨_, hsome⟩ hnone) p
          exact nomatch hp.symm.trans hidle
        exact Option.some.inj hstep ▸ h.take hcall hp
      · exact nomatch hstep
  | finish p =>
      simp only [iterateStep] at hstep
      split at hstep
      · rename_i hp hcall
        exact Option.some.inj hstep ▸ h.finish hcall hp
      · exact nomatch hstep
  | return_ =>
      simp only [iterateStep] at hstep
      split at hstep
      · rename_i n fetch hcall
        obtain ⟨hanswered, hs⟩ := Option.ite_none_right_eq_some.mp hstep
        have hnone : ∀ p, s.requests p = .none := by
          intro p
          by_cases hp : p ∈ cfg.peers
          · have hmatch := hanswered p hp
            cases hrequest : s.requests p with
            | none => rfl
            | asked amount => simp [hrequest] at hmatch
            | answered kept results buffer => simp [hrequest] at hmatch
          · exact (h.fetch.strangers p hp).2
        exact Option.some.inj hs ▸ h.return_ hcall hnone
      · exact nomatch hstep

end Invariant

/-- In a run whose steps are clean the iteration is a lossless merge. -/
theorem losslessMerge_of_cleanRun [DecidableEq P] [DecidableEq D]
    [DecidableEq K] {cfg : IterateConfig P D K} {s : IterateState P D K}
    (hrun : (iterateMachine cfg).Run (IterateClean cfg) s) :
    LosslessMerge cfg s := by
  have hinv : IterateInv cfg s :=
    hrun.invariant (iterateInv_init cfg)
      (fun _ _ _ hinv hclean hstep => iterateInv_step hinv hclean hstep)
  exact ⟨hinv.merge.returned_sorted, hinv.merge.returned_once, hinv.complete⟩

/-! ### An empty page -/

/-- Peers that serve numbers in their order. -/
def numbers (peers : List Nat) (docs : Nat → List Nat)
    (sorted : ∀ p ∈ peers, (docs p).Pairwise (fun a b => a ≤ b)) :
    IterateConfig Nat Nat Nat where
  peers := peers
  self := 0
  docs := docs
  indexByResolver d := d
  sorts a b := a ≤ b
  sorts_total a b := by simpa using Nat.le_total a b
  sorts_trans a b c := by simpa using Nat.le_trans
  sorted p hp := by simpa using sorted p hp

namespace EmptyPage

def cfg : IterateConfig Nat Nat Nat :=
  numbers [1] (fun _ => [1, 2]) (by decide)

def actions : List (IterateAction Nat) :=
  [.next 1, .respond 1 1 1, .take 1, .finish 1, .return_,
    .next 1, .respond 1 0 1, .return_, .next 1, .return_]

def state : IterateState Nat Nat Nat :=
  ((iterateMachine cfg).exec (iterateMachine cfg).init actions).getD
    (iterateMachine cfg).init

/-- The peer keeps a document, but its second page is empty; its buffer is
dropped, and the iterator is done. -/
theorem not_losslessMerge :
    (iterateMachine cfg).Run Lib.Machine.Free state ∧
      ¬ LosslessMerge cfg state := by
  refine ⟨.of_exec .init actions rfl, fun h => ?_⟩
  have hmem := h.complete rfl rfl 1 (by decide) 2 (by decide)
  exact absurd hmem (by decide)

end EmptyPage

namespace SharedDocument

def cfg : IterateConfig Nat Nat Nat :=
  numbers [1, 2] (fun p => if p = 1 then [1, 3, 4] else [1, 2, 5]) (by decide)

def actions : List (IterateAction Nat) :=
  [.next 2, .respond 1 2 1, .respond 2 2 1, .take 1, .take 2, .take 2, .take 1,
    .finish 2, .finish 1, .return_, .next 2, .respond 2 1 0, .respond 1 1 0,
    .take 2, .finish 2, .take 1, .finish 1, .return_, .next 2, .return_]

def state (n : Nat) : IterateState Nat Nat Nat :=
  ((iterateMachine cfg).exec (iterateMachine cfg).init (actions.take n)).getD
    (iterateMachine cfg).init

/-- A document of both peers is returned once, and counts for both as one of
the two that they bring at first. -/
theorem losslessMerge_both :
    (state 20).returned = [1, 2, 3, 4, 5] ∧ (state 20).done = some true ∧
      LosslessMerge cfg (state 20) := by
  have hfirst : (iterateMachine cfg).Run (IterateClean cfg) (state 3) := by
    refine .step (a := .respond 2 2 1) (.step (a := .respond 1 2 1)
      (.step (a := .next 2) .init trivial rfl) ?_ rfl) ?_ rfl
    · rintro n fetch ⟨⟩
      exact ⟨.inr (.inl (by decide)), fun hnil => nomatch hnil⟩
    · rintro n fetch ⟨⟩
      exact ⟨.inr (.inl (by decide)), fun hnil => nomatch hnil⟩
  have htaken : (iterateMachine cfg).Run (IterateClean cfg) (state 11) :=
    .step (a := .next 2)
      (.step (a := .return_)
        (.step (a := .finish 1)
          (.step (a := .finish 2)
            (.step (a := .take 1)
              (.step (a := .take 2)
                (.step (a := .take 2)
                  (.step (a := .take 1) hfirst trivial rfl)
                  trivial rfl)
                trivial rfl)
              trivial rfl)
            trivial rfl)
          trivial rfl)
        trivial rfl)
      trivial rfl
  have hlast : (iterateMachine cfg).Run (IterateClean cfg) (state 13) := by
    refine .step (a := .respond 1 1 0)
      (.step (a := .respond 2 1 0) htaken ?_ rfl) ?_ rfl
    · rintro n fetch ⟨⟩
      exact ⟨.inl (fun d hd => nomatch hd), fun hnil => nomatch hnil⟩
    · rintro n fetch ⟨⟩
      exact ⟨.inl (fun d hd => nomatch hd), fun hnil => nomatch hnil⟩
  have hrun : (iterateMachine cfg).Run (IterateClean cfg) (state 20) :=
    .step (a := .return_)
      (.step (a := .next 2)
        (.step (a := .return_)
          (.step (a := .finish 1)
            (.step (a := .take 1)
              (.step (a := .finish 2)
                (.step (a := .take 2) hlast trivial rfl)
                trivial rfl)
              trivial rfl)
            trivial rfl)
          trivial rfl)
        trivial rfl)
      trivial rfl
  exact ⟨rfl, rfl, losslessMerge_of_cleanRun hrun⟩

end SharedDocument

end Documents
end Peerbit
