import Peerbit.Blocks.BlockReads

/-!
# What a failed read leaves behind

A read whose creator ends normally is taken out of the table, also when it timed
out.  A read that is aborted is not, nor one whose request could not be
published: every later call joins it, and sends no request.
-/

namespace Peerbit
namespace Blocks

universe u v

variable {β : Type u} {ι : Type v}

/-! ### Runs that leave the table clean -/

/-- No signal of a pending read fires, and requests are published. -/
def KeepsClean (s : BlocksState β ι) : BlocksAction β ι → Prop
  | .abort read => s.outcome read ≠ some none
  | .publishFailed _ => False
  | _ => True

/-- The read in the table has a creator that has not ended; no read is aborted. -/
structure CleanInv (s : BlocksState β ι) : Prop where
  owner : ∀ read, s.readFromPeersPromises = some read →
    ∃ call, s.owned call = some read
  resolved : ∀ read, s.outcome read ≠ some (some .rejected)

def AllEnded (s : BlocksState β ι) : Prop :=
  ∀ (call : Nat) (now : Call β ι), s.calls[call]? = some now → now.ended = true

theorem CleanInv.table_eq_none {s : BlocksState β ι} (h : CleanInv s)
    (hended : AllEnded s) : s.readFromPeersPromises = none := by
  cases htable : s.readFromPeersPromises with
  | none => rfl
  | some read =>
      obtain ⟨call, howned⟩ := h.owner read htable
      obtain ⟨now, hnow, hread⟩ := Option.bind_eq_some_iff.mp howned
      have := hended call now hnow
      cases now with
      | returned | thrown => cases hread
      | _ => cases this

section Moves

variable {earlyBlocks : Bool} {decodes : β → Bool}
variable {s s' : BlocksState β ι} {a : BlocksAction β ι}

theorem Call.owned_ne_of_joined {now : Call β ι} (h : now.joined = none) (read : Nat) :
    now.owned ≠ some read := by
  cases now with
  | publishing | waiting => cases h
  | _ => exact fun howned => by cases howned

/-- A call that keeps its read, if it owns one, leaves the creators as they are. -/
theorem owned_setCall_of_keeps {t : BlocksState β ι} {call : Nat} {now next : Call β ι}
    (hcall : s.calls[call]? = some now) (hcalls : t.calls = s.calls)
    (hnow : ∀ read, now.owned = some read → next.owned = some read) {i read : Nat}
    (howned : s.owned i = some read) : (t.setCall call next).owned i = some read := by
  have ht : t.calls[call]? = some now := hcalls ▸ hcall
  rw [owned_setCall ht]
  unfold BlocksState.owned at howned ⊢
  by_cases hi : call = i
  · subst hi
    rw [hcall, Option.bind_some] at howned
    rw [if_pos rfl]
    exact hnow read howned
  · rw [if_neg hi, hcalls]
    exact howned

theorem CleanInv.resolved_of_moves (h : CleanInv s) (hguard : KeepsClean s a)
    (hmoves : s.Moves earlyBlocks decodes a s') (read : Nat) :
    s'.outcome read ≠ some (some .rejected) := by
  intro hrejected
  rcases outcome_of_moves hmoves read with hsame | ⟨_, _, hnew, _⟩ |
    ⟨outcome, hsettles, hpending, houtcome⟩
  · exact h.resolved read (hsame ▸ hrejected)
  · rw [hnew] at hrejected
    cases hrejected
  · rw [houtcome] at hrejected
    cases hrejected
    cases hsettles with
    | aborted => exact hguard hpending

theorem CleanInv.step (h : CleanInv s) (hguard : KeepsClean s a)
    (hmoves : s.Moves earlyBlocks decodes a s') : CleanInv s' := by
  refine ⟨?_, h.resolved_of_moves hguard hmoves⟩
  intro read htable
  have hkeeps : s.readFromPeersPromises = some read →
      (∀ i, s.owned i = some read → s'.owned i = some read) →
      ∃ call, s'.owned call = some read := by
    intro hread howned
    obtain ⟨call, hcall⟩ := h.owner read hread
    exact ⟨call, howned call hcall⟩
  cases hmoves with
  | called options => exact hkeeps htable (fun i hi => by rwa [owned_append])
  | joins henters _ =>
      obtain ⟨now, hcall, hjoined, _⟩ := exists_call_of_enters henters
      exact hkeeps htable (fun i hi => owned_setCall_of_keeps hcall rfl
        (fun r hr => (Call.owned_ne_of_joined hjoined r hr).elim) hi)
  | @creates _ call options henters _ =>
      obtain ⟨now, hcall, _, _⟩ := exists_call_of_enters henters
      refine ⟨call, ?_⟩
      rw [owned_setCall (s := s.createRead options) hcall, if_pos rfl]
      exact htable
  | localOnly hcall | early _ _ hcall | decoded hcall _ | published hcall =>
      exact hkeeps htable
        (fun i hi => owned_setCall_of_keeps hcall rfl (by simp [Call.owned]) hi)
  | publishFailed => exact hguard.elim
  | responded | cached | evicted | asked | failed | resolved | timedOut | aborted =>
      exact hkeeps htable (fun i hi => hi)
  | @finished call r creator outcome hcall houtcome =>
      cases outcome with
      | rejected => exact (h.resolved r houtcome).elim
      | resolved bytes =>
          cases creator with
          | true => cases htable
          | false =>
              exact hkeeps htable
                (fun i hi => owned_setCall_of_keeps hcall rfl (by simp [Call.owned]) hi)

/-! ### Requests -/

/-- The requests of new reads; those to new peers name a peer. -/
def BlocksState.asked (s : BlocksState β ι) : Nat :=
  (s.requests.filter (·.to_.isNone)).length

theorem asked_createRead (options : RemoteOptions ι) :
    (s.createRead options).asked = s.asked + 1 := by
  unfold BlocksState.createRead BlocksState.asked
  simp

/-- Every read sends one request when it is made. -/
theorem asked_of_moves (hmoves : s.Moves earlyBlocks decodes a s')
    (h : s.asked = s.reads.length) : s'.asked = s'.reads.length := by
  cases hmoves with
  | called | localOnly | early | joins | decoded | published | publishFailed
  | responded | cached | evicted | failed => exact h
  | @creates _ call options _ _ =>
      show (s.createRead options).asked = (s.createRead options).reads.length
      rw [asked_createRead, h]
      simp [BlocksState.createRead]
  | asked peer requests hto =>
      have hnone : requests.filter (·.to_.isNone) = [] := by
        rw [List.filter_eq_nil_iff]
        intro request hrequest
        simp [hto request hrequest]
      show ((s.requests ++ requests).filter (·.to_.isNone)).length = s.reads.length
      rw [List.filter_append, hnone, List.append_nil]
      exact h
  | resolved | timedOut | aborted =>
      refine h.trans ?_
      simp [BlocksState.updateRead]
  | @finished call read creator outcome _ _ =>
      cases outcome with
      | resolved => cases creator <;> exact h
      | rejected => exact h

/-! ### A later call -/

/-- The call has come to the table of promises. -/
def Call.entered : Call β ι → Bool
  | .readingLocal _ => false
  | .decoding _ _ => false
  | _ => true

/-- The bytes that came early for the call, if any, do not decode. -/
def NotAnswered (earlyBlocks : Bool) (decodes : β → Bool) (call : Nat)
    (s : BlocksState β ι) : BlocksAction β ι → Prop
  | .readFromPeers c => c = call → earlyBlocks = true →
      ∀ bytes, s.blockCache = some bytes → decodes bytes = false
  | _ => True

theorem reads_length_le (hmoves : s.Moves earlyBlocks decodes a s') :
    s.reads.length ≤ s'.reads.length := by
  rcases table_of_moves hmoves with hkeeps | ⟨call, options, now, _, _, rfl⟩ |
    ⟨call, read, bytes, _, _, rfl⟩
  · exact Nat.le_of_eq hkeeps.reads.symm
  · simp [BlocksState.createRead, BlocksState.setCall]
  · exact Nat.le_refl _

/-- A call that was made when there were `n` reads has come to the table only if
there are more by now. -/
def Call.Later (decodes : β → Bool) (n reads : Nat) : Call β ι → Prop
  | .readingLocal options => options.isSome = true
  | .decoding bytes _ => decodes bytes = false
  | _ => n < reads

structure LaterCall (decodes : β → Bool) (n call : Nat) (s : BlocksState β ι) :
    Prop where
  le : n ≤ s.reads.length
  table : ∀ read, s.readFromPeersPromises = some read → n < s.reads.length
  call : ∃ now, s.calls[call]? = some now ∧ now.Later decodes n s.reads.length

theorem Call.Later.mono {n reads reads' : Nat} {now : Call β ι}
    (h : now.Later decodes n reads) (hle : reads ≤ reads') :
    now.Later decodes n reads' := by
  cases now with
  | readingLocal | decoding => exact h
  | _ => exact Nat.lt_of_lt_of_le h hle

theorem LaterCall.table_of_moves {n call : Nat} (h : LaterCall decodes n call s)
    (hmoves : s.Moves earlyBlocks decodes a s') {read : Nat}
    (hread : s'.readFromPeersPromises = some read) : n < s'.reads.length := by
  rcases Blocks.table_of_moves hmoves with hkeeps |
    ⟨c, options, now, _, _, rfl⟩ | ⟨c, r, bytes, _, _, rfl⟩
  · have hlt := h.table read (hkeeps.table ▸ hread)
    exact Nat.lt_of_lt_of_le hlt (reads_length_le hmoves)
  · have hle := h.le
    simp only [BlocksState.createRead, BlocksState.setCall, List.length_append,
      List.length_singleton]
    omega
  · cases hread

theorem LaterCall.step {n call : Nat} (h : LaterCall decodes n call s)
    (hguard : NotAnswered earlyBlocks decodes call s a)
    (hmoves : s.Moves earlyBlocks decodes a s') : LaterCall decodes n call s' := by
  have hle := reads_length_le hmoves
  refine ⟨Nat.le_trans h.le hle, fun _ hread => h.table_of_moves hmoves hread, ?_⟩
  obtain ⟨now, hnow, hlater⟩ := h.call
  rcases call_of_moves hmoves call with hsame | ⟨hnew, _⟩ |
    ⟨now', next, hnow', hnext, hcall⟩
  · exact ⟨now, hsame.trans hnow, hlater.mono hle⟩
  · have := (List.getElem?_eq_some_iff.mp hnow).1
    omega
  · rw [hnow] at hnow'
    obtain rfl := Option.some.inj hnow'
    refine ⟨next, hnext, ?_⟩
    cases hcall with
    | localOnly => cases hlater
    | early hearly hcache => exact hguard rfl hearly _ hcache
    | joins _ _ hread => exact Nat.lt_of_lt_of_le (h.table _ hread) hle
    | creates _ _ _ hlt => exact Nat.lt_of_le_of_lt h.le hlt
    | decoded hbytes => exact (Bool.false_ne_true (hlater.symm.trans hbytes)).elim
    | published | publishFailed => exact Nat.lt_of_lt_of_le hlater hle
    | @finished _ _ outcome _ =>
        cases outcome <;> exact Nat.lt_of_lt_of_le hlater hle

/-! ### A read that stays in the table -/

/-- The read in the table is rejected, or its creator is gone. -/
def Poisoned (s : BlocksState β ι) : Prop :=
  ∃ read, s.readFromPeersPromises = some read ∧
    (s.outcome read = some (some .rejected) ∨ ∀ call, s.owned call ≠ some read)

theorem rejected_of_moves (hmoves : s.Moves earlyBlocks decodes a s') {read : Nat}
    (h : s.outcome read = some (some .rejected)) :
    s'.outcome read = some (some .rejected) := by
  rcases outcome_of_moves hmoves read with hsame | ⟨hnew, _⟩ | ⟨_, _, hpending, _⟩
  · exact hsame.trans h
  · obtain ⟨r, hr, _⟩ := Option.map_eq_some_iff.mp h
    have := (List.getElem?_eq_some_iff.mp hr).1
    omega
  · rw [h] at hpending
    cases hpending

/-- No step takes such a read out of the table again, or makes another. -/
theorem Poisoned.step (h : Poisoned s) (htable : TableInv s)
    (hmoves : s.Moves earlyBlocks decodes a s') :
    Poisoned s' ∧ s'.reads.length = s.reads.length := by
  obtain ⟨read, hread, hstuck⟩ := h
  rcases table_of_moves hmoves with hkeeps | ⟨call, options, now, hnone, _, _⟩ |
    ⟨call, r, bytes, hcall, houtcome, _⟩
  · refine ⟨⟨read, hkeeps.table.trans hread, hstuck.imp (rejected_of_moves hmoves)
      (fun hno i hi => hno i (hkeeps.owned i read hi))⟩, hkeeps.reads⟩
  · rw [hread] at hnone
    cases hnone
  · have howned : s.owned call = some r := by
      unfold BlocksState.owned
      rw [hcall]
      rfl
    have heq := htable.owner call r howned
    rw [hread] at heq
    obtain rfl := Option.some.inj heq
    rcases hstuck with hrejected | hno
    · rw [houtcome] at hrejected
      cases hrejected
    · exact (hno call howned).elim

/-- An abort of a pending read and a request that is not published leave such a
read. -/
theorem poisoned_of_not_keepsClean (htable : TableInv s) (hguard : ¬ KeepsClean s a)
    (hmoves : s.Moves earlyBlocks decodes a s') : Poisoned s' := by
  cases a with
  | abort read =>
      have hpending : s.outcome read = some none := not_not.mp hguard
      have hread := htable.pending read hpending
      cases hmoves with
      | aborted =>
          refine ⟨read, hread, .inl ?_⟩
          rw [outcome_updateRead outcome_abort, if_pos rfl]
          show (s.outcome read).map _ = _
          rw [hpending]
          rfl
      | joins henters _ | creates henters _ => exact henters.elim
  | publishFailed call =>
      cases hmoves with
      | @publishFailed _ read hcall =>
          have howned : s.owned call = some read := by
            unfold BlocksState.owned
            rw [hcall]
            rfl
          refine ⟨read, htable.owner call read howned, .inr ?_⟩
          intro i hi
          rw [owned_setCall hcall] at hi
          split at hi
          case isTrue => cases hi
          case isFalse hne => exact hne (htable.unique call i read read howned hi)
      | joins henters _ | creates henters _ => exact henters.elim
  | _ => exact (hguard trivial).elim

end Moves

/-! ### Runs -/

section Runs

variable [DecidableEq ι] (earlyBlocks : Bool) (decodes : β → Bool)

/-- After a run that meets the first guard and has no call in progress, a call
that comes to the table has made the store send a request of a new read.  If it
waits when correct bytes arrive, it returns them. -/
structure CleanReads
    (Before : BlocksState β ι → BlocksAction β ι → Prop)
    (Later : Nat → BlocksState β ι → BlocksAction β ι → Prop)
    (After : Nat → Nat → BlocksState β ι → BlocksAction β ι → Prop) : Prop where
  sends : ∀ s, (blocksMachine earlyBlocks decodes).Run Before s → AllEnded s →
    ∀ options s', blocksStep earlyBlocks decodes s (.get (some options)) = some s' →
    ∀ t, ((blocksMachine earlyBlocks decodes).startingAt s').Run
      (Later s.calls.length) t →
    ∀ now, t.calls[s.calls.length]? = some now → now.entered = true →
    s.asked < t.asked
  hears : ∀ s, (blocksMachine earlyBlocks decodes).Run Before s → AllEnded s →
    ∀ options s', blocksStep earlyBlocks decodes s (.get (some options)) = some s' →
    ∀ t, ((blocksMachine earlyBlocks decodes).startingAt s').Run
      (Later s.calls.length) t →
    ∀ read, Waits t s.calls.length read → ∀ bytes, decodes bytes = true →
    ∀ t', blocksStep earlyBlocks decodes t (.response bytes) = some t' →
    ∀ t'', ((blocksMachine earlyBlocks decodes).startingAt t').Run
      (After s.calls.length read) t'' →
    ReturnsBlock earlyBlocks decodes t'' s.calls.length bytes

/-- Until the response to a later call, reads stay clean and keep their resolvers,
and no early bytes answer the call. -/
structure KeepsLater (call : Nat) (s : BlocksState β ι) (a : BlocksAction β ι) :
    Prop where
  clean : KeepsClean s a
  resolver : KeepsResolver decodes s a
  notAnswered : NotAnswered earlyBlocks decodes call s a

variable {earlyBlocks} {decodes} {s s' t : BlocksState β ι}

theorem cleanInv_of_run
    (hrun : (blocksMachine earlyBlocks decodes).Run KeepsClean s) : CleanInv s := by
  refine hrun.invariant ?_
    (fun _ _ _ hinv hguard hstep => hinv.step hguard (moves_of_step hstep))
  constructor <;> simp [blocksMachine, BlocksState.outcome]

theorem asked_of_run {Guard : BlocksState β ι → BlocksAction β ι → Prop}
    (hs : s.asked = s.reads.length)
    (hrun : ((blocksMachine earlyBlocks decodes).startingAt s).Run Guard t) :
    t.asked = t.reads.length := by
  induction hrun with
  | init => exact hs
  | step _ _ hstep ih => exact asked_of_moves (moves_of_step hstep) ih

/-- From such a step on, no call makes the store send a request of a new read. -/
theorem asked_eq_of_poisoned {Guard : BlocksState β ι → BlocksAction β ι → Prop}
    (hrun : (blocksMachine earlyBlocks decodes).Run Guard s)
    (hguard : ¬ KeepsClean s a) (hstep : blocksStep earlyBlocks decodes s a = some s')
    (hrun' : ((blocksMachine earlyBlocks decodes).startingAt s').Run Lib.Machine.Free t) :
    t.asked = s'.asked := by
  have htable := tableInv_of_run hrun
  have hmoves := moves_of_step hstep
  have hstays : TableInv t ∧ Poisoned t ∧ t.reads.length = s'.reads.length := by
    induction hrun' with
    | init =>
        exact ⟨htable.step hmoves, poisoned_of_not_keepsClean htable hguard hmoves, rfl⟩
    | step _ _ hnext ih =>
        have hnextMoves := moves_of_step hnext
        have hstuck := ih.2.1.step ih.1 hnextMoves
        exact ⟨ih.1.step hnextMoves, hstuck.1, hstuck.2.trans ih.2.2⟩
  have hasked := asked_of_moves hmoves (asked_of_run rfl hrun)
  rw [asked_of_run hasked hrun', hasked]
  exact hstays.2.2

omit [DecidableEq ι] in
/-- When all calls have ended, no read is pending. -/
theorem resolverInv_of_ended (htable : TableInv s) (hclean : CleanInv s)
    (hended : AllEnded s) : ResolverInv s := by
  intro read hpending
  have hread := htable.pending read hpending
  rw [hclean.table_eq_none hended] at hread
  cases hread

theorem laterCall_of_get (hclean : CleanInv s) (hended : AllEnded s)
    {options : RemoteOptions ι}
    (hget : blocksStep earlyBlocks decodes s (.get (some options)) = some s') :
    LaterCall decodes s.reads.length s.calls.length s' := by
  obtain rfl := Option.some.inj hget
  refine ⟨Nat.le_refl _, fun read hread => ?_, .readingLocal (some options), ?_, rfl⟩
  · have hnone : s.readFromPeersPromises = none := hclean.table_eq_none hended
    rw [show s.readFromPeersPromises = some read from hread] at hnone
    cases hnone
  · exact List.getElem?_concat_length

theorem laterCall_of_run {n call : Nat} (hs : LaterCall decodes n call s)
    (hrun : ((blocksMachine earlyBlocks decodes).startingAt s).Run
      (KeepsLater earlyBlocks decodes call) t) : LaterCall decodes n call t := by
  induction hrun with
  | init => exact hs
  | step _ hguard hstep ih => exact ih.step hguard.notAnswered (moves_of_step hstep)

theorem resolverInv_of_later {call : Nat} (htable : TableInv s)
    (hresolver : ResolverInv s)
    (hrun : ((blocksMachine earlyBlocks decodes).startingAt s).Run
      (KeepsLater earlyBlocks decodes call) t) : ResolverInv t := by
  have hboth : TableInv t ∧ ResolverInv t := by
    induction hrun with
    | init => exact ⟨htable, hresolver⟩
    | step _ hguard hstep ih =>
        have hmoves := moves_of_step hstep
        exact ⟨ih.1.step hmoves, ih.2.step ih.1 hguard.resolver hmoves⟩
  exact hboth.2

/-- Reads that end leave the cid clean, as long as none is aborted and every
request is published. -/
theorem cleanReads_of_guards (earlyBlocks : Bool) (decodes : β → Bool)
    (hfree : ∀ b b', decodes b = true → decodes b' = true → b = b') :
    CleanReads (ι := ι) earlyBlocks decodes KeepsClean
      (KeepsLater earlyBlocks decodes) KeepsCheck where
  sends := by
    intro s hrun hended options s' hget t hrun' now hnow hentered
    have hasked : s.asked = s.reads.length := asked_of_run rfl hrun
    have hlater := laterCall_of_run
      (laterCall_of_get (cleanInv_of_run hrun) hended hget) hrun'
    obtain ⟨now', hnow', hnew⟩ := hlater.call
    rw [hnow] at hnow'
    obtain rfl := Option.some.inj hnow'
    have hlt : s.reads.length < t.reads.length := by
      cases now with
      | readingLocal | decoding => cases hentered
      | _ => exact hnew
    have hasked' := asked_of_moves (moves_of_step hget) hasked
    rw [hasked, asked_of_run hasked' hrun']
    exact hlt
  hears := by
    intro s hrun hended options s' hget t hrun' read hwaits bytes hbytes t' hstep
      t'' hrun''
    have htable := tableInv_of_run hrun
    have hresolver := resolverInv_of_ended htable (cleanInv_of_run hrun) hended
    have hmoves := moves_of_step hget
    have hguard : KeepsResolver decodes s (.get (some options)) := trivial
    have hlater := resolverInv_of_later (htable.step hmoves)
      (hresolver.step htable hguard hmoves) hrun'
    exact returns_of_response hfree hlater hwaits hbytes hstep hrun''

end Runs

/-! ### Two calls -/

namespace TwoCalls

/-- The only call so far has timed out. -/
def timedOut : BlocksState Nat Nat :=
  { blockCache := none, readFromPeersPromises := none, resolvers := some 0
    reads := [⟨quietly, some (.resolved none), false, false⟩], checks := []
    calls := [.returned none], publishOnNewPeers := [], requests := [request] }

def calledAgain : BlocksState Nat Nat :=
  { timedOut with calls := [.returned none, .readingLocal (some quietly)] }

def waitingAgain : BlocksState Nat Nat :=
  { blockCache := none, readFromPeersPromises := some 1, resolvers := some 1
    reads := [⟨quietly, some (.resolved none), false, false⟩,
      ⟨quietly, none, true, false⟩]
    checks := [], calls := [.returned none, .waiting 1 true]
    publishOnNewPeers := [1], requests := [request, request] }

def answeredAgain : BlocksState Nat Nat := { waitingAgain with checks := [(1, 7)] }

theorem run_timedOut : store.Run KeepsClean timedOut :=
  .step (a := .settled 0) (.step (a := .timeout 0) (.step (a := .published 0)
    (.step (a := .readFromPeers 0) (.step (a := .get (some quietly)) .init trivial rfl)
    trivial rfl) trivial rfl) trivial rfl) trivial rfl

theorem run_waitingAgain :
    (store.startingAt calledAgain).Run (KeepsLater true seven 1) waitingAgain :=
  .step (a := .published 1) (.step (a := .readFromPeers 1) .init
    ⟨trivial, trivial, fun _ _ _ h => by cases h⟩ rfl) ⟨trivial, trivial, trivial⟩ rfl

theorem allEnded_timedOut : AllEnded timedOut := by
  intro call now hnow
  have hmem := List.mem_of_getElem? hnow
  rw [List.mem_singleton.mp hmem]
  rfl

/-- After a timeout a new request is sent, and the response is returned. -/
theorem cleanReads_timedOut :
    timedOut.asked < waitingAgain.asked ∧
      ReturnsBlock true seven answeredAgain 1 7 := by
  have hclean : CleanReads (ι := Nat) true seven KeepsClean (KeepsLater true seven)
      KeepsCheck := cleanReads_of_guards true seven eq_of_seven
  constructor
  · exact hclean.sends timedOut run_timedOut allEnded_timedOut quietly calledAgain rfl
      waitingAgain run_waitingAgain (.waiting 1 true) rfl rfl
  · exact hclean.hears timedOut run_timedOut allEnded_timedOut quietly calledAgain rfl
      waitingAgain run_waitingAgain 1 ⟨rfl, rfl⟩ 7 rfl answeredAgain rfl answeredAgain
      .init

/-- The only call so far was aborted. -/
def aborted : BlocksState Nat Nat :=
  { blockCache := none, readFromPeersPromises := some 0, resolvers := none
    reads := [⟨withSignal, some .rejected, false, false⟩], checks := []
    calls := [.thrown], publishOnNewPeers := [0], requests := [request] }

/-- The request of the only call so far could not be published. -/
def unpublished : BlocksState Nat Nat :=
  { blockCache := none, readFromPeersPromises := some 0, resolvers := some 0
    reads := [⟨quietly, none, true, false⟩], checks := []
    calls := [.thrown], publishOnNewPeers := [0], requests := [request] }

/-- The second call joins the read of the first. -/
def joinedBy (s : BlocksState Nat Nat) : BlocksState Nat Nat :=
  { s with calls := [.thrown, .waiting 0 false] }

theorem not_cleanReads_of_run {Before : BlocksState Nat Nat → BlocksAction Nat Nat → Prop}
    {Later : Nat → BlocksState Nat Nat → BlocksAction Nat Nat → Prop}
    {After : Nat → Nat → BlocksState Nat Nat → BlocksAction Nat Nat → Prop}
    {s : BlocksState Nat Nat} (hrun : store.Run Before s) (hcalls : s.calls = [.thrown])
    (hlater : (store.startingAt
        { s with calls := [.thrown, .readingLocal (some quietly)] }).Run
      (Later 1) (joinedBy s)) :
    ¬ CleanReads true seven Before Later After := by
  intro h
  have hended : AllEnded s := by
    intro call now hnow
    have hmem := List.mem_of_getElem? hnow
    rw [hcalls] at hmem
    rw [List.mem_singleton.mp hmem]
    rfl
  have hlength : s.calls.length = 1 := by rw [hcalls]; rfl
  have hget : blocksStep true seven s (.get (some quietly)) =
      some { s with calls := [.thrown, .readingLocal (some quietly)] } := by
    simp only [blocksStep, hcalls]
    rfl
  have hsends := h.sends s hrun hended quietly _ hget (joinedBy s)
    (by rwa [hlength]) (.waiting 0 false) (by rw [hlength]; rfl) rfl
  exact absurd hsends (Nat.lt_irrefl _)

/-- After an abort, and after a request that could not be published, a later call
sends no request, even if nothing else goes wrong. -/
theorem not_cleanReads_secondCall :
    ¬ CleanReads (ι := Nat) true seven Lib.Machine.Free (fun _ => Lib.Machine.Free)
        (fun _ _ => Lib.Machine.Free) ∧
      ¬ CleanReads (ι := Nat) true seven Lib.Machine.Free (KeepsLater true seven)
        KeepsCheck := by
  constructor
  · have hrun : store.Run Lib.Machine.Free aborted :=
      .of_exec .init [.get (some withSignal), .readFromPeers 0, .published 0, .abort 0,
        .settled 0] rfl
    exact not_cleanReads_of_run hrun rfl (.of_exec .init [.readFromPeers 1] rfl)
  · have hrun : store.Run Lib.Machine.Free unpublished :=
      .of_exec .init [.get (some quietly), .readFromPeers 0, .publishFailed 0] rfl
    exact not_cleanReads_of_run hrun rfl (.step (a := .readFromPeers 1) .init
      ⟨trivial, trivial, fun _ _ _ h => by cases h⟩ rfl)

end TwoCalls

end Blocks
end Peerbit
