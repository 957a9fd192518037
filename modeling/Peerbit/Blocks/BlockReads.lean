import Mathlib.Algebra.Order.Ring.Nat
import Peerbit.Blocks.RemoteBlocks

/-!
# A read hears the response it waits for

At most one read is pending: the one in the table, until its creator has ended.
A read that is pending hears responses as long as its resolver is in the table
of resolvers.

A resolver that succeeds removes whatever resolver is in the table, and leaves
the abort handler at the caller's signal.  So a second check of an old read, or
an old signal, removes the resolver of a later read.
-/

namespace Peerbit
namespace Blocks

universe u v

variable {β : Type u} {ι : Type v}

/-! ### The table of promises -/

/-- A pending read is in the table, as is the read of its creator, until the
creator ends. -/
structure TableInv (s : BlocksState β ι) : Prop where
  pending : ∀ read, s.outcome read = some none →
    s.readFromPeersPromises = some read
  owner : ∀ call read, s.owned call = some read →
    s.readFromPeersPromises = some read
  unique : ∀ call call' read read', s.owned call = some read →
    s.owned call' = some read' → call = call'

/-- The table is kept; no read is made or becomes pending, and no call its
creator. -/
structure KeepsTable (s s' : BlocksState β ι) : Prop where
  table : s'.readFromPeersPromises = s.readFromPeersPromises
  reads : s'.reads.length = s.reads.length
  pending : ∀ read, s'.outcome read = some none → s.outcome read = some none
  owned : ∀ call read, s'.owned call = some read → s.owned call = some read

section Moves

variable {earlyBlocks : Bool} {decodes : β → Bool}
variable {s s' : BlocksState β ι} {a : BlocksAction β ι}

theorem KeepsTable.trans {t u : BlocksState β ι} (h : KeepsTable s t)
    (h' : KeepsTable t u) : KeepsTable s u where
  table := h'.table.trans h.table
  reads := h'.reads.trans h.reads
  pending read hread := h.pending read (h'.pending read hread)
  owned call read hread := h.owned call read (h'.owned call read hread)

theorem keepsTable_setCall {call : Nat} {now next : Call β ι}
    (hcall : s.calls[call]? = some now)
    (hnext : ∀ read, next.owned = some read → now.owned = some read) :
    KeepsTable s (s.setCall call next) where
  table := rfl
  reads := rfl
  pending _ h := h
  owned := by
    intro i read h
    rw [owned_setCall hcall] at h
    by_cases hi : call = i
    · subst hi
      rw [if_pos rfl] at h
      unfold BlocksState.owned
      rw [hcall, Option.bind_some]
      exact hnext read h
    · rwa [if_neg hi] at h

theorem keepsTable_updateRead {f : Read β ι → Read β ι} {outcome : Outcome β}
    (hf : ∀ r, (f r).outcome = r.outcome.or (some outcome)) (read : Nat) :
    KeepsTable s (s.updateRead read f) where
  table := rfl
  reads := List.length_modify ..
  pending _ h := ((pending_updateRead hf).mp h).2
  owned _ _ h := h

theorem owned_append (options : Option (RemoteOptions ι)) (call : Nat) :
    ({ s with calls := s.calls ++ [.readingLocal options] } :
      BlocksState β ι).owned call = s.owned call := by
  unfold BlocksState.owned
  rcases Nat.lt_trichotomy call s.calls.length with hlt | rfl | hgt
  · rw [List.getElem?_append_left hlt]
  · simp [Call.owned]
  · rw [List.getElem?_append_right (by omega), List.getElem?_eq_none (l := s.calls)
      (by omega), List.getElem?_eq_none]
    rw [List.length_singleton]
    omega

/-- A step keeps the table, makes a read where the table has none, or ends the
creator of a read that is resolved. -/
theorem table_of_moves (h : s.Moves earlyBlocks decodes a s') :
    KeepsTable s s' ∨
      (∃ call options now, s.readFromPeersPromises = none ∧
        s.calls[call]? = some now ∧
        s' = (s.createRead options).setCall call (.publishing s.reads.length)) ∨
      ∃ call read bytes, s.calls[call]? = some (.waiting read true) ∧
        s.outcome read = some (some (.resolved bytes)) ∧
        s' = s.finish call read true (.resolved bytes) := by
  have hsame : ∀ t : BlocksState β ι, t.reads = s.reads → t.calls = s.calls →
      t.readFromPeersPromises = s.readFromPeersPromises → KeepsTable s t := by
    intro t hreads hcalls htable
    refine ⟨htable, congrArg List.length hreads, ?_, ?_⟩
    · unfold BlocksState.outcome
      rw [hreads]
      exact fun _ h => h
    · unfold BlocksState.owned
      rw [hcalls]
      exact fun _ _ h => h
  cases h with
  | called options =>
      exact .inl ⟨rfl, rfl, fun _ h => h, fun call read h => by rwa [owned_append] at h⟩
  | localOnly hcall => exact .inl (keepsTable_setCall hcall (by simp [Call.owned]))
  | early _ _ hcall =>
      refine .inl ((hsame { s with blockCache := none } rfl rfl rfl).trans ?_)
      exact keepsTable_setCall hcall (by simp [Call.owned])
  | joins henters _ =>
      obtain ⟨now, hcall, _, _⟩ := exists_call_of_enters henters
      exact .inl (keepsTable_setCall hcall (by simp [Call.owned]))
  | @creates _ call options henters htable =>
      obtain ⟨now, hcall, _, _⟩ := exists_call_of_enters henters
      exact .inr (.inl ⟨call, options, now, htable, hcall, rfl⟩)
  | decoded hcall _ => exact .inl (keepsTable_setCall hcall (by simp [Call.owned]))
  | published hcall => exact .inl (keepsTable_setCall hcall (by simp [Call.owned]))
  | publishFailed hcall => exact .inl (keepsTable_setCall hcall (by simp [Call.owned]))
  | responded | cached | evicted | asked | failed => exact .inl (hsame _ rfl rfl rfl)
  | @resolved check read bytes _ _ =>
      refine .inl ((hsame { s with checks := s.checks.eraseIdx check
                                   resolvers := none } rfl rfl rfl).trans ?_)
      exact keepsTable_updateRead (outcome_resolve bytes) read
  | timedOut read => exact .inl (keepsTable_updateRead outcome_timeout read)
  | aborted read =>
      refine .inl ((hsame { s with resolvers := none } rfl rfl rfl).trans ?_)
      exact keepsTable_updateRead outcome_abort read
  | @finished call read creator outcome hcall houtcome =>
      cases outcome with
      | rejected => exact .inl (keepsTable_setCall hcall (by simp [Call.owned]))
      | resolved bytes =>
          cases creator with
          | true => exact .inr (.inr ⟨call, read, bytes, hcall, houtcome, rfl⟩)
          | false => exact .inl (keepsTable_setCall hcall (by simp [Call.owned]))

theorem TableInv.keeps (h : TableInv s) (hkeeps : KeepsTable s s') : TableInv s' where
  pending read hread := hkeeps.table.trans (h.pending read (hkeeps.pending read hread))
  owner call read howned :=
    hkeeps.table.trans (h.owner call read (hkeeps.owned call read howned))
  unique call call' read read' h₁ h₂ :=
    h.unique call call' read read' (hkeeps.owned _ _ h₁) (hkeeps.owned _ _ h₂)

theorem TableInv.create (h : TableInv s) (htable : s.readFromPeersPromises = none)
    {call : Nat} {now : Call β ι} (hcall : s.calls[call]? = some now)
    (options : RemoteOptions ι) :
    TableInv ((s.createRead options).setCall call (.publishing s.reads.length)) := by
  have hno : ∀ i read, s.owned i ≠ some read := by
    intro i read howned
    have := h.owner i read howned
    rw [htable] at this
    cases this
  have howned : ∀ i read, ((s.createRead options).setCall call
      (.publishing s.reads.length)).owned i = some read →
      call = i ∧ s.reads.length = read := by
    intro i read hi
    rw [owned_setCall (s := s.createRead options) hcall] at hi
    by_cases heq : call = i
    · rw [if_pos heq] at hi
      exact ⟨heq, Option.some.inj hi⟩
    · rw [if_neg heq] at hi
      exact (hno i read hi).elim
  constructor
  case pending =>
    intro read hread
    rw [outcome_setCall, outcome_createRead] at hread
    by_cases heq : read = s.reads.length
    · rw [heq]
      rfl
    · rw [if_neg heq] at hread
      have := h.pending read hread
      rw [htable] at this
      cases this
  case owner =>
    intro i read hi
    obtain ⟨_, rfl⟩ := howned i read hi
    rfl
  case unique =>
    intro i j read read' hi hj
    exact (howned i read hi).1.symm.trans (howned j read' hj).1

theorem TableInv.finish (h : TableInv s) {call read : Nat} {bytes : Option β}
    (hcall : s.calls[call]? = some (.waiting read true))
    (houtcome : s.outcome read = some (some (.resolved bytes))) :
    TableInv (s.finish call read true (.resolved bytes)) := by
  have hread : s.owned call = some read := by
    unfold BlocksState.owned
    rw [hcall]
    rfl
  have htable := h.owner call read hread
  have hno : ∀ i r, (s.finish call read true (.resolved bytes)).owned i ≠ some r := by
    intro i r hi
    have hi : ((s.removeRead read).setCall call (.returned bytes)).owned i = some r := hi
    rw [owned_setCall (s := s.removeRead read) hcall] at hi
    by_cases heq : call = i
    · rw [if_pos heq] at hi
      cases hi
    · rw [if_neg heq] at hi
      exact heq (h.unique call i read r hread hi)
  constructor
  case pending =>
    intro r hr
    have hpending : s.outcome r = some none := hr
    have heq := h.pending r hpending
    rw [htable] at heq
    obtain rfl := Option.some.inj heq
    rw [houtcome] at hpending
    cases hpending
  case owner => exact fun i r hi => (hno i r hi).elim
  case unique => exact fun i j r r' hi _ => (hno i r hi).elim

theorem TableInv.step (h : TableInv s) (hmoves : s.Moves earlyBlocks decodes a s') :
    TableInv s' := by
  rcases table_of_moves hmoves with hkeeps | ⟨call, options, now, htable, hcall, rfl⟩ |
    ⟨call, read, bytes, hcall, houtcome, rfl⟩
  · exact h.keeps hkeeps
  · exact h.create htable hcall options
  · exact h.finish hcall houtcome

/-! ### The table of resolvers -/

/-- The resolver of a pending read is in the table. -/
def ResolverInv (s : BlocksState β ι) : Prop :=
  ∀ read, s.outcome read = some none → s.resolvers = some read

/-- A step that removes a resolver removes that of no other pending read: not a
check that ends with correct bytes, and not the signal of a call. -/
def KeepsResolver (decodes : β → Bool) (s : BlocksState β ι) :
    BlocksAction β ι → Prop
  | .checked check => ∀ read bytes, s.checks[check]? = some (read, bytes) →
      decodes bytes = true → ∀ other, s.resolvers = some other →
        s.outcome other = some none → other = read
  | .abort read => ∀ other, s.resolvers = some other →
      s.outcome other = some none → other = read
  | _ => True

theorem resolvers_finish (call read : Nat) (creator : Bool) (outcome : Outcome β) :
    (s.finish call read creator outcome).resolvers = s.resolvers := by
  cases outcome with
  | resolved => cases creator <;> rfl
  | rejected => rfl

theorem ResolverInv.step (h : ResolverInv s) (htable : TableInv s)
    (hguard : KeepsResolver decodes s a) (hmoves : s.Moves earlyBlocks decodes a s') :
    ResolverInv s' := by
  intro i hi
  cases hmoves with
  | called | localOnly | early | joins | decoded | published | publishFailed
  | responded | cached | evicted | asked | failed => exact h i hi
  | creates _ hnone =>
      rw [outcome_setCall, outcome_createRead] at hi
      by_cases heq : i = s.reads.length
      · rw [heq]
        rfl
      · rw [if_neg heq] at hi
        have := htable.pending i hi
        rw [hnone] at this
        cases this
  | resolved hcheck hbytes =>
      obtain ⟨hne, hpending⟩ := (pending_updateRead (outcome_resolve _)).mp hi
      exact (hne (hguard _ _ hcheck hbytes i (h i hpending) hpending).symm).elim
  | timedOut read => exact h i ((pending_updateRead outcome_timeout).mp hi).2
  | aborted read =>
      obtain ⟨hne, hpending⟩ := (pending_updateRead outcome_abort).mp hi
      exact (hne (hguard i (h i hpending) hpending).symm).elim
  | finished =>
      rw [outcome_finish] at hi
      rw [resolvers_finish]
      exact h i hi

/-! ### Correct bytes -/

/-- Reads and calls only end with bytes that decode. -/
structure Authentic (decodes : β → Bool) (s : BlocksState β ι) : Prop where
  reads : ∀ read bytes, s.outcome read = some (some (.resolved (some bytes))) →
    decodes bytes = true
  calls : ∀ (call : Nat) (bytes : β),
    s.calls[call]? = some (.returned (some bytes)) → decodes bytes = true

theorem Authentic.step (h : Authentic decodes s)
    (hmoves : s.Moves earlyBlocks decodes a s') : Authentic decodes s' := by
  constructor
  case reads =>
    intro read bytes hread
    rcases outcome_of_moves hmoves read with hsame | ⟨_, _, hnew, _⟩ |
      ⟨outcome, hsettles, _, houtcome⟩
    · exact h.reads read bytes (hsame ▸ hread)
    · rw [hnew] at hread
      cases hread
    · rw [houtcome] at hread
      cases hread
      cases hsettles with
      | resolved _ hbytes => exact hbytes
  case calls =>
    intro call bytes hcall
    rcases call_of_moves hmoves call with hsame | ⟨_, options, hnew⟩ |
      ⟨now, next, _, hnext, hcallMoves⟩
    · exact h.calls call bytes (hsame ▸ hcall)
    · rw [hnew] at hcall
      cases hcall
    · rw [hnext] at hcall
      obtain rfl := Option.some.inj hcall
      generalize heq : (Call.returned (some bytes) : Call β ι) = next at hcallMoves
      cases hcallMoves with
      | decoded hbytes =>
          cases heq
          exact hbytes
      | @finished read creator outcome houtcome =>
          cases outcome with
          | resolved b =>
              cases heq
              exact h.reads read bytes houtcome
          | rejected => cases heq
      | _ => cases heq

/-! ### A call that has heard the block -/

/-- The call has come to the table and waits for its read, which is pending. -/
def Waits (s : BlocksState β ι) (call read : Nat) : Prop :=
  s.joined call = some read ∧ s.outcome read = some none

/-- The call has returned the bytes, or its read is resolved with them, or they
are being checked for its read. -/
inductive Heard (s : BlocksState β ι) (call read : Nat) (bytes : β) : Prop
  | returned (hcall : s.calls[call]? = some (.returned (some bytes)))
  | resolved (hjoined : s.joined call = some read)
      (houtcome : s.outcome read = some (some (.resolved (some bytes))))
  | checking (hwaits : Waits s call read) (hcheck : (read, bytes) ∈ s.checks)

/-- As long as the read is pending, neither its timer nor its signal fires.  The
call's own request is published. -/
def KeepsCheck (call read : Nat) (s : BlocksState β ι) : BlocksAction β ι → Prop
  | .timeout r => r = read → s.outcome r ≠ some none
  | .abort r => r = read → s.outcome r ≠ some none
  | .publishFailed c => c ≠ call
  | _ => True

/-- What a step makes of a call that waits for a read. -/
theorem joined_of_moves (h : s.Moves earlyBlocks decodes a s') {call read : Nat}
    (hjoined : s.joined call = some read) :
    s'.joined call = some read ∨ a = .publishFailed call ∨
      ∃ outcome, s.outcome read = some (some outcome) ∧
        s'.calls[call]? = some outcome.call := by
  obtain ⟨now, hnow, hread⟩ := Option.bind_eq_some_iff.mp hjoined
  rcases call_of_moves h call with hsame | ⟨hnew, _⟩ |
    ⟨now', next, hnow', hnext, hmoves⟩
  · refine .inl ?_
    unfold BlocksState.joined
    rw [hsame, hnow]
    exact hread
  · have := (List.getElem?_eq_some_iff.mp hnow).1
    omega
  · rw [hnow] at hnow'
    obtain rfl := Option.some.inj hnow'
    have hjoins : next.joined = some read → s'.joined call = some read := by
      intro hjoins
      unfold BlocksState.joined
      rw [hnext]
      exact hjoins
    cases hmoves with
    | joins henters hcall _ | creates henters hcall _ _ =>
        obtain ⟨now', hnow', hnone, _⟩ := exists_call_of_enters henters
        rw [hnow] at hnow'
        obtain rfl := Option.some.inj hnow'
        rw [hnone] at hread
        cases hread
    | published => exact .inl (hjoins hread)
    | publishFailed => exact .inr (.inl rfl)
    | finished houtcome =>
        cases hread
        exact .inr (.inr ⟨_, houtcome, hnext⟩)
    | localOnly | early | decoded => cases hread

/-- A call that has ended stays. -/
theorem ended_of_moves (h : s.Moves earlyBlocks decodes a s') {i : Nat}
    {call : Call β ι} (hcall : s.calls[i]? = some call) (hended : call.ended = true) :
    s'.calls[i]? = some call := by
  rcases call_of_moves h i with hsame | ⟨hnew, _⟩ | ⟨now, next, hnow, _, hmoves⟩
  · rw [hsame, hcall]
  · have := (List.getElem?_eq_some_iff.mp hcall).1
    omega
  · rw [hcall] at hnow
    have hnot := hmoves.not_ended
    rw [← Option.some.inj hnow, hended] at hnot
    cases hnot

/-- A check of correct bytes goes on, unless it settles its read. -/
theorem check_of_moves (h : s.Moves earlyBlocks decodes a s') {read : Nat}
    {bytes : β} (hbytes : decodes bytes = true) (hcheck : (read, bytes) ∈ s.checks) :
    (read, bytes) ∈ s'.checks ∨ s'.outcome read ≠ some none := by
  have herase : ∀ {check r : Nat} {b : β}, s.checks[check]? = some (r, b) →
      (read, bytes) ∈ s.checks.eraseIdx check ∨ (r, b) = (read, bytes) := by
    intro check r b hb
    by_cases heq : (r, b) = (read, bytes)
    · exact .inr heq
    · refine .inl (List.mem_eraseIdx_iff_getElem?.mpr ?_)
      obtain ⟨i, hi⟩ := List.mem_iff_getElem?.mp hcheck
      refine ⟨i, fun hsame => heq ?_, hi⟩
      rw [hsame, hb] at hi
      exact Option.some.inj hi
  cases h with
  | called | localOnly | early | joins | creates | decoded | published | publishFailed
  | cached | evicted | asked | timedOut | aborted => exact .inl hcheck
  | responded => exact .inl (List.mem_append_left _ hcheck)
  | failed hb hwrong =>
      rcases herase hb with hstays | heq
      · exact .inl hstays
      · cases heq
        rw [hbytes] at hwrong
        cases hwrong
  | resolved hb _ =>
      rcases herase hb with hstays | heq
      · exact .inl hstays
      · cases heq
        exact .inr fun hpending =>
          ((pending_updateRead (outcome_resolve bytes)).mp hpending).1 rfl
  | @finished call r creator outcome _ _ =>
      refine .inl ?_
      cases outcome with
      | resolved => cases creator <;> exact hcheck
      | rejected => exact hcheck

/-- Nothing but the timer, the signal and a failed request can make the call miss
the bytes; no other bytes decode. -/
theorem Heard.step {call read : Nat} {bytes : β}
    (hfree : ∀ b b', decodes b = true → decodes b' = true → b = b')
    (hbytes : decodes bytes = true) (h : Heard s call read bytes)
    (hguard : KeepsCheck call read s a)
    (hmoves : s.Moves earlyBlocks decodes a s') : Heard s' call read bytes := by
  cases h with
  | returned hcall => exact .returned (ended_of_moves hmoves hcall rfl)
  | resolved hjoined houtcome =>
      have hkept : s'.outcome read = s.outcome read := by
        rcases outcome_of_moves hmoves read with hsame | ⟨hnew, _⟩ | ⟨_, _, hnone, _⟩
        · exact hsame
        · obtain ⟨r, hr, _⟩ := Option.map_eq_some_iff.mp houtcome
          have := (List.getElem?_eq_some_iff.mp hr).1
          omega
        · rw [houtcome] at hnone
          cases hnone
      rcases joined_of_moves hmoves hjoined with hstays | rfl | ⟨o, ho, hends⟩
      · exact .resolved hstays (hkept.trans houtcome)
      · exact (hguard rfl).elim
      · rw [houtcome] at ho
        cases ho
        exact .returned hends
  | checking hwaits hcheck =>
      have hjoined : s'.joined call = some read := by
        rcases joined_of_moves hmoves hwaits.1 with hstays | rfl | ⟨o, ho, _⟩
        · exact hstays
        · exact (hguard rfl).elim
        · rw [hwaits.2] at ho
          cases ho
      rcases outcome_of_moves hmoves read with hsame | ⟨_, _, hnew, _⟩ |
        ⟨outcome, hsettles, _, houtcome⟩
      · have hpending : s'.outcome read = some none := hsame.trans hwaits.2
        rcases check_of_moves hmoves hbytes hcheck with hstays | hsettled
        · exact .checking ⟨hjoined, hpending⟩ hstays
        · exact (hsettled hpending).elim
      · rcases check_of_moves hmoves hbytes hcheck with hstays | hsettled
        · exact .checking ⟨hjoined, hnew⟩ hstays
        · exact (hsettled hnew).elim
      · cases hsettles with
        | timedOut | aborted => exact (hguard rfl hwaits.2).elim
        | @resolved _ b _ hb =>
            rw [hfree b bytes hb hbytes] at houtcome
            exact .resolved hjoined houtcome

end Moves

/-! ### Steps of the store's own -/

/-- The steps that only the store has to take. -/
def Own (_ : BlocksState β ι) : BlocksAction β ι → Prop
  | .readFromPeers _ => True
  | .decoded _ => True
  | .published _ => True
  | .checked _ => True
  | .settled _ => True
  | _ => False

/-- How many steps of its own a call has at most. -/
def Call.work : Call β ι → Nat
  | .readingLocal _ => 4
  | .decoding _ _ => 3
  | .publishing _ => 2
  | .waiting _ _ => 1
  | _ => 0

def BlocksState.work (s : BlocksState β ι) : Nat :=
  (s.calls.map Call.work).sum + s.checks.length

theorem sum_map_set_lt {α : Type*} (f : α → Nat) {l : List α} {i : Nat} {x y : α}
    (h : l[i]? = some x) (hlt : f y < f x) :
    ((l.set i y).map f).sum < (l.map f).sum := by
  induction l generalizing i with
  | nil => cases h
  | cons z l ih =>
      cases i with
      | zero =>
          obtain rfl := Option.some.inj h
          simpa using hlt
      | succ i => simpa using ih h

section OwnSteps

variable {earlyBlocks : Bool} {decodes : β → Bool}
variable {s s' : BlocksState β ι} {a : BlocksAction β ι}

theorem work_setCall {t : BlocksState β ι} {call : Nat} {now next : Call β ι}
    (hcall : s.calls[call]? = some now) (hcalls : t.calls = s.calls)
    (hchecks : t.checks = s.checks) (hlt : next.work < now.work) :
    (t.setCall call next).work < s.work := by
  have hsum := sum_map_set_lt Call.work hcall hlt
  unfold BlocksState.work BlocksState.setCall
  rw [hcalls, hchecks]
  exact Nat.add_lt_add_right hsum _

theorem work_eraseIdx {t : BlocksState β ι} {check : Nat} {c : Nat × β}
    (hcheck : s.checks[check]? = some c) (hcalls : t.calls = s.calls)
    (hchecks : t.checks = s.checks.eraseIdx check) : t.work < s.work := by
  have hlt := (List.getElem?_eq_some_iff.mp hcheck).1
  unfold BlocksState.work
  rw [hcalls, hchecks, List.length_eraseIdx_of_lt hlt]
  omega

/-- The store's own steps come to an end. -/
theorem work_lt (hown : Own s a) (hmoves : s.Moves earlyBlocks decodes a s') :
    s'.work < s.work := by
  have henters : ∀ {t : BlocksState β ι} {call : Nat} {options : RemoteOptions ι}
      {next : Call β ι}, s.Enters earlyBlocks decodes call options a →
      t.calls = s.calls → t.checks = s.checks → next.work < 3 →
      (t.setCall call next).work < s.work := by
    intro t call options next henters hcalls hchecks hlt
    cases a with
    | readFromPeers c =>
        exact work_setCall henters.2.1 hcalls hchecks (Nat.lt_succ_of_lt hlt)
    | decoded c =>
        obtain ⟨_, bytes, hcall, _⟩ := henters
        exact work_setCall hcall hcalls hchecks hlt
    | _ => exact henters.elim
  cases hmoves with
  | called | publishFailed | responded | cached | evicted | asked | timedOut
  | aborted => exact hown.elim
  | localOnly hcall => exact work_setCall hcall rfl rfl (by simp [Call.work])
  | early _ _ hcall => exact work_setCall hcall rfl rfl (by simp [Call.work])
  | joins he _ => exact henters he rfl rfl (by simp [Call.work])
  | creates he _ => exact henters he rfl rfl (by simp [Call.work])
  | decoded hcall _ => exact work_setCall hcall rfl rfl (by simp [Call.work])
  | published hcall => exact work_setCall hcall rfl rfl (by simp [Call.work])
  | failed hcheck _ => exact work_eraseIdx hcheck rfl rfl
  | resolved hcheck _ => exact work_eraseIdx hcheck rfl rfl
  | @finished call read creator outcome hcall _ =>
      cases outcome with
      | resolved => cases creator <;> exact work_setCall hcall rfl rfl (by simp [Call.work])
      | rejected => exact work_setCall hcall rfl rfl (by simp [Call.work])

variable [DecidableEq ι]

/-- No step of the store's own is left. -/
def Quiet (earlyBlocks : Bool) (decodes : β → Bool) (s : BlocksState β ι) : Prop :=
  ∀ a, Own s a → blocksStep earlyBlocks decodes s a = none

/-- From every state the store's own steps lead to a quiet one. -/
theorem exists_quiet (earlyBlocks : Bool) (decodes : β → Bool) (s : BlocksState β ι) :
    ∃ s', ((blocksMachine earlyBlocks decodes).startingAt s).Run Own s' ∧
      Quiet earlyBlocks decodes s' := by
  have hreach : ∀ n t, ((blocksMachine earlyBlocks decodes).startingAt s).Run Own t →
      t.work = n → ∃ s', ((blocksMachine earlyBlocks decodes).startingAt s).Run Own s' ∧
        Quiet earlyBlocks decodes s' := by
    intro n
    induction n using Nat.strongRecOn with
    | ind n ih =>
        intro t hrun hwork
        by_cases hquiet : Quiet earlyBlocks decodes t
        · exact ⟨t, hrun, hquiet⟩
        · unfold Quiet at hquiet
          push Not at hquiet
          obtain ⟨a, hown, hne⟩ := hquiet
          obtain ⟨t', hstep⟩ := Option.ne_none_iff_exists'.mp hne
          have hlt := work_lt hown (moves_of_step hstep)
          exact ih _ (hwork ▸ hlt) t' (.step hrun hown hstep) rfl
  exact hreach s.work s .init rfl

/-- The call ends only by returning the bytes, and has done so as soon as the
store has taken its own steps. -/
structure ReturnsBlock (earlyBlocks : Bool) (decodes : β → Bool) (s : BlocksState β ι)
    (call : Nat) (bytes : β) : Prop where
  ended : ∀ now, s.calls[call]? = some now → now.ended = true →
    now = .returned (some bytes)
  quiet : Quiet earlyBlocks decodes s →
    s.calls[call]? = some (.returned (some bytes))

omit [DecidableEq ι] in
theorem ended_eq_false_of_joined {call read : Nat} {now : Call β ι}
    (hcall : s.calls[call]? = some now) (hjoined : s.joined call = some read) :
    now.ended = false := by
  unfold BlocksState.joined at hjoined
  rw [hcall, Option.bind_some] at hjoined
  cases now with
  | returned | thrown => cases hjoined
  | _ => rfl

theorem not_quiet_of_resolved {call read : Nat} {outcome : Outcome β}
    (hjoined : s.joined call = some read)
    (houtcome : s.outcome read = some (some outcome)) :
    ¬ Quiet earlyBlocks decodes s := by
  intro hquiet
  obtain ⟨now, hnow, hread⟩ := Option.bind_eq_some_iff.mp hjoined
  cases now with
  | publishing r =>
      have hnone := hquiet (.published call) trivial
      simp only [blocksStep, hnow] at hnone
      cases hnone
  | waiting r creator =>
      cases hread
      have hnone := hquiet (.settled call) trivial
      have hsome : (s.reads[read]?).bind Read.outcome = some outcome := by
        obtain ⟨r, hr, hsettled⟩ := Option.map_eq_some_iff.mp houtcome
        rw [hr, Option.bind_some, hsettled]
      simp only [blocksStep, hnow, hsome] at hnone
      cases hnone
  | _ => cases hread

theorem Heard.returns {call read : Nat} {bytes : β} (h : Heard s call read bytes) :
    ReturnsBlock earlyBlocks decodes s call bytes := by
  cases h with
  | returned hcall =>
      refine ⟨fun now hnow _ => ?_, fun _ => hcall⟩
      rw [hcall] at hnow
      exact (Option.some.inj hnow).symm
  | resolved hjoined houtcome =>
      refine ⟨fun now hnow hended => ?_, fun hquiet => ?_⟩
      · rw [ended_eq_false_of_joined hnow hjoined] at hended
        cases hended
      · exact (not_quiet_of_resolved hjoined houtcome hquiet).elim
  | checking hwaits hcheck =>
      refine ⟨fun now hnow hended => ?_, fun hquiet => ?_⟩
      · rw [ended_eq_false_of_joined hnow hwaits.1] at hended
        cases hended
      · obtain ⟨check, hsome⟩ := List.mem_iff_getElem?.mp hcheck
        have hnone := hquiet (.checked check) trivial
        simp only [blocksStep, hsome] at hnone
        cases hnone

end OwnSteps

/-! ### Runs -/

section Runs

variable [DecidableEq ι] (earlyBlocks : Bool) (decodes : β → Bool)

/-- Calls only return bytes that decode.  After a run that meets the first guard,
a call that waits when correct bytes arrive returns them in every run that meets
the second. -/
structure RobustReads
    (Before : BlocksState β ι → BlocksAction β ι → Prop)
    (After : Nat → Nat → BlocksState β ι → BlocksAction β ι → Prop) : Prop where
  authentic : ∀ s, (blocksMachine (ι := ι) earlyBlocks decodes).Run Lib.Machine.Free s →
    Authentic decodes s
  hears : ∀ s, (blocksMachine earlyBlocks decodes).Run Before s →
    ∀ call read, Waits s call read → ∀ bytes, decodes bytes = true →
    ∀ s', blocksStep earlyBlocks decodes s (.response bytes) = some s' →
    ∀ s'', ((blocksMachine earlyBlocks decodes).startingAt s').Run
      (After call read) s'' →
    ReturnsBlock earlyBlocks decodes s'' call bytes

variable {earlyBlocks} {decodes} {s s' : BlocksState β ι}

theorem tableInv_init :
    TableInv (blocksMachine (ι := ι) earlyBlocks decodes).init := by
  constructor <;> simp [blocksMachine, BlocksState.outcome, BlocksState.owned]

theorem resolverInv_init :
    ResolverInv (blocksMachine (ι := ι) earlyBlocks decodes).init := by
  simp [blocksMachine, ResolverInv, BlocksState.outcome]

theorem authentic_init :
    Authentic decodes (blocksMachine (ι := ι) earlyBlocks decodes).init := by
  constructor <;> simp [blocksMachine, BlocksState.outcome]

theorem tableInv_of_run {Guard : BlocksState β ι → BlocksAction β ι → Prop}
    (hrun : (blocksMachine earlyBlocks decodes).Run Guard s) : TableInv s :=
  hrun.invariant tableInv_init
    (fun _ _ _ hinv _ hstep => hinv.step (moves_of_step hstep))

theorem resolverInv_of_run
    (hrun : (blocksMachine earlyBlocks decodes).Run (KeepsResolver decodes) s) :
    ResolverInv s := by
  have hboth : TableInv s ∧ ResolverInv s := by
    induction hrun with
    | init => exact ⟨tableInv_init, resolverInv_init⟩
    | step _ hguard hstep ih =>
        have hmoves := moves_of_step hstep
        exact ⟨ih.1.step hmoves, ih.2.step ih.1 hguard hmoves⟩
  exact hboth.2

theorem authentic_of_run
    (hrun : (blocksMachine earlyBlocks decodes).Run Lib.Machine.Free s) :
    Authentic decodes s :=
  hrun.invariant authentic_init
    (fun _ _ _ hinv _ hstep => hinv.step (moves_of_step hstep))

/-- A response that arrives when the resolver is in the table is checked. -/
theorem heard_of_response (hresolver : ResolverInv s) {call read : Nat} {bytes : β}
    (hwaits : Waits s call read)
    (hstep : blocksStep earlyBlocks decodes s (.response bytes) = some s') :
    Heard s' call read bytes := by
  have hread := hresolver read hwaits.2
  simp only [blocksStep, BlocksState.responseHandler, hread] at hstep
  obtain rfl := Option.some.inj hstep
  exact .checking hwaits (List.mem_append_right _ (List.mem_singleton.mpr rfl))

theorem returns_of_response
    (hfree : ∀ b b', decodes b = true → decodes b' = true → b = b')
    (hresolver : ResolverInv s) {call read : Nat} (hwaits : Waits s call read)
    {bytes : β} (hbytes : decodes bytes = true)
    (hstep : blocksStep earlyBlocks decodes s (.response bytes) = some s')
    {s'' : BlocksState β ι}
    (hrun : ((blocksMachine earlyBlocks decodes).startingAt s').Run
      (KeepsCheck call read) s'') :
    ReturnsBlock earlyBlocks decodes s'' call bytes := by
  have hheard : Heard s'' call read bytes := by
    induction hrun with
    | init => exact heard_of_response hresolver hwaits hstep
    | step _ hguard hnext ih =>
        exact ih.step hfree hbytes hguard (moves_of_step hnext)
  exact hheard.returns

/-- Reads are authentic, and hear every response, as long as no step removes the
resolver of another read and no timer or signal comes before the check. -/
theorem robustReads_of_guards (earlyBlocks : Bool) (decodes : β → Bool)
    (hfree : ∀ b b', decodes b = true → decodes b' = true → b = b') :
    RobustReads (ι := ι) earlyBlocks decodes (KeepsResolver decodes) KeepsCheck where
  authentic _ hrun := authentic_of_run hrun
  hears _ hrun _ _ hwaits _ hbytes _ hstep _ hrun' :=
    returns_of_response hfree (resolverInv_of_run hrun) hwaits hbytes hstep hrun'

end Runs

/-! ### Two calls -/

namespace TwoCalls

/-- Only the bytes seven decode. -/
def seven (bytes : Nat) : Bool := bytes == 7

theorem eq_of_seven (b b' : Nat) (hb : seven b = true) (hb' : seven b' = true) :
    b = b' :=
  (eq_of_beq hb).trans (eq_of_beq hb').symm

def quietly : RemoteOptions Nat := { signal := false, «from» := none }

def withSignal : RemoteOptions Nat := { signal := true, «from» := none }

def store : Lib.Machine (BlocksState Nat Nat) (BlocksAction Nat Nat) :=
  blocksMachine true seven

def request : BlockRequest Nat := { to_ := none, mode := .AnyWhere }

/-- A call waits; wrong bytes are being checked. -/
def waiting : BlocksState Nat Nat :=
  { blockCache := none, readFromPeersPromises := some 0, resolvers := some 0
    reads := [⟨quietly, none, true, false⟩], checks := [(0, 9)]
    calls := [.waiting 0 true], publishOnNewPeers := [0], requests := [request] }

/-- Correct bytes have come as well. -/
def answered : BlocksState Nat Nat := { waiting with checks := [(0, 9), (0, 7)] }

def returned : BlocksState Nat Nat :=
  { blockCache := none, readFromPeersPromises := none, resolvers := none
    reads := [⟨quietly, some (.resolved (some 7)), false, false⟩], checks := []
    calls := [.returned (some 7)], publishOnNewPeers := [], requests := [request] }

/-- The wrong bytes do not keep the call from returning the correct ones. -/
theorem returnsBlock_seven : ReturnsBlock true seven returned 0 7 := by
  have hwaiting : store.Run (KeepsResolver seven) waiting :=
    .step (a := .response 9) (.step (a := .published 0) (.step (a := .readFromPeers 0)
      (.step (a := .get (some quietly)) .init trivial rfl) trivial rfl) trivial rfl)
      trivial rfl
  have hreturned : (store.startingAt answered).Run (KeepsCheck 0 0) returned :=
    .step (a := .settled 0) (.step (a := .checked 0) (.step (a := .checked 0) .init
      trivial rfl) trivial rfl) trivial rfl
  exact (robustReads_of_guards true seven eq_of_seven).hears waiting hwaiting 0 0
    ⟨rfl, rfl⟩ 7 rfl answered rfl returned hreturned

/-- A second call waits, and its resolver is gone. -/
def secondWaits (first : RemoteOptions Nat) : BlocksState Nat Nat :=
  { blockCache := none, readFromPeersPromises := some 1, resolvers := none
    reads := [⟨first, some (.resolved (some 7)), false, false⟩,
      ⟨quietly, none, true, false⟩]
    checks := [], calls := [.returned (some 7), .waiting 1 true]
    publishOnNewPeers := [1], requests := [request, request] }

def secondCached (first : RemoteOptions Nat) : BlocksState Nat Nat :=
  { secondWaits first with blockCache := some 7 }

def secondMisses (first : RemoteOptions Nat) : BlocksState Nat Nat :=
  { secondCached first with
    readFromPeersPromises := none
    reads := [⟨first, some (.resolved (some 7)), false, false⟩,
      ⟨quietly, some (.resolved none), false, false⟩]
    calls := [.returned (some 7), .returned none], publishOnNewPeers := [] }

theorem not_robustReads_of_run (first : RemoteOptions Nat)
    {guard : BlocksState Nat Nat → BlocksAction Nat Nat → Bool}
    (hbefore : store.Run (fun s a => guard s a = true) (secondWaits first))
    (hafter : (store.startingAt (secondCached first)).Run
      (fun s a => guard s a = true) (secondMisses first)) :
    ¬ RobustReads true seven (fun s a => guard s a = true)
      (fun _ _ s a => guard s a = true) := by
  intro h
  have hreturns := h.hears (secondWaits first) hbefore 1 1 ⟨rfl, rfl⟩ 7 rfl
    (secondCached first) rfl (secondMisses first) hafter
  cases hreturns.ended (.returned none) rfl rfl

/-- No signal fires. -/
def noAbort (_ : BlocksState Nat Nat) : BlocksAction Nat Nat → Bool
  | .abort _ => false
  | _ => true

/-- Checks end before anything else happens. -/
def checksFirst (s : BlocksState Nat Nat) : BlocksAction Nat Nat → Bool
  | .checked _ => true
  | _ => s.checks.isEmpty

/-- The second call misses the block when another response to the first is checked
late, and also when all checks are prompt and the signal of the first call fires
late. -/
theorem not_robustReads_secondCall :
    ¬ RobustReads true seven (fun s a => noAbort s a = true)
        (fun _ _ s a => noAbort s a = true) ∧
      ¬ RobustReads true seven (fun s a => checksFirst s a = true)
        (fun _ _ s a => checksFirst s a = true) := by
  constructor
  · exact not_robustReads_of_run quietly
      (.of_execIf .init [.get (some quietly), .readFromPeers 0, .published 0,
        .response 7, .response 7, .checked 0, .settled 0, .get (some quietly),
        .readFromPeers 1, .published 1, .checked 0] rfl)
      (.of_execIf .init [.timeout 1, .settled 1] rfl)
  · exact not_robustReads_of_run withSignal
      (.of_execIf .init [.get (some withSignal), .readFromPeers 0, .published 0,
        .response 7, .checked 0, .settled 0, .get (some quietly),
        .readFromPeers 1, .published 1, .abort 0] rfl)
      (.of_execIf .init [.timeout 1, .settled 1] rfl)

end TwoCalls

end Blocks
end Peerbit
