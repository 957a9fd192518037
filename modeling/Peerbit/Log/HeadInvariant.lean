import Peerbit.Log.LogCalls

/-!
# When the head flags are exact

An entry is a head when no stored entry other than a cut lists it in its next
pointers.  The index keeps a flag for this, call by call.

There are three ways for a call to spoil the flag.  It stores an entry as a head
although a stored entry lists it; it stores an entry as no head, counting on an
entry that follows it and is then not stored; or it deletes an entry while the
only entries that list one of its parents are cuts, which the count of pointers
takes for others.  `CleanCalls` says that a list of calls does none of these, and
then the flags stay exact.
-/

namespace Peerbit
namespace Log

/-! ### The invariant -/

namespace HeadsIndex

/-- A stored entry that is no cut lists the hash. -/
def Listed (index : HeadsIndex) (k : Hash) : Prop :=
  ∃ f ∈ index.sortables, f.meta.type ≠ .CUT ∧ k ∈ f.meta.next

/-- A stored entry of another hash does. -/
def ListedByOther (index : HeadsIndex) (k : Hash) : Prop :=
  ∃ f ∈ index.sortables, f.hash ≠ k ∧ f.meta.type ≠ .CUT ∧ k ∈ f.meta.next

/-- A stored cut lists the hash. -/
def ListedByCut (index : HeadsIndex) (k : Hash) : Prop :=
  ∃ f ∈ index.sortables, f.meta.type = .CUT ∧ k ∈ f.meta.next

/-- Each stored entry is flagged as a head exactly when nothing lists it. -/
def HeadExact (index : HeadsIndex) : Prop :=
  ∀ e ∈ index, e.head = true ↔ ¬ index.Listed e.hash

/-! ### What the updates do to the flags -/

theorem countHasNext_eq_zero_iff {index : HeadsIndex} {k : Hash} :
    index.countHasNext k none = 0 ↔
      ∀ f ∈ index.sortables, k ∉ f.meta.next := by
  simp [countHasNext, mem_sortables]

theorem countHasNext_congr
    {index index' : HeadsIndex} (h : index'.sortables = index.sortables)
    (k : Hash) :
    index'.countHasNext k none = 0 ↔ index.countHasNext k none = 0 := by
  rw [countHasNext_eq_zero_iff, countHasNext_eq_zero_iff, h]

/-- The flag of an entry after `updateHead` for the hashes of a set. -/
def flagged (isHead : Bool) (index : HeadsIndex) (nexts : List Hash)
    (e : ShallowEntry) : ShallowEntry :=
  if e.hash ∈ nexts ∧ (isHead = true → index.countHasNext e.hash none = 0) then
    { e with head := isHead }
  else
    e

theorem put_flag_eq_map
    {index : HeadsIndex} (hkeyed : index.Keyed) {entry : ShallowEntry}
    {next : Hash} (hget : index.get next = some entry) (isHead : Bool) :
    index.put { entry with head := isHead } =
      index.map (fun e => if e.hash = next then { e with head := isHead } else e)
    := by
  obtain ⟨hmem, hhash⟩ := get_eq_some hget
  have hsome : (index.get entry.hash).isSome = true := by
    rw [hhash, hget]
    rfl
  simp only [HeadsIndex.put, hsome, if_true]
  refine List.map_congr_left ?_
  intro e he
  rw [hhash]
  split
  · rename_i heq
    rw [hkeyed.eq_of_hash he hmem (heq.trans hhash.symm)]
  · rfl

theorem updateHead_eq_map
    {index : HeadsIndex} (hkeyed : index.Keyed) (isHead : Bool) (next : Hash) :
    updateHead isHead index next = index.map (flagged isHead index [next]) := by
  cases hget : index.get next with
  | none =>
      have habsent : ∀ e ∈ index, e.hash ≠ next := by
        intro e he hhash
        have hsome := isSome_get_iff.mpr ⟨e, he, hhash⟩
        simp [hget] at hsome
      have hsame : index.map (flagged isHead index [next]) = index.map id := by
        refine List.map_congr_left ?_
        intro e he
        simp [flagged, habsent e he]
      simp [updateHead, hget, hsame]
  | some entry =>
      simp only [updateHead, hget]
      cases isHead with
      | false =>
          simp only [Bool.false_eq_true, if_false]
          rw [put_flag_eq_map hkeyed hget]
          refine List.map_congr_left ?_
          intro e _
          simp [flagged]
      | true =>
          simp only [if_true]
          split
          · rename_i hzero
            rw [put_flag_eq_map hkeyed hget]
            refine List.map_congr_left ?_
            intro e _
            by_cases hnext : e.hash = next
            · simp [flagged, hnext, hzero]
            · simp [flagged, hnext]
          · rename_i hcount
            have hsame :
                index.map (flagged true index [next]) = index.map id := by
              refine List.map_congr_left ?_
              intro e _
              by_cases hnext : e.hash = next
              · simp [flagged, hnext, hcount]
              · simp [flagged, hnext]
            rw [hsame, List.map_id]

/-- Two updates in a row, where the second sees the count of the first. -/
theorem flagged_flagged
    {isHead : Bool} {index index' : HeadsIndex} {next : Hash}
    {nexts : List Hash} {e : ShallowEntry}
    (hcount : index'.countHasNext e.hash none = 0 ↔
      index.countHasNext e.hash none = 0) :
    flagged isHead index' nexts (flagged isHead index [next] e) =
      flagged isHead index (next :: nexts) e := by
  by_cases hzero : isHead = true → index.countHasNext e.hash none = 0
  · have hzero' : isHead = true → index'.countHasNext e.hash none = 0 :=
      fun h => hcount.mpr (hzero h)
    by_cases hnext : e.hash = next
    · have hfirst : flagged isHead index [next] e = { e with head := isHead } :=
        if_pos ⟨List.mem_singleton.mpr hnext, hzero⟩
      have hboth :
          flagged isHead index (next :: nexts) e = { e with head := isHead } :=
        if_pos ⟨List.mem_cons.mpr (Or.inl hnext), hzero⟩
      rw [hboth, hfirst]
      unfold flagged
      split <;> rfl
    · have hfirst : flagged isHead index [next] e = e :=
        if_neg (fun h => hnext (List.mem_singleton.mp h.1))
      rw [hfirst]
      unfold flagged
      by_cases hmem : e.hash ∈ nexts
      · rw [if_pos ⟨hmem, hzero'⟩, if_pos ⟨List.mem_cons_of_mem _ hmem, hzero⟩]
      · have hnot : e.hash ∉ next :: nexts := by simp [hnext, hmem]
        rw [if_neg (fun h => hmem h.1), if_neg (fun h => hnot h.1)]
  · have hzero' : ¬ (isHead = true → index'.countHasNext e.hash none = 0) :=
      fun h => hzero (fun hhead => hcount.mp (h hhead))
    have hfirst : flagged isHead index [next] e = e :=
      if_neg (fun h => hzero h.2)
    rw [hfirst]
    unfold flagged
    rw [if_neg (fun h => hzero' h.2), if_neg (fun h => hzero h.2)]

theorem foldl_updateHead_eq_map
    {index : HeadsIndex} (hkeyed : index.Keyed) (isHead : Bool)
    (nexts : List Hash) :
    nexts.foldl (updateHead isHead) index =
      index.map (flagged isHead index nexts) := by
  induction nexts generalizing index with
  | nil =>
      have hsame : index.map (flagged isHead index []) = index.map id := by
        refine List.map_congr_left ?_
        intro e _
        simp [flagged]
      simp [hsame]
  | cons next nexts ih =>
      obtain ⟨hkeyed', hsortables⟩ := updateHead_spec hkeyed isHead next
      rw [List.foldl_cons, ih hkeyed']
      rw [updateHead_eq_map hkeyed] at hsortables ⊢
      rw [List.map_map]
      refine List.map_congr_left ?_
      intro e _
      exact flagged_flagged (countHasNext_congr hsortables e.hash)

theorem putEntry_eq_map
    {α : Type} {index : HeadsIndex} (hkeyed : index.Keyed) (entry : Entry α)
    (isHead : Bool) :
    index.putEntry entry isHead =
      (index.put (entry.toShallow isHead)).map (fun e =>
        if entry.meta.type ≠ .CUT ∧ e.hash ∈ entry.meta.next then
          { e with head := false }
        else e) := by
  unfold HeadsIndex.putEntry privateUpdateNextHeadProperty
  split
  · rename_i hcut
    simp [hcut]
  · rename_i hcut
    rw [foldl_updateHead_eq_map (hkeyed.put _)]
    refine List.map_congr_left ?_
    intro e _
    simp [flagged, hcut]

theorem deleteEntry_eq_map
    {index : HeadsIndex} (hkeyed : index.Keyed) {k : Hash}
    (hstored : (index.get k).isSome = true) (from_ : SortableEntry) :
    index.deleteEntry k from_ =
      (index.del k).map (fun e =>
        if from_.meta.type ≠ .CUT ∧ e.hash ∈ from_.meta.next ∧
            (index.del k).countHasNext e.hash none = 0 then
          { e with head := true }
        else e) := by
  unfold HeadsIndex.deleteEntry privateUpdateNextHeadProperty
  rw [if_pos hstored]
  split
  · rename_i hcut
    simp [hcut]
  · rename_i hcut
    rw [foldl_updateHead_eq_map (hkeyed.del k)]
    refine List.map_congr_left ?_
    intro e _
    simp [flagged, hcut]

end HeadsIndex

/-! ### Clean calls -/

section Clean

variable {α : Type}

/-- The call clears the flag of the entry for good, or deletes the entry. -/
def IndexCall.Settles (k : Hash) : IndexCall α → Prop
  | .put entry _ => entry.meta.type ≠ .CUT ∧ k ∈ entry.meta.next
  | .delete k' _ => k' = k

def Settled (calls : List (IndexCall α)) (k : Hash) : Prop :=
  ∃ call ∈ calls, call.Settles k

/-- The call does not spoil a flag.  `rest` are the calls of the operation that
are still to come. -/
def CleanCall (index : HeadsIndex) (rest : List (IndexCall α)) :
    IndexCall α → Prop
  | .put entry isHead =>
      -- a hash stands for one content
      (∀ f ∈ index.sortables, f.hash = entry.hash →
        f = entry.toSortableEntry) ∧
      (isHead = true → ¬ index.ListedByOther entry.hash) ∧
      (isHead = false →
        index.ListedByOther entry.hash ∨ Settled rest entry.hash)
  | .delete k from_ =>
      from_.meta.type ≠ .CUT → ∀ a ∈ from_.meta.next,
        (index.del k).ListedByCut a →
          (index.del k).Listed a ∨ Settled rest a

/-- No call of the list spoils a flag. -/
def CleanCalls : HeadsIndex → List (IndexCall α) → Prop
  | _, [] => True
  | index, call :: rest =>
      CleanCall index rest call ∧ CleanCalls (call.apply index) rest

/-- The invariant between the calls of an operation: a flag that was cleared
too early is settled by a later call. -/
def HeadUpTo (index : HeadsIndex) (rest : List (IndexCall α)) : Prop :=
  ∀ e ∈ index,
    (e.head = true → ¬ index.Listed e.hash) ∧
      (e.head = false → index.Listed e.hash ∨ Settled rest e.hash)

theorem headUpTo_nil {index : HeadsIndex} :
    HeadUpTo index ([] : List (IndexCall α)) ↔ index.HeadExact := by
  constructor
  · intro h e he
    obtain ⟨htrue, hfalse⟩ := h e he
    constructor
    · exact htrue
    · intro hnot
      cases hhead : e.head with
      | true => rfl
      | false =>
          rcases hfalse hhead with hlisted | ⟨call, hcall, _⟩
          · exact absurd hlisted hnot
          · simp at hcall
  · intro h e he
    refine ⟨(h e he).mp, ?_⟩
    intro hhead
    by_cases hlisted : index.Listed e.hash
    · exact Or.inl hlisted
    · rw [(h e he).mpr hlisted] at hhead
      cases hhead

theorem HeadUpTo.of_exact
    {index : HeadsIndex} (h : index.HeadExact) (rest : List (IndexCall α)) :
    HeadUpTo index rest := by
  intro e he
  obtain ⟨htrue, hfalse⟩ := (headUpTo_nil (α := α)).mpr h e he
  refine ⟨htrue, ?_⟩
  intro hhead
  rcases hfalse hhead with hlisted | ⟨call, hcall, _⟩
  · exact Or.inl hlisted
  · simp at hcall

theorem settled_cons
    {call : IndexCall α} {rest : List (IndexCall α)} {k : Hash} :
    Settled (call :: rest) k ↔ call.Settles k ∨ Settled rest k := by
  simp [Settled]

/-- Storing an entry keeps the invariant. -/
theorem HeadUpTo.put
    {index : HeadsIndex} (hkeyed : index.Keyed) {entry : Entry α}
    {isHead : Bool} {rest : List (IndexCall α)}
    (h : HeadUpTo index (.put entry isHead :: rest))
    (hclean : CleanCall index rest (.put entry isHead)) :
    HeadUpTo (index.putEntry entry isHead) rest := by
  obtain ⟨hsame, hhead, hnohead⟩ := hclean
  -- who lists a hash afterwards
  have hlisted :
      ∀ k, (index.putEntry entry isHead).Listed k ↔
        (entry.meta.type ≠ .CUT ∧ k ∈ entry.meta.next) ∨
          ∃ f ∈ index.sortables, f.hash ≠ entry.hash ∧ f.meta.type ≠ .CUT ∧
            k ∈ f.meta.next := by
    intro k
    constructor
    · rintro ⟨f, hf, htype, hk⟩
      rcases (HeadsIndex.mem_sortables_putEntry hkeyed).mp hf with rfl | ⟨hf, hne⟩
      · exact Or.inl ⟨htype, hk⟩
      · exact Or.inr ⟨f, hf, hne, htype, hk⟩
    · rintro (⟨htype, hk⟩ | ⟨f, hf, hne, htype, hk⟩)
      · exact ⟨entry.toSortableEntry,
          (HeadsIndex.mem_sortables_putEntry hkeyed).mpr (Or.inl rfl), htype,
          hk⟩
      · exact ⟨f, (HeadsIndex.mem_sortables_putEntry hkeyed).mpr
          (Or.inr ⟨hf, hne⟩), htype, hk⟩
  intro e he
  rw [HeadsIndex.putEntry_eq_map hkeyed, List.mem_map] at he
  obtain ⟨e, he, rfl⟩ := he
  split
  · -- the entry lists it
    rename_i hnext
    refine ⟨fun h => (nomatch h), fun _ => Or.inl ?_⟩
    exact (hlisted e.hash).mpr (Or.inl hnext)
  · rename_i hnext
    rcases HeadsIndex.mem_put.mp he with rfl | ⟨he, hne⟩
    · -- the entry itself
      constructor
      · intro htrue hcontra
        rcases (hlisted _).mp hcontra with hself | ⟨f, hf, hne, htype, hk⟩
        · exact hnext hself
        · exact hhead htrue ⟨f, hf, hne, htype, hk⟩
      · intro hfalse
        rcases hnohead hfalse with ⟨f, hf, hne, htype, hk⟩ | hsettled
        · exact Or.inl ((hlisted _).mpr (Or.inr ⟨f, hf, hne, htype, hk⟩))
        · exact Or.inr hsettled
    · -- an entry stored before
      obtain ⟨htrue, hfalse⟩ := h e he
      constructor
      · intro hflag hcontra
        rcases (hlisted _).mp hcontra with hself | ⟨f, hf, _, htype, hk⟩
        · exact hnext hself
        · exact htrue hflag ⟨f, hf, htype, hk⟩
      · intro hflag
        rcases hfalse hflag with ⟨f, hf, htype, hk⟩ | hsettled
        · refine Or.inl ((hlisted _).mpr (Or.inr ⟨f, hf, ?_, htype, hk⟩))
          intro hhash
          rw [hsame f hf hhash] at htype hk
          exact hnext ⟨htype, hk⟩
        · rcases settled_cons.mp hsettled with hself | hsettled
          · exact absurd hself hnext
          · exact Or.inr hsettled

/-- Deleting an entry keeps the invariant. -/
theorem HeadUpTo.delete
    {index : HeadsIndex} (hkeyed : index.Keyed) {k : Hash}
    {from_ : SortableEntry} {rest : List (IndexCall α)}
    (h : HeadUpTo index (.delete k from_ :: rest))
    (hagrees : (IndexCall.delete k from_ : IndexCall α).Agrees index)
    (hclean : CleanCall index rest (.delete k from_)) :
    HeadUpTo (index.deleteEntry k from_) rest := by
  by_cases hstored : (index.get k).isSome = true
  · have hlisted :
        ∀ j, (index.deleteEntry k from_).Listed j ↔ (index.del k).Listed j := by
      intro j
      have hsortables :
          (index.deleteEntry k from_).sortables = (index.del k).sortables := by
        unfold HeadsIndex.deleteEntry
        rw [if_pos hstored]
        exact (HeadsIndex.privateUpdateNextHeadProperty_spec
          (hkeyed.del k) _ _).2
      unfold HeadsIndex.Listed
      rw [hsortables]
    have hsub : ∀ j, (index.del k).Listed j → index.Listed j := by
      rintro j ⟨f, hf, htype, hj⟩
      obtain ⟨x, hx, rfl⟩ := HeadsIndex.mem_sortables.mp hf
      exact ⟨_, HeadsIndex.mem_sortables.mpr
        ⟨x, (HeadsIndex.mem_del.mp hx).1, rfl⟩, htype, hj⟩
    intro e he
    rw [HeadsIndex.deleteEntry_eq_map hkeyed hstored, List.mem_map] at he
    obtain ⟨e, he, rfl⟩ := he
    obtain ⟨hmem, hne⟩ := HeadsIndex.mem_del.mp he
    obtain ⟨htrue, hfalse⟩ := h e hmem
    split
    · -- nothing points to it any more
      rename_i hparent
      refine ⟨fun _ hcontra => ?_, fun h => (nomatch h)⟩
      obtain ⟨f, hf, _, hj⟩ := (hlisted _).mp hcontra
      exact HeadsIndex.countHasNext_eq_zero_iff.mp hparent.2.2 f hf hj
    · rename_i hparent
      refine ⟨fun hflag hcontra =>
        htrue hflag (hsub _ ((hlisted _).mp hcontra)), ?_⟩
      intro hflag
      rcases hfalse hflag with ⟨f, hf, htype, hj⟩ | hsettled
      · obtain ⟨x, hx, rfl⟩ := HeadsIndex.mem_sortables.mp hf
        by_cases hk : x.hash = k
        · -- the deleted entry listed it; so does something else
          have hmeta : x.meta = from_.meta := hagrees x hx hk
          rw [hmeta] at htype hj
          have hcount : (index.del k).countHasNext e.hash none ≠ 0 :=
            fun hzero => hparent ⟨htype, hj, hzero⟩
          rw [ne_eq, HeadsIndex.countHasNext_eq_zero_iff] at hcount
          obtain ⟨g, hg, hgj⟩ : ∃ g ∈ (index.del k).sortables,
              e.hash ∈ g.meta.next := by
            by_contra hnone
            exact hcount (fun g hg hgj => hnone ⟨g, hg, hgj⟩)
          by_cases hcut : g.meta.type = .CUT
          · rcases hclean htype e.hash hj ⟨g, hg, hcut, hgj⟩ with hl | hs
            · exact Or.inl ((hlisted _).mpr hl)
            · exact Or.inr hs
          · exact Or.inl ((hlisted _).mpr ⟨g, hg, hcut, hgj⟩)
        · refine Or.inl ((hlisted _).mpr ⟨_, ?_, htype, hj⟩)
          exact HeadsIndex.mem_sortables.mpr
            ⟨x, HeadsIndex.mem_del.mpr ⟨hx, hk⟩, rfl⟩
      · rcases settled_cons.mp hsettled with hself | hsettled
        · exact absurd hself.symm hne
        · exact Or.inr hsettled
  · -- the entry was not stored
    have hsame : index.deleteEntry k from_ = index := by
      unfold HeadsIndex.deleteEntry
      rw [if_neg hstored]
    rw [hsame]
    intro e he
    obtain ⟨htrue, hfalse⟩ := h e he
    refine ⟨htrue, fun hflag => ?_⟩
    rcases hfalse hflag with hlisted | hsettled
    · exact Or.inl hlisted
    · rcases settled_cons.mp hsettled with hself | hsettled
      · exact absurd (HeadsIndex.isSome_get_iff.mpr ⟨e, he, hself.symm⟩) hstored
      · exact Or.inr hsettled

/-- Clean calls keep the flags exact. -/
theorem headExact_of_cleanCalls
    {first last : HeadsIndex} {calls : List (IndexCall α)}
    (hrun : CallsRun first calls last) (hkeyed : first.Keyed)
    (hclean : CleanCalls first calls) (h : first.HeadExact) :
    last.HeadExact := by
  have hupto : HeadUpTo first calls := .of_exact h calls
  clear h
  induction hrun with
  | nil => exact headUpTo_nil.mp hupto
  | @cons index last call calls hagrees hrest ih =>
      obtain ⟨hcall, hcalls⟩ := hclean
      refine ih (IndexCall.keyed_apply hkeyed call) hcalls ?_
      cases call with
      | put entry isHead => exact hupto.put hkeyed hcall
      | delete k from_ => exact hupto.delete hkeyed hagrees hcall

end Clean

/-! ### Runs of the log -/

section Runs

variable {α σ : Type} (env : LogEnv α σ)

/-- The calls that an operation makes. -/
def LogOp.calls (fuel : Nat) (s : LogState α σ) (op : LogOp α) :
    List (IndexCall α) :=
  (op.run env fuel s).entryIndex.calls.drop s.entryIndex.calls.length

/-- A run of operations whose calls are all clean. -/
inductive CleanRun : LogState α σ → LogState α σ → Prop
  | refl {s : LogState α σ} : CleanRun s s
  | step {s s' : LogState α σ} {op : LogOp α} {fuel : Nat}
      (hrun : CleanRun s s')
      (hclean : CleanCalls s'.entryIndex.index (op.calls env fuel s')) :
      CleanRun s (op.run env fuel s')

/-- A run of operations. -/
inductive LogRun : LogState α σ → LogState α σ → Prop
  | refl {s : LogState α σ} : LogRun s s
  | step {s s' : LogState α σ} {op : LogOp α} {fuel : Nat}
      (hrun : LogRun s s') :
      LogRun s (op.run env fuel s')

theorem callsRun_calls (fuel : Nat) {s : LogState α σ}
    (hkeyed : s.entryIndex.index.Keyed) (op : LogOp α) :
    CallsRun s.entryIndex.index (op.calls env fuel s)
      (op.run env fuel s).entryIndex.index := by
  obtain ⟨calls, hcalls, hrun⟩ := follows_run env fuel s op hkeyed
  have hdrop : op.calls env fuel s = calls := by
    unfold LogOp.calls
    rw [hcalls, List.drop_left]
  rw [hdrop]
  exact hrun

/-- In every state of a clean run the head flags are exact. -/
theorem headExact_of_cleanRun
    {app : σ} {s : LogState α σ} (hrun : CleanRun env (.open app) s) :
    s.entryIndex.index.HeadExact := by
  suffices hboth :
      s.entryIndex.index.Keyed ∧ s.entryIndex.index.HeadExact from hboth.2
  generalize hfirst : LogState.open app = first at hrun
  induction hrun with
  | refl =>
      subst hfirst
      exact ⟨List.nodup_nil, fun e he => by simp [LogState.open, EntryIndex.empty] at he⟩
  | @step s' op fuel hrun hclean ih =>
      obtain ⟨hkeyed, hexact⟩ := ih
      have hcalls := callsRun_calls env fuel hkeyed op
      exact ⟨hcalls.keyed hkeyed,
        headExact_of_cleanCalls hcalls hkeyed hclean hexact⟩

end Runs

/-! ### A parent that arrives late -/

namespace LateParent

/-- A log of strings, each its own hash. -/
def env : LogEnv String Unit where
  sortFn := LastWriteWins
  canAppend app index _ := (.ok true, { app := app, cache := index.cache })
  onChange app index _ := (.ok (), { app := app, cache := index.cache })
  trim := none
  canTrim _ _ _ := true
  cacheId _ _ := none
  remote _ := none
  hashOf _ payload := payload
  byteLengthOf _ := 1

def clockAt (wallTime : Nat) : Clock :=
  { id := "writer", timestamp := { wallTime := wallTime, logical := 0 } }

def entryA : Entry String :=
  { hash := "a", «meta» := ⟨clockAt 1, "g", [], .APPEND⟩, payload := "a"
    payloadSize := 1 }

def entryB : Entry String :=
  { hash := "b", «meta» := ⟨clockAt 2, "g", ["a"], .APPEND⟩, payload := "b"
    payloadSize := 1 }

def appendA : LogOp String := .append "a" { gid := "g", clock := clockAt 1 }

def appendB : LogOp String := .append "b" { gid := "g", clock := clockAt 2 }

def one : LogState String Unit := appendA.run env 10 (.open ())

def two : LogState String Unit := appendB.run env 10 one

/-- The parent is removed and then joined again. -/
def three : LogState String Unit := (LogOp.delete "a").run env 10 two

def four : LogState String Unit := (LogOp.join [entryA] {}).run env 10 three

/-- It is stored as a head, although its child is there and lists it. -/
theorem not_headExact :
    LogRun env (.open ()) four ∧ ¬ four.entryIndex.index.HeadExact := by
  refine ⟨.step (.step (.step (.step .refl))), ?_⟩
  have hindex :
      four.entryIndex.index = [entryB.toShallow true, entryA.toShallow true] := by
    decide
  rw [hindex]
  intro hexact
  refine (hexact (entryA.toShallow true) (by simp)).mp rfl ?_
  exact ⟨entryB.toSortableEntry,
    HeadsIndex.mem_sortables.mpr ⟨entryB.toShallow true, by simp, rfl⟩,
    by decide, by decide⟩

/-- Up to there the run is clean. -/
theorem headExact_two :
    CleanRun env (.open ()) two ∧ two.entryIndex.index.HeadExact := by
  have hone : one.entryIndex.index = [entryA.toShallow true] := by decide
  have hcallsA : appendA.calls env 10 (.open ()) = [.put entryA true] := by
    decide
  have hcallsB : appendB.calls env 10 one = [.put entryB true] := by decide
  have hclean : CleanRun env (.open ()) two := by
    refine .step (.step .refl ?_) ?_
    · rw [hcallsA]
      refine ⟨⟨?_, fun _ h => ?_, fun h => nomatch h⟩, trivial⟩
      · intro f hf
        cases hf
      · obtain ⟨f, hf, _⟩ := h
        cases hf
    · have hsortables :
          one.entryIndex.index.sortables = [entryA.toSortableEntry] := by
        rw [hone]
        rfl
      change CleanCalls one.entryIndex.index (appendB.calls env 10 one)
      rw [hcallsB]
      refine ⟨⟨?_, fun _ h => ?_, fun h => nomatch h⟩, trivial⟩
      · intro f hf hhash
        rw [hsortables, List.mem_singleton] at hf
        subst hf
        exact absurd hhash (by decide)
      · obtain ⟨f, hf, _, _, hnext⟩ := h
        rw [hsortables, List.mem_singleton] at hf
        subst hf
        exact absurd hnext (by decide)
  exact ⟨hclean, headExact_of_cleanRun env hclean⟩

end LateParent

end Log
end Peerbit
