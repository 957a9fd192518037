import Peerbit.Log.Log

/-!
# The operations by their calls

Whatever an operation of the log does, it changes the index of the entries only
by calls of `put` and `delete`, which the entry index records.  So a property of
the index that all calls keep is kept by the operations.
-/

namespace Peerbit
namespace Log

/-! ### Trim -/

section Trim

variable {α : Type} (env : TrimEnv)

theorem follows_deleteNode (s : EntryIndex α) (node : ShallowEntry) :
    Follows s (deleteNode s node).2 ∧ Shrinks s (deleteNode s node).2 := by
  have hget : Follows s (s.get node.hash).2 :=
    .of_index_eq (by simp) (by simp)
  have hdelete : Follows (s.get node.hash).2
      ((s.get node.hash).2.delete node.hash none) :=
    EntryIndex.follows_delete _ _ _ (by simp)
  have hrm : Follows ((s.get node.hash).2.delete node.hash none)
      (deleteNode s node).2 := .of_index_eq rfl rfl
  refine ⟨(hget.trans hdelete).trans hrm, ?_⟩
  refine (hget.trans hdelete).shrinks_trans ?_ (.of_index_eq rfl)
  exact hget.shrinks_trans (.of_index_eq (by simp))
    (EntryIndex.shrinks_delete _ _ _)

theorem follows_trimVisit (option : TrimOptions) (s : TrimLoop α)
    (node : ShallowEntry) :
    Follows s.entryIndex (trimVisit env option s node).entryIndex ∧
      Shrinks s.entryIndex (trimVisit env option s node).entryIndex := by
  unfold trimVisit
  simp only
  split
  · exact follows_deleteNode s.entryIndex node
  · exact ⟨.refl _, .of_index_eq rfl⟩

theorem follows_trimLoop (option : TrimOptions)
    (startNode tail : Option ShallowEntry) (turns : Bool) (fuel : Nat)
    (s : TrimLoop α) :
    Follows s.entryIndex
        (trimLoop env option startNode tail turns fuel s).entryIndex ∧
      Shrinks s.entryIndex
        (trimLoop env option startNode tail turns fuel s).entryIndex := by
  induction fuel generalizing s with
  | zero => exact ⟨.refl _, .of_index_eq rfl⟩
  | succ fuel ih =>
      unfold trimLoop
      split
      · exact ⟨.refl _, .of_index_eq rfl⟩
      · rename_i node hnode
        have hvisit := follows_trimVisit env option s node
        split
        · simp only
          split
          · split
            · have hrest := ih
                { trimVisit env option s node with
                  node := tail, looped := true }
              exact ⟨hvisit.1.trans hrest.1,
                hvisit.1.shrinks_trans hvisit.2 hrest.2⟩
            · exact hvisit
          · have hrest := ih (trimVisit env option s node)
            exact ⟨hvisit.1.trans hrest.1,
              hvisit.1.shrinks_trans hvisit.2 hrest.2⟩
        · exact ⟨.refl _, .of_index_eq rfl⟩

theorem follows_trimTask (option : TrimOptions) (s : EntryIndex α)
    (t : TrimState) :
    Follows s (trimTask env option s t).2.1 ∧
      Shrinks s (trimTask env option s t).2.1 := by
  unfold trimTask
  simp only
  split
  · exact ⟨.refl _, .of_index_eq rfl⟩
  · exact follows_trimLoop env option _ _ _ _ (trimStart s _)

end Trim

section Operations

variable {α σ : Type} (env : LogEnv α σ)

/-! ### Deletions -/

theorem pushNexts_index (entry : SortableEntry) (nexts : List Hash)
    (s : LogState α σ) (stack : List SortableEntry) :
    (pushNexts entry nexts s stack).1.entryIndex.index = s.entryIndex.index ∧
      (pushNexts entry nexts s stack).1.entryIndex.calls =
        s.entryIndex.calls := by
  induction nexts generalizing s stack with
  | nil => exact ⟨rfl, rfl⟩
  | cons next nexts ih =>
      unfold pushNexts
      simp only
      split
      · exact ih s stack
      · split
        · rename_i ne s' hget
          obtain ⟨hindex, hcalls⟩ := ih s' (ne.toSortableEntry :: stack)
          have hs' : s' = (s.get next).2 := by rw [hget]
          subst hs'
          exact ⟨hindex.trans (EntryIndex.get_index _ _),
            hcalls.trans (EntryIndex.get_calls _ _)⟩
        · rename_i s' hget
          obtain ⟨hindex, hcalls⟩ := ih s' stack
          have hs' : s' = (s.get next).2 := by rw [hget]
          subst hs'
          exact ⟨hindex.trans (EntryIndex.get_index _ _),
            hcalls.trans (EntryIndex.get_calls _ _)⟩

/-- Preparing deletions changes nothing, and prepares them with stored
entries. -/
theorem prepareDeleteLoop_spec (fuel : Nat) (skip : Bool) (s : LogState α σ)
    (stack : List SortableEntry) (toDelete : List PendingDelete)
    (hstored : ∀ p ∈ toDelete, p ∈ s.entryIndex.index) :
    let prepared := prepareDeleteLoop fuel skip s stack toDelete
    prepared.2.entryIndex.index = s.entryIndex.index ∧
      prepared.2.entryIndex.calls = s.entryIndex.calls ∧
      ∀ pending, prepared.1 = .ok pending →
        ∀ p ∈ pending, p ∈ s.entryIndex.index := by
  induction fuel generalizing skip s stack toDelete with
  | zero =>
      cases stack with
      | nil =>
          refine ⟨rfl, rfl, ?_⟩
          intro pending hpending
          obtain rfl := Except.ok.inj hpending
          exact hstored
      | cons entry stack => exact ⟨rfl, rfl, fun _ h => nomatch h⟩
  | succ fuel ih =>
      cases stack with
      | nil =>
          refine ⟨rfl, rfl, ?_⟩
          intro pending hpending
          obtain rfl := Except.ok.inj hpending
          exact hstored
      | cons entry stack =>
          obtain ⟨hindex, hcalls⟩ :=
            pushNexts_index entry entry.meta.next s stack
          have hstored' :
              ∀ p ∈ (if skip then toDelete
                  else toDelete ++ (prepareDelete s entry.hash).toList),
                p ∈ (pushNexts entry entry.meta.next s stack).1.entryIndex.index
              := by
            intro p hp
            rw [hindex]
            split at hp
            · exact hstored p hp
            · rcases List.mem_append.mp hp with hp | hp
              · exact hstored p hp
              · exact (HeadsIndex.get_eq_some (Option.mem_toList.mp hp)).1
          obtain ⟨hindex', hcalls', hpending⟩ :=
            ih false _ (pushNexts entry entry.meta.next s stack).2 _ hstored'
          unfold prepareDeleteLoop
          refine ⟨hindex'.trans hindex, hcalls'.trans hcalls, ?_⟩
          intro pending heq p hp
          rw [← hindex]
          exact hpending pending heq p hp

theorem prepareDeleteRecursively_spec (fuel : Nat) (s : LogState α σ)
    (from_ : List SortableEntry) (skipFirst : Bool) :
    let prepared := prepareDeleteRecursively fuel s from_ skipFirst
    prepared.2.entryIndex.index = s.entryIndex.index ∧
      prepared.2.entryIndex.calls = s.entryIndex.calls ∧
      ∀ pending, prepared.1 = .ok pending →
        ∀ p ∈ pending, p ∈ s.entryIndex.index :=
  prepareDeleteLoop_spec fuel skipFirst s from_.reverse [] (by simp)

theorem processEntry_spec (fuel : Nat) (s : LogState α σ) (entry : Entry α) :
    let prepared := processEntry fuel s entry
    prepared.2.entryIndex.index = s.entryIndex.index ∧
      prepared.2.entryIndex.calls = s.entryIndex.calls ∧
      ∀ pending, prepared.1 = .ok pending →
        ∀ p ∈ pending, p ∈ s.entryIndex.index := by
  unfold processEntry
  split
  · exact prepareDeleteRecursively_spec fuel s _ _
  · refine ⟨rfl, rfl, ?_⟩
    intro pending hpending
    obtain rfl := Except.ok.inj hpending
    simp

/-- The prepared deletions still know the entries they delete. -/
def PendingAgree (index : HeadsIndex) (pending : List PendingDelete) : Prop :=
  ∀ p ∈ pending, ∀ x ∈ index.sortables, x.hash = p.hash → x.meta = p.meta

theorem pendingAgree_of_mem
    {index : HeadsIndex} (hkeyed : index.Keyed)
    {pending : List PendingDelete} (h : ∀ p ∈ pending, p ∈ index) :
    PendingAgree index pending := by
  intro p hp x hx hhash
  obtain ⟨e, he, rfl⟩ := HeadsIndex.mem_sortables.mp hx
  rw [hkeyed.eq_of_hash he (h p hp) hhash]

/-- Deletes that were prepared before the index was left as it is agree with it. -/
theorem pendingAgree_of_prepared
    {index index' : HeadsIndex} (hkeyed : index'.Keyed) (hindex : index' = index)
    {pending : List PendingDelete} (h : ∀ p ∈ pending, p ∈ index) :
    PendingAgree index' pending := by
  refine pendingAgree_of_mem hkeyed ?_
  rw [hindex]
  exact h

theorem PendingAgree.mono
    {index index' : HeadsIndex} {pending : List PendingDelete}
    (h : PendingAgree index pending)
    (hsub : ∀ x ∈ index'.sortables, x ∈ index.sortables) :
    PendingAgree index' pending :=
  fun p hp x hx => h p hp x (hsub x hx)

theorem follows_runDelete (s : LogState α σ) (p : PendingDelete)
    (hagree : PendingAgree s.entryIndex.index [p]) :
    Follows s.entryIndex (runDelete env s p).entryIndex := by
  refine EntryIndex.follows_delete _ _ _ ?_
  intro f hf x hx hhash
  obtain rfl := Option.some.inj hf
  exact hagree p (by simp) x hx hhash

theorem follows_runDeletes (pending : List PendingDelete) (s : LogState α σ)
    (hkeyed : s.entryIndex.index.Keyed)
    (hagree : PendingAgree s.entryIndex.index pending) :
    Follows s.entryIndex (runDeletes env s pending).entryIndex := by
  induction pending generalizing s with
  | nil => exact .refl _
  | cons p pending ih =>
      have hfirst : Follows s.entryIndex (runDelete env s p).entryIndex :=
        follows_runDelete env s p
          (fun q hq => hagree q (by simp only [List.mem_singleton] at hq; simp [hq]))
      have hshrinks : Shrinks s.entryIndex (runDelete env s p).entryIndex :=
        EntryIndex.shrinks_delete _ _ _
      refine hfirst.trans (ih (runDelete env s p) (hfirst.keyed hkeyed) ?_)
      refine PendingAgree.mono ?_ (hshrinks hkeyed)
      exact fun q hq => hagree q (List.mem_cons_of_mem _ hq)

theorem follows_trim (s : LogState α σ) (option : Option TrimOptions)
    (now : Int) :
    Follows s.entryIndex (trim env s option now).2.entryIndex ∧
      Shrinks s.entryIndex (trim env s option now).2.entryIndex := by
  unfold trim
  split
  · exact ⟨.refl _, .of_index_eq rfl⟩
  · exact follows_trimTask _ _ _ _

theorem follows_runOnChange (s : LogState α σ) (change : Change α) :
    Follows s.entryIndex (runOnChange env s change).2.entryIndex :=
  .of_index_eq rfl rfl

theorem follows_runCanAppend (s : LogState α σ) (entry : Entry α) :
    Follows s.entryIndex (runCanAppend env s entry).2.entryIndex :=
  .of_index_eq rfl rfl

theorem follows_afterPut (fuel : Nat) (s : LogState α σ) (entry : Entry α)
    (isHead : Bool) (trimOption : Option TrimOptions) (now : Int) :
    Follows s.entryIndex
      (afterPut env fuel s entry isHead trimOption now).2.entryIndex := by
  intro hkeyed
  obtain ⟨hindex, hcalls, hpending⟩ := processEntry_spec fuel s entry
  unfold afterPut
  split
  · rename_i e s' hprocess
    rw [hprocess] at hindex hcalls
    exact Follows.of_index_eq hindex hcalls hkeyed
  · rename_i pending s' hprocess
    rw [hprocess] at hindex hcalls hpending
    have hprepare : Follows s.entryIndex s'.entryIndex :=
      .of_index_eq hindex hcalls
    have hkeyed' := hprepare.keyed hkeyed
    have hagree : PendingAgree s'.entryIndex.index pending :=
      pendingAgree_of_prepared hkeyed' hindex (hpending pending rfl)
    obtain ⟨htrim, hshrinks⟩ := follows_trim env s' trimOption now
    simp only
    have hchange := follows_runOnChange env (trim env s' trimOption now).2
      { added := [(isHead, entry)]
        removed := pending.map ShallowOrFullEntry.shallow ++
          (trim env s' trimOption now).1.map ShallowOrFullEntry.full }
    split
    · rename_i e s'' hs''
      rw [hs''] at hchange
      exact (hprepare.trans (htrim.trans hchange)) hkeyed
    · rename_i u s'' hs''
      have hindex'' : s''.entryIndex.index =
          (trim env s' trimOption now).2.entryIndex.index := by
        have heq := congrArg (fun r => r.2.entryIndex.index) hs''
        exact heq.symm
      rw [hs''] at hchange
      have hdeletes :=
        follows_runDeletes env pending s''
          (hchange.keyed (htrim.keyed hkeyed'))
          (hindex'' ▸ hagree.mono (hshrinks hkeyed'))
      exact (hprepare.trans (htrim.trans (hchange.trans hdeletes))) hkeyed

/-! ### Join -/

theorem follows_joinNexts
    {join : LogState α σ → Entry α → Except LogError Bool × LogState α σ}
    (hjoin : ∀ s e, Follows s.entryIndex (join s e).2.entryIndex)
    (options : JoinOptions α) (nexts : List Hash) (s : LogState α σ) :
    Follows s.entryIndex (joinNexts env join options nexts s).2.entryIndex := by
  induction nexts generalizing s with
  | nil => exact .refl _
  | cons a nexts ih =>
      unfold joinNexts
      split
      · split
        · exact .refl _
        · rename_i nested hnested
          have hfirst := hjoin s nested
          split
          · rename_i e s' hs'
            rwa [hs'] at hfirst
          · rename_i b s' hs'
            rw [hs'] at hfirst
            exact hfirst.trans (ih s')
      · exact ih s

theorem follows_joinRecursively (options : JoinOptions α) (fuel : Nat)
    (s : LogState α σ) (entry : Entry α) (isHead : Bool) :
    Follows s.entryIndex
      (joinRecursively env options fuel s entry isHead).2.entryIndex := by
  induction fuel generalizing s entry isHead with
  | zero => exact .refl _
  | succ fuel ih =>
      unfold joinRecursively
      split
      · exact .refl _
      · split
        · exact .refl _
        · simp only
          have hnexts :=
            follows_joinNexts env (fun s e => ih s e false) options
              (if entry.meta.type = .CUT then [] else entry.meta.next) s
          split
          · rename_i e s' hs'
            rwa [hs'] at hnexts
          · rename_i u s' hs'
            rw [hs'] at hnexts
            have hcan := follows_runCanAppend env s' entry
            split
            · rename_i e s'' hs''
              rw [hs''] at hcan
              exact hnexts.trans hcan
            · rename_i s'' hs''
              rw [hs''] at hcan
              exact hnexts.trans hcan
            · rename_i s'' hs''
              rw [hs''] at hcan
              have hput : Follows s''.entryIndex
                  (s''.entryIndex.put entry false isHead true) :=
                EntryIndex.follows_put _ _ _ _ _
              have hafter :=
                follows_afterPut env fuel
                  { s'' with
                    entryIndex := s''.entryIndex.put entry false isHead true }
                  entry isHead options.trim options.now
              have hall := (hnexts.trans hcan).trans (hput.trans hafter)
              split
              · rename_i e s3 hs3
                rwa [hs3] at hall
              · rename_i u s3 hs3
                rwa [hs3] at hall

theorem follows_joinEntries (fuel : Nat) (options : JoinOptions α)
    (heads : List (Hash × Bool)) (entries : List (Entry α))
    (s : LogState α σ) :
    Follows s.entryIndex
      (joinEntries env fuel options heads entries s).2.entryIndex := by
  induction entries generalizing s with
  | nil => exact .refl _
  | cons entry entries ih =>
      unfold joinEntries
      simp only
      have hfirst := follows_joinRecursively env options fuel s entry
        (((heads.find? (fun e => e.1 = entry.hash)).map Prod.snd).getD false)
      split
      · rename_i e s' hs'
        rwa [hs'] at hfirst
      · rename_i b s' hs'
        rw [hs'] at hfirst
        exact hfirst.trans (ih s')

theorem follows_join (fuel : Nat) (s : LogState α σ) (entries : List (Entry α))
    (options : JoinOptions α) :
    Follows s.entryIndex (join env fuel s entries options).2.entryIndex :=
  follows_joinEntries env fuel _ _ _ _

/-! ### Append -/

theorem follows_resolveNext (s : LogState α σ) (e : NextEntry α) :
    Follows s.entryIndex (resolveNext s e).2.entryIndex := by
  unfold resolveNext
  split
  · exact .refl _
  · simp only [EntryIndex.getOrThrow]
    split
    · exact .refl _
    · exact .of_index_eq (EntryIndex.get_index _ _) (EntryIndex.get_calls _ _)

theorem follows_joinMissingNexts (fuel : Nat) (now : Int)
    (nexts : List (NextEntry α)) (s : LogState α σ) :
    Follows s.entryIndex
      (joinMissingNexts env fuel now nexts s).2.entryIndex := by
  induction nexts generalizing s with
  | nil => exact .refl _
  | cons e nexts ih =>
      unfold joinMissingNexts
      split
      · exact ih s
      · have hresolve := follows_resolveNext s e
        split
        · rename_i err s' hs'
          rwa [hs'] at hresolve
        · rename_i s' hs'
          rw [hs'] at hresolve
          exact hresolve.trans (ih s')
        · rename_i entry s' hs'
          rw [hs'] at hresolve
          have hjoin := follows_join env fuel s' [entry] { now := now }
          split
          · rename_i err s'' hs''
            rw [hs''] at hjoin
            exact hresolve.trans hjoin
          · rename_i u s'' hs''
            rw [hs''] at hjoin
            exact (hresolve.trans hjoin).trans (ih s'')

theorem follows_append (fuel : Nat) (s : LogState α σ) (data : α)
    (options : AppendOptions α) :
    Follows s.entryIndex (append env fuel s data options).2.entryIndex := by
  unfold append
  simp only
  split
  · exact .refl _
  · rename_i entry hcreate
    have hcan := follows_runCanAppend env s entry
    split
    · rename_i e s' hs'
      rwa [hs'] at hcan
    · rename_i s' hs'
      rwa [hs'] at hcan
    · rename_i s' hs'
      rw [hs'] at hcan
      have hblock : Follows s'.entryIndex (s'.entryIndex.putBlock entry) :=
        .of_index_eq (by simp) (by simp)
      have hnexts :=
        follows_joinMissingNexts env fuel options.now
          (if entry.meta.type = .CUT then [] else appendNexts env s options)
          { s' with entryIndex := s'.entryIndex.putBlock entry }
      have hstart := (hcan.trans hblock).trans hnexts
      split
      · rename_i e s'' hs''
        rwa [hs''] at hstart
      · rename_i u s'' hs''
        rw [hs''] at hstart
        have hput : Follows s''.entryIndex
            (s''.entryIndex.put entry true true false) :=
          EntryIndex.follows_put _ _ _ _ _
        have hafter :=
          follows_afterPut env fuel
            { s'' with entryIndex := s''.entryIndex.put entry true true false }
            entry true options.trim options.now
        have hall := hstart.trans (hput.trans hafter)
        split
        · rename_i e s3 hs3
          rwa [hs3] at hall
        · rename_i u s3 hs3
          rwa [hs3] at hall

/-! ### Remove -/

theorem follows_remove (fuel : Nat) (s : LogState α σ)
    (entries : List SortableEntry) (recursively : Bool) :
    Follows s.entryIndex
      (remove env fuel s entries recursively).2.entryIndex := by
  intro hkeyed
  unfold remove
  split
  · exact Follows.refl _ hkeyed
  · simp only
    have hprepared :
        let prepared : Except LogError (List PendingDelete) × LogState α σ :=
          if recursively then prepareDeleteRecursively fuel s entries false
          else
            (.ok (entries.flatMap (fun e => (prepareDelete s e.hash).toList)), s)
        prepared.2.entryIndex.index = s.entryIndex.index ∧
          prepared.2.entryIndex.calls = s.entryIndex.calls ∧
          ∀ pending, prepared.1 = .ok pending →
            ∀ p ∈ pending, p ∈ s.entryIndex.index := by
      cases recursively with
      | true => exact prepareDeleteRecursively_spec fuel s entries false
      | false =>
          refine ⟨rfl, rfl, ?_⟩
          intro pending hpending p hp
          obtain rfl := Except.ok.inj hpending
          obtain ⟨e, _, hp⟩ := List.mem_flatMap.mp hp
          exact (HeadsIndex.get_eq_some (Option.mem_toList.mp hp)).1
    simp only at hprepared
    obtain ⟨hindex, hcalls, hpending⟩ := hprepared
    split
    · rename_i e s' hs'
      rw [hs'] at hindex hcalls
      exact Follows.of_index_eq hindex hcalls hkeyed
    · rename_i pending s' hs'
      rw [hs'] at hindex hcalls hpending
      have hprepare : Follows s.entryIndex s'.entryIndex :=
        .of_index_eq hindex hcalls
      have hkeyed' := hprepare.keyed hkeyed
      have hagree : PendingAgree s'.entryIndex.index pending :=
        pendingAgree_of_prepared hkeyed' hindex (hpending pending rfl)
      have hchange := follows_runOnChange env s'
        { added := [], removed := pending.map ShallowOrFullEntry.shallow }
      split
      · rename_i e s'' hs''
        rw [hs''] at hchange
        exact (hprepare.trans hchange) hkeyed
      · rename_i u s'' hs''
        have hindex'' : s''.entryIndex.index = s'.entryIndex.index := by
          have heq := congrArg (fun r => r.2.entryIndex.index) hs''
          exact heq.symm
        rw [hs''] at hchange
        have hdeletes :=
          follows_runDeletes env pending s'' (hchange.keyed hkeyed')
            (hindex'' ▸ hagree)
        exact (hprepare.trans (hchange.trans hdeletes)) hkeyed

theorem follows_deleteRecursively (fuel : Nat) (s : LogState α σ)
    (from_ : List SortableEntry) (skipFirst : Bool) :
    Follows s.entryIndex
      (deleteRecursively env fuel s from_ skipFirst).2.entryIndex := by
  intro hkeyed
  obtain ⟨hindex, hcalls, hpending⟩ :=
    prepareDeleteRecursively_spec fuel s from_ skipFirst
  unfold deleteRecursively
  split
  · rename_i e s' hs'
    rw [hs'] at hindex hcalls
    exact Follows.of_index_eq hindex hcalls hkeyed
  · rename_i pending s' hs'
    rw [hs'] at hindex hcalls hpending
    have hprepare : Follows s.entryIndex s'.entryIndex :=
      .of_index_eq hindex hcalls
    have hkeyed' := hprepare.keyed hkeyed
    have hagree : PendingAgree s'.entryIndex.index pending :=
      pendingAgree_of_prepared hkeyed' hindex (hpending pending rfl)
    exact (hprepare.trans (follows_runDeletes env pending s' hkeyed' hagree))
      hkeyed

theorem follows_delete (s : LogState α σ) (hash : Hash) :
    Follows s.entryIndex (delete env s hash).entryIndex := by
  intro hkeyed
  unfold delete
  split
  · exact Follows.refl _ hkeyed
  · rename_i pending hpending
    refine follows_runDelete env s pending ?_ hkeyed
    refine pendingAgree_of_mem hkeyed ?_
    intro p hp
    rw [List.mem_singleton.mp hp]
    exact (HeadsIndex.get_eq_some hpending).1

/-- Every operation changes the index by its calls. -/
theorem follows_run (fuel : Nat) (s : LogState α σ) (op : LogOp α) :
    Follows s.entryIndex (op.run env fuel s).entryIndex := by
  cases op with
  | append data options => exact follows_append env fuel s data options
  | join entries options => exact follows_join env fuel s entries options
  | remove entries recursively =>
      exact follows_remove env fuel s entries recursively
  | deleteRecursively from_ skipFirst =>
      exact follows_deleteRecursively env fuel s from_ skipFirst
  | delete hash => exact follows_delete env s hash
  | trim option now => exact (follows_trim env s option now).1

end Operations

end Log
end Peerbit
