import Peerbit.Log.Resolve

/-!
# A rule for the operations of a log

What `append` and `join` do to the state of a log are reads, writes of blocks,
questions to the application whether an entry may be appended, and the step that
stores an entry and handles its consequences.  A property of the state that
these keep is kept by the operations.

The property may depend on what the application has met so far: it is kept as
long as the application stays clean, which it stays in all states before one in
which it is.
-/

namespace Peerbit
namespace Log

section Rule

variable {α σ : Type}

/-- What `append` and `joinRecursively` do with an entry once they accepted
it. -/
def putStep (env : LogEnv α σ) (fuel : Nat) (s : LogState α σ)
    (entry : Entry α) (unique isHead toMultiHash : Bool)
    (trimOption : Option TrimOptions) (now : Int) :
    Except LogError Unit × LogState α σ :=
  afterPut env fuel
    { s with entryIndex := s.entryIndex.put entry unique isHead toMultiHash }
    entry isHead trimOption now

/-- A property of the states of a log that its steps keep, for entries of some
kind. -/
structure OperationRule (U : Entry α → Prop) (env : LogEnv α σ)
    (Good : LogState α σ → Prop) (Clean : σ → Prop) : Prop where
  blocks : ∀ s, Good s → ∀ v ∈ s.entryIndex.store, U v
  remote : ∀ k v, env.remote k = some v → U v
  get : ∀ s k, Good s →
    Good { s with entryIndex := (s.entryIndex.get k).2 } ∧
      ∀ v, (s.entryIndex.get k).1 = some v → U v
  putBlock : ∀ s e, U e → Good s →
    Good { s with entryIndex := s.entryIndex.putBlock e }
  canAppend : ∀ s e, U e → Good s → Good (runCanAppend env s e).2
  canAppend_clean : ∀ s e, Clean (runCanAppend env s e).2.app → Clean s.app
  put : ∀ fuel s e unique isHead toMultiHash trimOption now, U e →
    (toMultiHash = true ∨ ∃ v ∈ s.entryIndex.store, v.hash = e.hash) →
    (putStep env fuel s e unique isHead toMultiHash trimOption now).1 ≠
      .error .depth →
    Clean
      (putStep env fuel s e unique isHead toMultiHash trimOption now).2.app →
    Good s →
    Good (putStep env fuel s e unique isHead toMultiHash trimOption now).2
  put_clean : ∀ fuel s e unique isHead toMultiHash trimOption now,
    Clean
      (putStep env fuel s e unique isHead toMultiHash trimOption now).2.app →
    Clean s.app

/-- The entries that an append handles are of the kind, and the block of the new
one is still there when the missing nexts are joined. -/
structure AppendBrings (U : Entry α → Prop) (env : LogEnv α σ) (fuel : Nat)
    (s : LogState α σ) (data : α) (options : AppendOptions α) : Prop where
  created : ∀ e,
    createEntry env data options
      ((appendNexts env s options).map NextEntry.sortableEntry) = .ok e → U e
  nexts : ∀ e, .entry e ∈ appendNexts env s options → U e
  block : ∀ e s',
    createEntry env data options
      ((appendNexts env s options).map NextEntry.sortableEntry) = .ok e →
    joinMissingNexts env fuel options.now
      (if e.meta.type = .CUT then [] else appendNexts env s options)
      { (runCanAppend env s e).2 with
        entryIndex := (runCanAppend env s e).2.entryIndex.putBlock e } =
      (.ok (), s') →
    ∃ v ∈ s'.entryIndex.store, v.hash = e.hash

namespace OperationRule

variable {U : Entry α → Prop} {env : LogEnv α σ}
variable {Good : LogState α σ → Prop} {Clean : σ → Prop}

/-! ### Join -/

theorem of_findNested
    (h : OperationRule U env Good Clean) {s : LogState α σ} (hgood : Good s)
    {options : JoinOptions α} (hreferences : ∀ r ∈ options.references, U r)
    {a : Hash} {nested : Entry α}
    (hfound : findNested env s options a = some nested) :
    U nested := by
  unfold findNested at hfound
  rcases Option.or_eq_some_iff.mp hfound with hfound | ⟨_, hfound⟩
  · exact hreferences nested (List.mem_of_find?_eq_some hfound)
  · unfold fromMultihash at hfound
    rcases Option.or_eq_some_iff.mp hfound with hfound | ⟨_, hfound⟩
    · exact h.blocks s hgood nested (mem_of_getBlock hfound).1
    · exact h.remote a nested hfound

theorem joinNexts
    (h : OperationRule U env Good Clean) {options : JoinOptions α}
    {join : LogState α σ → Entry α → Except LogError Bool × LogState α σ}
    (hjoin : ∀ s e, (Clean (join s e).2.app → Clean s.app) ∧
      ((∀ r ∈ options.references, U r) → U e → (join s e).1 ≠ .error .depth →
        Clean (join s e).2.app → Good s → Good (join s e).2))
    (nexts : List Hash) (s : LogState α σ) :
    (Clean (joinNexts env join options nexts s).2.app → Clean s.app) ∧
      ((∀ r ∈ options.references, U r) →
        (joinNexts env join options nexts s).1 ≠ .error .depth →
        Clean (joinNexts env join options nexts s).2.app → Good s →
        Good (joinNexts env join options nexts s).2) := by
  induction nexts generalizing s with
  | nil => exact ⟨fun hclean => hclean, fun _ _ _ hgood => hgood⟩
  | cons a nexts ih =>
      unfold Log.joinNexts
      split
      · split
        · exact ⟨fun hclean => hclean, fun _ _ _ hgood => hgood⟩
        · rename_i nested hnested
          obtain ⟨hback, hone⟩ := hjoin s nested
          split
          · rename_i error s' hs'
            rw [hs'] at hback hone
            refine ⟨hback, ?_⟩
            intro hreferences hends hclean hgood
            exact hone hreferences (h.of_findNested hgood hreferences hnested)
              (fun heq => hends (congrArg _ (Except.error.inj heq))) hclean hgood
          · rename_i joined s' hs'
            rw [hs'] at hback hone
            obtain ⟨hback', hrest⟩ := ih s'
            refine ⟨fun hclean => hback (hback' hclean), ?_⟩
            intro hreferences hends hclean hgood
            exact hrest hreferences hends hclean
              (hone hreferences (h.of_findNested hgood hreferences hnested)
                (fun heq => nomatch heq) (hback' hclean) hgood)
      · exact ih s

theorem joinRecursively
    (h : OperationRule U env Good Clean) (options : JoinOptions α) (fuel : Nat)
    (s : LogState α σ) (e : Entry α) (isHead : Bool) :
    (Clean (joinRecursively env options fuel s e isHead).2.app →
        Clean s.app) ∧
      ((∀ r ∈ options.references, U r) → U e →
        (joinRecursively env options fuel s e isHead).1 ≠ .error .depth →
        Clean (joinRecursively env options fuel s e isHead).2.app → Good s →
        Good (joinRecursively env options fuel s e isHead).2) := by
  induction fuel generalizing s e isHead with
  | zero => exact ⟨fun hclean => hclean, fun _ _ _ _ hgood => hgood⟩
  | succ fuel ih =>
      unfold Log.joinRecursively
      split
      · exact ⟨fun hclean => hclean, fun _ _ _ _ hgood => hgood⟩
      · split
        · exact ⟨fun hclean => hclean, fun _ _ _ _ hgood => hgood⟩
        · simp only
          obtain ⟨hnexts_clean, hnexts⟩ :=
            h.joinNexts (fun s e => ih s e false)
              (if e.meta.type = .CUT then [] else e.meta.next) s
          split
          · rename_i error s₁ hs₁
            rw [hs₁] at hnexts_clean hnexts
            refine ⟨hnexts_clean, ?_⟩
            intro hreferences _ hends hclean hgood
            exact hnexts hreferences
              (fun heq => hends (congrArg _ (Except.error.inj heq))) hclean hgood
          · rename_i u s₁ hs₁
            rw [hs₁] at hnexts_clean hnexts
            -- up to the answer whether the entry may be appended
            have hupto : ∀ s₂, (runCanAppend env s₁ e).2 = s₂ →
                (Clean s₂.app → Clean s.app) ∧
                  ((∀ r ∈ options.references, U r) → U e → Clean s₂.app →
                    Good s → Good s₂) := by
              rintro s₂ rfl
              refine ⟨fun hclean =>
                hnexts_clean (h.canAppend_clean s₁ e hclean), ?_⟩
              intro hreferences he hclean hgood
              exact h.canAppend s₁ e he
                (hnexts hreferences (fun heq => nomatch heq)
                  (h.canAppend_clean s₁ e hclean) hgood)
            split
            · rename_i error s₂ hs₂
              obtain ⟨hback, hkeep⟩ := hupto s₂ (by rw [hs₂])
              exact ⟨hback, fun hreferences he _ => hkeep hreferences he⟩
            · rename_i s₂ hs₂
              obtain ⟨hback, hkeep⟩ := hupto s₂ (by rw [hs₂])
              exact ⟨hback, fun hreferences he _ => hkeep hreferences he⟩
            · rename_i s₂ hs₂
              obtain ⟨hback, hkeep⟩ := hupto s₂ (by rw [hs₂])
              have hput_clean :=
                h.put_clean fuel s₂ e false isHead true options.trim options.now
              have hput :=
                h.put fuel s₂ e false isHead true options.trim options.now
              unfold Log.putStep at hput_clean hput
              split
              · rename_i error s₃ hs₃
                rw [hs₃] at hput_clean hput
                refine ⟨fun hclean => hback (hput_clean hclean), ?_⟩
                intro hreferences he hends hclean hgood
                exact hput he (Or.inl rfl)
                  (fun heq => hends (congrArg _ (Except.error.inj heq))) hclean
                  (hkeep hreferences he (hput_clean hclean) hgood)
              · rename_i u s₃ hs₃
                rw [hs₃] at hput_clean hput
                refine ⟨fun hclean => hback (hput_clean hclean), ?_⟩
                intro hreferences he _ hclean hgood
                exact hput he (Or.inl rfl) (fun heq => nomatch heq) hclean
                  (hkeep hreferences he (hput_clean hclean) hgood)

theorem joinEntries
    (h : OperationRule U env Good Clean) (options : JoinOptions α) (fuel : Nat)
    (heads : List (Hash × Bool)) (entries : List (Entry α))
    (s : LogState α σ) :
    (Clean (joinEntries env fuel options heads entries s).2.app →
        Clean s.app) ∧
      ((∀ r ∈ options.references, U r) → (∀ e ∈ entries, U e) →
        (joinEntries env fuel options heads entries s).1 ≠ .error .depth →
        Clean (joinEntries env fuel options heads entries s).2.app → Good s →
        Good (joinEntries env fuel options heads entries s).2) := by
  induction entries generalizing s with
  | nil => exact ⟨fun hclean => hclean, fun _ _ _ _ hgood => hgood⟩
  | cons e entries ih =>
      unfold Log.joinEntries
      simp only
      obtain ⟨hback, hone⟩ :=
        h.joinRecursively options fuel s e
          (((heads.find? (fun x => x.1 = e.hash)).map Prod.snd).getD false)
      split
      · rename_i error s' hs'
        rw [hs'] at hback hone
        refine ⟨hback, ?_⟩
        intro hreferences hall hends hclean hgood
        exact hone hreferences (hall e List.mem_cons_self)
          (fun heq => hends (congrArg _ (Except.error.inj heq))) hclean hgood
      · rename_i joined s' hs'
        rw [hs'] at hback hone
        obtain ⟨hback', hrest⟩ := ih s'
        refine ⟨fun hclean => hback (hback' hclean), ?_⟩
        intro hreferences hall hends hclean hgood
        exact hrest hreferences (fun f hf => hall f (List.mem_cons_of_mem _ hf))
          hends hclean
          (hone hreferences (hall e List.mem_cons_self) (fun heq => nomatch heq)
            (hback' hclean) hgood)

theorem join
    (h : OperationRule U env Good Clean) (options : JoinOptions α) (fuel : Nat)
    (entries : List (Entry α)) (s : LogState α σ) :
    (Clean (join env fuel s entries options).2.app → Clean s.app) ∧
      ((∀ r ∈ options.references, U r) → (∀ e ∈ entries, U e) →
        (join env fuel s entries options).1 ≠ .error .depth →
        Clean (join env fuel s entries options).2.app → Good s →
        Good (join env fuel s entries options).2) := by
  obtain ⟨hback, hkeep⟩ :=
    h.joinEntries
      { options with references := entries ++ options.references } fuel
      (joinHeads entries) entries s
  refine ⟨hback, ?_⟩
  intro hreferences hentries
  refine hkeep ?_ hentries
  intro r hr
  rcases List.mem_append.mp hr with hr | hr
  · exact hentries r hr
  · exact hreferences r hr

/-! ### Append -/

theorem resolveNext
    (h : OperationRule U env Good Clean) (s : LogState α σ) (n : NextEntry α) :
    (resolveNext s n).2.app = s.app ∧
      (Good s → Good (resolveNext s n).2) ∧
      ((∀ e, n = .entry e → U e) → Good s →
        ∀ e, (resolveNext s n).1 = .ok (some e) → U e) := by
  cases n with
  | entry e =>
      refine ⟨rfl, fun hgood => hgood, ?_⟩
      intro hU _ f hf
      obtain rfl := Option.some.inj (Except.ok.inj hf)
      exact hU e rfl
  | sortable e =>
      simp only [Log.resolveNext, EntryIndex.getOrThrow]
      split
      · exact ⟨trivial, fun hgood => hgood, fun _ _ _ hf => nomatch hf⟩
      · refine ⟨trivial, fun hgood => (h.get s e.hash hgood).1, ?_⟩
        intro _ hgood f hf
        exact (h.get s e.hash hgood).2 f (Except.ok.inj hf)

theorem joinMissingNexts
    (h : OperationRule U env Good Clean) (fuel : Nat) (now : Int)
    (nexts : List (NextEntry α)) (s : LogState α σ) :
    (Clean (joinMissingNexts env fuel now nexts s).2.app → Clean s.app) ∧
      ((∀ e, .entry e ∈ nexts → U e) →
        (joinMissingNexts env fuel now nexts s).1 ≠ .error .depth →
        Clean (joinMissingNexts env fuel now nexts s).2.app → Good s →
        Good (joinMissingNexts env fuel now nexts s).2) := by
  induction nexts generalizing s with
  | nil => exact ⟨fun hclean => hclean, fun _ _ _ hgood => hgood⟩
  | cons n nexts ih =>
      unfold Log.joinMissingNexts
      have hrest : (∀ e, NextEntry.entry e ∈ n :: nexts → U e) →
          ∀ e, NextEntry.entry e ∈ nexts → U e :=
        fun hU e he => hU e (List.mem_cons_of_mem _ he)
      have hfirst : (∀ e, NextEntry.entry e ∈ n :: nexts → U e) →
          ∀ e, n = .entry e → U e :=
        fun hU e he => hU e (he ▸ List.mem_cons_self)
      split
      · obtain ⟨hback, hkeep⟩ := ih s
        exact ⟨hback, fun hU => hkeep (hrest hU)⟩
      · obtain ⟨happ, hgood_next, hU_next⟩ := h.resolveNext s n
        split
        · rename_i error s' hs'
          rw [hs'] at happ hgood_next
          rw [← happ]
          exact ⟨fun hclean => hclean, fun _ _ _ => hgood_next⟩
        · rename_i s' hs'
          rw [hs'] at happ hgood_next
          rw [← happ]
          obtain ⟨hback, hkeep⟩ := ih s'
          exact ⟨hback, fun hU hends hclean hgood =>
            hkeep (hrest hU) hends hclean (hgood_next hgood)⟩
        · rename_i entry s' hs'
          rw [hs'] at happ hgood_next hU_next
          rw [← happ]
          obtain ⟨hback, hone⟩ := h.join { now := now } fuel [entry] s'
          have hentry : (∀ e, NextEntry.entry e ∈ n :: nexts → U e) → Good s →
              ∀ e ∈ [entry], U e := by
            intro hU hgood e he
            rw [List.mem_singleton.mp he]
            exact hU_next (hfirst hU) hgood entry rfl
          split
          · rename_i error s'' hs''
            rw [hs''] at hback hone
            refine ⟨hback, ?_⟩
            intro hU hends hclean hgood
            exact hone (by simp) (hentry hU hgood)
              (fun heq => hends (congrArg _ (Except.error.inj heq))) hclean
              (hgood_next hgood)
          · rename_i u s'' hs''
            rw [hs''] at hback hone
            obtain ⟨hback', hkeep⟩ := ih s''
            refine ⟨fun hclean => hback (hback' hclean), ?_⟩
            intro hU hends hclean hgood
            exact hkeep (hrest hU) hends hclean
              (hone (by simp) (hentry hU hgood) (fun heq => nomatch heq)
                (hback' hclean) (hgood_next hgood))

theorem append
    (h : OperationRule U env Good Clean) (fuel : Nat) (s : LogState α σ)
    (data : α) (options : AppendOptions α) :
    (Clean (append env fuel s data options).2.app → Clean s.app) ∧
      (AppendBrings U env fuel s data options →
        (append env fuel s data options).1 ≠ .error .depth →
        Clean (append env fuel s data options).2.app → Good s →
        Good (append env fuel s data options).2) := by
  unfold Log.append
  simp only
  split
  · exact ⟨fun hclean => hclean, fun _ _ _ hgood => hgood⟩
  · rename_i entry hcreate
    have hcan_clean := h.canAppend_clean s entry
    have hcan : AppendBrings U env fuel s data options → Good s →
        Good (runCanAppend env s entry).2 :=
      fun hbrings => h.canAppend s entry (hbrings.created entry hcreate)
    split
    · rename_i error s₁ hs₁
      rw [hs₁] at hcan_clean hcan
      exact ⟨hcan_clean, fun hbrings _ _ => hcan hbrings⟩
    · rename_i s₁ hs₁
      rw [hs₁] at hcan_clean hcan
      exact ⟨hcan_clean, fun hbrings _ _ => hcan hbrings⟩
    · rename_i s₁ hs₁
      rw [hs₁] at hcan_clean hcan
      obtain ⟨hnexts_clean, hnexts⟩ :=
        h.joinMissingNexts fuel options.now
          (if entry.meta.type = .CUT then [] else appendNexts env s options)
          { s₁ with entryIndex := s₁.entryIndex.putBlock entry }
      have hU : AppendBrings U env fuel s data options →
          ∀ e, NextEntry.entry e ∈
            (if entry.meta.type = .CUT then []
              else appendNexts env s options) → U e := by
        intro hbrings e he
        split at he
        · cases he
        · exact hbrings.nexts e he
      have hstart : AppendBrings U env fuel s data options → Good s →
          Good { s₁ with entryIndex := s₁.entryIndex.putBlock entry } :=
        fun hbrings hgood =>
          h.putBlock s₁ entry (hbrings.created entry hcreate)
            (hcan hbrings hgood)
      split
      · rename_i error s₂ hs₂
        rw [hs₂] at hnexts_clean hnexts
        refine ⟨fun hclean => hcan_clean (hnexts_clean hclean), ?_⟩
        intro hbrings hends hclean hgood
        exact hnexts (hU hbrings)
          (fun heq => hends (congrArg _ (Except.error.inj heq))) hclean
          (hstart hbrings hgood)
      · rename_i u s₂ hs₂
        have hblock : AppendBrings U env fuel s data options →
            ∃ v ∈ s₂.entryIndex.store, v.hash = entry.hash := by
          intro hbrings
          refine hbrings.block entry s₂ hcreate ?_
          rw [hs₁]
          exact hs₂
        rw [hs₂] at hnexts_clean hnexts
        have hput_clean :=
          h.put_clean fuel s₂ entry true true false options.trim options.now
        have hput := h.put fuel s₂ entry true true false options.trim options.now
        unfold Log.putStep at hput_clean hput
        split
        · rename_i error s₃ hs₃
          rw [hs₃] at hput_clean hput
          refine ⟨fun hclean =>
            hcan_clean (hnexts_clean (hput_clean hclean)), ?_⟩
          intro hbrings hends hclean hgood
          exact hput (hbrings.created entry hcreate) (Or.inr (hblock hbrings))
            (fun heq => hends (congrArg _ (Except.error.inj heq))) hclean
            (hnexts (hU hbrings) (fun heq => nomatch heq) (hput_clean hclean)
              (hstart hbrings hgood))
        · rename_i v s₃ hs₃
          rw [hs₃] at hput_clean hput
          refine ⟨fun hclean =>
            hcan_clean (hnexts_clean (hput_clean hclean)), ?_⟩
          intro hbrings _ hclean hgood
          exact hput (hbrings.created entry hcreate) (Or.inr (hblock hbrings))
            (fun heq => nomatch heq) hclean
            (hnexts (hU hbrings) (fun heq => nomatch heq) (hput_clean hclean)
              (hstart hbrings hgood))

end OperationRule

end Rule

end Log
end Peerbit
