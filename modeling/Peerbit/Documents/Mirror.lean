import Peerbit.Documents.Changes

/-!
# The rows mirror the log

A row is there exactly for the documents of which the log holds a put entry that
no accepted delete comes after, and its head is a put entry of the document in
the log.  The handler deletes a row as soon as a change lists any entry of its
document but an added put; so the rows mirror the log over all runs in which no
entry of a document leaves the log before its newer puts, and a delete comes
after the puts of its document and of no other.
-/

namespace Peerbit
namespace Documents

open Log

section Mirror

variable {K D I : Type}

/-- The hash is reached along next pointers. -/
inductive Ancestor {α : Type} (U : Entry α → Prop) (d : Entry α) : Hash → Prop
  | next {k : Hash} (hk : k ∈ d.meta.next) : Ancestor U d k
  | step {f : Entry α} {k : Hash} (hreach : Ancestor U d f.hash) (hf : U f)
      (hk : k ∈ f.meta.next) : Ancestor U d k

/-- A delete that the log accepted at some time. -/
structure AppliedDelete (U : Entry (Operation K D) → Prop)
    (index : EntryIndex (Operation K D)) (d : Entry (Operation K D)) :
    Prop where
  known : U d
  delete : ∃ key, d.payload = .delete key
  applied : index.HasPut d

/-- A put entry of the document that is held, and no ancestor of an applied
delete. -/
structure Live (options : DocumentsOptions K D I)
    (U : Entry (Operation K D) → Prop) (index : EntryIndex (Operation K D))
    (held : Hash → Prop) (k : K) (e : Entry (Operation K D)) : Prop where
  known : U e
  held : held e.hash
  puts : Puts options k e
  uncut : ∀ d, AppliedDelete U index d → ¬ Ancestor U d e.hash

variable [DecidableEq K] (options : DocumentsOptions K D I)
variable (U : Entry (Operation K D) → Prop)

structure Mirror (s : StoreState K D I) : Prop where
  row_iff : ∀ k, (∃ row, s.app.row k = some row) ↔
    ∃ e, Live options U s.entryIndex s.entryIndex.index.Stored k e
  head : ∀ k row, s.app.row k = some row →
    ∃ f, HeadPuts options U k row f ∧ s.entryIndex.index.Stored f.hash

/-- The log before the step of a change, with the added entry: what the log
holds that the handler is given, and what has left it for the change. -/
def HandledChange.Held (c : HandledChange K D) (k : Hash) : Prop :=
  c.entryIndex.index.Stored k ∨ k ∈ removedHashes c.change

/-- What the handler takes for granted of the entries that a change adds and
removes, judged on the log before the step. -/
structure CleanChange (c : HandledChange K D) : Prop where
  /-- What is cut off is not trimmed in the same step. -/
  untrimmed : ∀ x, .shallow x ∈ c.change.removed →
    c.entryIndex.index.Stored x.hash
  /-- An added put that stays is no ancestor of an applied delete. -/
  uncut : ∀ e ∈ c.change.added.map Prod.snd, (∃ k, Puts options k e) →
    e.hash ∉ removedHashes c.change →
      ∀ d, AppliedDelete U c.entryIndex d → ¬ Ancestor U d e.hash
  /-- An added delete, or one before it, comes after all puts of its document
  that stay. -/
  covered : ∀ e ∈ c.change.added.map Prod.snd, ∀ k, e.payload = .delete k →
    ∀ f, U f → c.Held f.hash → Puts options k f →
      f.hash ∉ removedHashes c.change →
        ∃ d, AppliedDelete U c.entryIndex d ∧ Ancestor U d f.hash
  /-- An added delete comes after no put of another document that stays. -/
  own : ∀ e ∈ c.change.added.map Prod.snd, ∀ k, e.payload = .delete k →
    ∀ f, U f → c.Held f.hash → (∃ j, j ≠ k ∧ Puts options j f) →
      f.hash ∉ removedHashes c.change → ¬ Ancestor U e f.hash
  /-- With an entry that is removed all live puts of its document are, unless
  the added entry puts it. -/
  whole : ∀ x, U x → x.hash ∈ removedHashes c.change →
    ¬ Keeps options c.change (keyOf options x) →
      ∀ f, Live options U c.entryIndex c.Held (keyOf options x) f →
        f.hash ∈ removedHashes c.change

/-- All changes that the store handled so far were clean. -/
def Clean (s : DocumentsState K D I) : Prop :=
  ∀ c ∈ s.changes, CleanChange options U c

structure Mirrored (s : StoreState K D I) : Prop where
  inv : ResolveInv U s.entryIndex
  mirror : Mirror options U s

variable {options} {U}

/-! ### What a clean change leaves -/

omit [DecidableEq K] in
theorem Live.mono {index : EntryIndex (Operation K D)}
    {held held' : Hash → Prop} {k : K} {f : Entry (Operation K D)}
    (h : Live options U index held k f) (himp : held f.hash → held' f.hash) :
    Live options U index held' k f :=
  { known := h.known, held := himp h.held, puts := h.puts, uncut := h.uncut }

variable {c : HandledChange K D}

/-- The rows mirror the log as long as neither changes. -/
theorem Mirrored.congr
    {s t : StoreState K D I} (h : Mirrored options U s)
    (hinv : ResolveInv U t.entryIndex) (happ : t.app = s.app)
    (hindex : t.entryIndex.index = s.entryIndex.index)
    (hcalls : t.entryIndex.calls = s.entryIndex.calls) :
    Mirrored options U t where
  inv := hinv
  mirror := by
    have hlive : ∀ k e,
        Live options U t.entryIndex t.entryIndex.index.Stored k e ↔
          Live options U s.entryIndex s.entryIndex.index.Stored k e := by
      intro k e
      have hput : ∀ d, AppliedDelete U t.entryIndex d ↔
          AppliedDelete U s.entryIndex d := by
        intro d
        have hhas : t.entryIndex.HasPut d ↔ s.entryIndex.HasPut d := by
          unfold EntryIndex.HasPut
          rw [hcalls]
        exact ⟨fun hd => ⟨hd.known, hd.delete, hhas.mp hd.applied⟩,
          fun hd => ⟨hd.known, hd.delete, hhas.mpr hd.applied⟩⟩
      constructor
      · exact fun he => ⟨he.known, hindex ▸ he.held, he.puts,
          fun d hd => he.uncut d ((hput d).mpr hd)⟩
      · exact fun he => ⟨he.known, hindex ▸ he.held, he.puts,
          fun d hd => he.uncut d ((hput d).mp hd)⟩
    refine { row_iff := ?_, head := ?_ }
    · intro k
      simp only [hlive, happ]
      exact h.mirror.row_iff k
    · rw [happ, hindex]
      exact h.mirror.head

theorem Mirrored.reads
    {s : StoreState K D I} {index : EntryIndex (Operation K D)}
    (h : Mirrored options U s) (hreads : Reads s.entryIndex index) :
    Mirrored options U { s with entryIndex := index } :=
  h.congr (hreads.resolveInv h.inv) rfl hreads.index_eq hreads.calls_eq

section Reading

omit U

variable (options) in
theorem getDetailed_reads (s : DocumentsState K D I)
    (index : EntryIndex (Operation K D)) (key : K) (remote : Bool) :
    Reads index (getDetailed options s index key remote).2 := by
  unfold getDetailed
  split
  · exact .one _ _
  · exact .refl

omit [DecidableEq K] in
theorem pointsToHistory_reads (next : Hash) (depth : Nat)
    (index : EntryIndex (Operation K D))
    (current : Option (Entry (Operation K D))) :
    Reads index (pointsToHistory next depth index current).2 := by
  induction depth generalizing index current with
  | zero =>
      cases current with
      | none => exact .refl
      | some current =>
          unfold pointsToHistory
          split
          · exact .refl
          · cases current.meta.next <;> exact .refl
  | succ depth ih =>
      cases current with
      | none => exact .refl
      | some current =>
          unfold pointsToHistory
          split
          · exact .refl
          · cases current.meta.next with
            | nil => exact .refl
            | cons n rest => exact (Reads.one index n).trans (ih _ _)

theorem canAppendPut_reads (s : DocumentsState K D I)
    (index : EntryIndex (Operation K D)) (entry : Entry (Operation K D))
    (data : D) :
    Reads index (canAppendPut options s index entry data).2 := by
  have hdetailed :=
    getDetailed_reads options s index (options.idResolver data)
      options.immutable
  unfold canAppendPut
  simp only
  split
  · exact hdetailed
  · rename_i context _
    split
    · exact hdetailed
    · split
      · split <;> exact hdetailed
      · split
        · rename_i next _
          have hthrow := hdetailed.getOrThrow context.head
          split
          · rename_i e index' heq
            rwa [heq] at hthrow
          · rename_i index' heq
            rwa [heq] at hthrow
          · rename_i prevEntry index' heq
            rw [heq] at hthrow
            exact hthrow.trans (pointsToHistory_reads _ _ _ _)
        · exact hdetailed

theorem canAppendDelete_reads (s : DocumentsState K D I)
    (index : EntryIndex (Operation K D)) (entry : Entry (Operation K D))
    (key : K) :
    Reads index (canAppendDelete options s index entry key).2 := by
  have hdetailed :=
    getDetailed_reads options s index key options.immutable
  unfold canAppendDelete
  split
  · simp only
    split
    · exact hdetailed
    · exact (hdetailed.get _).trans (pointsToHistory_reads _ _ _ _)
  · exact .refl

variable (options) in
theorem canAppend_reads (s : DocumentsState K D I)
    (index : EntryIndex (Operation K D)) (entry : Entry (Operation K D)) :
    Reads index (canAppend options s index entry).2 := by
  have hhistory : Reads index (canAppendHistory options s index entry).2 := by
    unfold canAppendHistory
    split
    · exact canAppendPut_reads _ _ _ _
    · exact canAppendDelete_reads _ _ _ _
  unfold canAppend
  split
  · split
    · rename_i index' heq
      rwa [heq] at hhistory
    · exact hhistory
  · exact .refl

end Reading

/-! ### Storing an entry -/

variable {log : LogEnv (Operation K D) (DocumentsState K D I)}

theorem runCanAppend_eq (s : StoreState K D I) (e : Entry (Operation K D)) :
    (runCanAppend (documentsEnv options log) s e).2 =
      { s with entryIndex := (canAppend options s.app s.entryIndex e).2 } := by
  have hreads := canAppend_reads options s.app s.entryIndex e
  simp only [runCanAppend, documentsEnv, LogState.handled]
  rw [← hreads.eq_cache]

/-- The second state comes from the first by reading entries. -/
structure StoreReads (s t : StoreState K D I) : Prop where
  reads : Reads s.entryIndex t.entryIndex
  eq : t = { s with entryIndex := t.entryIndex }

omit [DecidableEq K] in
theorem StoreReads.refl (s : StoreState K D I) : StoreReads s s :=
  ⟨.refl, rfl⟩

omit [DecidableEq K] in
theorem StoreReads.trans {s t u : StoreState K D I} (h : StoreReads s t)
    (h' : StoreReads t u) : StoreReads s u where
  reads := h.reads.trans h'.reads
  eq := by
    rw [h'.eq, h.eq]

/-- The entries that the operation handles are of the kind. -/
def StoreOp.Brings (options : DocumentsOptions K D I)
    (U : Entry (Operation K D) → Prop)
    (log : LogEnv (Operation K D) (DocumentsState K D I)) (fuel : Nat)
    (s : StoreState K D I) : StoreOp K D → Prop
  | .put doc appendOptions unique checkRemote =>
      ∀ prepared s',
        preparePut options log s doc appendOptions unique checkRemote =
          (.ok prepared, s') →
        AppendBrings U (documentsEnv options log) fuel s' (.put doc) prepared
  | .del key appendOptions =>
      ∀ prepared s',
        prepareDel options log s key appendOptions = (.ok prepared, s') →
        AppendBrings U (documentsEnv options log) fuel s' (.delete key) prepared
  | .join entries joinOptions =>
      (∀ e ∈ entries, U e) ∧ ∀ r ∈ joinOptions.references, U r

end Mirror

/-! ### An old version that is trimmed -/

namespace OldVersion

/-- Documents are pairs of an id and a text, indexed as they are. -/
def options : DocumentsOptions String (String × String) (String × String) where
  immutable := false
  idResolver := Prod.fst
  transformer value _ := value
  indexedTypeIsDocumentType := true
  asDocument value := value
  sharedLogCanAppend _ := true
  canPerform _ := true
  remoteResult _ := none
  depth := 5

/-- A log that keeps two entries. -/
def log :
    LogEnv (Operation String (String × String))
      (DocumentsState String (String × String) (String × String)) where
  sortFn := LastWriteWins
  canAppend app index _ := (.ok true, { app := app, cache := index.cache })
  onChange app index _ := (.ok (), { app := app, cache := index.cache })
  trim := some { condition := .length 2 none, canTrim := none, cacheId := none }
  canTrim _ _ _ := true
  cacheId _ _ := none
  remote _ := none
  hashOf _ operation :=
    match operation with
    | .put data => data.2
    | .delete key => key
  byteLengthOf _ := 1

def clockAt (wallTime : Nat) : Clock :=
  { id := "writer", timestamp := { wallTime := wallTime, logical := 0 } }

def entry (id hash : String) (wallTime : Nat) (next : List Hash) :
    Entry (Operation String (String × String)) :=
  { hash := hash, payload := .put (id, hash), payloadSize := 1
    «meta» :=
      { clock := clockAt wallTime, gid := "g", next := next, type := .APPEND } }

def a1 : Entry (Operation String (String × String)) := entry "a" "a1" 1 []

def a2 : Entry (Operation String (String × String)) := entry "a" "a2" 2 ["a1"]

def b : Entry (Operation String (String × String)) := entry "b" "b" 3 []

/-- The entries of the run. -/
def Written (e : Entry (Operation String (String × String))) : Prop :=
  e ∈ [a1, a2, b]

def putOp (id text : String) (wallTime : Nat) :
    StoreOp String (String × String) :=
  .put (id, text) { gid := "g", clock := clockAt wallTime } false false

abbrev State :=
  StoreState String (String × String) (String × String)

def one : State :=
  ((putOp "a" "a1" 1).run options log 10 (LogState.open .empty)).2

def two : State := ((putOp "a" "a2" 2).run options log 10 one).2

def three : State := ((putOp "b" "b" 3).run options log 10 two).2

theorem content : Content Written := by
  have hdistinct : ∀ e ∈ [a1, a2, b], ∀ f ∈ [a1, a2, b],
      e.hash = f.hash → e = f := by decide
  exact fun e f he hf => hdistinct e he f hf

end OldVersion

end Documents
end Peerbit
