import Mathlib.Data.List.Lex
import Mathlib.Logic.Relation
import Peerbit.Log.ClockRuns

/-!
# Entries as they are created

An entry that follows others is later than each of them, and takes the least of their
gids.  This holds for the clock that `create` makes itself, which is moved past the
nexts, and for one that it is given, which is compared with them (`create_isNewest`).

So in a set of entries that writers create, one after the other, no entry is its own
ancestor, and gids never grow from an ancestor to an entry (`created_dag`).
-/

namespace Peerbit
namespace Log

open Relation

/-! ### The order of strings -/

/-- The UTF-16 code units of a character. -/
def charUnits (c : Char) : List Nat :=
  if c.toNat < 0x10000 then [c.toNat]
  else [0xd800 + (c.toNat - 0x10000) / 0x400, 0xdc00 + (c.toNat - 0x10000) % 0x400]

/-- Strings are compared by their code units. -/
def codeUnits (s : String) : List Nat :=
  s.toList.flatMap charUnits

/-! ### The function -/

inductive CreateError where
  | requiresData
  | clock (error : ClockError)
  | signaturesEncrypted
  | nextNotBefore (next clock : Timestamp)
  | gidWithNext
  | missingHash
  | access
deriving Repr, DecidableEq

/-- The parts of an entry that are encrypted for somebody. -/
structure EncryptionReceiver where
  «meta» : Bool
  signatures : Bool
deriving Repr, DecidableEq

/-- The properties of `create`.  `newGid` is the id that `createGid` makes from the seed
or at random, `signatures` is what the signers return, and `readings` are those of the
physical clock. -/
structure CreateProperties (α : Type) where
  data : Option α
  clock : Option Clock := none
  gid : Option String := none
  newGid : String
  type : EntryType := .APPEND
  next : List SortableEntry := []
  encryption : Option EncryptionReceiver := none
  publicKey : String
  signatures : String
  canAppend : Entry α → Bool := fun _ => true
  readings : Nat → Nat

/-- How an entry is stored: its hash, and the size of its payload. -/
structure CreateEnv (α : Type) where
  toMultihash : Meta → α → String → Hash
  byteLengthOf : α → Nat

section Create

variable {α : Type}

/-- The loop over the nexts that moves the clock. -/
def updateClock (readings : Nat → Nat) :
    Nat → HLC → List SortableEntry → Except CreateError HLC
  | _, hlc, [] => .ok hlc
  | i, hlc, next :: nexts =>
      match hlc.update (readings i) next.meta.clock.timestamp with
      | (.error e, _) => .error (.clock e)
      | (.ok _, hlc) => updateClock readings (i + 1) hlc nexts

/-- The clock of an entry for which none is given. -/
def newClock (p : CreateProperties α) : Except CreateError Clock :=
  match updateClock p.readings 1 (HLC.create {} (p.readings 0)) p.next with
  | .error e => .error e
  | .ok hlc =>
      if p.encryption.any (fun receiver => receiver.signatures && receiver.meta) then
        .error .signaturesEncrypted
      else
        match hlc.now (p.readings (p.next.length + 1)) with
        | (.error e, _) => .error (.clock e)
        | (.ok timestamp, _) => .ok { id := p.publicKey, timestamp := timestamp }

/-- All nexts have to happen before the clock that is given, else it makes no sense. -/
def checkClock (clock : Clock) (nexts : List SortableEntry) : Except CreateError Clock :=
  match nexts.find? (fun n => n.meta.clock.timestamp.notBefore clock.timestamp) with
  | some n => .error (.nextNotBefore n.meta.clock.timestamp clock.timestamp)
  | none => .ok clock

/-- The loop that collects the hashes of the nexts and their least gid. -/
def collectNexts :
    List SortableEntry → List Hash → Option String →
      Except CreateError (List Hash × Option String)
  | [], nextHashes, gid => .ok (nextHashes, gid)
  | n :: nexts, nextHashes, gid =>
      if n.hash = "" then .error .missingHash
      else
        collectNexts nexts (nextHashes ++ [n.hash])
          (match gid with
          | none => some n.meta.gid
          | some gid =>
              some (if codeUnits n.meta.gid < codeUnits gid then n.meta.gid else gid))

/-- The hashes of the nexts, and the gid of the entry. -/
def createNexts (p : CreateProperties α) : Except CreateError (List Hash × Option String) :=
  if p.next.length > 0 then
    if p.gid.any (fun gid => decide (gid ≠ "")) then .error .gidWithNext
    else collectNexts p.next [] none
  else
    match p.gid with
    | some gid => .ok ([], some (if gid = "" then p.newGid else gid))
    | none => .ok ([], some p.newGid)

/-- `EntryV0.create`. -/
def create (env : CreateEnv α) (p : CreateProperties α) : Except CreateError (Entry α) :=
  match p.data with
  | none => .error .requiresData
  | some data =>
      match (match p.clock with
        | none => newClock p
        | some clock => checkClock clock p.next) with
      | .error e => .error e
      | .ok clock =>
          match createNexts p with
          | .error e => .error e
          | .ok (nextHashes, gid) =>
              let entry : Entry α :=
                { hash := ""
                  «meta» :=
                    { clock := clock, gid := gid.getD "", next := nextHashes, type := p.type }
                  payload := data
                  payloadSize := env.byteLengthOf data }
              if p.canAppend entry then
                .ok { entry with hash := env.toMultihash entry.meta data p.signatures }
              else
                .error .access

/-- The entry is later than all nexts, which it points to, and has the least of their
gids. -/
structure IsNewest (nexts : List SortableEntry) (entry : Entry α) : Prop where
  next : entry.meta.next = nexts.map SortableEntry.hash
  timestamp : ∀ n ∈ nexts, n.meta.clock.timestamp < entry.meta.clock.timestamp
  gid_mem : ∃ n ∈ nexts, n.meta.gid = entry.meta.gid
  gid_le : ∀ n ∈ nexts, codeUnits entry.meta.gid ≤ codeUnits n.meta.gid

/-! ### Sets of entries -/

/-- Somebody creates an entry that follows entries of the set. -/
def createStep (env : CreateEnv α) (s : List (Entry α)) (p : CreateProperties α) :
    Option (List (Entry α)) :=
  if ∀ n ∈ p.next, n ∈ s.map Entry.toSortableEntry then
    match create env p with
    | .error _ => some s
    | .ok entry => some (s ++ [entry])
  else
    none

/-- All the writers, from the first entry on. -/
def createMachine (env : CreateEnv α) :
    Lib.Machine (List (Entry α)) (CreateProperties α) where
  init := []
  step := createStep env

/-- The hash says what the entry is. -/
def ContentAddressed (s : List (Entry α)) : Prop :=
  ∀ e ∈ s, ∀ f ∈ s, e.hash = f.hash → e.meta = f.meta

/-- The second entry is a next of the first one. -/
def Links (s : List (Entry α)) (e f : Entry α) : Prop :=
  e ∈ s ∧ f ∈ s ∧ f.hash ∈ e.meta.next

structure GrowingDag (s : List (Entry α)) : Prop where
  acyclic : ∀ e, ¬ TransGen (Links s) e e
  gid : ∀ e ancestor, TransGen (Links s) e ancestor →
    codeUnits e.meta.gid ≤ codeUnits ancestor.meta.gid

/-! ### One entry -/

variable {env : CreateEnv α} {p : CreateProperties α} {entry : Entry α}

/-- After the loop the clock has seen all nexts. -/
theorem updateClock_last {readings : Nat → Nat} {i : Nat} {hlc hlc' : HLC}
    {nexts : List SortableEntry} (h : updateClock readings i hlc nexts = .ok hlc') :
    ¬ hlc'.last < hlc.last ∧ ∀ n ∈ nexts, ¬ hlc'.last < n.meta.clock.timestamp := by
  induction nexts generalizing i hlc with
  | nil =>
      obtain rfl := Except.ok.inj h
      exact ⟨Timestamp.lt_irrefl _, fun _ hn => absurd hn List.not_mem_nil⟩
  | cons next nexts ih =>
      unfold updateClock at h
      rcases hlc.update_cases (readings i) next.meta.clock.timestamp with
        ⟨e, he⟩ | ⟨t, ht, hlast, hnext, -⟩
      · rw [he] at h
        cases h
      · rw [ht] at h
        obtain ⟨hbefore, hrest⟩ := ih h
        refine ⟨fun hlt => hbefore (Timestamp.lt_trans hlt hlast), ?_⟩
        intro n hn hlt
        rcases List.mem_cons.mp hn with rfl | hn
        · exact hbefore (Timestamp.lt_trans hlt hnext)
        · exact hrest n hn hlt

theorem newClock_timestamp {clock : Clock} (h : newClock p = .ok clock) :
    ∀ n ∈ p.next, n.meta.clock.timestamp < clock.timestamp := by
  unfold newClock at h
  split at h
  · cases h
  · rename_i hlc hupdate
    split at h
    · cases h
    · unfold HLC.now at h
      rcases hlc.update_cases (p.readings (p.next.length + 1)) hlc.last with
        ⟨e, he⟩ | ⟨t, ht, hlast, -⟩
      · rw [he] at h
        cases h
      · rw [ht] at h
        obtain rfl := Except.ok.inj h
        intro n hn
        exact Timestamp.lt_of_not_lt ((updateClock_last hupdate).2 n hn) hlast

theorem checkClock_timestamp {clock clock' : Clock} {nexts : List SortableEntry}
    (h : checkClock clock nexts = .ok clock') :
    ∀ n ∈ nexts, n.meta.clock.timestamp < clock'.timestamp := by
  unfold checkClock at h
  split at h
  · cases h
  · rename_i hnone
    obtain rfl := Except.ok.inj h
    intro n hn
    have hnot := List.find?_eq_none.mp hnone n hn
    exact Timestamp.notBefore_eq_false.mp (Bool.eq_false_iff.mpr hnot)

theorem exists_gid_cons {n : SortableEntry} {nexts : List SortableEntry} {g : String}
    (h : g = n.meta.gid ∨ ∃ m ∈ nexts, m.meta.gid = g) :
    ∃ m ∈ n :: nexts, m.meta.gid = g := by
  rw [List.exists_mem_cons_iff]
  exact h.imp_left Eq.symm

/-- Beside the hashes the loop returns the least of the gid that it has and those that
are still to come. -/
theorem collectNexts_some {nexts : List SortableEntry} {nextHashes hashes : List Hash}
    {gid : String} {least : Option String}
    (h : collectNexts nexts nextHashes (some gid) = .ok (hashes, least)) :
    hashes = nextHashes ++ nexts.map SortableEntry.hash ∧
      ∃ g, least = some g ∧ (g = gid ∨ ∃ n ∈ nexts, n.meta.gid = g) ∧
        codeUnits g ≤ codeUnits gid ∧
        ∀ n ∈ nexts, codeUnits g ≤ codeUnits n.meta.gid := by
  induction nexts generalizing nextHashes gid with
  | nil =>
      obtain ⟨rfl, rfl⟩ := Prod.mk.inj (Except.ok.inj h)
      exact ⟨(List.append_nil _).symm, gid, rfl, .inl rfl, le_rfl,
        fun _ hn => absurd hn List.not_mem_nil⟩
  | cons n nexts ih =>
      unfold collectNexts at h
      split at h
      · cases h
      · obtain ⟨hhashes, g, hg, hfrom, hle, hall⟩ := ih h
        refine ⟨by rw [hhashes, List.append_assoc]; rfl, g, hg, ?_⟩
        by_cases hlt : codeUnits n.meta.gid < codeUnits gid
        · rw [if_pos hlt] at hfrom hle
          exact ⟨.inr (exists_gid_cons hfrom), hle.trans hlt.le,
            List.forall_mem_cons.mpr ⟨hle, hall⟩⟩
        · rw [if_neg hlt] at hfrom hle
          refine ⟨?_, hle, List.forall_mem_cons.mpr ⟨hle.trans (not_lt.mp hlt), hall⟩⟩
          rcases hfrom with rfl | ⟨m, hm, hmg⟩
          · exact .inl rfl
          · exact .inr ⟨m, List.mem_cons_of_mem _ hm, hmg⟩

theorem createNexts_spec {hashes : List Hash} {least : Option String}
    (h : createNexts p = .ok (hashes, least)) :
    hashes = p.next.map SortableEntry.hash ∧
      (p.next ≠ [] → ∃ g, least = some g ∧ (∃ n ∈ p.next, n.meta.gid = g) ∧
        ∀ n ∈ p.next, codeUnits g ≤ codeUnits n.meta.gid) := by
  unfold createNexts at h
  cases hnext : p.next with
  | nil =>
      rw [hnext] at h
      refine ⟨?_, fun hne => absurd rfl hne⟩
      dsimp only [List.length_nil] at h
      rw [if_neg (Nat.lt_irrefl 0)] at h
      split at h
      · exact (Prod.mk.inj (Except.ok.inj h)).1.symm
      · exact (Prod.mk.inj (Except.ok.inj h)).1.symm
  | cons n nexts =>
      have hlength : (n :: nexts).length > 0 := Nat.succ_pos _
      rw [hnext, if_pos hlength] at h
      split at h
      · cases h
      · unfold collectNexts at h
        split at h
        · cases h
        · obtain ⟨hhashes, g, hg, hfrom, hle, hall⟩ := collectNexts_some h
          exact ⟨hhashes, fun _ => ⟨g, hg, exists_gid_cons hfrom,
            List.forall_mem_cons.mpr ⟨hle, hall⟩⟩⟩

/-- What `create` returns. -/
theorem create_spec (h : create env p = .ok entry) :
    entry.meta.next = p.next.map SortableEntry.hash ∧
      (∀ n ∈ p.next, n.meta.clock.timestamp < entry.meta.clock.timestamp) ∧
      (p.next ≠ [] → (∃ n ∈ p.next, n.meta.gid = entry.meta.gid) ∧
        ∀ n ∈ p.next, codeUnits entry.meta.gid ≤ codeUnits n.meta.gid) := by
  unfold create at h
  split at h
  · cases h
  · split at h
    · cases h
    · rename_i clock hclock
      have htimestamp : ∀ n ∈ p.next, n.meta.clock.timestamp < clock.timestamp := by
        split at hclock
        · exact newClock_timestamp hclock
        · exact checkClock_timestamp hclock
      split at h
      · cases h
      · rename_i hashes least hnexts
        obtain ⟨hhashes, hgid⟩ := createNexts_spec hnexts
        dsimp only at h
        split at h
        · obtain rfl := Except.ok.inj h
          refine ⟨hhashes, htimestamp, ?_⟩
          intro hne
          obtain ⟨g, rfl, hmem, hle⟩ := hgid hne
          exact ⟨hmem, hle⟩
        · cases h

theorem create_isNewest (hne : p.next ≠ []) (h : create env p = .ok entry) :
    IsNewest p.next entry := by
  obtain ⟨hnext, htimestamp, hgid⟩ := create_spec h
  exact
    { next := hnext, timestamp := htimestamp
      gid_mem := (hgid hne).1, gid_le := (hgid hne).2 }

/-! ### All entries -/

variable {s t : List (Entry α)}

/-- Each next of an entry is an entry of the set, before it and with a gid that is not
less. -/
def Grown (s : List (Entry α)) : Prop :=
  ∀ e ∈ s, ∀ k ∈ e.meta.next, ∃ f ∈ s, f.hash = k ∧
    f.meta.clock.timestamp < e.meta.clock.timestamp ∧
    codeUnits e.meta.gid ≤ codeUnits f.meta.gid

theorem Grown.step (hs : Grown s) (hstep : createStep env s p = some t) : Grown t := by
  unfold createStep at hstep
  split at hstep
  · rename_i hmem
    split at hstep
    · obtain rfl := Option.some.inj hstep
      exact hs
    · rename_i entry hentry
      obtain rfl := Option.some.inj hstep
      obtain ⟨hnext, htimestamp, hgid⟩ := create_spec hentry
      intro e he k hk
      rcases List.mem_append.mp he with he | he
      · obtain ⟨f, hf, hrest⟩ := hs e he k hk
        exact ⟨f, List.mem_append_left _ hf, hrest⟩
      · obtain rfl := List.mem_singleton.mp he
        rw [hnext] at hk
        obtain ⟨n, hn, rfl⟩ := List.mem_map.mp hk
        obtain ⟨f, hf, rfl⟩ := List.mem_map.mp (hmem n hn)
        exact ⟨f, List.mem_append_left _ hf, rfl, htimestamp _ hn,
          (hgid (List.ne_nil_of_mem hn)).2 _ hn⟩
  · cases hstep

/-- A link leads back in time, to a gid that is not less. -/
theorem Grown.of_links (hs : Grown s) (hcontent : ContentAddressed s) {e f : Entry α}
    (h : Links s e f) :
    f.meta.clock.timestamp < e.meta.clock.timestamp ∧
      codeUnits e.meta.gid ≤ codeUnits f.meta.gid := by
  obtain ⟨he, hf, hnext⟩ := h
  obtain ⟨g, hg, hhash, htimestamp, hgid⟩ := hs e he f.hash hnext
  rw [hcontent g hg f hf hhash] at htimestamp hgid
  exact ⟨htimestamp, hgid⟩

theorem Grown.of_ancestor (hs : Grown s) (hcontent : ContentAddressed s)
    {e ancestor : Entry α} (h : TransGen (Links s) e ancestor) :
    ancestor.meta.clock.timestamp < e.meta.clock.timestamp ∧
      codeUnits e.meta.gid ≤ codeUnits ancestor.meta.gid := by
  induction h with
  | single hlink => exact hs.of_links hcontent hlink
  | tail _ hlink ih =>
      obtain ⟨htimestamp, hgid⟩ := hs.of_links hcontent hlink
      exact ⟨Timestamp.lt_trans htimestamp ih.1, ih.2.trans hgid⟩

theorem Grown.growingDag (hs : Grown s) (hcontent : ContentAddressed s) : GrowingDag s where
  acyclic := fun _ h => Timestamp.lt_irrefl _ (hs.of_ancestor hcontent h).1
  gid := fun _ _ h => (hs.of_ancestor hcontent h).2

theorem grown_of_run (hrun : (createMachine env).Run Lib.Machine.Free s) : Grown s := by
  refine hrun.invariant ?_ ?_
  · exact fun _ he => absurd he List.not_mem_nil
  · exact fun _ _ _ hs _ hstep => Grown.step hs hstep

/-- Each entry is newer than its nexts, and so all entries that are ever created form a
growing graph. -/
theorem created_dag (env : CreateEnv α) :
    (∀ (p : CreateProperties α) (entry : Entry α), p.next ≠ [] →
      create env p = .ok entry → IsNewest p.next entry) ∧
    ∀ s, (createMachine env).Run Lib.Machine.Free s → ContentAddressed s →
      GrowingDag s :=
  ⟨fun _ _ hne h => create_isNewest hne h,
    fun _ hrun hcontent => (grown_of_run hrun).growingDag hcontent⟩

/-! ### The entries of a log -/

/-- What a log appends is what `create` makes of the clock that the log gives it, but for
the hash and the order of gids beyond the basic plane. -/
theorem createEntry_of_create {σ : Type} {logEnv : LogEnv α σ} {data : α}
    {options : AppendOptions α} {clock : Clock} (hclock : p.clock = some clock)
    (hoptions : options.clock = clock) (htype : p.type = options.type)
    (h : create env p = .ok entry) :
    ∃ appended, createEntry logEnv data options p.next = .ok appended ∧
      appended.meta.clock = entry.meta.clock ∧ appended.meta.next = entry.meta.next ∧
      appended.meta.type = entry.meta.type := by
  have hcreate := h
  unfold create at h
  rw [hclock] at h
  split at h
  · cases h
  · dsimp only at h
    split at h
    · cases h
    · rename_i clock' hchecked
      have hnone := hchecked
      unfold checkClock at hnone
      split at hnone
      · cases hnone
      · rename_i hfind
        obtain rfl := Except.ok.inj hnone
        split at h
        · cases h
        · rename_i hashes least hnexts
          obtain ⟨hhashes, -⟩ := createNexts_spec hnexts
          split at h
          · obtain rfl := Except.ok.inj h
            unfold createEntry
            rw [hoptions, hfind]
            exact ⟨_, rfl, rfl, hhashes.symm, htype.symm⟩
          · cases h

end Create

namespace ThreeEntries

def env : CreateEnv String where
  toMultihash := fun «meta» data _ => data ++ String.join «meta».next
  byteLengthOf := String.length

def entry (data gid : String) (next : List Hash) (id : String) (timestamp : Timestamp) :
    Entry String where
  hash := data ++ String.join next
  «meta» :=
    { clock := { id := id, timestamp := timestamp }, gid := gid, next := next
      type := .APPEND }
  payload := data
  payloadSize := 1

def first : Entry String := entry "1" "b" [] "writer" ⟨7, 0⟩

def second : Entry String := entry "2" "a" [] "other" ⟨1, 0⟩

def third : Entry String := entry "3" "a" ["1", "2"] "other" ⟨7, 3⟩

/-- The first writer has a clock that is ahead; the other one follows both entries with
the clock that `create` makes. -/
def actions : List (CreateProperties String) :=
  [{ data := some "1", gid := some "b", newGid := "", publicKey := "writer"
     signatures := "", readings := fun _ => 5, clock := some first.meta.clock },
   { data := some "2", newGid := "a", publicKey := "other"
     signatures := "", readings := fun i => i },
   { data := some "3", newGid := "c", publicKey := "other"
     signatures := "", readings := fun i => i
     next := [first.toSortableEntry, second.toSortableEntry] }]

theorem created_dag_three :
    (createMachine env).Run Lib.Machine.Free [first, second, third] ∧
      IsNewest [first.toSortableEntry, second.toSortableEntry] third ∧
      GrowingDag [first, second, third] := by
  have hexec : (createMachine env).exec [] actions = some [first, second, third] := by
    decide +kernel
  have hrun := Lib.Machine.Run.of_exec .init actions hexec
  have hcontent : ContentAddressed [first, second, third] := by
    unfold ContentAddressed
    decide +kernel
  refine ⟨hrun, ?_, (created_dag env).2 _ hrun hcontent⟩
  exact (created_dag env).1
    { data := some "3", newGid := "c", publicKey := "other"
      signatures := "", readings := fun i => i
      next := [first.toSortableEntry, second.toSortableEntry] }
    third (List.cons_ne_nil _ _) (by decide +kernel)

end ThreeEntries

end Log
end Peerbit
