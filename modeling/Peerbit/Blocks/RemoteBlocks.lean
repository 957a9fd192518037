import Peerbit.Lib.Machines

/-!
# Reading a block from other peers

`RemoteBlocks` for one cid that is not in the local store, while the store is
open.  A call first tries bytes that came early.  Then it joins the read in the
table, or makes a new one: a promise with a timer, a handler of the caller's
signal, a resolver for the responses to come, and a request to other peers.

Everything that waits (the local store, a check of bytes, publishing, a promise)
is a step of its own, and steps come in any order; a timer may fire at any time.
A check that fails rejects a promise that nothing waits for, which leaves the
state as it is.
-/

namespace Peerbit
namespace Blocks

universe u v

/-- `options.remote` of a call: whether it has a signal, and whom it asks.  The
option to replicate only concerns what a call has returned. -/
structure RemoteOptions (ι : Type v) where
  signal : Bool
  «from» : Option (List ι)
deriving Repr, DecidableEq

inductive DeliveryMode (ι : Type v) where
  | AnyWhere
  | SilentDelivery (to_ : List ι) (redundancy : Nat)
deriving Repr, DecidableEq

/-- A `BlockRequest` for the cid, with the options it is published with. -/
structure BlockRequest (ι : Type v) where
  to_ : Option (List ι)
  mode : DeliveryMode ι
deriving Repr, DecidableEq

/-- What a promise is settled with. -/
inductive Outcome (β : Type u) where
  | resolved (bytes : Option β)
  | rejected
deriving Repr, DecidableEq

/-- A promise of `_readFromPeers` and what its closures hold: the timer, if it is
set, and whether the handler still listens to the signal. -/
structure Read (β : Type u) (ι : Type v) where
  options : RemoteOptions ι
  outcome : Option (Outcome β)
  timer : Bool
  listening : Bool
deriving Repr, DecidableEq

/-- Where a call of `get` is. -/
inductive Call (β : Type u) (ι : Type v) where
  | readingLocal (options : Option (RemoteOptions ι))
  | decoding (bytes : β) (options : RemoteOptions ι)
  | publishing (read : Nat)
  | waiting (read : Nat) (creator : Bool)
  | returned (bytes : Option β)
  | thrown
deriving Repr, DecidableEq

/-- The entries of the cid in the tables of the store; all reads, checks that
resolvers wait for and calls; the reads that ask new peers, and what was
published. -/
structure BlocksState (β : Type u) (ι : Type v) where
  blockCache : Option β
  readFromPeersPromises : Option Nat
  resolvers : Option Nat
  reads : List (Read β ι)
  checks : List (Nat × β)
  calls : List (Call β ι)
  publishOnNewPeers : List Nat
  requests : List (BlockRequest ι)
deriving Repr, DecidableEq

inductive BlocksAction (β : Type u) (ι : Type v) where
  | get (options : Option (RemoteOptions ι))
  | readFromPeers (call : Nat)
  | decoded (call : Nat)
  | published (call : Nat)
  | publishFailed (call : Nat)
  | response (bytes : β)
  | checked (check : Nat)
  | timeout (read : Nat)
  | abort (read : Nat)
  | settled (call : Nat)
  | evict
  | reachable (peer : ι)
deriving Repr, DecidableEq

section Steps

variable {β : Type u} {ι : Type v}

/-- A promise is settled once. -/
def Read.settle (read : Read β ι) (outcome : Outcome β) : Read β ι :=
  { read with outcome := read.outcome.or (some outcome) }

/-- The callback of the timer. -/
def Read.timeout (read : Read β ι) : Read β ι :=
  { read.settle (.resolved none) with timer := false }

/-- What `abortHandler` does to its read. -/
def Read.abort (read : Read β ι) : Read β ι :=
  { read.settle .rejected with timer := false, listening := false }

/-- What a resolver does to its read.  The handler of the signal stays. -/
def Read.resolve (read : Read β ι) (bytes : β) : Read β ι :=
  { read.settle (.resolved (some bytes)) with timer := false }

namespace BlocksState

variable (s : BlocksState β ι)

def setCall (call : Nat) (next : Call β ι) : BlocksState β ι :=
  { s with calls := s.calls.set call next }

def updateRead (read : Nat) (f : Read β ι → Read β ι) : BlocksState β ι :=
  { s with reads := s.reads.modify read f }

/-- The state with a new read, and the request of its creator. -/
def createRead (options : RemoteOptions ι) : BlocksState β ι :=
  let read := s.reads.length
  { s with
    reads := s.reads ++
      [{ options := options, outcome := none, timer := true
         listening := options.signal }]
    resolvers := some read
    readFromPeersPromises := some read
    publishOnNewPeers := s.publishOnNewPeers ++ [read]
    requests := s.requests ++
      [{ to_ := none
         mode :=
           match options.from with
           | some «from» => .SilentDelivery «from» 1
           | none => .AnyWhere }] }

/-- `_readFromPeers` after the early bytes. -/
def joinRead (call : Nat) (options : RemoteOptions ι) : BlocksState β ι :=
  match s.readFromPeersPromises with
  | some read => s.setCall call (.waiting read false)
  | none => (s.createRead options).setCall call (.publishing s.reads.length)

/-- `_readFromPeers` of a call. -/
def readFromPeers (earlyBlocks : Bool) (call : Nat) (options : RemoteOptions ι) :
    BlocksState β ι :=
  match if earlyBlocks then s.blockCache else none with
  | some bytes =>
      { s with blockCache := none }.setCall call (.decoding bytes options)
  | none => s.joinRead call options

/-- What the creator of a read removes at the end. -/
def removeRead (read : Nat) : BlocksState β ι :=
  { s with
    readFromPeersPromises := none
    publishOnNewPeers := s.publishOnNewPeers.filter (· ≠ read) }

/-- The rest of `_readFromPeers`, when the promise of the call is settled. -/
def finish (call read : Nat) (creator : Bool) : Outcome β → BlocksState β ι
  | .resolved bytes =>
      (if creator then s.removeRead read else s).setCall call (.returned bytes)
  | .rejected => s.setCall call .thrown

/-- The requests to a new peer. -/
def requestsTo [DecidableEq ι] (peer : ι) : List (BlockRequest ι) :=
  s.publishOnNewPeers.filterMap (fun read =>
    (s.reads[read]?).bind (fun read =>
      if read.options.from.all (peer ∈ ·) then
        some { to_ := some [peer], mode := .AnyWhere }
      else
        none))

/-- `_responseHandler` for a response. -/
def responseHandler (earlyBlocks : Bool) (bytes : β) : BlocksState β ι :=
  match s.resolvers with
  | some read => { s with checks := s.checks ++ [(read, bytes)] }
  | none => if earlyBlocks then { s with blockCache := some bytes } else s

end BlocksState

variable [DecidableEq ι] (earlyBlocks : Bool) (decodes : β → Bool)

/-- One step; a step that does not fit the state is not enabled.  `decodes` says
which bytes decode against the cid. -/
def blocksStep (s : BlocksState β ι) :
    BlocksAction β ι → Option (BlocksState β ι)
  | .get options => some { s with calls := s.calls ++ [.readingLocal options] }
  | .readFromPeers call =>
      match s.calls[call]? with
      | some (.readingLocal (some options)) =>
          some (s.readFromPeers earlyBlocks call options)
      | some (.readingLocal none) => some (s.setCall call (.returned none))
      | _ => none
  | .decoded call =>
      match s.calls[call]? with
      | some (.decoding bytes options) =>
          if decodes bytes then
            some (s.setCall call (.returned (some bytes)))
          else
            some (s.joinRead call options)
      | _ => none
  | .published call =>
      match s.calls[call]? with
      | some (.publishing read) => some (s.setCall call (.waiting read true))
      | _ => none
  | .publishFailed call =>
      match s.calls[call]? with
      | some (.publishing _) => some (s.setCall call .thrown)
      | _ => none
  | .response bytes => some (s.responseHandler earlyBlocks bytes)
  | .checked check =>
      (s.checks[check]?).map (fun (read, bytes) =>
        let s := { s with checks := s.checks.eraseIdx check }
        if decodes bytes then
          { s with resolvers := none }.updateRead read (·.resolve bytes)
        else
          s)
  | .timeout read =>
      if (s.reads[read]?).any Read.timer then
        some (s.updateRead read Read.timeout)
      else
        none
  | .abort read =>
      if (s.reads[read]?).any Read.listening then
        some ({ s with resolvers := none }.updateRead read Read.abort)
      else
        none
  | .settled call =>
      match s.calls[call]? with
      | some (.waiting read creator) =>
          ((s.reads[read]?).bind Read.outcome).map (s.finish call read creator)
      | _ => none
  | .evict => some { s with blockCache := none }
  | .reachable peer => some { s with requests := s.requests ++ s.requestsTo peer }

def blocksMachine : Lib.Machine (BlocksState β ι) (BlocksAction β ι) where
  init :=
    { blockCache := none, readFromPeersPromises := none, resolvers := none
      reads := [], checks := [], calls := [], publishOnNewPeers := []
      requests := [] }
  step := blocksStep earlyBlocks decodes

end Steps

/-! ### What a step does -/

section Moves

variable {β : Type u} {ι : Type v}

/-- The read that the call has made, until the call ends. -/
def Call.owned : Call β ι → Option Nat
  | .publishing read => some read
  | .waiting read true => some read
  | _ => none

/-- The read whose promise the call ends with. -/
def Call.joined : Call β ι → Option Nat
  | .publishing read => some read
  | .waiting read _ => some read
  | _ => none

def Call.ended : Call β ι → Bool
  | .returned _ => true
  | .thrown => true
  | _ => false

namespace BlocksState

variable (s : BlocksState β ι)

/-- The outcome of a read, which is none as long as the read is pending. -/
def outcome (read : Nat) : Option (Option (Outcome β)) :=
  (s.reads[read]?).map Read.outcome

def owned (call : Nat) : Option Nat := (s.calls[call]?).bind Call.owned

def joined (call : Nat) : Option Nat := (s.calls[call]?).bind Call.joined

/-- The call enters the part of `_readFromPeers` after the early bytes. -/
def Enters (earlyBlocks : Bool) (decodes : β → Bool) (call : Nat)
    (options : RemoteOptions ι) : BlocksAction β ι → Prop
  | .readFromPeers c => c = call ∧
      s.calls[call]? = some (.readingLocal (some options)) ∧
      (earlyBlocks = true → s.blockCache = none)
  | .decoded c => c = call ∧
      ∃ bytes, s.calls[call]? = some (.decoding bytes options) ∧
        decodes bytes = false
  | _ => False

/-- What a step can do. -/
inductive Moves (earlyBlocks : Bool) (decodes : β → Bool) :
    BlocksAction β ι → BlocksState β ι → Prop
  | called (options : Option (RemoteOptions ι)) :
      Moves earlyBlocks decodes (.get options)
        { s with calls := s.calls ++ [.readingLocal options] }
  | localOnly {call : Nat} (hcall : s.calls[call]? = some (.readingLocal none)) :
      Moves earlyBlocks decodes (.readFromPeers call)
        (s.setCall call (.returned none))
  | early {call : Nat} {bytes : β} {options : RemoteOptions ι}
      (hearly : earlyBlocks = true) (hcache : s.blockCache = some bytes)
      (hcall : s.calls[call]? = some (.readingLocal (some options))) :
      Moves earlyBlocks decodes (.readFromPeers call)
        ({ s with blockCache := none }.setCall call (.decoding bytes options))
  | joins {a : BlocksAction β ι} {call read : Nat} {options : RemoteOptions ι}
      (henters : s.Enters earlyBlocks decodes call options a)
      (hread : s.readFromPeersPromises = some read) :
      Moves earlyBlocks decodes a (s.setCall call (.waiting read false))
  | creates {a : BlocksAction β ι} {call : Nat} {options : RemoteOptions ι}
      (henters : s.Enters earlyBlocks decodes call options a)
      (hread : s.readFromPeersPromises = none) :
      Moves earlyBlocks decodes a
        ((s.createRead options).setCall call (.publishing s.reads.length))
  | decoded {call : Nat} {bytes : β} {options : RemoteOptions ι}
      (hcall : s.calls[call]? = some (.decoding bytes options))
      (hbytes : decodes bytes = true) :
      Moves earlyBlocks decodes (.decoded call)
        (s.setCall call (.returned (some bytes)))
  | published {call read : Nat}
      (hcall : s.calls[call]? = some (.publishing read)) :
      Moves earlyBlocks decodes (.published call)
        (s.setCall call (.waiting read true))
  | publishFailed {call read : Nat}
      (hcall : s.calls[call]? = some (.publishing read)) :
      Moves earlyBlocks decodes (.publishFailed call) (s.setCall call .thrown)
  | responded {read : Nat} (bytes : β) (hread : s.resolvers = some read) :
      Moves earlyBlocks decodes (.response bytes)
        { s with checks := s.checks ++ [(read, bytes)] }
  | cached (bytes : β) (blockCache : Option β) (hread : s.resolvers = none) :
      Moves earlyBlocks decodes (.response bytes) { s with blockCache := blockCache }
  | evicted : Moves earlyBlocks decodes .evict { s with blockCache := none }
  | asked (peer : ι) (requests : List (BlockRequest ι))
      (hto : ∀ request ∈ requests, request.to_ = some [peer]) :
      Moves earlyBlocks decodes (.reachable peer)
        { s with requests := s.requests ++ requests }
  | failed {check read : Nat} {bytes : β}
      (hcheck : s.checks[check]? = some (read, bytes))
      (hbytes : decodes bytes = false) :
      Moves earlyBlocks decodes (.checked check)
        { s with checks := s.checks.eraseIdx check }
  | resolved {check read : Nat} {bytes : β}
      (hcheck : s.checks[check]? = some (read, bytes))
      (hbytes : decodes bytes = true) :
      Moves earlyBlocks decodes (.checked check)
        ({ s with checks := s.checks.eraseIdx check, resolvers := none }.updateRead
          read (·.resolve bytes))
  | timedOut (read : Nat) :
      Moves earlyBlocks decodes (.timeout read) (s.updateRead read Read.timeout)
  | aborted (read : Nat) :
      Moves earlyBlocks decodes (.abort read)
        ({ s with resolvers := none }.updateRead read Read.abort)
  | finished {call read : Nat} {creator : Bool} {outcome : Outcome β}
      (hcall : s.calls[call]? = some (.waiting read creator))
      (houtcome : s.outcome read = some (some outcome)) :
      Moves earlyBlocks decodes (.settled call) (s.finish call read creator outcome)

end BlocksState

variable {earlyBlocks : Bool} {decodes : β → Bool}
variable {s s' : BlocksState β ι} {a : BlocksAction β ι}

theorem moves_joinRead {call : Nat} {options : RemoteOptions ι}
    (henters : s.Enters earlyBlocks decodes call options a) :
    s.Moves earlyBlocks decodes a (s.joinRead call options) := by
  unfold BlocksState.joinRead
  cases hread : s.readFromPeersPromises with
  | none => exact .creates henters hread
  | some read => exact .joins henters hread

theorem moves_readFromPeers {call : Nat} {options : RemoteOptions ι}
    (hcall : s.calls[call]? = some (.readingLocal (some options))) :
    s.Moves earlyBlocks decodes (.readFromPeers call)
      (s.readFromPeers earlyBlocks call options) := by
  unfold BlocksState.readFromPeers
  cases earlyBlocks with
  | false => exact moves_joinRead ⟨rfl, hcall, fun h => (Bool.false_ne_true h).elim⟩
  | true =>
      cases hcache : s.blockCache with
      | none => exact moves_joinRead ⟨rfl, hcall, fun _ => hcache⟩
      | some bytes => exact .early rfl hcache hcall

/-- Every step is one of these moves. -/
theorem moves_of_step [DecidableEq ι]
    (h : blocksStep earlyBlocks decodes s a = some s') :
    s.Moves earlyBlocks decodes a s' := by
  cases a with
  | get options =>
      obtain rfl := Option.some.inj h
      exact .called options
  | readFromPeers call =>
      simp only [blocksStep] at h
      split at h
      case h_1 options hcall =>
        obtain rfl := Option.some.inj h
        exact moves_readFromPeers hcall
      case h_2 hcall =>
        obtain rfl := Option.some.inj h
        exact .localOnly hcall
      case h_3 => cases h
  | decoded call =>
      simp only [blocksStep] at h
      split at h
      case h_1 bytes options hcall =>
        split at h
        case isTrue hbytes =>
          obtain rfl := Option.some.inj h
          exact .decoded hcall hbytes
        case isFalse hbytes =>
          obtain rfl := Option.some.inj h
          exact moves_joinRead ⟨rfl, bytes, hcall, by simpa using hbytes⟩
      case h_2 => cases h
  | published call =>
      simp only [blocksStep] at h
      split at h
      case h_1 read hcall =>
        obtain rfl := Option.some.inj h
        exact .published hcall
      case h_2 => cases h
  | publishFailed call =>
      simp only [blocksStep] at h
      split at h
      case h_1 read hcall =>
        obtain rfl := Option.some.inj h
        exact .publishFailed hcall
      case h_2 => cases h
  | response bytes =>
      simp only [blocksStep] at h
      obtain rfl := Option.some.inj h
      unfold BlocksState.responseHandler
      split
      case h_1 read hread => exact .responded bytes hread
      case h_2 hread =>
        split
        case isTrue => exact .cached bytes (some bytes) hread
        case isFalse => exact .cached bytes s.blockCache hread
  | checked check =>
      simp only [blocksStep, Option.map_eq_some_iff] at h
      obtain ⟨⟨read, bytes⟩, hcheck, rfl⟩ := h
      split
      case isTrue hbytes => exact .resolved hcheck hbytes
      case isFalse hbytes => exact .failed hcheck (by simpa using hbytes)
  | timeout read =>
      simp only [blocksStep] at h
      split at h
      case isTrue =>
        obtain rfl := Option.some.inj h
        exact .timedOut read
      case isFalse => cases h
  | abort read =>
      simp only [blocksStep] at h
      split at h
      case isTrue =>
        obtain rfl := Option.some.inj h
        exact .aborted read
      case isFalse => cases h
  | settled call =>
      simp only [blocksStep] at h
      split at h
      case h_1 read creator hcall =>
        obtain ⟨outcome, houtcome, rfl⟩ := Option.map_eq_some_iff.mp h
        obtain ⟨r, hr, hsettled⟩ := Option.bind_eq_some_iff.mp houtcome
        exact .finished hcall (by rw [BlocksState.outcome, hr, Option.map_some, hsettled])
      case h_2 => cases h
  | evict =>
      obtain rfl := Option.some.inj h
      exact .evicted
  | reachable peer =>
      obtain rfl := Option.some.inj h
      refine .asked peer (s.requestsTo peer) (fun request hrequest => ?_)
      obtain ⟨read, _, hread⟩ := List.mem_filterMap.mp hrequest
      obtain ⟨r, _, hr⟩ := Option.bind_eq_some_iff.mp hread
      split at hr
      case isTrue => exact Option.some.inj hr ▸ rfl
      case isFalse => cases hr

end Moves

/-! ### Calls and outcomes -/

section Lookups

variable {β : Type u} {ι : Type v} {s : BlocksState β ι}

@[simp] theorem outcome_setCall (call : Nat) (next : Call β ι) (read : Nat) :
    (s.setCall call next).outcome read = s.outcome read := rfl

theorem bind_setCall {γ : Type*} (f : Call β ι → Option γ) {call : Nat}
    {now next : Call β ι} (hcall : s.calls[call]? = some now) (i : Nat) :
    ((s.setCall call next).calls[i]?).bind f =
      if call = i then f next else (s.calls[i]?).bind f := by
  have hlt : call < s.calls.length := (List.getElem?_eq_some_iff.mp hcall).1
  unfold BlocksState.setCall
  rw [List.getElem?_set]
  by_cases hi : call = i
  · simp [← hi, hlt]
  · simp [hi]

theorem owned_setCall {call : Nat} {now next : Call β ι}
    (hcall : s.calls[call]? = some now) (i : Nat) :
    (s.setCall call next).owned i = if call = i then next.owned else s.owned i :=
  bind_setCall Call.owned hcall i

theorem calls_setCall {call : Nat} {now next : Call β ι}
    (hcall : s.calls[call]? = some now) (i : Nat) :
    (s.setCall call next).calls[i]? =
      if call = i then some next else s.calls[i]? := by
  have h : ((s.setCall call next).calls[i]?).bind some =
      if call = i then some next else (s.calls[i]?).bind some :=
    bind_setCall some hcall i
  simpa using h

theorem outcome_timeout (r : Read β ι) :
    r.timeout.outcome = r.outcome.or (some (.resolved none)) := rfl

theorem outcome_abort (r : Read β ι) :
    r.abort.outcome = r.outcome.or (some .rejected) := rfl

theorem outcome_resolve (bytes : β) (r : Read β ι) :
    (r.resolve bytes).outcome = r.outcome.or (some (.resolved (some bytes))) := rfl

/-- An update that settles a read keeps what is settled. -/
theorem outcome_updateRead {f : Read β ι → Read β ι} {outcome : Outcome β}
    (hf : ∀ r, (f r).outcome = r.outcome.or (some outcome)) (read i : Nat) :
    (s.updateRead read f).outcome i =
      if read = i then (s.outcome i).map (·.or (some outcome)) else s.outcome i := by
  unfold BlocksState.updateRead BlocksState.outcome
  rw [List.getElem?_modify]
  split
  · cases s.reads[i]? <;> simp [hf]
  · cases s.reads[i]? <;> simp

theorem pending_updateRead {f : Read β ι → Read β ι} {outcome : Outcome β}
    (hf : ∀ r, (f r).outcome = r.outcome.or (some outcome)) {read i : Nat} :
    (s.updateRead read f).outcome i = some none ↔
      read ≠ i ∧ s.outcome i = some none := by
  rw [outcome_updateRead hf]
  by_cases hi : read = i
  · simp [hi]
  · simp [hi]

theorem outcome_createRead (options : RemoteOptions ι) (i : Nat) :
    (s.createRead options).outcome i =
      if i = s.reads.length then some none else s.outcome i := by
  unfold BlocksState.createRead BlocksState.outcome
  rcases Nat.lt_trichotomy i s.reads.length with hlt | rfl | hgt
  · rw [List.getElem?_append_left hlt, if_neg (by omega)]
  · simp
  · rw [if_neg (by omega), List.getElem?_append_right (by omega),
      List.getElem?_eq_none (Nat.le_of_lt hgt), List.getElem?_eq_none]
    rw [List.length_singleton]
    omega

theorem outcome_finish (call read : Nat) (creator : Bool) (outcome : Outcome β)
    (i : Nat) : (s.finish call read creator outcome).outcome i = s.outcome i := by
  cases outcome with
  | resolved => cases creator <;> rfl
  | rejected => rfl

/-- How a call ends with the outcome of its read. -/
def Outcome.call : Outcome β → Call β ι
  | .resolved bytes => .returned bytes
  | .rejected => .thrown

theorem calls_finish {call read : Nat} {creator : Bool} {now : Call β ι}
    (hcall : s.calls[call]? = some now) (outcome : Outcome β) (i : Nat) :
    (s.finish call read creator outcome).calls[i]? =
      if call = i then some outcome.call else s.calls[i]? := by
  cases outcome with
  | resolved => cases creator <;> exact calls_setCall hcall i
  | rejected => exact calls_setCall hcall i

end Lookups

/-! ### What becomes of one call and of one read -/

section Becomes

variable {β : Type u} {ι : Type v} {earlyBlocks : Bool} {decodes : β → Bool}
variable {s s' : BlocksState β ι} {a : BlocksAction β ι}

/-- What a step can make of a call. -/
inductive CallMoves (earlyBlocks : Bool) (decodes : β → Bool)
    (s s' : BlocksState β ι) (call : Nat) :
    BlocksAction β ι → Call β ι → Call β ι → Prop
  | localOnly : CallMoves earlyBlocks decodes s s' call (.readFromPeers call)
      (.readingLocal none) (.returned none)
  | early {bytes : β} {options : RemoteOptions ι} (hearly : earlyBlocks = true)
      (hcache : s.blockCache = some bytes) :
      CallMoves earlyBlocks decodes s s' call (.readFromPeers call)
        (.readingLocal (some options)) (.decoding bytes options)
  | joins {a : BlocksAction β ι} {now : Call β ι} {read : Nat}
      {options : RemoteOptions ι}
      (henters : s.Enters earlyBlocks decodes call options a)
      (hnow : s.calls[call]? = some now)
      (hread : s.readFromPeersPromises = some read) :
      CallMoves earlyBlocks decodes s s' call a now (.waiting read false)
  | creates {a : BlocksAction β ι} {now : Call β ι} {options : RemoteOptions ι}
      (henters : s.Enters earlyBlocks decodes call options a)
      (hnow : s.calls[call]? = some now)
      (hread : s.readFromPeersPromises = none)
      (hreads : s.reads.length < s'.reads.length) :
      CallMoves earlyBlocks decodes s s' call a now (.publishing s.reads.length)
  | decoded {bytes : β} {options : RemoteOptions ι} (hbytes : decodes bytes = true) :
      CallMoves earlyBlocks decodes s s' call (.decoded call) (.decoding bytes options)
        (.returned (some bytes))
  | published {read : Nat} : CallMoves earlyBlocks decodes s s' call (.published call)
      (.publishing read) (.waiting read true)
  | publishFailed {read : Nat} :
      CallMoves earlyBlocks decodes s s' call (.publishFailed call)
        (.publishing read) .thrown
  | finished {read : Nat} {creator : Bool} {outcome : Outcome β}
      (houtcome : s.outcome read = some (some outcome)) :
      CallMoves earlyBlocks decodes s s' call (.settled call) (.waiting read creator)
        outcome.call

/-- A call that enters waits for no read yet. -/
theorem exists_call_of_enters {call : Nat} {options : RemoteOptions ι}
    (h : s.Enters earlyBlocks decodes call options a) :
    ∃ now, s.calls[call]? = some now ∧ now.joined = none ∧ now.ended = false := by
  cases a with
  | readFromPeers c => exact ⟨_, h.2.1, rfl, rfl⟩
  | decoded c =>
      obtain ⟨_, bytes, hcall, _⟩ := h
      exact ⟨_, hcall, rfl, rfl⟩
  | _ => exact h.elim

/-- A call that has ended stays. -/
theorem CallMoves.not_ended {call : Nat} {now next : Call β ι}
    (h : CallMoves earlyBlocks decodes s s' call a now next) : now.ended = false := by
  cases h with
  | joins henters hnow _ | creates henters hnow _ _ =>
      obtain ⟨now', hnow', _, hended⟩ := exists_call_of_enters henters
      rw [hnow] at hnow'
      exact Option.some.inj hnow' ▸ hended
  | _ => rfl

/-- A call stays, is new, or moves. -/
theorem call_of_moves (h : s.Moves earlyBlocks decodes a s') (i : Nat) :
    s'.calls[i]? = s.calls[i]? ∨
      (i = s.calls.length ∧ ∃ options, s'.calls[i]? = some (.readingLocal options)) ∨
      ∃ now next, s.calls[i]? = some now ∧ s'.calls[i]? = some next ∧
        CallMoves earlyBlocks decodes s s' i a now next := by
  have hset : ∀ {t : BlocksState β ι} {c : Nat} {now next : Call β ι},
      s.calls[c]? = some now →
      (t.calls[i]? = if c = i then some next else s.calls[i]?) →
      CallMoves earlyBlocks decodes s t c a now next →
      t.calls[i]? = s.calls[i]? ∨
        (i = s.calls.length ∧ ∃ options, t.calls[i]? = some (.readingLocal options)) ∨
        ∃ now next, s.calls[i]? = some now ∧ t.calls[i]? = some next ∧
          CallMoves earlyBlocks decodes s t i a now next := by
    intro t c now next hnow hcalls hmoves
    by_cases hi : c = i
    · subst hi
      rw [if_pos rfl] at hcalls
      exact .inr (.inr ⟨now, next, hnow, hcalls, hmoves⟩)
    · rw [if_neg hi] at hcalls
      exact .inl hcalls
  cases h with
  | called options =>
      by_cases hi : i = s.calls.length
      · exact .inr (.inl ⟨hi, options, by simp [hi]⟩)
      · refine .inl ?_
        show (s.calls ++ [Call.readingLocal options])[i]? = s.calls[i]?
        rw [List.getElem?_append]
        split
        case isTrue => rfl
        case isFalse hlt =>
          rw [List.getElem?_eq_none (by simp; omega), List.getElem?_eq_none (by omega)]
  | localOnly hcall => exact hset hcall (calls_setCall hcall i) .localOnly
  | early hearly hcache hcall =>
      exact hset hcall (calls_setCall (s := { s with blockCache := none }) hcall i)
        (.early hearly hcache)
  | joins henters hread =>
      obtain ⟨now, hcall, _, _⟩ := exists_call_of_enters henters
      exact hset hcall (calls_setCall hcall i) (.joins henters hcall hread)
  | creates henters hread =>
      obtain ⟨now, hcall, _, _⟩ := exists_call_of_enters henters
      exact hset hcall (calls_setCall (s := s.createRead _) hcall i)
        (.creates henters hcall hread (by simp [BlocksState.createRead,
          BlocksState.setCall]))
  | decoded hcall hbytes => exact hset hcall (calls_setCall hcall i) (.decoded hbytes)
  | published hcall => exact hset hcall (calls_setCall hcall i) .published
  | publishFailed hcall => exact hset hcall (calls_setCall hcall i) .publishFailed
  | responded | cached | evicted | asked | failed | resolved | timedOut | aborted => exact .inl rfl
  | finished hcall houtcome =>
      exact hset hcall (calls_finish hcall _ i) (.finished houtcome)

/-- What a step can settle a pending read with. -/
inductive Settles (decodes : β → Bool) (s : BlocksState β ι) (read : Nat) :
    BlocksAction β ι → Outcome β → Prop
  | timedOut : Settles decodes s read (.timeout read) (.resolved none)
  | aborted : Settles decodes s read (.abort read) .rejected
  | resolved {check : Nat} {bytes : β}
      (hcheck : s.checks[check]? = some (read, bytes))
      (hbytes : decodes bytes = true) :
      Settles decodes s read (.checked check) (.resolved (some bytes))

/-- A read stays, is new where the table has none, or is settled. -/
theorem outcome_of_moves (h : s.Moves earlyBlocks decodes a s') (i : Nat) :
    s'.outcome i = s.outcome i ∨
      (i = s.reads.length ∧ s.readFromPeersPromises = none ∧
        s'.outcome i = some none ∧ s'.resolvers = some i) ∨
      ∃ outcome, Settles decodes s i a outcome ∧ s.outcome i = some none ∧
        s'.outcome i = some (some outcome) := by
  have hupdate : ∀ {t : BlocksState β ι} {read : Nat} {f : Read β ι → Read β ι}
      {outcome : Outcome β}, t.reads = s.reads →
      (∀ r, (f r).outcome = r.outcome.or (some outcome)) →
      Settles decodes s read a outcome →
      (t.updateRead read f).outcome i = s.outcome i ∨
        ∃ outcome, Settles decodes s i a outcome ∧ s.outcome i = some none ∧
          (t.updateRead read f).outcome i = some (some outcome) := by
    intro t read f outcome hreads hf hsettles
    have ht : t.outcome i = s.outcome i := by
      unfold BlocksState.outcome
      rw [hreads]
    rw [outcome_updateRead hf, ht]
    by_cases hi : read = i
    · subst hi
      rw [if_pos rfl]
      rcases hnow : s.outcome read with _ | _ | o
      · exact .inl rfl
      · exact .inr ⟨outcome, hsettles, rfl, rfl⟩
      · exact .inl rfl
    · exact .inl (if_neg hi)
  cases h with
  | called | localOnly | early | joins | decoded | published | publishFailed
  | responded | cached | evicted | asked | failed => exact .inl rfl
  | creates _ hnone =>
      rw [outcome_setCall, outcome_createRead]
      by_cases hi : i = s.reads.length
      · subst hi
        exact .inr (.inl ⟨rfl, hnone, if_pos rfl, rfl⟩)
      · exact .inl (if_neg hi)
  | @resolved check read bytes hcheck hbytes =>
      exact (hupdate rfl (outcome_resolve bytes) (.resolved hcheck hbytes)).imp_right
        .inr
  | timedOut read => exact (hupdate rfl outcome_timeout .timedOut).imp_right .inr
  | aborted read => exact (hupdate rfl outcome_abort .aborted).imp_right .inr
  | finished => exact .inl (outcome_finish _ _ _ _ i)

end Becomes

end Blocks
end Peerbit
