import Mathlib.Data.List.Dedup
import Mathlib.Data.List.Induction
import Mathlib.Data.List.Pairwise
import Mathlib.Data.List.Perm.Basic
import Mathlib.Data.List.ReduceOption
import Mathlib.Data.Nat.Find
import Mathlib.Order.Lattice
import Peerbit.Lib.InsertionMap

/-!
# Asking all groups

`queryAll` asks one peer of every group in each round, and another one in the next round,
until one has answered or all have been asked.  It remembers for each asked peer the last
group that asks it.  A group whose peer another group asks too is dropped, whether the peer
answers or not.

So groups without answers can be forgotten (`not_asksAll_shared`), and a group can be
reported although one of its members has answered, as a peer of another group; and an empty
group makes the call fail.  Of groups that share no peers exactly those without answers are
reported, whoever answers when; and of no others (`asksAll_iff`).
-/

namespace Peerbit
namespace Rpc

open Lib (InsertionMap)

abbrev PeerHash := String

abbrev Group := List PeerHash

/-- `group[rng % group.length]`, without value for an empty group. -/
def peerToQuery (rng : Nat) (group : Group) : Option PeerHash :=
  group[rng % group.length]?

/-- The group that asks a peer: the last one of them. -/
def peerToGroupIndex (peersToQuery : List PeerHash) : InsertionMap PeerHash Nat :=
  peersToQuery.zipIdx.foldl (fun map entry => map.set entry.1 entry.2) .empty

/-- The groups whose peers have not answered. -/
def indicesLeft (peersToQuery results : List PeerHash) : List Nat :=
  (results.foldl InsertionMap.delete (peerToGroupIndex peersToQuery)).entries.map Prod.snd

/-- The group has been asked through all its members. -/
def comesAround (startRng rng : Nat) (group : Group) : Bool :=
  decide (rng = startRng) || decide (rng % group.length = startRng % group.length)

/-- The variables of the loop. -/
structure QueryState where
  groups : List Group
  rng : Nat
  missingResponses : List Group
deriving Repr, DecidableEq

/-- The end of a round. -/
def QueryState.filterGroups (startRng : Nat) (s : QueryState) (left : List Nat) :
    QueryState :=
  let rng := s.rng + 1
  let asked := (s.groups.zipIdx.filter (fun entry => decide (entry.2 ∈ left))).map Prod.fst
  { groups := asked.filter (fun v => !comesAround startRng rng v)
    rng := rng
    missingResponses := s.missingResponses ++ asked.filter (comesAround startRng rng) }

/-- How a call ends: with `undefined` among the peers the delivery mode cannot be built. -/
inductive QueryEnd where
  | returns
  | missingResponses (groups : List Group)
  | typeError
deriving Repr, DecidableEq

/-- What the response handler got in each round, and the end. -/
structure QueryOutcome where
  handled : List (List PeerHash)
  ending : QueryEnd
deriving Repr, DecidableEq

/-- The loop.  `answers` says who answers in which round, when asked. -/
def queryLoop (answers : Nat → PeerHash → Bool) (startRng : Nat) :
    Nat → QueryState → List (List PeerHash) → Option QueryOutcome
  | 0, _, _ => none
  | fuel + 1, s, handled =>
      if s.groups = [] then
        some
          { handled := handled
            ending :=
              if s.missingResponses = [] then .returns
              else .missingResponses s.missingResponses }
      else
        let picks := s.groups.map (peerToQuery s.rng)
        if none ∈ picks then some { handled := handled, ending := .typeError }
        else
          let peersToQuery := picks.reduceOption
          let results := peersToQuery.dedup.filter (answers handled.length)
          queryLoop answers startRng fuel
            (s.filterGroups startRng (indicesLeft peersToQuery results)) (handled ++ [results])

/-- The groups that do not have the local peer. -/
def otherGroups (me : PeerHash) (groups : List Group) : List Group :=
  groups.filter (fun group => decide (me ∉ group))

def queryAll (me : PeerHash) (groups : List Group) (startRng : Nat)
    (answers : Nat → PeerHash → Bool) (fuel : Nat) : Option QueryOutcome :=
  queryLoop answers startRng fuel ⟨otherGroups me groups, startRng, []⟩ []

/-! ### Who is left after a round -/

theorem get_peerToGroupIndex {peers : List PeerHash} {p : PeerHash} {i : Nat} :
    (peerToGroupIndex peers).get p = some i ↔
      peers[i]? = some p ∧ ∀ j, i < j → peers[j]? ≠ some p := by
  induction peers using List.reverseRecOn generalizing i with
  | nil => simp [peerToGroupIndex]
  | append_singleton peers last ih =>
      have hset : peerToGroupIndex (peers ++ [last]) =
          (peerToGroupIndex peers).set last peers.length := by
        simp [peerToGroupIndex, List.zipIdx_append]
      rw [hset]
      by_cases hp : p = last
      · subst hp
        rw [InsertionMap.get_set_self, Option.some_inj]
        constructor
        · rintro rfl
          refine ⟨by simp, fun j hj => ?_⟩
          rw [List.getElem?_eq_none (by simp; omega)]
          simp
        · rintro ⟨hi, hlast⟩
          by_contra hne
          have hlt : i < (peers ++ [p]).length := (List.getElem?_eq_some_iff.mp hi).1
          rw [List.length_append, List.length_singleton] at hlt
          exact hlast peers.length (by omega) (by simp)
      · rw [InsertionMap.get_set_of_ne _ _ hp, ih]
        have hsame : ∀ j : Nat, (peers ++ [last])[j]? = some p ↔ peers[j]? = some p := by
          intro j
          rw [List.getElem?_append]
          split
          · rfl
          · rename_i hge
            rw [List.getElem?_eq_none (by omega : peers.length ≤ j)]
            cases hj : j - peers.length with
            | zero => simp [Ne.symm hp]
            | succ k => simp
        simp only [Ne, hsame]

theorem get_foldl_delete (results : List PeerHash) (map : InsertionMap PeerHash Nat)
    (p : PeerHash) :
    (results.foldl InsertionMap.delete map).get p =
      if p ∈ results then none else map.get p := by
  induction results generalizing map with
  | nil => simp
  | cons result results ih =>
      rw [List.foldl_cons, ih]
      by_cases hp : p = result
      · subst hp
        simp
      · rw [InsertionMap.get_delete_of_ne _ hp]
        simp [hp]

/-- A group is left when its peer has not answered, and no later group asks the same. -/
theorem mem_indicesLeft {peers results : List PeerHash} {i : Nat} :
    i ∈ indicesLeft peers results ↔
      ∃ p, peers[i]? = some p ∧ p ∉ results ∧ ∀ j, i < j → peers[j]? ≠ some p := by
  rw [indicesLeft, List.mem_map]
  constructor
  · rintro ⟨⟨p, i'⟩, hentry, rfl⟩
    have hget := InsertionMap.mem_entries.mp hentry
    rw [get_foldl_delete] at hget
    split at hget
    · cases hget
    · rename_i hnot
      obtain ⟨hi, hlast⟩ := get_peerToGroupIndex.mp hget
      exact ⟨p, hi, hnot, hlast⟩
  · rintro ⟨p, hi, hnot, hlast⟩
    refine ⟨(p, i), InsertionMap.mem_entries.mpr ?_, rfl⟩
    rw [get_foldl_delete, if_neg hnot]
    exact get_peerToGroupIndex.mpr ⟨hi, hlast⟩

section Round

variable (rng : Nat) (answers : PeerHash → Bool)

/-- The group's peer does not answer. -/
def silent (group : Group) : Bool :=
  ((peerToQuery rng group).map (fun p => !answers p)).getD false

/-- One of the groups asks the same peer. -/
def sharesPeer (group : Group) (groups : List Group) : Bool :=
  groups.any (fun other => decide (peerToQuery rng other = peerToQuery rng group))

/-- The groups without answers, of those that ask one peer the last. -/
def remembered : List Group → List Group
  | [] => []
  | group :: groups =>
      if silent rng answers group && !sharesPeer rng group groups then
        group :: remembered groups
      else remembered groups

/-- The others without answers. -/
def forgotten : List Group → List Group
  | [] => []
  | group :: groups =>
      if silent rng answers group && sharesPeer rng group groups then
        group :: forgotten groups
      else forgotten groups

def served (groups : List Group) : List Group :=
  groups.filter (fun group => !silent rng answers group)

theorem perm_remembered (groups : List Group) :
    groups.Perm (served rng answers groups ++ forgotten rng answers groups ++
      remembered rng answers groups) := by
  induction groups with
  | nil => exact List.Perm.refl _
  | cons group groups ih =>
      rw [served, List.filter_cons, forgotten, remembered, ← served]
      cases silent rng answers group with
      | false => simpa using ih
      | true =>
          cases sharesPeer rng group groups with
          | false =>
              simp only [Bool.not_true, Bool.false_eq_true, if_false, Bool.and_false,
                Bool.not_false, Bool.and_self, if_true]
              exact (ih.cons group).trans List.perm_middle.symm
          | true =>
              simp only [Bool.not_true, Bool.false_eq_true, if_false, Bool.and_false,
                Bool.and_self, if_true]
              rw [List.append_assoc, List.cons_append, ← List.append_assoc] at *
              exact (ih.cons group).trans (by
                rw [List.append_assoc]
                exact List.perm_middle.symm)

variable {rng answers}

theorem mem_of_mem_remembered {group : Group} {groups : List Group}
    (h : group ∈ remembered rng answers groups) : group ∈ groups :=
  (perm_remembered rng answers groups).mem_iff.mpr (List.mem_append_right _ h)

theorem mem_remembered {group : Group} {groups : List Group} (h : group ∈ groups)
    (hsilent : silent rng answers group = true) (hnone : forgotten rng answers groups = []) :
    group ∈ remembered rng answers groups := by
  have hmem := (perm_remembered rng answers groups).mem_iff.mp h
  rw [hnone, List.append_nil] at hmem
  rcases List.mem_append.mp hmem with hserved | hmem
  · have hnot := (List.mem_filter.mp hserved).2
    rw [hsilent] at hnot
    cases hnot
  · exact hmem

theorem silent_of_mem_remembered {group : Group} {groups : List Group}
    (h : group ∈ remembered rng answers groups) : silent rng answers group = true := by
  induction groups with
  | nil => cases h
  | cons first groups ih =>
      rw [remembered] at h
      split at h
      · rename_i hfirst
        rcases List.mem_cons.mp h with rfl | h
        · exact (Bool.and_eq_true_iff.mp hfirst).1
        · exact ih h
      · exact ih h

theorem remembered_sublist (groups : List Group) :
    (remembered rng answers groups).Sublist groups := by
  induction groups with
  | nil => exact List.Sublist.refl _
  | cons group groups ih =>
      rw [remembered]
      split
      · exact ih.cons_cons group
      · exact ih.cons group

theorem remembered_eq_self {groups : List Group}
    (hsilent : ∀ group ∈ groups, silent rng answers group = true)
    (hnone : forgotten rng answers groups = []) : remembered rng answers groups = groups := by
  induction groups with
  | nil => rfl
  | cons group groups ih =>
      have hfirst := hsilent group List.mem_cons_self
      rw [forgotten] at hnone
      split at hnone
      · cases hnone
      · rename_i hnot
        rw [hfirst, Bool.true_and, Bool.not_eq_true] at hnot
        rw [remembered, hfirst, hnot, Bool.not_false, Bool.and_self, if_pos rfl,
          ih (fun v hv => hsilent v (List.mem_cons_of_mem _ hv)) hnone]

/-- Where all groups ask different peers, none is forgotten. -/
theorem forgotten_eq_nil {groups : List Group}
    (h : groups.Pairwise (fun v w => peerToQuery rng v ≠ peerToQuery rng w)) :
    forgotten rng answers groups = [] := by
  induction groups with
  | nil => rfl
  | cons group groups ih =>
      obtain ⟨hgroup, hgroups⟩ := List.pairwise_cons.mp h
      have hshares : sharesPeer rng group groups = false := by
        rw [sharesPeer, List.any_eq_false]
        intro other hother hsame
        exact hgroup other hother (of_decide_eq_true hsame).symm
      rw [forgotten, hshares, Bool.and_false, if_neg (by simp), ih hgroups]

/-- Where nobody answers and none is forgotten, all groups ask different peers. -/
theorem pairwise_of_forgotten {groups : List Group}
    (hsilent : ∀ group ∈ groups, silent rng answers group = true)
    (h : forgotten rng answers groups = []) :
    groups.Pairwise (fun v w => peerToQuery rng v ≠ peerToQuery rng w) := by
  induction groups with
  | nil => exact List.Pairwise.nil
  | cons group groups ih =>
      rw [forgotten] at h
      split at h
      · cases h
      · rename_i hnot
        refine List.pairwise_cons.mpr ⟨?_, ih (fun v hv => hsilent v
          (List.mem_cons_of_mem _ hv)) h⟩
        intro other hother hsame
        refine hnot (Bool.and_eq_true_iff.mpr ⟨hsilent group List.mem_cons_self, ?_⟩)
        exact List.any_eq_true.mpr ⟨other, hother, decide_eq_true hsame.symm⟩

theorem getElem?_peers {peers : List PeerHash} {groups : List Group}
    (hpeers : groups.map (peerToQuery rng) = peers.map some) (j : Nat) (p : PeerHash) :
    peers[j]? = some p ↔
      ∃ group, groups[j]? = some group ∧ peerToQuery rng group = some p := by
  have hj := congrArg (fun l => l[j]?) hpeers
  simp only [List.getElem?_map] at hj
  constructor
  · intro hp
    rw [hp, Option.map_some] at hj
    exact Option.map_eq_some_iff.mp hj
  · rintro ⟨group, hgroup, hpick⟩
    rw [hgroup, Option.map_some, hpick] at hj
    obtain ⟨q, hq, hsome⟩ := Option.map_eq_some_iff.mp hj.symm
    rw [hq, Option.some.inj hsome]

/-- A group is left when it is remembered. -/
theorem length_mem_indicesLeft {peers results : List PeerHash}
    (hresults : ∀ p ∈ peers, p ∈ results ↔ answers p = true) {before groups : List Group}
    {group : Group}
    (hpeers : (before ++ group :: groups).map (peerToQuery rng) = peers.map some) :
    before.length ∈ indicesLeft peers results ↔
      (silent rng answers group && !sharesPeer rng group groups) = true := by
  have hhere : ∀ p, peers[before.length]? = some p ↔ peerToQuery rng group = some p := by
    intro p
    rw [getElem?_peers hpeers]
    simp
  have hlater : ∀ p, peerToQuery rng group = some p →
      ((∀ j, before.length < j → peers[j]? ≠ some p) ↔
        sharesPeer rng group groups = false) := by
    intro p hp
    rw [sharesPeer, List.any_eq_false]
    constructor
    · intro hall other hother hsame
      obtain ⟨k, hk⟩ := List.mem_iff_getElem?.mp hother
      refine hall (before.length + (k + 1)) (by omega) ((getElem?_peers hpeers _ p).mpr ?_)
      refine ⟨other, ?_, (of_decide_eq_true hsame).trans hp⟩
      rw [List.getElem?_append_right (by omega), Nat.add_sub_cancel_left,
        List.getElem?_cons_succ, hk]
    · intro hnone j hj hpj
      obtain ⟨other, hother, hpick⟩ := (getElem?_peers hpeers j p).mp hpj
      obtain ⟨k, rfl⟩ : ∃ k, j = before.length + (k + 1) :=
        ⟨j - before.length - 1, by omega⟩
      rw [List.getElem?_append_right (by omega), Nat.add_sub_cancel_left,
        List.getElem?_cons_succ] at hother
      exact hnone other (List.mem_of_getElem? hother) (decide_eq_true (hpick.trans hp.symm))
  rw [mem_indicesLeft, Bool.and_eq_true, Bool.not_eq_true']
  constructor
  · rintro ⟨p, hp, hnot, hlast⟩
    have hpick := (hhere p).mp hp
    refine ⟨?_, (hlater p hpick).mp hlast⟩
    rw [hresults p (List.mem_of_getElem? hp)] at hnot
    simp [silent, hpick, hnot]
  · rintro ⟨hsilent, hshares⟩
    cases hpick : peerToQuery rng group with
    | none => simp [silent, hpick] at hsilent
    | some p =>
        have hp := (hhere p).mpr hpick
        refine ⟨p, hp, ?_, (hlater p hpick).mpr hshares⟩
        rw [hresults p (List.mem_of_getElem? hp)]
        simpa [silent, hpick] using hsilent

/-- What the indices left stand for. -/
theorem map_fst_filter_indicesLeft {peers results : List PeerHash}
    (hresults : ∀ p ∈ peers, p ∈ results ↔ answers p = true) {groups : List Group}
    (hpeers : groups.map (peerToQuery rng) = peers.map some) :
    ((groups.zipIdx.filter (fun entry => decide (entry.2 ∈ indicesLeft peers results))).map
      Prod.fst) = remembered rng answers groups := by
  have hfrom : ∀ before rest, (before ++ rest).map (peerToQuery rng) = peers.map some →
      (((rest.zipIdx before.length).filter
        (fun entry => decide (entry.2 ∈ indicesLeft peers results))).map Prod.fst) =
          remembered rng answers rest := by
    intro before rest
    induction rest generalizing before with
    | nil => exact fun _ => rfl
    | cons group rest ih =>
        intro hrest
        have hleft := length_mem_indicesLeft hresults hrest
        have hnext := ih (before ++ [group]) (by simpa using hrest)
        rw [List.length_append, List.length_singleton] at hnext
        rw [List.zipIdx_cons, List.filter_cons, remembered]
        by_cases hmem : before.length ∈ indicesLeft peers results
        · rw [if_pos (decide_eq_true hmem), if_pos (hleft.mp hmem), List.map_cons, hnext]
        · rw [if_neg (by simpa using hmem), if_neg (fun h => hmem (hleft.mpr h)), hnext]
  exact hfrom [] groups hpeers

end Round

/-! ### All rounds -/

section Rounds

variable (startRng : Nat) (answers : Nat → PeerHash → Bool) (groups : List Group)

/-- The groups that are asked in a round. -/
def live : Nat → List Group
  | 0 => groups
  | r + 1 =>
      (remembered (startRng + r) (answers r) (live r)).filter
        (fun v => !comesAround startRng (startRng + r + 1) v)

/-- The groups that are reported after a round. -/
def reported (r : Nat) : List Group :=
  (remembered (startRng + r) (answers r) (live startRng answers groups r)).filter
    (comesAround startRng (startRng + r + 1))

/-- The peers that answer in a round. -/
def resultsOf (r : Nat) : List PeerHash :=
  ((live startRng answers groups r).map
    (peerToQuery (startRng + r))).reduceOption.dedup.filter (answers r)

/-- The peer is asked in some round, and answers. -/
def Answers (p : PeerHash) : Prop :=
  ∃ r, ∃ group ∈ live startRng answers groups r,
    peerToQuery (startRng + r) group = some p ∧ answers r p = true

variable {startRng answers groups}

theorem mem_resultsOf {r : Nat} {p : PeerHash} :
    p ∈ resultsOf startRng answers groups r ↔
      ∃ group ∈ live startRng answers groups r,
        peerToQuery (startRng + r) group = some p ∧ answers r p = true := by
  simp only [resultsOf, List.mem_filter, List.mem_dedup, List.reduceOption_mem_iff,
    List.mem_map]
  constructor
  · rintro ⟨⟨group, hgroup, hpick⟩, hanswers⟩
    exact ⟨group, hgroup, hpick, hanswers⟩
  · rintro ⟨group, hgroup, hpick, hanswers⟩
    exact ⟨⟨group, hgroup, hpick⟩, hanswers⟩

theorem mem_of_mem_live {r : Nat} {group : Group}
    (h : group ∈ live startRng answers groups r) : group ∈ groups := by
  induction r with
  | zero => exact h
  | succ r ih => exact ih (mem_of_mem_remembered (List.mem_of_mem_filter h))

/-- A group is asked through another member in each round. -/
theorem mod_ne_of_mem_live {r : Nat} {group : Group}
    (h : group ∈ live startRng answers groups r) {k : Nat} (hpos : 0 < k) (hk : k ≤ r) :
    (startRng + k) % group.length ≠ startRng % group.length := by
  induction r with
  | zero => omega
  | succ r ih =>
      obtain ⟨hmem, hmore⟩ := List.mem_filter.mp h
      rcases Nat.lt_or_ge r k with hlt | hle
      · obtain rfl : k = r + 1 := by omega
        intro heq
        rw [← Nat.add_assoc] at heq
        simp [comesAround, heq] at hmore
      · exact ih (mem_of_mem_remembered hmem) hle

theorem lt_length_of_mem_live (hgroups : ∀ group ∈ groups, group ≠ []) {r : Nat}
    {group : Group} (h : group ∈ live startRng answers groups r) : r < group.length := by
  by_contra hge
  have hpos := List.length_pos_iff.mpr (hgroups group (mem_of_mem_live h))
  exact mod_ne_of_mem_live h hpos (by omega) (Nat.add_mod_right _ _)

theorem live_of_nil {r : Nat} (h : live startRng answers groups r = []) {r' : Nat}
    (hle : r ≤ r') : live startRng answers groups r' = [] := by
  induction r', hle using Nat.le_induction with
  | base => exact h
  | succ r' _ ih =>
      rw [live, ih]
      rfl

theorem live_sublist (r : Nat) : (live startRng answers groups r).Sublist groups := by
  induction r with
  | zero => exact List.Sublist.refl _
  | succ r ih => exact (List.filter_sublist.trans (remembered_sublist _)).trans ih

theorem mem_live_of_le {r r' : Nat} {group : Group} (hle : r ≤ r')
    (h : group ∈ live startRng answers groups r') : group ∈ live startRng answers groups r := by
  induction r', hle using Nat.le_induction with
  | base => exact h
  | succ r' _ ih => exact ih (mem_of_mem_remembered (List.mem_of_mem_filter h))

/-- The length of the largest group. -/
def largest (groups : List Group) : Nat := (groups.map List.length).foldr max 0

theorem length_le_largest {group : Group} {groups : List Group} (h : group ∈ groups) :
    group.length ≤ largest groups := by
  induction groups with
  | nil => cases h
  | cons first groups ih =>
      rw [largest, List.map_cons, List.foldr_cons, ← largest]
      rcases List.mem_cons.mp h with rfl | h
      · exact le_max_left _ _
      · exact Nat.le_trans (ih h) (le_max_right _ _)

theorem live_largest (hgroups : ∀ group ∈ groups, group ≠ []) :
    live startRng answers groups (largest groups) = [] := by
  rw [List.eq_nil_iff_forall_not_mem]
  intro group h
  have hlt := lt_length_of_mem_live hgroups h
  have hle := length_le_largest (mem_of_mem_live h)
  omega

variable (startRng answers groups) in
/-- Where the groups are after some rounds. -/
theorem perm_live (n : Nat) :
    groups.Perm
      ((List.range n).flatMap (fun r =>
          served (startRng + r) (answers r) (live startRng answers groups r)) ++
        (List.range n).flatMap (fun r =>
          forgotten (startRng + r) (answers r) (live startRng answers groups r)) ++
        (List.range n).flatMap (reported startRng answers groups) ++
        live startRng answers groups n) := by
  induction n with
  | zero => exact List.Perm.refl _
  | succ n ih =>
      have hround := perm_remembered (startRng + n) (answers n)
        (live startRng answers groups n)
      have hsplit : (remembered (startRng + n) (answers n)
          (live startRng answers groups n)).Perm
            (reported startRng answers groups n ++ live startRng answers groups (n + 1)) :=
        (List.filter_append_perm _ _).symm
      have hlive := hround.trans (hsplit.append_left _)
      simp only [List.range_succ, List.flatMap_append, List.flatMap_singleton]
      refine (ih.trans (hlive.append_left _)).trans ?_
      rw [List.perm_iff_count]
      intro group
      simp only [List.count_append]
      omega

theorem map_some_reduceOption {picks : List (Option PeerHash)} (h : none ∉ picks) :
    picks.reduceOption.map some = picks := by
  induction picks with
  | nil => rfl
  | cons pick picks ih =>
      rw [List.mem_cons, not_or] at h
      cases pick with
      | none => exact absurd rfl h.1
      | some p => rw [List.reduceOption_cons_of_some, List.map_cons, ih h.2]

/-- How a call ends when these groups are reported. -/
def endingOf (missing : List Group) : QueryEnd :=
  if missing = [] then .returns else .missingResponses missing

/-- A round of the loop. -/
theorem queryLoop_succ (hgroups : ∀ group ∈ groups, group ≠ []) {r : Nat}
    (hlive : live startRng answers groups r ≠ []) {missing : List Group}
    {handled : List (List PeerHash)} (hhandled : handled.length = r) (fuel : Nat) :
    queryLoop answers startRng (fuel + 1)
        ⟨live startRng answers groups r, startRng + r, missing⟩ handled =
      queryLoop answers startRng fuel
        ⟨live startRng answers groups (r + 1), startRng + (r + 1),
          missing ++ reported startRng answers groups r⟩
        (handled ++ [resultsOf startRng answers groups r]) := by
  have hpick : ∀ group ∈ live startRng answers groups r,
      ∃ p, peerToQuery (startRng + r) group = some p := by
    intro group hgroup
    have hpos := List.length_pos_iff.mpr (hgroups group (mem_of_mem_live hgroup))
    exact ⟨_, List.getElem?_eq_getElem (Nat.mod_lt _ hpos)⟩
  have hnone : none ∉ (live startRng answers groups r).map (peerToQuery (startRng + r)) := by
    rw [List.mem_map]
    rintro ⟨group, hgroup, hnone⟩
    obtain ⟨p, hp⟩ := hpick group hgroup
    rw [hp] at hnone
    cases hnone
  have hresults : ∀ p ∈ ((live startRng answers groups r).map
      (peerToQuery (startRng + r))).reduceOption,
        p ∈ resultsOf startRng answers groups r ↔ answers r p = true := by
    intro p hp
    rw [resultsOf, List.mem_filter, List.mem_dedup]
    exact and_iff_right hp
  have hleft := map_fst_filter_indicesLeft hresults (map_some_reduceOption hnone).symm
  simp only [queryLoop, if_neg hlive, if_neg hnone, hhandled, QueryState.filterGroups]
  rw [← resultsOf, hleft]
  rfl

/-- The loop from any round on. -/
theorem queryLoop_live (hgroups : ∀ group ∈ groups, group ≠ []) {n : Nat}
    (hend : live startRng answers groups n = [])
    (hbefore : ∀ r, r < n → live startRng answers groups r ≠ []) {r : Nat} (hr : r ≤ n)
    {fuel : Nat} (hfuel : n - r < fuel) :
    queryLoop answers startRng fuel
        ⟨live startRng answers groups r, startRng + r,
          (List.range r).flatMap (reported startRng answers groups)⟩
        ((List.range r).map (resultsOf startRng answers groups)) =
      some
        { handled := (List.range n).map (resultsOf startRng answers groups)
          ending := endingOf ((List.range n).flatMap (reported startRng answers groups)) } := by
  induction fuel generalizing r with
  | zero => omega
  | succ fuel ih =>
      rcases Nat.lt_or_ge r n with hlt | hge
      · rw [queryLoop_succ hgroups (hbefore r hlt) (by simp)]
        have hnext := ih (r := r + 1) hlt (by omega)
        simp only [List.range_succ, List.flatMap_append, List.flatMap_singleton,
          List.map_append, List.map_singleton] at hnext
        exact hnext
      · obtain rfl : r = n := Nat.le_antisymm hr hge
        rw [queryLoop, if_pos hend]
        rfl

end Rounds

/-- What a call should come to: it returns when every group has a member that answers, and
otherwise reports the groups that have none. -/
def QueryOutcome.AsksAll (outcome : QueryOutcome) (groups : List Group) : Prop :=
  match outcome.ending with
  | .returns => ∀ group ∈ groups, ∃ p ∈ group, p ∈ outcome.handled.flatten
  | .missingResponses missing =>
      missing.Perm (groups.filter
        (fun group => group.all (fun p => decide (p ∉ outcome.handled.flatten))))
  | .typeError => False

/-- When a call comes to that, with these answers: there is no empty group; of the groups
that ask one silent peer together, all but the last have a member that answers in some
round; and a group that has been asked through all its members has none that answers for
another group. -/
structure FairlyAsked (startRng : Nat) (answers : Nat → PeerHash → Bool)
    (groups : List Group) : Prop where
  nonempty : ∀ group ∈ groups, group ≠ []
  shared : ∀ r, ∀ group ∈ forgotten (startRng + r) (answers r)
      (live startRng answers groups r), ∃ p ∈ group, Answers startRng answers groups p
  passed : ∀ r, ∀ group ∈ reported startRng answers groups r,
    ∀ p ∈ group, ¬ Answers startRng answers groups p

/-- Of the groups in three parts, the last one is that of all groups with a property. -/
theorem perm_filter_iff {α : Type} {keep : α → Bool} {all s f m : List α}
    (hall : all.Perm (s ++ f ++ m)) (hs : ∀ a ∈ s, keep a = false) :
    m.Perm (all.filter keep) ↔
      (∀ a ∈ f, keep a = false) ∧ ∀ a ∈ m, keep a = true := by
  have hnil : ∀ l : List α, (∀ a ∈ l, keep a = false) → l.filter keep = [] := by
    intro l hl
    rw [List.filter_eq_nil_iff]
    intro a ha
    simp [hl a ha]
  have hfilter : (all.filter keep).Perm (f.filter keep ++ m.filter keep) := by
    have h := hall.filter keep
    rw [List.filter_append, List.filter_append, hnil s hs, List.nil_append] at h
    exact h
  constructor
  · intro hm
    have hperm := hm.trans hfilter
    have hkeep : ∀ a ∈ m, keep a = true := by
      intro a ha
      rcases List.mem_append.mp (hperm.mem_iff.mp ha) with h | h
      · exact (List.mem_filter.mp h).2
      · exact (List.mem_filter.mp h).2
    refine ⟨?_, hkeep⟩
    have hlength := hperm.length_eq
    rw [List.length_append, List.filter_eq_self.mpr hkeep] at hlength
    have hempty : f.filter keep = [] := List.length_eq_zero_iff.mp (by omega)
    simpa [List.filter_eq_nil_iff] using hempty
  · rintro ⟨hf, hm⟩
    refine List.Perm.trans (List.Perm.of_eq ?_) hfilter.symm
    rw [hnil f hf, List.nil_append, List.filter_eq_self.mpr hm]

section Outcome

variable {startRng : Nat} {answers : Nat → PeerHash → Bool} {groups : List Group}

theorem mem_flatten_results {n : Nat} (hend : live startRng answers groups n = [])
    (p : PeerHash) :
    p ∈ ((List.range n).map (resultsOf startRng answers groups)).flatten ↔
      Answers startRng answers groups p := by
  rw [List.mem_flatten]
  constructor
  · rintro ⟨results, hresults, hp⟩
    obtain ⟨r, _, rfl⟩ := List.mem_map.mp hresults
    exact ⟨r, mem_resultsOf.mp hp⟩
  · rintro ⟨r, group, hgroup, hanswers⟩
    have hlt : r < n := by
      by_contra hge
      rw [live_of_nil hend (Nat.le_of_not_lt hge)] at hgroup
      cases hgroup
    exact ⟨_, List.mem_map_of_mem (List.mem_range.mpr hlt),
      mem_resultsOf.mpr ⟨group, hgroup, hanswers⟩⟩

/-- A group that is served has a member that answers. -/
theorem exists_answers_of_served (hgroups : ∀ group ∈ groups, group ≠ []) {r : Nat}
    {group : Group} (h : group ∈ served (startRng + r) (answers r)
      (live startRng answers groups r)) :
    ∃ p ∈ group, Answers startRng answers groups p := by
  obtain ⟨hlive, hserved⟩ := List.mem_filter.mp h
  have hpos := List.length_pos_iff.mpr (hgroups group (mem_of_mem_live hlive))
  have hpick : peerToQuery (startRng + r) group =
      some (group.get ⟨(startRng + r) % group.length, Nat.mod_lt _ hpos⟩) :=
    List.getElem?_eq_getElem _
  refine ⟨_, List.get_mem group _, r, group, hlive, hpick, ?_⟩
  simpa [silent, hpick] using hserved

/-- The ending is right when the reported groups are those without answers. -/
theorem asksAll_endingOf (handled : List (List PeerHash)) (missing : List Group) :
    QueryOutcome.AsksAll { handled := handled, ending := endingOf missing } groups ↔
      missing.Perm (groups.filter
        (fun group => group.all (fun p => decide (p ∉ handled.flatten)))) := by
  unfold endingOf
  split
  · rename_i hnil
    rw [hnil, List.nil_perm, List.filter_eq_nil_iff]
    simp [QueryOutcome.AsksAll]
  · rfl

/-- What a call with groups that are not empty comes to. -/
theorem asksAll_iff_of_nonempty (hgroups : ∀ group ∈ groups, group ≠ []) {n : Nat}
    (hend : live startRng answers groups n = []) :
    QueryOutcome.AsksAll
        { handled := (List.range n).map (resultsOf startRng answers groups)
          ending := endingOf ((List.range n).flatMap (reported startRng answers groups)) }
        groups ↔
      FairlyAsked startRng answers groups := by
  rw [asksAll_endingOf]
  obtain ⟨keep, hkeep⟩ : ∃ keep : Group → Bool, keep = fun group => group.all (fun p =>
      decide (p ∉ ((List.range n).map (resultsOf startRng answers groups)).flatten)) :=
    ⟨_, rfl⟩
  have htrue : ∀ group, keep group = true ↔
      ∀ p ∈ group, ¬ Answers startRng answers groups p := by
    intro group
    simp only [hkeep, List.all_eq_true, decide_eq_true_eq, mem_flatten_results hend]
  have hfalse : ∀ group, keep group = false ↔
      ∃ p ∈ group, Answers startRng answers groups p := by
    intro group
    rw [← Bool.not_eq_true, htrue]
    simp
  have hall := perm_live startRng answers groups n
  rw [hend, List.append_nil] at hall
  rw [← hkeep, perm_filter_iff hall]
  · constructor
    · rintro ⟨hforgotten, hreported⟩
      have hlate : ∀ r, ¬ r < n → live startRng answers groups r = [] :=
        fun r hr => live_of_nil hend (Nat.le_of_not_lt hr)
      constructor
      case nonempty => exact hgroups
      case shared =>
        intro r group hgroup
        by_cases hr : r < n
        · exact (hfalse group).mp (hforgotten group
            (List.mem_flatMap.mpr ⟨r, List.mem_range.mpr hr, hgroup⟩))
        · rw [hlate r hr] at hgroup
          cases hgroup
      case passed =>
        intro r group hgroup
        by_cases hr : r < n
        · exact (htrue group).mp (hreported group
            (List.mem_flatMap.mpr ⟨r, List.mem_range.mpr hr, hgroup⟩))
        · rw [reported, hlate r hr] at hgroup
          cases hgroup
    · intro hfair
      constructor
      · intro group hgroup
        obtain ⟨r, _, hmem⟩ := List.mem_flatMap.mp hgroup
        exact (hfalse group).mpr (hfair.shared r group hmem)
      · intro group hgroup
        obtain ⟨r, _, hmem⟩ := List.mem_flatMap.mp hgroup
        exact (htrue group).mpr (hfair.passed r group hmem)
  · intro group hgroup
    obtain ⟨r, _, hmem⟩ := List.mem_flatMap.mp hgroup
    exact (hfalse group).mpr (exists_answers_of_served hgroups hmem)

theorem largest_otherGroups_le (me : PeerHash) (groups : List Group) :
    largest (otherGroups me groups) ≤ largest groups := by
  induction groups with
  | nil => exact Nat.le_refl _
  | cons group groups ih =>
      rw [otherGroups, List.filter_cons, ← otherGroups]
      simp only [largest, List.map_cons, List.foldr_cons] at ih ⊢
      split
      · rw [List.map_cons, List.foldr_cons]
        omega
      · exact Nat.le_trans ih (le_max_right _ _)

end Outcome

/-- How a call ends, with these answers. -/
theorem outcome_of_queryAll (me : PeerHash) (groups : List Group) (startRng : Nat)
    (answers : Nat → PeerHash → Bool) :
    ∃ outcome, (∀ fuel, largest groups + 1 < fuel →
        queryAll me groups startRng answers fuel = some outcome) ∧
      outcome.handled.length ≤ largest groups + 1 ∧
      (outcome.AsksAll (otherGroups me groups) ↔
        FairlyAsked startRng answers (otherGroups me groups)) := by
  have hlargest := largest_otherGroups_le me groups
  unfold queryAll
  generalize otherGroups me groups = others at hlargest ⊢
  by_cases hgroups : ∀ group ∈ others, group ≠ []
  · have hlast : live startRng answers others (largest others) = [] := live_largest hgroups
    have hends : ∃ n, live startRng answers others n = [] := ⟨_, hlast⟩
    have hle : Nat.find hends ≤ largest others := Nat.find_min' hends hlast
    refine ⟨_, fun fuel hfuel => ?_, ?_, asksAll_iff_of_nonempty hgroups (Nat.find_spec hends)⟩
    · exact queryLoop_live (r := 0) hgroups (Nat.find_spec hends)
        (fun r hr => Nat.find_min hends hr) (Nat.zero_le _) (by omega)
    · rw [List.length_map, List.length_range]
      omega
  · have hempty : [] ∈ others := by
      by_contra hnot
      exact hgroups (fun group hgroup hnil => hnot (hnil ▸ hgroup))
    refine ⟨⟨[], .typeError⟩, fun fuel hfuel => ?_, Nat.zero_le _, ?_⟩
    · obtain ⟨fuel, rfl⟩ : ∃ k, fuel = k + 1 := ⟨fuel - 1, by omega⟩
      have hnone : none ∈ others.map (peerToQuery startRng) :=
        List.mem_map.mpr ⟨[], hempty, rfl⟩
      have hne : others ≠ [] := fun hnil => by
        rw [hnil] at hempty
        cases hempty
      rw [queryLoop, if_neg hne]
      simp only [if_pos hnone]
    · exact iff_of_false (fun h => h) (fun h => h.nonempty [] hempty rfl)

/-! ### Groups apart -/

section Apart

variable {startRng : Nat} {answers : Nat → PeerHash → Bool} {groups : List Group}

/-- No group is empty, and no two share a peer. -/
structure Apart (groups : List Group) : Prop where
  nonempty : ∀ group ∈ groups, group ≠ []
  disjoint : groups.Pairwise List.Disjoint

/-- In no round two groups that still have members to ask pick the same peer. -/
def PicksApart (startRng : Nat) (groups : List Group) : Prop :=
  groups.Pairwise (fun v w => ∀ r, r < v.length → r < w.length →
    peerToQuery (startRng + r) v ≠ peerToQuery (startRng + r) w)

theorem mem_of_peerToQuery {rng : Nat} {group : Group} {p : PeerHash}
    (h : peerToQuery rng group = some p) : p ∈ group :=
  List.mem_of_getElem? h

/-- Each member of a group is picked in one of its rounds. -/
theorem exists_round (startRng : Nat) {group : Group} {p : PeerHash} (hp : p ∈ group) :
    ∃ r, r < group.length ∧ peerToQuery (startRng + r) group = some p := by
  obtain ⟨b, hb, hget⟩ := List.mem_iff_getElem.mp hp
  have hpos : 0 < group.length := by omega
  have hmod : startRng % group.length < group.length := Nat.mod_lt _ hpos
  refine ⟨(b + group.length - startRng % group.length) % group.length, Nat.mod_lt _ hpos, ?_⟩
  have hround : (startRng + (b + group.length - startRng % group.length) % group.length) %
      group.length = b := by
    rw [Nat.add_mod, Nat.mod_mod, ← Nat.add_mod_mod,
      Nat.mod_mod, Nat.add_mod_mod,
      show startRng % group.length + (b + group.length - startRng % group.length) =
        b + group.length by omega,
      Nat.add_mod_right, Nat.mod_eq_of_lt hb]
  rw [peerToQuery, hround, List.getElem?_eq_getElem hb, hget]

theorem Apart.picksApart (h : Apart groups) (startRng : Nat) : PicksApart startRng groups := by
  refine h.disjoint.imp_of_mem ?_
  intro v w hv _ hdisjoint r hr _ hsame
  have hpos : 0 < v.length := by omega
  have hpick : peerToQuery (startRng + r) v = some _ :=
    List.getElem?_eq_getElem (Nat.mod_lt _ hpos)
  exact hdisjoint (mem_of_peerToQuery hpick) (mem_of_peerToQuery (hsame.symm.trans hpick))

theorem PicksApart.forgotten_eq_nil (h : PicksApart startRng groups)
    (hgroups : ∀ group ∈ groups, group ≠ []) (r : Nat) :
    forgotten (startRng + r) (answers r) (live startRng answers groups r) = [] := by
  refine Rpc.forgotten_eq_nil ((h.sublist (live_sublist r)).imp_of_mem ?_)
  intro v w hv hw hpicks
  exact hpicks r (lt_length_of_mem_live hgroups hv) (lt_length_of_mem_live hgroups hw)

theorem comesAround_of_lt {startRng r : Nat} {group : Group} (hr : r + 1 < group.length) :
    comesAround startRng (startRng + r + 1) group = false := by
  have hmod : (startRng + r + 1) % group.length ≠ startRng % group.length := by
    intro heq
    have hzero := Nat.sub_mod_eq_zero_of_mod_eq heq
    rw [show startRng + r + 1 - startRng = r + 1 by omega, Nat.mod_eq_of_lt hr] at hzero
    omega
  have hne : startRng + r + 1 ≠ startRng := by omega
  simp [comesAround, hmod, hne]

/-- A group whose picks are silent is asked through all its members. -/
theorem PicksApart.mem_live (h : PicksApart startRng groups)
    (hgroups : ∀ group ∈ groups, group ≠ []) {group : Group} (hgroup : group ∈ groups)
    {r : Nat} (hr : r < group.length)
    (hsilent : ∀ k, k < r → silent (startRng + k) (answers k) group = true) :
    group ∈ live startRng answers groups r := by
  induction r with
  | zero => exact hgroup
  | succ r ih =>
      have hlive := ih (by omega) (fun k hk => hsilent k (by omega))
      refine List.mem_filter.mpr
        ⟨mem_remembered hlive (hsilent r (by omega)) (h.forgotten_eq_nil hgroups r), ?_⟩
      rw [comesAround_of_lt hr]
      rfl

/-- A group whose picks are all silent is reported. -/
theorem PicksApart.mem_reported (h : PicksApart startRng groups)
    (hgroups : ∀ group ∈ groups, group ≠ []) {group : Group} (hgroup : group ∈ groups)
    (hsilent : ∀ k, k < group.length → silent (startRng + k) (answers k) group = true) :
    group ∈ reported startRng answers groups (group.length - 1) := by
  have hpos := List.length_pos_iff.mpr (hgroups group hgroup)
  have hlive := h.mem_live hgroups hgroup (r := group.length - 1) (by omega)
    (fun k hk => hsilent k (by omega))
  refine List.mem_filter.mpr ⟨mem_remembered hlive (hsilent _ (by omega))
    (h.forgotten_eq_nil hgroups _), ?_⟩
  rw [show startRng + (group.length - 1) + 1 = startRng + group.length by omega]
  simp [comesAround]

/-- Groups apart are fairly asked, whoever answers. -/
theorem Apart.fairlyAsked (h : Apart groups) (startRng : Nat)
    (answers : Nat → PeerHash → Bool) : FairlyAsked startRng answers groups where
  nonempty := h.nonempty
  shared := by
    intro r group hgroup
    rw [(h.picksApart startRng).forgotten_eq_nil h.nonempty] at hgroup
    cases hgroup
  passed := by
    rintro r group hreported p hp ⟨r', other, hother, hpick, hanswers⟩
    obtain ⟨hremembered, haround⟩ := List.mem_filter.mp hreported
    have hgroup := mem_of_mem_live (mem_of_mem_remembered hremembered)
    -- the group that has asked the peer is this one
    have hsame : other = group := by
      by_contra hne
      have hsymm : Std.Symm (@List.Disjoint PeerHash) := ⟨fun _ _ hd => hd.symm⟩
      have hdisjoint := h.disjoint.forall (mem_of_mem_live hother) hgroup hne
      exact hdisjoint (mem_of_peerToQuery hpick) hp
    subst hsame
    have hserved : silent (startRng + r') (answers r') other = false := by
      simp [silent, hpick, hanswers]
    rcases Nat.lt_trichotomy r' r with hlt | rfl | hgt
    · have hlater := mem_live_of_le hlt (mem_of_mem_remembered hremembered)
      rw [silent_of_mem_remembered (List.mem_of_mem_filter hlater)] at hserved
      cases hserved
    · rw [silent_of_mem_remembered hremembered] at hserved
      cases hserved
    · have hlater := mem_live_of_le hgt hother
      have hnot := (List.mem_filter.mp hlater).2
      rw [haround] at hnot
      cases hnot

/-- Groups that are fairly asked when nobody answers pick different peers. -/
theorem FairlyAsked.picksApart (h : FairlyAsked startRng (fun _ _ => false) groups) :
    PicksApart startRng groups := by
  have hsilent : ∀ rng, ∀ group ∈ groups, silent rng (fun _ => false) group = true := by
    intro rng group hgroup
    have hpos := List.length_pos_iff.mpr (h.nonempty group hgroup)
    have hpick : peerToQuery rng group = some _ :=
      List.getElem?_eq_getElem (Nat.mod_lt _ hpos)
    simp [silent, hpick]
  have hnone : ∀ r, forgotten (startRng + r) (fun _ => false)
      (live startRng (fun _ _ => false) groups r) = [] := by
    intro r
    rw [List.eq_nil_iff_forall_not_mem]
    intro group hgroup
    obtain ⟨_, _, _, _, _, _, hanswers⟩ := h.shared r group hgroup
    cases hanswers
  -- all groups with members left are asked
  have hlive : ∀ r, live startRng (fun _ _ => false) groups r =
      groups.filter (fun group => decide (r < group.length)) := by
    intro r
    induction r with
    | zero =>
        refine (List.filter_eq_self.mpr fun group hgroup => ?_).symm
        exact decide_eq_true (List.length_pos_iff.mpr (h.nonempty group hgroup))
    | succ r ih =>
        rw [live, remembered_eq_self (fun v hv => hsilent _ v (mem_of_mem_live hv)) (hnone r),
          ih, List.filter_filter]
        refine List.filter_congr fun group hgroup => ?_
        have hpos := List.length_pos_iff.mpr (h.nonempty group hgroup)
        rcases Nat.lt_trichotomy (r + 1) group.length with hlt | heq | hgt
        · rw [comesAround_of_lt hlt]
          simp [hlt, Nat.lt_of_succ_lt hlt]
        · have haround : comesAround startRng (startRng + r + 1) group = true := by
            simp [comesAround, Nat.add_assoc, heq]
          rw [haround]
          simp [← heq]
        · simp [Nat.not_lt_of_lt hgt, Nat.not_lt_of_le (Nat.le_of_lt_succ hgt)]
  refine List.pairwise_iff_getElem.mpr fun i j hi hj hij r hri hrj => ?_
  have hpairwise := pairwise_of_forgotten
    (fun v hv => hsilent (startRng + r) v (mem_of_mem_live hv)) (hnone r)
  rw [hlive, List.pairwise_filter] at hpairwise
  exact List.pairwise_iff_getElem.mp hpairwise i j hi hj hij (decide_eq_true hri)
    (decide_eq_true hrj)

/-- Groups that are fairly asked whoever answers are apart. -/
theorem apart_of_fairlyAsked (h : ∀ answers, FairlyAsked startRng answers groups) :
    Apart groups := by
  have hnonempty := (h fun _ _ => false).nonempty
  have hpicks : PicksApart startRng groups := (h fun _ _ => false).picksApart
  refine ⟨hnonempty, List.pairwise_iff_getElem.mpr fun i j hi hj hij p hpi hpj => ?_⟩
  have hapart := List.pairwise_iff_getElem.mp hpicks i j hi hj hij
  -- only this peer answers, and only when it is asked for the second group
  obtain ⟨k, hk, hpick⟩ := exists_round startRng hpj
  let answers : Nat → PeerHash → Bool := fun r q => decide (r = k) && decide (q = p)
  have hsilent : ∀ group : Group, group ≠ [] → ∀ r,
      (r = k → peerToQuery (startRng + r) group ≠ some p) →
        silent (startRng + r) (answers r) group = true := by
    intro group hne r hother
    have hpos := List.length_pos_iff.mpr hne
    have hsome : peerToQuery (startRng + r) group = some _ :=
      List.getElem?_eq_getElem (Nat.mod_lt _ hpos)
    rw [silent, hsome, Option.map_some, Option.getD_some, Bool.not_eq_true',
      Bool.and_eq_false_iff]
    by_cases hr : r = k
    · right
      refine decide_eq_false fun hq => hother hr ?_
      rw [hsome, hq]
    · exact Or.inl (decide_eq_false hr)
  have hreported : groups[i] ∈ reported startRng answers groups (groups[i].length - 1) :=
    hpicks.mem_reported hnonempty (List.getElem_mem hi)
      (fun r hr => hsilent _ (hnonempty _ (List.getElem_mem hi)) r (by
        rintro rfl hsame
        exact hapart r hr hk (hsame.trans hpick.symm)))
  have hasked : groups[j] ∈ live startRng answers groups k :=
    hpicks.mem_live hnonempty (List.getElem_mem hj) hk
      (fun r hr => hsilent _ (hnonempty _ (List.getElem_mem hj)) r (by omega))
  refine (h answers).passed _ _ hreported p hpi ⟨k, _, hasked, hpick, ?_⟩
  simp [answers]

end Apart

/-- A call ends after at most one round more than the largest group has members.  Whoever
answers in which round, it comes to what it should, if and only if the groups without the
local peer are apart. -/
theorem asksAll_iff (me : PeerHash) (groups : List Group) (startRng : Nat) :
    ∃ outcome : (Nat → PeerHash → Bool) → QueryOutcome,
      (∀ answers fuel, largest groups + 1 < fuel →
        queryAll me groups startRng answers fuel = some (outcome answers)) ∧
      (∀ answers, (outcome answers).handled.length ≤ largest groups + 1) ∧
      ((∀ answers, (outcome answers).AsksAll (otherGroups me groups)) ↔
        Apart (otherGroups me groups)) := by
  choose outcome hruns hbound hfair using outcome_of_queryAll me groups startRng
  refine ⟨outcome, hruns, hbound, ?_⟩
  simp only [hfair]
  exact ⟨apart_of_fairlyAsked, fun h answers => h.fairlyAsked startRng answers⟩

/-- Nobody answers, and the first round asks one peer for both groups. -/
theorem not_asksAll_shared :
    ∃ outcome, queryAll "me" [["a", "b"], ["a", "c"]] 0 (fun _ _ => false) 4 = some outcome ∧
      ¬ outcome.AsksAll (otherGroups "me" [["a", "b"], ["a", "c"]]) := by
  refine ⟨⟨[[], []], .missingResponses [["a", "c"]]⟩, by decide, fun h => ?_⟩
  exact absurd (List.Perm.length_eq h) (by decide)

end Rpc
end Peerbit
