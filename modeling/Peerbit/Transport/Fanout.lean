import Peerbit.Transport.PrunableNeighbours

/-!
# Fan-out

`getFanout` says through which neighbours a message goes to which of its targets.
For every target it goes through the routes that are sorted by distance, leaves
expired ones out when it has found a route as short, and ends at a distance from the
redundancy on, at a direct route, or when enough routes without expiry are found.

What one such loop uses is a part of the routes that depends on the routes only, not
on the map so far (`exists_used`).  The first route is always used, unless it is
further away than the redundancy, so that no target is dropped.
-/

namespace Peerbit
namespace Transport

open Lib (InsertionMap Machine)

/-- What is sent to a target through a neighbour. -/
structure FanoutTarget where
  to_ : KeyHash
  timestamp : Int
deriving Repr, DecidableEq

/-- From neighbour to target. -/
abbrev FanoutMap := InsertionMap KeyHash (InsertionMap KeyHash FanoutTarget)

/-- The target is put below the neighbour of the route. -/
def sendThrough (to_ : KeyHash) (fanoutMap : Option FanoutMap) (route : RelayInfo) :
    Option FanoutMap :=
  let map := fanoutMap.getD .empty
  let fanout := (map.get route.hash).getD .empty
  some (map.set route.hash (fanout.set to_ { to_ := to_, timestamp := route.session }))

/-- The variables of the loop over the routes of a target. -/
structure FanoutScan where
  foundClosest : Bool
  added : Nat
  foundPathForDistance : Int
  fanoutMap : Option FanoutMap

/-- A route as short as can be. -/
def RelayInfo.isClosest (info : RouteInfo) (route : RelayInfo) : Bool :=
  decide (route.distance ≤ 0) && decide (route.session ≤ info.session)

/-- The loop over the routes of a target. -/
def scanRoutes (relaying : Bool) (to_ : KeyHash) (redundancy : Nat) (info : RouteInfo) :
    List RelayInfo → FanoutScan → FanoutScan
  | [], s => s
  | route :: routes, s =>
      if route.expires && (!relaying && decide (s.foundPathForDistance = route.distance)) then
        scanRoutes relaying to_ redundancy info routes s
      else
        let foundPathForDistance :=
          if route.expires then s.foundPathForDistance else route.distance
        if (redundancy : Int) ≤ route.distance then
          { s with foundPathForDistance := foundPathForDistance }
        else
          let foundClosest := s.foundClosest || route.isClosest info
          let fanoutMap := sendThrough to_ s.fanoutMap route
          if route.isClosest info && decide (route.distance = -1) then
            ⟨foundClosest, s.added, foundPathForDistance, fanoutMap⟩
          else if route.expires then
            scanRoutes relaying to_ redundancy info routes
              ⟨foundClosest, s.added, foundPathForDistance, fanoutMap⟩
          else if redundancy ≤ s.added + 1 then
            ⟨foundClosest, s.added + 1, foundPathForDistance, fanoutMap⟩
          else
            scanRoutes relaying to_ redundancy info routes
              ⟨foundClosest, s.added + 1, foundPathForDistance, fanoutMap⟩

namespace Routes

/-- What is done for a target; without result when the message goes to all peers. -/
def fanoutTo (r : Routes) (from_ : KeyHash) (redundancy : Nat)
    (fanoutMap : Option FanoutMap) (to_ : KeyHash) : Option (Option FanoutMap) :=
  if to_ = r.me ∨ from_ = to_ then some fanoutMap
  else
    match r.findNeighbor from_ to_ with
    | some neighbour =>
        let scan := scanRoutes (decide (from_ ≠ r.me)) to_ redundancy neighbour
          neighbour.list ⟨false, 0, -2, fanoutMap⟩
        if !scan.foundClosest && decide (from_ = r.me) then none
        else some scan.fanoutMap
    | none => none

def getFanout (r : Routes) (from_ : KeyHash) (tos : List KeyHash) (redundancy : Nat) :
    Option FanoutMap :=
  if tos = [] then none
  else (tos.foldlM (r.fanoutTo from_ redundancy) none).map (fun map => map.getD .empty)

end Routes

/-- The target is below the neighbour. -/
def Appears (fanoutMap : FanoutMap) (neighbour to_ : KeyHash) : Prop :=
  ((fanoutMap.get neighbour).bind (fun fanout => fanout.get to_)).isSome

theorem not_appears_empty (neighbour to_ : KeyHash) :
    ¬ Appears InsertionMap.empty neighbour to_ := by
  simp [Appears]

theorem appears_sendThrough {to_ : KeyHash} {fanoutMap : Option FanoutMap}
    {route : RelayInfo} {neighbour t : KeyHash} :
    Appears ((sendThrough to_ fanoutMap route).getD .empty) neighbour t ↔
      Appears (fanoutMap.getD .empty) neighbour t ∨
        (t = to_ ∧ neighbour = route.hash) := by
  unfold sendThrough Appears
  rw [Option.getD_some]
  by_cases hneighbour : neighbour = route.hash
  · subst hneighbour
    rw [InsertionMap.get_set_self, Option.bind_some]
    by_cases ht : t = to_
    · subst ht
      simp
    · rw [InsertionMap.get_set_of_ne _ _ ht]
      cases (fanoutMap.getD InsertionMap.empty).get route.hash with
      | none => simp [ht]
      | some fanout => simp [ht]
  · rw [InsertionMap.get_set_of_ne _ _ hneighbour]
    simp [hneighbour]

theorem appears_foldl_sendThrough {to_ : KeyHash} (used : List RelayInfo)
    {fanoutMap : Option FanoutMap} {neighbour t : KeyHash} :
    Appears ((used.foldl (sendThrough to_) fanoutMap).getD .empty) neighbour t ↔
      Appears (fanoutMap.getD .empty) neighbour t ∨
        (t = to_ ∧ neighbour ∈ used.map RelayInfo.hash) := by
  induction used generalizing fanoutMap with
  | nil => simp
  | cons route used ih =>
      rw [List.foldl_cons, ih, appears_sendThrough, List.map_cons, List.mem_cons]
      tauto

/-! ### The routes that are used -/

/-- The routes that the loop uses of a list, when it starts with the given
variables. -/
structure Uses (relaying : Bool) (redundancy added : Nat) (foundPathForDistance : Int)
    (list used : List RelayInfo) : Prop where
  sublist : used.Sublist list
  lasting : added + used.countP (fun route => !route.expires) ≤ redundancy
  first : ∀ route routes, list = route :: routes → route.distance < redundancy →
    (relaying = true ∨ foundPathForDistance ≠ route.distance) → route ∈ used

namespace Uses

variable {relaying : Bool} {redundancy added : Nat} {found : Int} {route : RelayInfo}
  {routes used : List RelayInfo}

/-- For a message that is relayed the first route is used when any is near: it is as
near as that one. -/
theorem exists_mem_of_near {list : List RelayInfo}
    (h : Uses relaying redundancy added found list used) (hrelaying : relaying = true)
    (hsorted : list.Pairwise (fun a b => a.distance ≤ b.distance)) (hroute : route ∈ list)
    (hnear : route.distance < redundancy) : ∃ first, first ∈ used := by
  cases list with
  | nil => cases hroute
  | cons first rest =>
      refine ⟨first, h.first first rest rfl ?_ (Or.inl hrelaying)⟩
      rcases List.mem_cons.mp hroute with rfl | hrest
      · exact hnear
      · have hle := List.rel_of_pairwise_cons hsorted hrest
        omega

/-- The routes that end the loop are not used. -/
theorem none_of_far (hadded : added < redundancy)
    (hfar : (redundancy : Int) ≤ route.distance) :
    Uses relaying redundancy added found (route :: routes) [] where
  sublist := List.nil_sublist _
  lasting := by simpa using hadded.le
  first := by
    intro first rest hlist hnear
    obtain ⟨rfl, -⟩ := List.cons.inj hlist
    omega

theorem skip (h : Uses relaying redundancy added found routes used)
    (hskip : relaying = false ∧ found = route.distance) :
    Uses relaying redundancy added found (route :: routes) used where
  sublist := h.sublist.cons route
  lasting := h.lasting
  first := by
    rintro first rest hlist - (hrelaying | hfound)
    · exact absurd (hskip.1.symm.trans hrelaying) (by decide)
    · obtain ⟨rfl, -⟩ := List.cons.inj hlist
      exact absurd hskip.2 hfound

/-- One more route is used, and the loop goes on. -/
theorem next {found' : Int} {added' : Nat}
    (h : Uses relaying redundancy added' found' routes used)
    (hadded : added' = if route.expires then added else added + 1) :
    Uses relaying redundancy added found (route :: routes) (route :: used) where
  sublist := h.sublist.cons_cons route
  lasting := by
    have hlasting := h.lasting
    rw [List.countP_cons]
    cases hexpires : route.expires with
    | false =>
        rw [hexpires] at hadded
        simp only [Bool.false_eq_true, if_false] at hadded
        simp only [Bool.not_false, if_true]
        omega
    | true =>
        rw [hexpires, if_pos rfl] at hadded
        simp only [Bool.not_true, Bool.false_eq_true, if_false]
        omega
  first := by
    intro first rest hlist _ _
    obtain ⟨rfl, -⟩ := List.cons.inj hlist
    exact List.mem_cons_self

/-- One more route is used, and the loop ends. -/
theorem last (hadded : added < redundancy) :
    Uses relaying redundancy added found (route :: routes) [route] where
  sublist := (List.nil_sublist routes).cons_cons route
  lasting := by
    rw [List.countP_singleton]
    split
    · omega
    · omega
  first := by
    intro first rest hlist _ _
    obtain ⟨rfl, -⟩ := List.cons.inj hlist
    exact List.mem_cons_self

end Uses

/-- The loop uses the same routes whatever the map is. -/
theorem exists_used (relaying : Bool) (to_ : KeyHash) (redundancy : Nat) (info : RouteInfo)
    (list : List RelayInfo) {added : Nat} (hadded : added < redundancy) (found : Int) :
    ∃ used, Uses relaying redundancy added found list used ∧
      ∀ foundClosest fanoutMap,
        (scanRoutes relaying to_ redundancy info list
          ⟨foundClosest, added, found, fanoutMap⟩).fanoutMap =
            used.foldl (sendThrough to_) fanoutMap ∧
        (scanRoutes relaying to_ redundancy info list
          ⟨foundClosest, added, found, fanoutMap⟩).foundClosest =
            (foundClosest || used.any (RelayInfo.isClosest info)) := by
  induction list generalizing added found with
  | nil =>
      refine ⟨[], ⟨List.nil_sublist _, by simpa using hadded.le, by simp⟩, ?_⟩
      simp [scanRoutes]
  | cons route routes ih =>
      by_cases hskip : (route.expires && (!relaying && decide (found = route.distance))) = true
      · obtain ⟨used, huses, hscan⟩ := ih hadded found
        refine ⟨used, huses.skip (by simpa using (Bool.and_eq_true_iff.mp hskip).2), ?_⟩
        intro foundClosest fanoutMap
        simp only [scanRoutes, hskip, if_true]
        exact hscan foundClosest fanoutMap
      · by_cases hfar : (redundancy : Int) ≤ route.distance
        · refine ⟨[], .none_of_far hadded hfar, ?_⟩
          intro foundClosest fanoutMap
          simp [scanRoutes, hskip, hfar]
        · by_cases hdirect : (route.isClosest info && decide (route.distance = -1)) = true
          · refine ⟨[route], .last hadded, ?_⟩
            intro foundClosest fanoutMap
            simp [scanRoutes, hskip, hfar, hdirect]
          · cases hexpires : route.expires with
            | true =>
                obtain ⟨used, huses, hscan⟩ := ih hadded found
                refine ⟨route :: used, huses.next (by simp [hexpires]), ?_⟩
                intro foundClosest fanoutMap
                rw [hexpires] at hskip
                simp only [scanRoutes, hexpires, hskip, hfar, hdirect, if_true, if_false]
                rw [List.any_cons, ← Bool.or_assoc]
                exact hscan _ _
            | false =>
                by_cases henough : redundancy ≤ added + 1
                · refine ⟨[route], .last hadded, ?_⟩
                  intro foundClosest fanoutMap
                  simp [scanRoutes, hexpires, hfar, hdirect, henough]
                · obtain ⟨used, huses, hscan⟩ := ih
                    (show added + 1 < redundancy by omega) route.distance
                  refine ⟨route :: used, huses.next (by simp [hexpires]), ?_⟩
                  intro foundClosest fanoutMap
                  rw [hexpires] at hskip
                  simp only [scanRoutes, hexpires, hskip, hfar, hdirect, henough, if_false,
                    Bool.false_eq_true]
                  rw [List.any_cons, ← Bool.or_assoc]
                  exact hscan _ _

namespace Routes

variable {r : Routes} {from_ : KeyHash} {redundancy : Nat}

/-- The lists of routes are sorted by distance. -/
def SortedLists (r : Routes) : Prop :=
  ∀ from_ target, (r.relays from_ target).Pairwise (fun a b => a.distance ≤ b.distance)

/-- What a map for targets has: every target that is near enough is below one of its
neighbours, and not below too many; every target is when the message is from this
node; and there is nothing else. -/
structure CoversReceivers (r : Routes) (from_ : KeyHash) (tos : List KeyHash)
    (redundancy : Nat) (fanoutMap : FanoutMap) : Prop where
  through : ∀ to_ ∈ tos, to_ ≠ r.me → from_ ≠ to_ →
    ∃ used : List RelayInfo, used.Sublist (r.relays from_ to_) ∧
      (∀ neighbour, Appears fanoutMap neighbour to_ ↔ neighbour ∈ used.map RelayInfo.hash) ∧
      used.countP (fun route => !route.expires) ≤ redundancy
  near : ∀ to_ ∈ tos, to_ ≠ r.me → from_ ≠ to_ →
    (∃ route ∈ r.relays from_ to_, route.distance < redundancy) →
      ∃ neighbour ∈ (r.relays from_ to_).map RelayInfo.hash, Appears fanoutMap neighbour to_
  only : ∀ neighbour to_, Appears fanoutMap neighbour to_ →
    to_ ∈ tos ∧ to_ ≠ r.me ∧ from_ ≠ to_
  own : from_ = r.me → ∀ to_ ∈ tos, to_ ≠ r.me →
    ∃ neighbour, Appears fanoutMap neighbour to_

/-- The routes that are used for a target, and when there is no result. -/
theorem exists_fanoutTo (hredundancy : 1 ≤ redundancy) {to_ : KeyHash} {info : RouteInfo}
    (hto : to_ ≠ r.me ∧ from_ ≠ to_) (hinfo : r.findNeighbor from_ to_ = some info) :
    ∃ used, Uses (decide (from_ ≠ r.me)) redundancy 0 (-2) info.list used ∧
      ∀ fanoutMap, r.fanoutTo from_ redundancy fanoutMap to_ =
        if from_ = r.me ∧ ¬ used.any (RelayInfo.isClosest info) then none
        else some (used.foldl (sendThrough to_) fanoutMap) := by
  obtain ⟨used, huses, hscan⟩ := exists_used (decide (from_ ≠ r.me)) to_ redundancy info
    info.list (show 0 < redundancy from hredundancy) (-2)
  refine ⟨used, huses, fun fanoutMap => ?_⟩
  obtain ⟨hmap, hclosest⟩ := hscan false fanoutMap
  have hneither : ¬ (to_ = r.me ∨ from_ = to_) := fun h => h.elim hto.1 hto.2
  simp only [fanoutTo, if_neg hneither, hinfo, hmap, hclosest, Bool.false_or]
  by_cases hfrom : from_ = r.me
  · simp [hfrom]
  · simp [hfrom]

/-- What the loops do for all targets, as a function from the target to the routes that
are used. -/
structure UsedFor (r : Routes) (from_ : KeyHash) (redundancy : Nat)
    (usedFor : KeyHash → List RelayInfo) : Prop where
  uses : ∀ to_ info, to_ ≠ r.me → from_ ≠ to_ → r.findNeighbor from_ to_ = some info →
    Uses (decide (from_ ≠ r.me)) redundancy 0 (-2) info.list (usedFor to_)
  fanoutTo : ∀ to_ info, to_ ≠ r.me → from_ ≠ to_ → r.findNeighbor from_ to_ = some info →
    ∀ fanoutMap, r.fanoutTo from_ redundancy fanoutMap to_ =
      if from_ = r.me ∧ ¬ (usedFor to_).any (RelayInfo.isClosest info) then none
      else some ((usedFor to_).foldl (sendThrough to_) fanoutMap)

theorem exists_usedFor (r : Routes) (from_ : KeyHash) (hredundancy : 1 ≤ redundancy) :
    ∃ usedFor, r.UsedFor from_ redundancy usedFor := by
  have hfor : ∀ to_, ∃ used, ∀ info, to_ ≠ r.me → from_ ≠ to_ →
      r.findNeighbor from_ to_ = some info →
        Uses (decide (from_ ≠ r.me)) redundancy 0 (-2) info.list used ∧
        ∀ fanoutMap, r.fanoutTo from_ redundancy fanoutMap to_ =
          if from_ = r.me ∧ ¬ used.any (RelayInfo.isClosest info) then none
          else some (used.foldl (sendThrough to_) fanoutMap) := by
    intro to_
    by_cases hto : to_ ≠ r.me ∧ from_ ≠ to_
    · cases hinfo : r.findNeighbor from_ to_ with
      | none => exact ⟨[], fun info _ _ h => by cases h⟩
      | some info =>
          obtain ⟨used, hused⟩ := exists_fanoutTo hredundancy hto hinfo
          refine ⟨used, fun info' _ _ h => ?_⟩
          obtain rfl := Option.some.inj h
          exact hused
    · exact ⟨[], fun info hme hfrom _ => absurd ⟨hme, hfrom⟩ hto⟩
  choose usedFor husedFor using hfor
  exact ⟨usedFor, fun to_ info hme hfrom h => (husedFor to_ info hme hfrom h).1,
    fun to_ info hme hfrom h => (husedFor to_ info hme hfrom h).2⟩

namespace UsedFor

variable {usedFor : KeyHash → List RelayInfo} {fanoutMap fanoutMap' : Option FanoutMap}
  {to_ : KeyHash}

/-- One target: what is added to the map. -/
theorem step (h : r.UsedFor from_ redundancy usedFor)
    (hstep : r.fanoutTo from_ redundancy fanoutMap to_ = some fanoutMap') :
    (∀ neighbour t, Appears (fanoutMap'.getD .empty) neighbour t ↔
      Appears (fanoutMap.getD .empty) neighbour t ∨
        (t = to_ ∧ to_ ≠ r.me ∧ from_ ≠ to_ ∧
          neighbour ∈ (usedFor to_).map RelayInfo.hash)) ∧
    (to_ ≠ r.me → from_ ≠ to_ → ∃ info, r.findNeighbor from_ to_ = some info ∧
      (from_ = r.me → (usedFor to_).any (RelayInfo.isClosest info) = true)) := by
  by_cases hneither : to_ = r.me ∨ from_ = to_
  · rw [Routes.fanoutTo, if_pos hneither] at hstep
    obtain rfl := Option.some.inj hstep
    constructor
    · intro neighbour t
      constructor
      · exact Or.inl
      · rintro (happears | ⟨_, hme, hfrom, _⟩)
        · exact happears
        · exact absurd hneither (not_or.mpr ⟨hme, hfrom⟩)
    · intro hme hfrom
      exact absurd hneither (not_or.mpr ⟨hme, hfrom⟩)
  · obtain ⟨hme, hfrom⟩ := not_or.mp hneither
    cases hinfo : r.findNeighbor from_ to_ with
    | none =>
        rw [Routes.fanoutTo, if_neg hneither] at hstep
        simp only [hinfo] at hstep
        cases hstep
    | some info =>
        rw [h.fanoutTo to_ info hme hfrom hinfo] at hstep
        split at hstep
        · cases hstep
        · rename_i hclosest
          obtain rfl := Option.some.inj hstep
          constructor
          · intro neighbour t
            rw [appears_foldl_sendThrough]
            simp [hme, hfrom]
          · intro _ _
            refine ⟨info, rfl, fun hown => ?_⟩
            by_contra hnot
            exact hclosest ⟨hown, hnot⟩

/-- All targets. -/
theorem run (h : r.UsedFor from_ redundancy usedFor) {tos : List KeyHash}
    (hrun : tos.foldlM (r.fanoutTo from_ redundancy) fanoutMap = some fanoutMap') :
    (∀ neighbour t, Appears (fanoutMap'.getD .empty) neighbour t ↔
      Appears (fanoutMap.getD .empty) neighbour t ∨
        (t ∈ tos ∧ t ≠ r.me ∧ from_ ≠ t ∧ neighbour ∈ (usedFor t).map RelayInfo.hash)) ∧
    (∀ t ∈ tos, t ≠ r.me → from_ ≠ t → ∃ info, r.findNeighbor from_ t = some info ∧
      (from_ = r.me → (usedFor t).any (RelayInfo.isClosest info) = true)) := by
  induction tos generalizing fanoutMap with
  | nil =>
      obtain rfl := Option.some.inj hrun
      simp
  | cons first tos ih =>
      rw [List.foldlM_cons] at hrun
      obtain ⟨next, hstep, hrest⟩ := Option.bind_eq_some_iff.mp hrun
      obtain ⟨happears, hfirst⟩ := h.step hstep
      obtain ⟨hrestAppears, hrestInfo⟩ := ih hrest
      constructor
      · intro neighbour t
        rw [hrestAppears, happears, List.mem_cons]
        constructor
        · rintro ((hbefore | ⟨rfl, hadded⟩) | ⟨hmem, hadded⟩)
          · exact Or.inl hbefore
          · exact Or.inr ⟨Or.inl rfl, hadded⟩
          · exact Or.inr ⟨Or.inr hmem, hadded⟩
        · rintro (hbefore | ⟨rfl | hmem, hadded⟩)
          · exact Or.inl (Or.inl hbefore)
          · exact Or.inl (Or.inr ⟨rfl, hadded⟩)
          · exact Or.inr ⟨hmem, hadded⟩
      · intro t ht
        rcases List.mem_cons.mp ht with rfl | ht
        · exact hfirst
        · exact hrestInfo t ht

end UsedFor

/-- A target for which there is no result. -/
theorem exists_of_foldlM_eq_none {tos : List KeyHash} {fanoutMap : Option FanoutMap}
    (hnone : tos.foldlM (r.fanoutTo from_ redundancy) fanoutMap = none) :
    ∃ to_ ∈ tos, ∃ fanoutMap, r.fanoutTo from_ redundancy fanoutMap to_ = none := by
  induction tos generalizing fanoutMap with
  | nil => cases hnone
  | cons first tos ih =>
      rw [List.foldlM_cons] at hnone
      cases hstep : r.fanoutTo from_ redundancy fanoutMap first with
      | none => exact ⟨first, List.mem_cons_self, fanoutMap, hstep⟩
      | some next =>
          rw [hstep] at hnone
          obtain ⟨to_, hto, hfails⟩ := ih hnone
          exact ⟨to_, List.mem_cons_of_mem _ hto, hfails⟩

theorem relays_of_some {target : KeyHash} {info : RouteInfo}
    (hinfo : r.findNeighbor from_ target = some info) :
    r.relays from_ target = info.list := by
  rw [relays, hinfo]
  rfl

/-- What a map covers. -/
theorem covers_getFanout (hsorted : r.SortedLists) (hredundancy : 1 ≤ redundancy)
    {tos : List KeyHash} {fanoutMap : FanoutMap}
    (hmap : r.getFanout from_ tos redundancy = some fanoutMap) :
    r.CoversReceivers from_ tos redundancy fanoutMap := by
  obtain ⟨usedFor, husedFor⟩ := exists_usedFor r from_ hredundancy
  unfold getFanout at hmap
  split at hmap
  · cases hmap
  · obtain ⟨found, hrun, rfl⟩ := Option.map_eq_some_iff.mp hmap
    obtain ⟨happears, hinfos⟩ := husedFor.run hrun
    have hiff : ∀ to_ ∈ tos, to_ ≠ r.me → from_ ≠ to_ → ∀ neighbour,
        Appears (found.getD .empty) neighbour to_ ↔
          neighbour ∈ (usedFor to_).map RelayInfo.hash := by
      intro to_ hto hme hfrom neighbour
      rw [happears]
      constructor
      · rintro (hempty | ⟨_, _, _, hused⟩)
        · exact absurd hempty (not_appears_empty _ _)
        · exact hused
      · exact fun hused => Or.inr ⟨hto, hme, hfrom, hused⟩
    constructor
    case through =>
      intro to_ hto hme hfrom
      obtain ⟨info, hinfo, _⟩ := hinfos to_ hto hme hfrom
      have huses := husedFor.uses to_ info hme hfrom hinfo
      refine ⟨usedFor to_, relays_of_some hinfo ▸ huses.sublist, hiff to_ hto hme hfrom, ?_⟩
      simpa using huses.lasting
    case near =>
      intro to_ hto hme hfrom hnear
      obtain ⟨info, hinfo, hclosest⟩ := hinfos to_ hto hme hfrom
      have huses := husedFor.uses to_ info hme hfrom hinfo
      obtain ⟨route, hroute⟩ : ∃ route, route ∈ usedFor to_ := by
        by_cases hown : from_ = r.me
        · obtain ⟨route, hroute, _⟩ := List.any_eq_true.mp (hclosest hown)
          exact ⟨route, hroute⟩
        · obtain ⟨route, hroute, hdistance⟩ := hnear
          have hlist := hsorted from_ to_
          rw [relays_of_some hinfo] at hroute hlist
          exact huses.exists_mem_of_near (by simpa using hown) hlist hroute hdistance
      refine ⟨route.hash, ?_, (hiff to_ hto hme hfrom _).mpr (List.mem_map_of_mem hroute)⟩
      rw [relays_of_some hinfo]
      exact List.mem_map_of_mem (huses.sublist.subset hroute)
    case only =>
      intro neighbour to_ h
      rcases (happears neighbour to_).mp h with hempty | ⟨hto, hme, hfrom, _⟩
      · exact absurd hempty (not_appears_empty _ _)
      · exact ⟨hto, hme, hfrom⟩
    case own =>
      rintro rfl to_ hto hme
      obtain ⟨info, _, hclosest⟩ := hinfos to_ hto hme hme.symm
      obtain ⟨route, hroute, _⟩ := List.any_eq_true.mp (hclosest rfl)
      exact ⟨route.hash,
        (hiff to_ hto hme hme.symm _).mpr (List.mem_map_of_mem hroute)⟩

/-! ### When there is no map -/

/-- No route is of a later session than its list. -/
def SessionsKept (r : Routes) : Prop :=
  ∀ from_ target info, r.findNeighbor from_ target = some info →
    ∀ route ∈ info.list, route.session ≤ info.session

namespace SessionsKept

/-- The functions other than `add` take routes away and leave the sessions. -/
theorem of_kept (h : r.SessionsKept) {r' : Routes}
    (hkept : ∀ from_ target info', r'.findNeighbor from_ target = some info' →
      ∃ info, r.findNeighbor from_ target = some info ∧ info'.session = info.session ∧
        info'.list.Sublist info.list) : r'.SessionsKept := by
  intro f t info' hinfo' route hroute
  obtain ⟨info, hinfo, hsession, hsublist⟩ := hkept f t info' hinfo'
  rw [hsession]
  exact h f t info hinfo route (hsublist.subset hroute)

theorem of_withoutRelay {node : KeyHash} {found : Option RouteInfo} {info' : RouteInfo}
    (h : found.bind (withoutRelay node) = some info') :
    ∃ info, found = some info ∧ info'.session = info.session ∧
      info'.list.Sublist info.list := by
  obtain ⟨info, hinfo, hkept⟩ := Option.bind_eq_some_iff.mp h
  unfold withoutRelay at hkept
  simp only at hkept
  split at hkept
  · cases hkept
  · obtain rfl := Option.some.inj hkept
    exact ⟨info, hinfo, rfl, List.filter_sublist⟩

theorem add (h : r.SessionsKept) (from_ target : KeyHash) (report : RouteReport) :
    (r.add from_ target report).2.2.SessionsKept := by
  intro f t info hinfo route hroute
  rw [findNeighbor_add] at hinfo
  split at hinfo
  · obtain rfl := Option.some.inj hinfo
    cases hprev : r.findNeighbor from_ target with
    | none =>
        rw [hprev, RouteReport.update_none] at hroute
        rcases RouteReport.mem_updateList hroute with ⟨old, hold, _⟩ | hnew
        · cases hold
        · exact hnew.2.le.trans (le_max_left _ _)
    | some prev =>
        rw [hprev, RouteReport.update_some] at hroute
        rcases RouteReport.mem_updateList hroute with ⟨old, hold, _, hsame⟩ | hnew
        · exact hsame.le.trans ((h from_ target prev hprev old hold).trans (le_max_right _ _))
        · exact hnew.2.le.trans (le_max_left _ _)
  · exact h f t info hinfo route hroute

theorem act (h : r.SessionsKept) (a : RouteAction) : (r.act a).SessionsKept := by
  cases a with
  | add from_ target report => exact h.add from_ target report
  | remove target =>
      refine h.of_kept (fun f t info' hinfo' => ?_)
      rw [Routes.act, findNeighbor_remove] at hinfo'
      split at hinfo'
      · cases hinfo'
      · exact of_withoutRelay hinfo'
  | removeNeighbour neighbour =>
      refine h.of_kept (fun f t info' hinfo' => ?_)
      rw [Routes.act, findNeighbor_removeNeighbour] at hinfo'
      split at hinfo'
      · cases hinfo'
      · exact of_withoutRelay hinfo'
  | cleanup now from_ to_ =>
      refine h.of_kept (fun f t info' hinfo' => ?_)
      obtain ⟨info, hinfo, hsession, hsublist, _⟩ := findNeighbor_cleanup hinfo'
      exact ⟨info, hinfo, hsession, hsublist⟩
  | clear =>
      refine h.of_kept (fun f t info' hinfo' => ?_)
      cases hinfo'
  | updateSession remote session =>
      refine h.of_kept (fun f t info' hinfo' => ?_)
      refine ⟨info', ?_, rfl, List.Sublist.refl _⟩
      simpa [Routes.act, findNeighbor] using hinfo'

theorem of_run {me : KeyHash} {retention : Int} {Guard : Routes → RouteAction → Prop}
    (hrun : (machine me retention).Run Guard r) : r.SessionsKept := by
  refine hrun.invariant ?_ ?_
  · intro f t info hinfo
    cases hinfo
  · intro r a r' h _ hstep
    obtain rfl := Option.some.inj hstep
    exact h.act a

end SessionsKept

theorem SortedLists.of_run {me : KeyHash} {retention : Int}
    {Guard : Routes → RouteAction → Prop}
    (hrun : (machine me retention).Run Guard r) : r.SortedLists := by
  intro from_ target
  cases hinfo : r.findNeighbor from_ target with
  | none =>
      rw [relays_of_none hinfo]
      exact List.Pairwise.nil
  | some info =>
      rw [relays_of_some hinfo]
      exact (AllOrderly.of_run hrun from_ target info hinfo).sorted

/-- A target without routes, or, for a message from this node, without a route as short
as can be. -/
def LacksClosest (r : Routes) (from_ to_ : KeyHash) : Prop :=
  r.findNeighbor from_ to_ = none ∨
    (from_ = r.me ∧ ∀ route ∈ r.relays from_ to_, ¬ route.distance ≤ 0)

/-- When there is no map, then because of a target. -/
theorem lacksClosest_of_getFanout (hsorted : r.SortedLists) (hsessions : r.SessionsKept)
    (hdistances : r.DistancesWithin (-1 ≤ ·)) (hredundancy : 1 ≤ redundancy)
    {tos : List KeyHash} (htos : tos ≠ []) (hnone : r.getFanout from_ tos redundancy = none) :
    ∃ to_ ∈ tos, r.LacksClosest from_ to_ := by
  rw [getFanout, if_neg htos, Option.map_eq_none_iff] at hnone
  obtain ⟨to_, hto, fanoutMap, hfails⟩ := exists_of_foldlM_eq_none hnone
  refine ⟨to_, hto, ?_⟩
  by_cases hneither : to_ = r.me ∨ from_ = to_
  · rw [fanoutTo, if_pos hneither] at hfails
    cases hfails
  · obtain ⟨hme, hfrom⟩ := not_or.mp hneither
    cases hinfo : r.findNeighbor from_ to_ with
    | none => exact Or.inl hinfo
    | some info =>
        obtain ⟨used, huses, hfanout⟩ := exists_fanoutTo hredundancy ⟨hme, hfrom⟩ hinfo
        rw [hfanout] at hfails
        split at hfails
        · rename_i hclosest
          refine Or.inr ⟨hclosest.1, fun route hroute hshort => hclosest.2 ?_⟩
          have hlist := hsorted from_ to_
          rw [relays_of_some hinfo] at hroute hlist
          cases hroutes : info.list with
          | nil =>
              rw [hroutes] at hroute
              cases hroute
          | cons first rest =>
              have hmem : first ∈ info.list := hroutes ▸ List.mem_cons_self
              have hfirst : first.distance ≤ 0 := by
                rw [hroutes] at hroute hlist
                rcases List.mem_cons.mp hroute with rfl | hrest
                · exact hshort
                · exact (List.rel_of_pairwise_cons hlist hrest).trans hshort
              have hbound : -1 ≤ first.distance :=
                hdistances from_ to_ info hinfo first hmem
              -- the first route is used, as no route has the distance -2
              have hused : first ∈ used :=
                huses.first first rest hroutes (by omega) (Or.inr (by omega))
              refine List.any_eq_true.mpr ⟨first, hused, ?_⟩
              simp [RelayInfo.isClosest, hfirst, hsessions from_ to_ info hinfo first hmem]
        · cases hfails

/-- A map for sorted routes covers the receivers.  For the routes of any run, when there
is no map then there are no targets, or one of them lacks a closest route. -/
theorem coversReceivers_of_getFanout (r : Routes) (from_ : KeyHash) (tos : List KeyHash)
    {redundancy : Nat} (hredundancy : 1 ≤ redundancy) :
    (r.SortedLists → ∀ fanoutMap, r.getFanout from_ tos redundancy = some fanoutMap →
      r.CoversReceivers from_ tos redundancy fanoutMap) ∧
    ∀ me retention, (machine me retention).Run (AddsWithin (-1 ≤ ·)) r →
      r.SortedLists ∧ (tos ≠ [] → r.getFanout from_ tos redundancy = none →
        ∃ to_ ∈ tos, r.LacksClosest from_ to_) := by
  constructor
  · intro hsorted fanoutMap hmap
    exact covers_getFanout hsorted hredundancy hmap
  · intro me retention hrun
    have hsorted := SortedLists.of_run hrun
    refine ⟨hsorted, fun htos hnone => ?_⟩
    exact lacksClosest_of_getFanout hsorted (.of_run hrun) (.of_run (by decide) hrun)
      hredundancy htos hnone

/-- This node relays from `b` to `c`, and does not know `d`. -/
def relaysForB : List RouteAction := [.add "b" "c" ⟨0, "a", 1, 1, 1⟩]

theorem coversReceivers_relaysForB :
    (∃ fanoutMap, (relaysForB.foldl act (empty "me" 10000)).getFanout "b" ["c", "me"] 2 =
        some fanoutMap ∧
      (relaysForB.foldl act (empty "me" 10000)).CoversReceivers "b" ["c", "me"] 2
        fanoutMap) ∧
    ∃ to_ ∈ ["c", "d"], (relaysForB.foldl act (empty "me" 10000)).LacksClosest "b" to_ := by
  have hrun : (machine "me" 10000).Run (AddsWithin (-1 ≤ ·))
      (relaysForB.foldl act (empty "me" 10000)) :=
    .step (a := .add "b" "c" ⟨0, "a", 1, 1, 1⟩) .init (by decide) rfl
  have hsome : ((relaysForB.foldl act (empty "me" 10000)).getFanout "b" ["c", "me"]
      2).isSome = true := by
    decide
  constructor
  · obtain ⟨fanoutMap, hmap⟩ := Option.isSome_iff_exists.mp hsome
    have hredundancy : 1 ≤ 2 := by decide
    refine ⟨fanoutMap, hmap, ?_⟩
    exact (coversReceivers_of_getFanout _ "b" ["c", "me"] hredundancy).1
      ((coversReceivers_of_getFanout _ "b" ["c"] hredundancy).2 "me" 10000 hrun).1
      fanoutMap hmap
  · exact ((coversReceivers_of_getFanout _ "b" ["c", "d"] (Nat.le_refl 1)).2 "me" 10000
      hrun).2 (by decide) rfl

/-- A direct route of a later session than its list, which `add` never leaves. -/
def withLaterRoute : Routes where
  routes := InsertionMap.empty.set "me" (InsertionMap.empty.set "c"
    { remoteSession := 1, session := 1,
      list := [{ session := 2, hash := "a", expireAt := none, distance := 0 }] })
  remoteInfo := .empty
  me := "me"
  routeMaxRetentionPeriod := 10000

theorem findNeighbor_withLaterRoute (from_ target : KeyHash) :
    withLaterRoute.findNeighbor from_ target =
      if from_ = "me" ∧ target = "c" then withLaterRoute.findNeighbor "me" "c" else none :=
  findNeighbor_set (r := empty "me" 10000) rfl from_ target

/-- Sorted routes alone do not tell why there is no map: the only target may have a
route as short as can be. -/
theorem not_lacksClosest_withLaterRoute :
    withLaterRoute.SortedLists ∧ withLaterRoute.getFanout "me" ["c"] 1 = none ∧
      ¬ ∃ to_ ∈ ["c"], withLaterRoute.LacksClosest "me" to_ := by
  refine ⟨?_, by decide, ?_⟩
  · intro from_ target
    by_cases hroutes : from_ = "me" ∧ target = "c"
    · obtain ⟨rfl, rfl⟩ := hroutes
      decide
    · rw [relays, findNeighbor_withLaterRoute, if_neg hroutes]
      exact List.Pairwise.nil
  · rintro ⟨to_, hto, hlacks⟩
    obtain rfl := List.mem_singleton.mp hto
    rcases hlacks with hnone | ⟨-, hroutes⟩
    · exact absurd hnone (by decide)
    · exact hroutes { session := 2, hash := "a", expireAt := none, distance := 0 }
        (by decide) (by decide)

end Routes

end Transport
end Peerbit
