import Mathlib.Data.List.Sort
import Peerbit.Lib.InsertionMap
import Peerbit.Lib.Machines
import Peerbit.Transport.DataMessages

/-!
# Routes

For a source and a target, a node keeps the neighbours through which the target
can be reached, with their distances.  The routes of a new session make those of
the sessions before it expire after a while; a cleanup, which `add` schedules,
takes the expired ones away.

The functions of the source that read the clock take the reading as an argument.
-/

namespace Peerbit
namespace Transport

open Lib (InsertionMap Machine)

/-- `Number.MAX_SAFE_INTEGER - 1`. -/
def MAX_ROUTE_DISTANCE : Nat := 9007199254740990

structure RelayInfo where
  session : Int
  hash : KeyHash
  expireAt : Option Int
  distance : Int
deriving Repr, DecidableEq

structure RouteInfo where
  remoteSession : Int
  session : Int
  list : List RelayInfo
deriving Repr, DecidableEq

namespace RelayInfo

/-- `expireAt` read as a condition: zero is as good as no expiry. -/
def expires (route : RelayInfo) : Bool :=
  match route.expireAt with
  | some expireAt => expireAt ≠ 0
  | none => false

/-- What `cleanup` takes away. -/
def expired (route : RelayInfo) (now : Int) : Bool :=
  match route.expireAt with
  | some expireAt => expireAt < now
  | none => false

/-- The comparison of `sortRoutes`. -/
def compare (a b : RelayInfo) : Int :=
  if a.distance = b.distance then
    if a.expires && !b.expires then 1
    else if !a.expires && b.expires then -1
    else 0
  else a.distance - b.distance

/-- Marks a route of an old session, unless it has been marked before. -/
def markOld (expireAt : Int) (route : RelayInfo) : RelayInfo :=
  if route.expires then route else { route with expireAt := some expireAt }

/-- A route through the neighbour without expiry. -/
def lastsVia (neighbour : KeyHash) (route : RelayInfo) : Bool :=
  decide (route.hash = neighbour) && route.expireAt.isNone

theorem compare_le_zero {a b : RelayInfo} :
    a.compare b ≤ 0 ↔ a.distance < b.distance ∨
      (a.distance = b.distance ∧ (a.expires = true → b.expires = true)) := by
  unfold compare
  by_cases hdistance : a.distance = b.distance
  · rw [if_pos hdistance]
    cases a.expires with
    | false =>
        cases b.expires with
        | false => simp [hdistance]
        | true => simp [hdistance]
    | true =>
        cases b.expires with
        | false => simp [hdistance]
        | true => simp [hdistance]
  · rw [if_neg hdistance]
    constructor
    · intro h
      exact Or.inl (by omega)
    · rintro (h | ⟨h, _⟩)
      · omega
      · exact absurd h hdistance

theorem compare_total (a b : RelayInfo) : a.compare b ≤ 0 ∨ b.compare a ≤ 0 := by
  rw [compare_le_zero, compare_le_zero]
  rcases Int.lt_trichotomy a.distance b.distance with h | h | h
  · exact Or.inl (Or.inl h)
  · cases ha : a.expires with
    | false => exact Or.inl (Or.inr ⟨h, by simp⟩)
    | true => exact Or.inr (Or.inr ⟨h.symm, by simp⟩)
  · exact Or.inr (Or.inl h)

theorem compare_trans (a b c : RelayInfo) (hab : a.compare b ≤ 0)
    (hbc : b.compare c ≤ 0) : a.compare c ≤ 0 := by
  rw [compare_le_zero] at hab hbc ⊢
  rcases hab with hab | ⟨hab, ha⟩
  · rcases hbc with hbc | ⟨hbc, _⟩
    · exact Or.inl (by omega)
    · exact Or.inl (by omega)
  · rcases hbc with hbc | ⟨hbc, hb⟩
    · exact Or.inl (by omega)
    · exact Or.inr ⟨hab.trans hbc, fun h => hb (ha h)⟩

theorem countP_lastsVia {list : List RelayInfo} {neighbour : KeyHash}
    (hnot : neighbour ∉ list.map hash) : list.countP (lastsVia neighbour) = 0 := by
  rw [List.countP_eq_zero]
  intro route hroute hlasts
  simp only [lastsVia, Bool.and_eq_true, decide_eq_true_eq] at hlasts
  exact hnot (hlasts.1 ▸ List.mem_map_of_mem hroute)

section MarkOld

variable (expireAt : Int) (route : RelayInfo)

@[simp] theorem markOld_hash : (markOld expireAt route).hash = route.hash := by
  unfold markOld
  split
  · rfl
  · rfl

@[simp] theorem markOld_distance :
    (markOld expireAt route).distance = route.distance := by
  unfold markOld
  split
  · rfl
  · rfl

@[simp] theorem markOld_session :
    (markOld expireAt route).session = route.session := by
  unfold markOld
  split
  · rfl
  · rfl

@[simp] theorem lastsVia_markOld (neighbour : KeyHash) :
    (markOld expireAt route).lastsVia neighbour = false := by
  unfold markOld
  split
  · rename_i hexpires
    cases hroute : route.expireAt with
    | none => simp [expires, hroute] at hexpires
    | some t => simp [lastsVia, hroute]
  · simp [lastsVia]

end MarkOld

end RelayInfo

def sortRoutes (routes : List RelayInfo) : List RelayInfo :=
  routes.insertionSort (fun a b => a.compare b ≤ 0)

theorem perm_sortRoutes (routes : List RelayInfo) : (sortRoutes routes).Perm routes :=
  List.perm_insertionSort _ routes

theorem sorted_sortRoutes (routes : List RelayInfo) :
    (sortRoutes routes).Pairwise (fun a b => a.distance ≤ b.distance) := by
  have : Std.Total (fun a b : RelayInfo => a.compare b ≤ 0) := ⟨RelayInfo.compare_total⟩
  have : IsTrans RelayInfo (fun a b => a.compare b ≤ 0) := ⟨RelayInfo.compare_trans⟩
  refine (List.pairwise_insertionSort _ routes).imp (fun h => ?_)
  rcases RelayInfo.compare_le_zero.mp h with h | ⟨h, _⟩
  · exact Int.le_of_lt h
  · exact Int.le_of_eq h

/-- The arguments of `add` besides the source and the target, and the time of
the call. -/
structure RouteReport where
  now : Int
  neighbour : KeyHash
  distance : Int
  session : Int
  remoteSession : Int
deriving Repr, DecidableEq

/-- What `add` returns. -/
inductive AddedRoute where
  | new
  | updated
  | restart
deriving Repr, DecidableEq

/-- `x || -1`. -/
def orMinusOne (x : Int) : Int := if x = 0 then -1 else x

namespace RouteReport

variable (report : RouteReport)

def isNewSession (prev : Option RouteInfo) : Bool :=
  match prev with
  | some prev => prev.session < report.session
  | none => true

def isOldSession (prev : Option RouteInfo) : Bool :=
  match prev with
  | some prev => report.session < prev.session
  | none => false

/-- The first route through the neighbour, with the reported distance and session
and without expiry. -/
def renewFirst : List RelayInfo → List RelayInfo
  | [] => []
  | route :: routes =>
      if route.hash = report.neighbour then
        { route with
          distance := report.distance, session := report.session, expireAt := none } :: routes
      else route :: renewFirst routes

/-- The route that is pushed. -/
def route (expireAt : Option Int) : RelayInfo where
  distance := report.distance
  session := report.session
  hash := report.neighbour
  expireAt := expireAt

/-- The list that `add` makes of a list, and whether the neighbour was in it. -/
def updateList (retention : Int) (isNewSession isOldSession : Bool)
    (list : List RelayInfo) : List RelayInfo × Bool :=
  let expireAt := report.now + retention
  let list := if isNewSession then list.map (RelayInfo.markOld expireAt) else list
  let pushed := sortRoutes (list ++
    [report.route (if isOldSession then some expireAt else none)])
  match list.find? (fun route => route.hash = report.neighbour) with
  | none => (pushed, false)
  | some route =>
      if isNewSession then
        if report.distance < route.distance then
          (sortRoutes (report.renewFirst list), true)
        else if route.distance = report.distance then
          -- the distance is kept, and the order with it
          (report.renewFirst list, true)
        else (pushed, true)
      else (list, true)

/-- `add` on the routes of its source and target: what it returns, whether it
schedules a cleanup, and the routes. -/
def update (retention : Int) (prev : Option RouteInfo) : AddedRoute × Bool × RouteInfo :=
  let isNewSession := report.isNewSession prev
  let isOldSession := report.isOldSession prev
  let info := prev.getD
    { session := report.session, remoteSession := report.remoteSession, list := [] }
  let isNewRemoteSession :=
    prev.isSome && decide (orMinusOne info.remoteSession < report.remoteSession)
  let foundNodeToExpire := info.list.any (fun route => !route.expires)
  let scheduled :=
    if isNewSession then decide (report.distance ≠ -1) && foundNodeToExpire
    else isOldSession
  let updated := report.updateList retention isNewSession isOldSession info.list
  (if updated.2 then (if isNewRemoteSession then .restart else .updated) else .new,
    scheduled,
    { session := max report.session info.session
      remoteSession :=
        if prev.isSome then max report.remoteSession (orMinusOne info.remoteSession)
        else info.remoteSession
      list := updated.1 })

section UpdateList

variable {report} {retention : Int} {list : List RelayInfo}

@[simp] theorem map_hash_renewFirst (list : List RelayInfo) :
    (report.renewFirst list).map RelayInfo.hash = list.map RelayInfo.hash := by
  induction list with
  | nil => rfl
  | cons route list ih =>
      rw [renewFirst]
      split
      · rfl
      · rw [List.map_cons, List.map_cons, ih]

/-- When none lasts, the renewed one alone does. -/
theorem countP_renewFirst
    (hnone : ∀ neighbour, list.countP (RelayInfo.lastsVia neighbour) = 0)
    (hmem : report.neighbour ∈ list.map RelayInfo.hash) (neighbour : KeyHash) :
    (report.renewFirst list).countP (RelayInfo.lastsVia neighbour) =
      if neighbour = report.neighbour then 1 else 0 := by
  induction list with
  | nil => exact absurd hmem List.not_mem_nil
  | cons route list ih =>
      have hrest : ∀ neighbour, list.countP (RelayInfo.lastsVia neighbour) = 0 := by
        intro neighbour
        have h := hnone neighbour
        rw [List.countP_cons] at h
        omega
      have hroute := hnone neighbour
      rw [List.countP_cons, hrest neighbour, Nat.zero_add] at hroute
      rw [renewFirst]
      by_cases hhash : route.hash = report.neighbour
      · rw [if_pos hhash, List.countP_cons, hrest neighbour, Nat.zero_add]
        simp [RelayInfo.lastsVia, hhash, eq_comm]
      · rw [if_neg hhash, List.countP_cons, hroute, Nat.add_zero]
        rw [List.map_cons, List.mem_cons] at hmem
        exact ih hrest (hmem.resolve_left (fun h => hhash h.symm))

/-- An update of the distance keeps the order when it changes nothing. -/
theorem map_distance_renewFirst {route : RelayInfo}
    (hfind : list.find? (fun route => route.hash = report.neighbour) = some route)
    (hdistance : route.distance = report.distance) :
    (report.renewFirst list).map RelayInfo.distance = list.map RelayInfo.distance := by
  induction list with
  | nil => cases hfind
  | cons first list ih =>
      rw [renewFirst]
      by_cases hhash : first.hash = report.neighbour
      · rw [List.find?_cons_of_pos (by simpa using hhash)] at hfind
        obtain rfl := Option.some.inj hfind
        rw [if_pos hhash, List.map_cons, List.map_cons, hdistance]
      · rw [List.find?_cons_of_neg (by simpa using hhash)] at hfind
        rw [if_neg hhash, List.map_cons, List.map_cons, ih hfind]

theorem find?_neighbour_eq_none :
    list.find? (fun route => route.hash = report.neighbour) = none ↔
      report.neighbour ∉ list.map RelayInfo.hash := by
  rw [List.find?_eq_none]
  simp only [decide_eq_true_eq, List.mem_map, not_exists, not_and]

theorem countP_pushed (neighbour : KeyHash) (expireAt : Option Int) :
    (sortRoutes (list ++ [report.route expireAt])).countP
        (RelayInfo.lastsVia neighbour) =
      list.countP (RelayInfo.lastsVia neighbour) +
        if neighbour = report.neighbour ∧ expireAt = none then 1 else 0 := by
  rw [(perm_sortRoutes _).countP_eq, List.countP_append, List.countP_singleton]
  congr 1
  cases expireAt with
  | none => simp [RelayInfo.lastsVia, route, eq_comm]
  | some expireAt => simp [RelayInfo.lastsVia, route]

theorem mem_map_hash_pushed (neighbour : KeyHash) (expireAt : Option Int) :
    neighbour ∈ (sortRoutes (list ++ [report.route expireAt])).map RelayInfo.hash ↔
      neighbour = report.neighbour ∨ neighbour ∈ list.map RelayInfo.hash := by
  rw [((perm_sortRoutes _).map _).mem_iff, List.map_append, List.mem_append, or_comm]
  simp [route]

theorem updateList_of_mem (isOldSession : Bool)
    (hmem : report.neighbour ∈ list.map RelayInfo.hash) :
    report.updateList retention false isOldSession list = (list, true) := by
  simp only [updateList, Bool.false_eq_true, if_false]
  cases hfind : list.find? (fun route => route.hash = report.neighbour) with
  | none => exact absurd hmem (find?_neighbour_eq_none.mp hfind)
  | some route => rfl

theorem updateList_of_not_mem (isOldSession : Bool)
    (hmem : report.neighbour ∉ list.map RelayInfo.hash) :
    report.updateList retention false isOldSession list =
      (sortRoutes (list ++ [report.route
        (if isOldSession then some (report.now + retention) else none)]), false) := by
  simp only [updateList, Bool.false_eq_true, if_false,
    find?_neighbour_eq_none.mpr hmem]

variable (report retention list) in
/-- In a new session the list is that of the marked routes with one renewed, or
with one pushed. -/
theorem updateList_new (isOldSession : Bool) :
    ∃ marked, marked = list.map (RelayInfo.markOld (report.now + retention)) ∧
      let list' := (report.updateList retention true isOldSession list).1
      list' = sortRoutes (marked ++ [report.route
        (if isOldSession then some (report.now + retention) else none)]) ∨
      (report.neighbour ∈ marked.map RelayInfo.hash ∧
        (list' = sortRoutes (report.renewFirst marked) ∨
          list' = report.renewFirst marked ∧
            (report.renewFirst marked).map RelayInfo.distance =
              marked.map RelayInfo.distance)) := by
  refine ⟨_, rfl, ?_⟩
  simp only [updateList, if_true]
  cases hfind : (list.map (RelayInfo.markOld (report.now + retention))).find?
      (fun route => route.hash = report.neighbour) with
  | none => exact Or.inl rfl
  | some route =>
      have hmem : report.neighbour ∈
          (list.map (RelayInfo.markOld (report.now + retention))).map RelayInfo.hash := by
        by_contra hnot
        rw [find?_neighbour_eq_none.mpr hnot] at hfind
        cases hfind
      simp only
      split
      · exact Or.inr ⟨hmem, Or.inl rfl⟩
      · split
        · rename_i hdistance
          exact Or.inr ⟨hmem, Or.inr ⟨rfl, map_distance_renewFirst hfind hdistance⟩⟩
        · exact Or.inl rfl

theorem map_hash_markOld (expireAt : Int) (list : List RelayInfo) :
    (list.map (RelayInfo.markOld expireAt)).map RelayInfo.hash =
      list.map RelayInfo.hash := by
  rw [List.map_map]
  exact List.map_congr_left (fun route _ => RelayInfo.markOld_hash expireAt route)

theorem countP_markOld (expireAt : Int) (list : List RelayInfo) (neighbour : KeyHash) :
    (list.map (RelayInfo.markOld expireAt)).countP (RelayInfo.lastsVia neighbour) = 0 := by
  rw [List.countP_eq_zero]
  intro route hroute
  obtain ⟨old, _, rfl⟩ := List.mem_map.mp hroute
  simp

variable (report retention list) in
/-- The neighbours after an update are those before it and the reported one. -/
theorem mem_map_hash_updateList (isNewSession isOldSession : Bool) (neighbour : KeyHash) :
    neighbour ∈ (report.updateList retention isNewSession isOldSession list).1.map
        RelayInfo.hash ↔
      neighbour = report.neighbour ∨ neighbour ∈ list.map RelayInfo.hash := by
  cases isNewSession with
  | false =>
      by_cases hmem : report.neighbour ∈ list.map RelayInfo.hash
      · rw [updateList_of_mem isOldSession hmem]
        constructor
        · exact Or.inr
        · rintro (rfl | h)
          · exact hmem
          · exact h
      · rw [updateList_of_not_mem isOldSession hmem]
        exact mem_map_hash_pushed neighbour _
  | true =>
      obtain ⟨marked, hmarked, h⟩ :=
        updateList_new report retention list isOldSession
      have hhashes : marked.map RelayInfo.hash = list.map RelayInfo.hash := by
        rw [hmarked, map_hash_markOld]
      have hrenewed : report.neighbour ∈ list.map RelayInfo.hash →
          (neighbour ∈ (report.renewFirst marked).map RelayInfo.hash ↔
            neighbour = report.neighbour ∨ neighbour ∈ list.map RelayInfo.hash) := by
        intro hmem
        rw [map_hash_renewFirst, hhashes]
        constructor
        · exact Or.inr
        · rintro (rfl | h)
          · exact hmem
          · exact h
      rcases h with h | ⟨hmem, h | ⟨h, _⟩⟩
      · rw [h, mem_map_hash_pushed, hhashes]
      · rw [h, ((perm_sortRoutes _).map _).mem_iff]
        exact hrenewed (hhashes ▸ hmem)
      · rw [h]
        exact hrenewed (hhashes ▸ hmem)

/-- In a new session the reported neighbour alone has a route that lasts. -/
theorem countP_updateList_new (neighbour : KeyHash) :
    (report.updateList retention true false list).1.countP
        (RelayInfo.lastsVia neighbour) =
      if neighbour = report.neighbour then 1 else 0 := by
  obtain ⟨marked, hmarked, h⟩ :=
    updateList_new report retention list false
  have hnone : ∀ neighbour, marked.countP (RelayInfo.lastsVia neighbour) = 0 := by
    rw [hmarked]
    exact countP_markOld _ list
  rcases h with h | ⟨hmem, h | ⟨h, _⟩⟩
  · rw [h, countP_pushed, hnone neighbour]
    simp
  · rw [h, (perm_sortRoutes _).countP_eq]
    exact countP_renewFirst hnone hmem neighbour
  · rw [h]
    exact countP_renewFirst hnone hmem neighbour

theorem sorted_updateList (isNewSession isOldSession : Bool)
    (hsorted : list.Pairwise (fun a b => a.distance ≤ b.distance)) :
    (report.updateList retention isNewSession isOldSession list).1.Pairwise
      (fun a b => a.distance ≤ b.distance) := by
  cases isNewSession with
  | false =>
      by_cases hmem : report.neighbour ∈ list.map RelayInfo.hash
      · rw [updateList_of_mem isOldSession hmem]
        exact hsorted
      · rw [updateList_of_not_mem isOldSession hmem]
        exact sorted_sortRoutes _
  | true =>
      obtain ⟨marked, hmarked, h⟩ :=
        updateList_new report retention list isOldSession
      rcases h with h | ⟨_, h | ⟨h, hdistances⟩⟩
      · rw [h]
        exact sorted_sortRoutes _
      · rw [h]
        exact sorted_sortRoutes _
      · -- the distances are those of the list before
        have hsame : (report.renewFirst marked).map RelayInfo.distance =
            list.map RelayInfo.distance := by
          rw [hdistances, hmarked, List.map_map]
          exact List.map_congr_left
            (fun route _ => RelayInfo.markOld_distance _ route)
        rw [h, ← List.pairwise_map (f := RelayInfo.distance), hsame, List.pairwise_map]
        exact hsorted

theorem mem_renewFirst {route : RelayInfo} (h : route ∈ report.renewFirst list) :
    route ∈ list ∨
      route.distance = report.distance ∧ route.session = report.session := by
  induction list with
  | nil => cases h
  | cons first list ih =>
      rw [renewFirst] at h
      split at h
      · rcases List.mem_cons.mp h with rfl | h
        · exact Or.inr ⟨rfl, rfl⟩
        · exact Or.inl (List.mem_cons_of_mem _ h)
      · rcases List.mem_cons.mp h with rfl | h
        · exact Or.inl List.mem_cons_self
        · exact (ih h).imp_left (List.mem_cons_of_mem _)

/-- The distances and sessions after an update are those before it and the reported
ones. -/
theorem mem_updateList {isNewSession isOldSession : Bool} {route : RelayInfo}
    (h : route ∈ (report.updateList retention isNewSession isOldSession list).1) :
    (∃ old ∈ list, route.distance = old.distance ∧ route.session = old.session) ∨
      route.distance = report.distance ∧ route.session = report.session := by
  have hpushed : ∀ {before : List RelayInfo} {expireAt : Option Int},
      route ∈ sortRoutes (before ++ [report.route expireAt]) →
        route ∈ before ∨
          route.distance = report.distance ∧ route.session = report.session := by
    intro before expireAt hroute
    rcases List.mem_append.mp ((perm_sortRoutes _).mem_iff.mp hroute) with hroute | hroute
    · exact Or.inl hroute
    · obtain rfl := List.mem_singleton.mp hroute
      exact Or.inr ⟨rfl, rfl⟩
  cases isNewSession with
  | false =>
      by_cases hmem : report.neighbour ∈ list.map RelayInfo.hash
      · rw [updateList_of_mem isOldSession hmem] at h
        exact Or.inl ⟨route, h, rfl, rfl⟩
      · rw [updateList_of_not_mem isOldSession hmem] at h
        exact (hpushed h).imp_left (fun h => ⟨route, h, rfl, rfl⟩)
  | true =>
      obtain ⟨marked, hmarked, hlist⟩ := updateList_new report retention list isOldSession
      have hold : route ∈ marked → ∃ old ∈ list, route.distance = old.distance ∧
          route.session = old.session := by
        intro hroute
        obtain ⟨old, hold, rfl⟩ := List.mem_map.mp (hmarked ▸ hroute)
        exact ⟨old, hold, by simp, by simp⟩
      rcases hlist with hlist | ⟨_, hlist | ⟨hlist, _⟩⟩
      · rw [hlist] at h
        exact (hpushed h).imp_left hold
      · rw [hlist, (perm_sortRoutes _).mem_iff] at h
        exact (mem_renewFirst h).imp_left hold
      · rw [hlist] at h
        exact (mem_renewFirst h).imp_left hold

variable (report retention)

theorem update_none :
    (report.update retention none).2.2.list =
      (report.updateList retention true false []).1 :=
  rfl

theorem update_some (info : RouteInfo) :
    (report.update retention (some info)).2.2.list =
      (report.updateList retention (decide (info.session < report.session))
        (decide (report.session < info.session)) info.list).1 :=
  rfl

end UpdateList

end RouteReport

/-- The fields of `Routes`. -/
structure Routes where
  /-- From source to target to the routes. -/
  routes : InsertionMap KeyHash (InsertionMap KeyHash RouteInfo)
  remoteInfo : InsertionMap KeyHash Int
  me : KeyHash
  routeMaxRetentionPeriod : Int

namespace Routes

/-- The routes after construction. -/
def empty (me : KeyHash) (routeMaxRetentionPeriod : Int) : Routes where
  routes := .empty
  remoteInfo := .empty
  me := me
  routeMaxRetentionPeriod := routeMaxRetentionPeriod

variable (r : Routes)

def clear : Routes := { r with routes := .empty }

def findNeighbor (from_ target : KeyHash) : Option RouteInfo :=
  (r.routes.get from_).bind (fun fromMap => fromMap.get target)

def cleanup (now : Int) (from_ to_ : KeyHash) : Routes :=
  match r.routes.get from_ with
  | none => r
  | some fromMap =>
      match fromMap.get to_ with
      | none => r
      | some map =>
          let keepRoutes := map.list.filter (fun route => !route.expired now)
          if keepRoutes = [] then
            let fromMap := fromMap.delete to_
            { r with
              routes :=
                if fromMap.keys.length = 1 then r.routes.delete from_
                else r.routes.set from_ fromMap }
          else
            { r with
              routes :=
                r.routes.set from_ (fromMap.set to_ { map with list := keepRoutes }) }

/-- What the report says of the way from `from_` to `target`: a neighbour that is
the target is always reached directly. -/
def directed (from_ target : KeyHash) (report : RouteReport) : RouteReport :=
  if report.neighbour = target ∧ from_ = r.me then { report with distance := -1 }
  else report

def add (from_ target : KeyHash) (report : RouteReport) : AddedRoute × Bool × Routes :=
  let fromMap := (r.routes.get from_).getD .empty
  let updated := (r.directed from_ target report).update r.routeMaxRetentionPeriod
    (fromMap.get target)
  (updated.1, updated.2.1,
    { r with routes := r.routes.set from_ (fromMap.set target updated.2.2) })

def isReachable (from_ target : KeyHash) (maxDistance : Nat) : Bool :=
  match r.remoteInfo.get target, r.findNeighbor from_ target with
  | some session, some info =>
      if info.remoteSession < session then false
      else
        decide ((((info.list.head?).map RelayInfo.distance).getD
          (MAX_ROUTE_DISTANCE + 1)) ≤ maxDistance)
  | _, _ => false

/-- The routes of a source that do not go through a neighbour. -/
def withoutNeighbour (neighbour : KeyHash) (fromMap : InsertionMap KeyHash RouteInfo) :
    InsertionMap KeyHash RouteInfo :=
  fromMap.filterMap (fun _ info =>
    let list := info.list.filter (fun route => route.hash ≠ neighbour)
    if list = [] then none else some { info with list := list })

/-- Removes a node as source, as target and as neighbour, and returns what can no
longer be reached. -/
def remove (target : KeyHash) : List KeyHash × Routes :=
  let routes := r.routes.delete target
  let mine := ((routes.get r.me).getD .empty).delete target
  let lost := mine.keys.filter (fun remote =>
    ((withoutNeighbour target mine).get remote).isNone)
  let targetRemoved := (((routes.get r.me).getD .empty).get target).isSome
  let maybeUnreachable := if targetRemoved then lost ++ [target] else lost
  let after : Routes :=
    { r with
      routes := routes.filterMap (fun _ fromMap =>
        let kept := withoutNeighbour target (fromMap.delete target)
        if kept.keys = [] then none else some kept)
      remoteInfo := r.remoteInfo.delete target }
  (maybeUnreachable.filter (fun x => !after.isReachable r.me x MAX_ROUTE_DISTANCE),
    after)

def removeNeighbour (neighbour : KeyHash) : Routes :=
  { r with
    routes := (r.routes.delete neighbour).filterMap
      (fun _ fromMap => some (withoutNeighbour neighbour fromMap)) }

def updateSession (remote : KeyHash) (session : Option Int) : Bool × Routes :=
  match session with
  | none => (false, { r with remoteInfo := r.remoteInfo.delete remote })
  | some session =>
      match r.remoteInfo.get remote with
      | some known =>
          if known = -1 then (false, r)
          else if session = -1 then
            (false, { r with remoteInfo := r.remoteInfo.set remote (-1) })
          else if orMinusOne known < session then
            (true, { r with remoteInfo := r.remoteInfo.set remote session })
          else (false, r)
      | none => (true, { r with remoteInfo := r.remoteInfo.set remote session })

/-! ### What the operations find -/

variable {r}

theorem findNeighbor_set {r' : Routes} {from_ target : KeyHash} {info : RouteInfo}
    (hroutes : r'.routes = r.routes.set from_
      (((r.routes.get from_).getD .empty).set target info))
    (f t : KeyHash) :
    r'.findNeighbor f t =
      if f = from_ ∧ t = target then some info else r.findNeighbor f t := by
  unfold findNeighbor
  rw [hroutes]
  by_cases hf : f = from_
  · subst hf
    rw [InsertionMap.get_set_self, Option.bind_some]
    by_cases ht : t = target
    · subst ht
      rw [InsertionMap.get_set_self, if_pos ⟨rfl, rfl⟩]
    · rw [InsertionMap.get_set_of_ne _ _ ht, if_neg (fun h => ht h.2)]
      cases r.routes.get f with
      | none => rfl
      | some fromMap => rfl
  · rw [InsertionMap.get_set_of_ne _ _ hf, if_neg (fun h => hf h.1)]

@[simp] theorem directed_neighbour (r : Routes) (from_ target : KeyHash)
    (report : RouteReport) :
    (r.directed from_ target report).neighbour = report.neighbour := by
  unfold directed
  split
  · rfl
  · rfl

@[simp] theorem directed_session (r : Routes) (from_ target : KeyHash)
    (report : RouteReport) :
    (r.directed from_ target report).session = report.session := by
  unfold directed
  split
  · rfl
  · rfl

/-- `add` updates the routes of its source and target, and no others. -/
theorem findNeighbor_add (from_ target : KeyHash) (report : RouteReport)
    (f t : KeyHash) :
    (r.add from_ target report).2.2.findNeighbor f t =
      if f = from_ ∧ t = target then
        some ((r.directed from_ target report).update r.routeMaxRetentionPeriod
          (r.findNeighbor from_ target)).2.2
      else r.findNeighbor f t := by
  have hprev : ((r.routes.get from_).getD .empty).get target =
      r.findNeighbor from_ target := by
    unfold findNeighbor
    cases r.routes.get from_ with
    | none => rfl
    | some fromMap => rfl
  rw [← hprev]
  exact findNeighbor_set rfl f t

theorem findNeighbor_withoutNeighbour {neighbour target : KeyHash}
    {fromMap : InsertionMap KeyHash RouteInfo} {info : RouteInfo}
    (h : (withoutNeighbour neighbour fromMap).get target = some info) :
    ∃ before, fromMap.get target = some before ∧
      info.list = before.list.filter (fun route => route.hash ≠ neighbour) ∧
      info.list ≠ [] := by
  unfold withoutNeighbour at h
  rw [InsertionMap.get_filterMap] at h
  obtain ⟨before, hbefore, h⟩ := Option.bind_eq_some_iff.mp h
  simp only at h
  split at h
  · cases h
  · rename_i hne
    obtain rfl := Option.some.inj h
    exact ⟨before, hbefore, rfl, hne⟩

/-- What the functions other than `add` do to the lists: they take routes away, and
a list with its last route. -/
def Thins (r r' : Routes) : Prop :=
  ∀ from_ target info', r'.findNeighbor from_ target = some info' →
    ∃ info, r.findNeighbor from_ target = some info ∧
      info'.list.Sublist info.list ∧ (info'.list = [] → info.list = [])

theorem thins_of_findNeighbor {r' : Routes}
    (h : ∀ from_ target, r'.findNeighbor from_ target = none ∨
      r'.findNeighbor from_ target = r.findNeighbor from_ target) :
    r.Thins r' := by
  intro from_ target info' hinfo'
  rcases h from_ target with hnone | hsame
  · rw [hnone] at hinfo'
    cases hinfo'
  · exact ⟨info', hsame ▸ hinfo', List.Sublist.refl _, id⟩

/-- What a cleanup leaves of the routes of a source and a target. -/
theorem findNeighbor_cleanup {now : Int} {from_ to_ f t : KeyHash} {info' : RouteInfo}
    (h : (r.cleanup now from_ to_).findNeighbor f t = some info') :
    ∃ info, r.findNeighbor f t = some info ∧ info'.session = info.session ∧
      info'.list.Sublist info.list ∧ (info'.list = [] → info.list = []) := by
  have hsame : r.findNeighbor f t = some info' →
      ∃ info, r.findNeighbor f t = some info ∧ info'.session = info.session ∧
        info'.list.Sublist info.list ∧ (info'.list = [] → info.list = []) :=
    fun h => ⟨info', h, rfl, List.Sublist.refl _, id⟩
  unfold cleanup at h
  cases hfrom : r.routes.get from_ with
  | none =>
      simp only [hfrom] at h
      exact hsame h
  | some fromMap =>
      cases hto : fromMap.get to_ with
      | none =>
          simp only [hfrom, hto] at h
          exact hsame h
      | some map =>
          simp only [hfrom, hto] at h
          split at h
          · refine hsame ?_
            unfold findNeighbor at h ⊢
            simp only at h
            by_cases hf : f = from_
            · subst hf
              split at h
              · simp at h
              · rw [InsertionMap.get_set_self, Option.bind_some] at h
                rw [hfrom, Option.bind_some]
                exact ((InsertionMap.get_delete_eq_some _).mp h).2
            · split at h
              · rwa [InsertionMap.get_delete_of_ne _ hf] at h
              · rwa [InsertionMap.get_set_of_ne _ _ hf] at h
          · rename_i hkeep
            have hset : r.routes.set from_ (fromMap.set to_ { map with
                list := map.list.filter (fun route => !route.expired now) }) =
                r.routes.set from_ (((r.routes.get from_).getD .empty).set to_ { map with
                  list := map.list.filter (fun route => !route.expired now) }) := by
              rw [hfrom, Option.getD_some]
            rw [findNeighbor_set hset] at h
            split at h
            · rename_i hpair
              obtain ⟨rfl, rfl⟩ := hpair
              obtain rfl := Option.some.inj h
              refine ⟨map, ?_, rfl, List.filter_sublist, fun h => absurd h hkeep⟩
              unfold findNeighbor
              rw [hfrom]
              exact hto
            · exact hsame h

theorem thins_cleanup (now : Int) (from_ to_ : KeyHash) :
    r.Thins (r.cleanup now from_ to_) := by
  intro f t info' hinfo'
  obtain ⟨info, hinfo, _, hlist⟩ := findNeighbor_cleanup hinfo'
  exact ⟨info, hinfo, hlist⟩

theorem thins_remove (target : KeyHash) : r.Thins (r.remove target).2 := by
  intro f t info' hinfo'
  obtain ⟨kept, hkept, hinfo'⟩ := Option.bind_eq_some_iff.mp hinfo'
  obtain ⟨fromMap, hfrom, hkept⟩ := Option.bind_eq_some_iff.mp hkept
  simp only at hkept
  split at hkept
  · cases hkept
  · obtain rfl := Option.some.inj hkept
    obtain ⟨info, hinfo, hlist, hne⟩ := findNeighbor_withoutNeighbour hinfo'
    refine ⟨info, ?_, hlist ▸ List.filter_sublist, fun h => absurd h hne⟩
    exact Option.bind_eq_some_iff.mpr ⟨fromMap,
      (InsertionMap.get_delete_eq_some _).mp hfrom |>.2,
      ((InsertionMap.get_delete_eq_some _).mp hinfo).2⟩

theorem thins_removeNeighbour (neighbour : KeyHash) :
    r.Thins (r.removeNeighbour neighbour) := by
  intro f t info' hinfo'
  obtain ⟨kept, hkept, hinfo'⟩ := Option.bind_eq_some_iff.mp hinfo'
  obtain ⟨fromMap, hfrom, hkept⟩ := Option.bind_eq_some_iff.mp hkept
  obtain rfl := Option.some.inj hkept
  obtain ⟨info, hinfo, hlist, hne⟩ := findNeighbor_withoutNeighbour hinfo'
  refine ⟨info, ?_, hlist ▸ List.filter_sublist, fun h => absurd h hne⟩
  exact Option.bind_eq_some_iff.mpr
    ⟨fromMap, ((InsertionMap.get_delete_eq_some _).mp hfrom).2, hinfo⟩

theorem thins_clear : r.Thins r.clear :=
  thins_of_findNeighbor (fun _ _ => Or.inl rfl)

@[simp] theorem updateSession_routes (remote : KeyHash) (session : Option Int) :
    (r.updateSession remote session).2.routes = r.routes := by
  unfold updateSession
  cases session with
  | none => rfl
  | some session =>
      simp only
      split
      · split
        · rfl
        · split
          · rfl
          · split
            · rfl
            · rfl
      · rfl

theorem thins_updateSession (remote : KeyHash) (session : Option Int) :
    r.Thins (r.updateSession remote session).2 :=
  thins_of_findNeighbor (fun _ _ => Or.inr (by simp [findNeighbor]))

end Routes

/-- A call of a function that changes the routes, or a cleanup. -/
inductive RouteAction where
  | add (from_ target : KeyHash) (report : RouteReport)
  | remove (target : KeyHash)
  | removeNeighbour (neighbour : KeyHash)
  | cleanup (now : Int) (from_ to_ : KeyHash)
  | clear
  | updateSession (remote : KeyHash) (session : Option Int)
deriving Repr, DecidableEq

namespace Routes

def act (r : Routes) : RouteAction → Routes
  | .add from_ target report => (r.add from_ target report).2.2
  | .remove target => (r.remove target).2
  | .removeNeighbour neighbour => r.removeNeighbour neighbour
  | .cleanup now from_ to_ => r.cleanup now from_ to_
  | .clear => r.clear
  | .updateSession remote session => (r.updateSession remote session).2

/-- The routes of a node, with the calls in any order and at any times. -/
def machine (me : KeyHash) (routeMaxRetentionPeriod : Int) :
    Machine Routes RouteAction where
  init := empty me routeMaxRetentionPeriod
  step r a := some (r.act a)

end Routes

end Transport
end Peerbit
