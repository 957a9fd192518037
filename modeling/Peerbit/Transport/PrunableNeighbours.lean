import Peerbit.Transport.RouteRemoval

/-!
# Neighbours that can be pruned

A neighbour is prunable when no target is reached by one route alone that goes
through it.  Several routes to a target can go through one neighbour: when a new
session reports a longer way through a neighbour, `add` keeps the route there is,
until it expires, beside the new one.  Then the neighbour seems to be prunable, and
nothing is left without it (`not_keepsReach_longerWay`).

Without such reports, no target has two routes through one neighbour.
-/

namespace Peerbit
namespace Transport

open Lib (InsertionMap Machine)

namespace Routes

/-- The neighbours that are not needed to reach all targets. -/
def getPrunable (r : Routes) (neighbours : List KeyHash) : List KeyHash :=
  match r.routes.get r.me with
  | some map =>
      neighbours.filter (fun candidate =>
        map.entries.all (fun entry =>
          !(decide (entry.1 ≠ candidate) && decide (entry.2.list.length = 1) &&
            decide (entry.2.list.head?.map RelayInfo.hash = some candidate))))
  | none => []

/-- Without the neighbour, the other targets are still reached through others. -/
def KeepsReach (r : Routes) (neighbour : KeyHash) : Prop :=
  ∀ target, target ≠ neighbour → r.relays r.me target ≠ [] →
    ∃ route ∈ (r.removeNeighbour neighbour).relays r.me target, route.hash ≠ neighbour

/-- Two routes or more lead to the target, and all go through the neighbour. -/
def Repeated (r : Routes) (neighbour target : KeyHash) : Prop :=
  2 ≤ (r.relays r.me target).length ∧
    ∀ route ∈ r.relays r.me target, route.hash = neighbour

section Prune

variable {r : Routes} {neighbours : List KeyHash} {neighbour from_ target : KeyHash}

/-- The routes after the removal of a neighbour. -/
theorem findNeighbor_removeNeighbour (r : Routes) (neighbour from_ target : KeyHash) :
    (r.removeNeighbour neighbour).findNeighbor from_ target =
      if from_ = neighbour then none
      else (r.findNeighbor from_ target).bind (withoutRelay neighbour) := by
  simp only [findNeighbor, removeNeighbour, InsertionMap.get_filterMap]
  by_cases hfrom : from_ = neighbour
  · subst hfrom
    rw [InsertionMap.get_delete_self, if_pos rfl]
    rfl
  · rw [InsertionMap.get_delete_of_ne _ hfrom, if_neg hfrom]
    cases r.routes.get from_ with
    | none => rfl
    | some fromMap => rfl

theorem relays_removeNeighbour (r : Routes) (neighbour from_ target : KeyHash) :
    (r.removeNeighbour neighbour).relays from_ target =
      if from_ = neighbour then []
      else (r.relays from_ target).filter (fun route => route.hash ≠ neighbour) := by
  rw [relays, findNeighbor_removeNeighbour]
  split
  · rfl
  · exact getD_withoutRelay neighbour _

theorem map_hash_eq_singleton {list : List RelayInfo} :
    list.map RelayInfo.hash = [neighbour] ↔
      list.length = 1 ∧ list.head?.map RelayInfo.hash = some neighbour := by
  cases list with
  | nil => simp
  | cons route rest =>
      cases rest with
      | nil => simp
      | cons second rest => simp

/-- What a prunable neighbour is: no other target has one route, through it. -/
theorem mem_getPrunable :
    neighbour ∈ r.getPrunable neighbours ↔
      neighbour ∈ neighbours ∧ (r.routes.get r.me).isSome ∧
        ∀ target, target ≠ neighbour →
          (r.relays r.me target).map RelayInfo.hash ≠ [neighbour] := by
  unfold getPrunable
  cases hme : r.routes.get r.me with
  | none => simp
  | some map =>
      simp only [List.mem_filter, List.all_eq_true, Option.isSome_some, true_and]
      refine and_congr_right (fun _ => ?_)
      constructor
      · intro h target htarget hone
        rw [relays_of_get hme] at hone
        cases hinfo : map.get target with
        | none => simp [hinfo] at hone
        | some info =>
            have hentry := h (target, info) (InsertionMap.mem_entries.mpr hinfo)
            rw [hinfo, Option.map_some, Option.getD_some, map_hash_eq_singleton] at hone
            simp [htarget, hone] at hentry
      · rintro h ⟨target, info⟩ hentry
        have hinfo := InsertionMap.mem_entries.mp hentry
        by_cases htarget : target = neighbour
        · simp [htarget]
        · have hnot := h target htarget
          rw [relays_of_get hme, hinfo, Option.map_some, Option.getD_some, Ne,
            map_hash_eq_singleton, not_and] at hnot
          by_cases hlength : info.list.length = 1
          · simp [hlength, hnot hlength]
          · simp [hlength]

/-- All routes that there are go through the neighbour. -/
theorem exists_other_iff (list : List RelayInfo) :
    (∃ route ∈ list.filter (fun route => route.hash ≠ neighbour), route.hash ≠ neighbour) ↔
      ¬ ∀ route ∈ list, route.hash = neighbour := by
  simp [List.mem_filter]

/-- A prunable neighbour is not needed to reach the other targets, if and only if no
target has several routes that all go through it. -/
theorem keepsReach_iff (hprunable : neighbour ∈ r.getPrunable neighbours) :
    r.KeepsReach neighbour ↔
      ∀ target, target ≠ neighbour → r.relays r.me target ≠ [] →
        neighbour ≠ r.me ∧ ¬ r.Repeated neighbour target := by
  have hone := (mem_getPrunable.mp hprunable).2.2
  unfold KeepsReach
  refine forall_congr' (fun target => forall_congr' (fun htarget => forall_congr'
    (fun hne => ?_)))
  rw [relays_removeNeighbour]
  by_cases hme : r.me = neighbour
  · rw [if_pos hme]
    exact iff_of_false (by simp) (fun h => h.1 hme.symm)
  · rw [if_neg hme, exists_other_iff, Repeated, not_and]
    have hmany : (∀ route ∈ r.relays r.me target, route.hash = neighbour) →
        2 ≤ (r.relays r.me target).length := by
      intro hall
      cases hlist : r.relays r.me target with
      | nil => exact absurd hlist hne
      | cons route rest =>
          cases rest with
          | nil =>
              refine absurd ?_ (hone target htarget)
              rw [hlist, List.map_singleton, hall route (by simp [hlist])]
          | cons second rest => simp
    constructor
    · intro h
      exact ⟨fun h => hme h.symm, fun _ => h⟩
    · rintro ⟨_, h⟩ hall
      exact h (hmany hall) hall

end Prune

/-! ### One route for each neighbour -/

/-- A new session reports a way through a neighbour that is longer than the first
route there is through it. -/
def ReportsLonger (r : Routes) : RouteAction → Prop
  | .add from_ target report =>
      from_ = r.me ∧ ∃ info, r.findNeighbor from_ target = some info ∧
        info.session < report.session ∧
        ∃ route, info.list.find? (fun route => route.hash = report.neighbour) = some route ∧
          route.distance < (r.directed from_ target report).distance
  | _ => False

/-- The routes of this node to a target go through different neighbours. -/
def Separate (r : Routes) : Prop :=
  ∀ target info, r.findNeighbor r.me target = some info →
    (info.list.map RelayInfo.hash).Nodup

theorem act_me (r : Routes) (a : RouteAction) : (r.act a).me = r.me := by
  cases a with
  | add from_ target report => rfl
  | remove target => rfl
  | removeNeighbour neighbour => rfl
  | cleanup now from_ to_ =>
      unfold act cleanup
      simp only
      split
      · rfl
      · split
        · rfl
        · split
          · rfl
          · rfl
  | clear => rfl
  | updateSession remote session =>
      unfold act updateSession
      cases session with
      | none => rfl
      | some session =>
          simp only
          split
          · split
            · rfl
            · split
              · rfl
              · split
                · rfl
                · rfl
          · rfl

end Routes

namespace RouteReport

variable {report : RouteReport} {retention : Int} {list : List RelayInfo}

theorem nodup_pushed {expireAt : Option Int}
    (hmem : report.neighbour ∉ list.map RelayInfo.hash)
    (hnodup : (list.map RelayInfo.hash).Nodup) :
    ((sortRoutes (list ++ [report.route expireAt])).map RelayInfo.hash).Nodup := by
  refine (((perm_sortRoutes _).map _).nodup_iff).mpr ?_
  rw [List.map_append]
  exact (List.nodup_append_comm.mp (List.nodup_cons.mpr ⟨hmem, hnodup⟩))

/-- The first route through the neighbour, after all have been marked as old. -/
theorem find?_markOld (expireAt : Int) (list : List RelayInfo) :
    (list.map (RelayInfo.markOld expireAt)).find?
        (fun route => route.hash = report.neighbour) =
      (list.find? (fun route => route.hash = report.neighbour)).map
        (RelayInfo.markOld expireAt) := by
  rw [List.find?_map]
  congr 2
  funext route
  simp

/-- The neighbours stay different, unless a new session reports a longer way. -/
theorem nodup_updateList {isNewSession : Bool} (isOldSession : Bool)
    (hshort : isNewSession = true → ∀ route,
      list.find? (fun route => route.hash = report.neighbour) = some route →
        report.distance ≤ route.distance)
    (hnodup : (list.map RelayInfo.hash).Nodup) :
    ((report.updateList retention isNewSession isOldSession list).1.map
      RelayInfo.hash).Nodup := by
  cases isNewSession with
  | false =>
      by_cases hmem : report.neighbour ∈ list.map RelayInfo.hash
      · rw [updateList_of_mem isOldSession hmem]
        exact hnodup
      · rw [updateList_of_not_mem isOldSession hmem]
        exact nodup_pushed hmem hnodup
  | true =>
      have hmarked : ((list.map (RelayInfo.markOld (report.now + retention))).map
          RelayInfo.hash).Nodup := by
        rw [map_hash_markOld]
        exact hnodup
      simp only [updateList, if_true, find?_markOld]
      cases hfind : list.find? (fun route => route.hash = report.neighbour) with
      | none =>
          have hmem := find?_neighbour_eq_none.mp hfind
          exact nodup_pushed (by rwa [map_hash_markOld]) hmarked
      | some route =>
          have hle := hshort rfl route hfind
          simp only [Option.map_some, RelayInfo.markOld_distance]
          split
          · rw [((perm_sortRoutes _).map _).nodup_iff, map_hash_renewFirst]
            exact hmarked
          · rename_i hlt
            rw [if_pos (by omega), map_hash_renewFirst]
            exact hmarked

end RouteReport

namespace Routes

variable {r : Routes}

namespace Separate

theorem of_thins (h : r.Separate) {r' : Routes} (hme : r'.me = r.me)
    (hthins : r.Thins r') : r'.Separate := by
  intro target info' hinfo'
  rw [hme] at hinfo'
  obtain ⟨info, hinfo, hsublist, _⟩ := hthins _ _ info' hinfo'
  exact (h target info hinfo).sublist (hsublist.map _)

theorem add (h : r.Separate) {from_ target : KeyHash} {report : RouteReport}
    (hshort : ¬ r.ReportsLonger (.add from_ target report)) :
    (r.add from_ target report).2.2.Separate := by
  intro t info hinfo
  rw [findNeighbor_add] at hinfo
  split at hinfo
  · rename_i hpair
    obtain ⟨hfrom, rfl⟩ := hpair
    obtain rfl := Option.some.inj hinfo
    have hfrom : from_ = r.me := hfrom.symm
    subst hfrom
    cases hprev : r.findNeighbor r.me t with
    | none =>
        rw [RouteReport.update_none]
        exact RouteReport.nodup_updateList false (by simp) List.nodup_nil
    | some prev =>
        rw [RouteReport.update_some]
        refine RouteReport.nodup_updateList _ ?_ (h t prev hprev)
        intro hnew route hfind
        rw [directed_neighbour] at hfind
        by_contra hlonger
        refine hshort ⟨rfl, prev, hprev, ?_, route, hfind, by omega⟩
        simpa using hnew
  · exact h t info hinfo

theorem act (h : r.Separate) {a : RouteAction} (hshort : ¬ r.ReportsLonger a) :
    (r.act a).Separate := by
  have hme := r.act_me a
  cases a with
  | add from_ target report => exact h.add hshort
  | remove target => exact h.of_thins hme (thins_remove target)
  | removeNeighbour neighbour => exact h.of_thins hme (thins_removeNeighbour neighbour)
  | cleanup now from_ to_ => exact h.of_thins hme (thins_cleanup now from_ to_)
  | clear => exact h.of_thins hme thins_clear
  | updateSession remote session => exact h.of_thins hme (thins_updateSession remote session)

theorem of_run {me : KeyHash} {retention : Int}
    (hrun : (machine me retention).Run (fun r a => ¬ r.ReportsLonger a) r) :
    r.Separate := by
  refine hrun.invariant ?_ ?_
  · intro target info hinfo
    cases hinfo
  · intro r a r' h hshort hstep
    obtain rfl := Option.some.inj hstep
    exact h.act hshort

theorem not_repeated (h : r.Separate) (neighbour target : KeyHash) :
    ¬ r.Repeated neighbour target := by
  rintro ⟨hlength, hall⟩
  unfold relays at hlength hall
  cases hinfo : r.findNeighbor r.me target with
  | none => simp [hinfo] at hlength
  | some info =>
      rw [hinfo, Option.map_some, Option.getD_some] at hlength hall
      have hsame : info.list.map RelayInfo.hash =
          List.replicate info.list.length neighbour := by
        rw [List.eq_replicate_iff]
        refine ⟨List.length_map _, fun hash hhash => ?_⟩
        obtain ⟨route, hroute, rfl⟩ := List.mem_map.mp hhash
        exact hall route hroute
      have hnodup := h target info hinfo
      rw [hsame, List.nodup_replicate] at hnodup
      omega

end Separate

/-- In every run, a prunable neighbour is not needed to reach the other targets, if
and only if no target has several routes that all go through it; and in the runs in
which no new session reports a longer way through a neighbour, no prunable neighbour
is needed. -/
theorem keepsReach_of_run {me : KeyHash} {retention : Int} :
    (∀ r, (machine me retention).Run Machine.Free r →
      ∀ neighbours, ∀ neighbour ∈ r.getPrunable neighbours,
        r.KeepsReach neighbour ↔
          ∀ target, target ≠ neighbour → r.relays r.me target ≠ [] →
            neighbour ≠ r.me ∧ ¬ r.Repeated neighbour target) ∧
    ∀ r, (machine me retention).Run (fun r a => ¬ r.ReportsLonger a) r →
      ∀ neighbours, ∀ neighbour ∈ r.getPrunable neighbours, neighbour ≠ r.me →
        r.KeepsReach neighbour := by
  constructor
  · intro r _ neighbours neighbour hprunable
    exact keepsReach_iff hprunable
  · intro r hrun neighbours neighbour hprunable hme
    rw [keepsReach_iff hprunable]
    intro target _ _
    exact ⟨hme, (Separate.of_run hrun).not_repeated neighbour target⟩

/-- Two neighbours report the target in one session. -/
def twoRelays : List RouteAction :=
  [.add "me" "c" ⟨0, "a", 1, 1, 1⟩, .add "me" "c" ⟨5, "b", 2, 1, 1⟩]

theorem keepsReach_twoRelays :
    "a" ∈ (twoRelays.foldl act (empty "me" 10000)).getPrunable ["a", "b"] ∧
      (twoRelays.foldl act (empty "me" 10000)).KeepsReach "a" := by
  have hfirst : ¬ (empty "me" 10000).ReportsLonger (.add "me" "c" ⟨0, "a", 1, 1, 1⟩) := by
    rintro ⟨_, info, hinfo, _⟩
    cases hinfo
  have hsecond : ¬ ((empty "me" 10000).act (.add "me" "c" ⟨0, "a", 1, 1, 1⟩)).ReportsLonger
      (.add "me" "c" ⟨5, "b", 2, 1, 1⟩) := by
    rintro ⟨_, info, hinfo, hnew, _⟩
    obtain rfl := Option.some.inj (show some ⟨1, 1, [⟨1, "a", none, 1⟩]⟩ = some info from hinfo)
    exact absurd hnew (by decide)
  have hrun : (machine "me" 10000).Run (fun r a => ¬ r.ReportsLonger a)
      (twoRelays.foldl act (empty "me" 10000)) :=
    .step (.step .init hfirst rfl) hsecond rfl
  exact ⟨by decide,
    keepsReach_of_run.2 _ hrun ["a", "b"] "a" (by decide) (by decide)⟩

/-- The target is one hop further away in its second session. -/
def longerWay : List RouteAction :=
  [.add "me" "c" ⟨0, "a", 1, 1, 1⟩, .add "me" "c" ⟨5, "a", 2, 2, 1⟩]

theorem not_keepsReach_longerWay :
    ∃ r, (machine "me" 10000).Run Machine.Free r ∧
      "a" ∈ r.getPrunable ["a", "b"] ∧ "a" ≠ r.me ∧ ¬ r.KeepsReach "a" := by
  refine ⟨longerWay.foldl act (empty "me" 10000), .of_exec .init longerWay rfl,
    by decide, by decide, fun h => ?_⟩
  have hbefore : (longerWay.foldl act (empty "me" 10000)).relays "me" "c" =
      [⟨1, "a", some 10005, 1⟩, ⟨2, "a", none, 2⟩] := by
    decide
  have hafter : ((longerWay.foldl act (empty "me" 10000)).removeNeighbour "a").relays
      "me" "c" = [] := by
    decide
  obtain ⟨route, hroute, _⟩ := h "c" (by decide) (by
    intro hnil
    exact absurd (hbefore.symm.trans hnil) (by decide))
  exact absurd (hafter ▸ hroute) List.not_mem_nil

end Routes

end Transport
end Peerbit
