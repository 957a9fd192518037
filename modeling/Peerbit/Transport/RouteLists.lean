import Peerbit.Transport.Routes

/-!
# The lists of routes

Whatever is called and whenever the cleanups run, the routes of a source and a
target are sorted by their distances, there is at least one of them, and at most
one without expiry through every neighbour.

The report of a new session lets all routes expire and leaves one that does not;
another report adds a route only through a neighbour that has none.  The other
functions take routes away, and the whole list with its last route.
-/

namespace Peerbit
namespace Transport

open Lib (InsertionMap Machine)

structure Orderly (list : List RelayInfo) : Prop where
  nonempty : list ≠ []
  sorted : list.Pairwise (fun a b => a.distance ≤ b.distance)
  distinct : ∀ neighbour, list.countP (RelayInfo.lastsVia neighbour) ≤ 1

namespace Orderly

theorem thin {list kept : List RelayInfo} (h : Orderly list)
    (hsublist : kept.Sublist list) (hne : kept ≠ []) : Orderly kept where
  nonempty := hne
  sorted := h.sorted.sublist hsublist
  distinct := fun neighbour => (hsublist.countP_le).trans (h.distinct neighbour)

theorem of_pushed {list : List RelayInfo} {report : RouteReport} (hlist : Orderly list)
    (hmem : report.neighbour ∉ list.map RelayInfo.hash) (expireAt : Option Int) :
    Orderly (sortRoutes (list ++ [report.route expireAt])) where
  nonempty := by
    intro hnil
    have h := (perm_sortRoutes (list ++ [report.route expireAt])).length_eq
    simp [hnil] at h
  sorted := sorted_sortRoutes _
  distinct := by
    intro neighbour
    rw [RouteReport.countP_pushed]
    split
    · rename_i hnew
      -- there was no route through the neighbour
      have hzero := RelayInfo.countP_lastsVia (hnew.1 ▸ hmem)
      omega
    · exact hlist.distinct neighbour

theorem of_new {list : List RelayInfo} (report : RouteReport) (retention : Int)
    (hsorted : list.Pairwise (fun a b => a.distance ≤ b.distance)) :
    Orderly (report.updateList retention true false list).1 where
  nonempty := by
    intro hnil
    have h := (RouteReport.mem_map_hash_updateList report retention list true false
      report.neighbour).mpr (Or.inl rfl)
    rw [hnil] at h
    cases h
  sorted := RouteReport.sorted_updateList true false hsorted
  distinct := by
    intro neighbour
    rw [RouteReport.countP_updateList_new]
    split
    · exact Nat.le_refl 1
    · exact Nat.zero_le 1

theorem update {prev : Option RouteInfo}
    (hprev : ∀ info, prev = some info → Orderly info.list)
    (report : RouteReport) (retention : Int) :
    Orderly (report.update retention prev).2.2.list := by
  cases prev with
  | none => exact of_new report retention List.Pairwise.nil
  | some info =>
      have hinfo := hprev info rfl
      rw [RouteReport.update_some]
      by_cases hnew : info.session < report.session
      · have hold : ¬ report.session < info.session := by omega
        rw [decide_eq_true hnew, decide_eq_false hold]
        exact of_new report retention hinfo.sorted
      · rw [decide_eq_false hnew]
        by_cases hmem : report.neighbour ∈ info.list.map RelayInfo.hash
        · rw [RouteReport.updateList_of_mem _ hmem]
          exact hinfo
        · rw [RouteReport.updateList_of_not_mem _ hmem]
          exact of_pushed hinfo hmem _

end Orderly

namespace Routes

/-- The lists of all sources and targets are orderly. -/
def AllOrderly (r : Routes) : Prop :=
  ∀ from_ target info, r.findNeighbor from_ target = some info → Orderly info.list

namespace AllOrderly

variable {r : Routes}

theorem add (h : r.AllOrderly) (from_ target : KeyHash) (report : RouteReport) :
    (r.add from_ target report).2.2.AllOrderly := by
  intro f t info hinfo
  rw [findNeighbor_add] at hinfo
  split at hinfo
  · obtain rfl := Option.some.inj hinfo
    exact Orderly.update (h from_ target) _ _
  · exact h f t info hinfo

theorem of_thins (h : r.AllOrderly) {r' : Routes} (hthins : r.Thins r') :
    r'.AllOrderly := by
  intro f t info' hinfo'
  obtain ⟨info, hinfo, hsublist, hempty⟩ := hthins f t info' hinfo'
  have hbefore := h f t info hinfo
  exact hbefore.thin hsublist (fun hnil => hbefore.nonempty (hempty hnil))

theorem act (h : r.AllOrderly) (a : RouteAction) : (r.act a).AllOrderly := by
  cases a with
  | add from_ target report => exact h.add from_ target report
  | remove target => exact h.of_thins (thins_remove target)
  | removeNeighbour neighbour => exact h.of_thins (thins_removeNeighbour neighbour)
  | cleanup now from_ to_ => exact h.of_thins (thins_cleanup now from_ to_)
  | clear => exact h.of_thins thins_clear
  | updateSession remote session => exact h.of_thins (thins_updateSession remote session)

theorem of_run {me : KeyHash} {retention : Int} {Guard : Routes → RouteAction → Prop}
    (hrun : (machine me retention).Run Guard r) : r.AllOrderly := by
  refine hrun.invariant ?_ ?_
  · intro f t info hinfo
    cases hinfo
  · intro r a r' h _ hstep
    obtain rfl := Option.some.inj hstep
    exact h.act a

end AllOrderly

/-! ### Distances -/

/-- The calls of `add` report distances within bounds. -/
def AddsWithin (Bound : Int → Prop) (_ : Routes) : RouteAction → Prop
  | .add _ _ report => Bound report.distance
  | _ => True

instance {Bound : Int → Prop} [DecidablePred Bound] (r : Routes) :
    DecidablePred (AddsWithin Bound r)
  | .add _ _ report => inferInstanceAs (Decidable (Bound report.distance))
  | .remove _ => isTrue trivial
  | .removeNeighbour _ => isTrue trivial
  | .cleanup _ _ _ => isTrue trivial
  | .clear => isTrue trivial
  | .updateSession _ _ => isTrue trivial

/-- The distances of all routes are within bounds. -/
def DistancesWithin (Bound : Int → Prop) (r : Routes) : Prop :=
  ∀ from_ target info, r.findNeighbor from_ target = some info →
    ∀ route ∈ info.list, Bound route.distance

namespace DistancesWithin

variable {Bound : Int → Prop} {r : Routes}

theorem of_thins (h : r.DistancesWithin Bound) {r' : Routes} (hthins : r.Thins r') :
    r'.DistancesWithin Bound := by
  intro f t info' hinfo' route hroute
  obtain ⟨info, hinfo, hsublist, _⟩ := hthins f t info' hinfo'
  exact h f t info hinfo route (hsublist.subset hroute)

/-- A neighbour that is the target has the distance -1. -/
theorem add (hdirect : Bound (-1)) (h : r.DistancesWithin Bound) {from_ target : KeyHash}
    {report : RouteReport} (hreport : Bound report.distance) :
    (r.add from_ target report).2.2.DistancesWithin Bound := by
  have hdirected : Bound (r.directed from_ target report).distance := by
    unfold directed
    split
    · exact hdirect
    · exact hreport
  intro f t info hinfo route hroute
  rw [findNeighbor_add] at hinfo
  split at hinfo
  · obtain rfl := Option.some.inj hinfo
    cases hprev : r.findNeighbor from_ target with
    | none =>
        rw [hprev, RouteReport.update_none] at hroute
        rcases RouteReport.mem_updateList hroute with ⟨old, hold, _⟩ | hnew
        · cases hold
        · exact hnew.1 ▸ hdirected
    | some prev =>
        rw [hprev, RouteReport.update_some] at hroute
        rcases RouteReport.mem_updateList hroute with ⟨old, hold, hsame, _⟩ | hnew
        · exact hsame ▸ h from_ target prev hprev old hold
        · exact hnew.1 ▸ hdirected
  · exact h f t info hinfo route hroute

theorem of_run {me : KeyHash} {retention : Int} (hdirect : Bound (-1))
    (hrun : (machine me retention).Run (AddsWithin Bound) r) :
    r.DistancesWithin Bound := by
  refine hrun.invariant ?_ ?_
  · intro f t info hinfo
    cases hinfo
  · intro r a r' h hwithin hstep
    obtain rfl := Option.some.inj hstep
    cases a with
    | add from_ target report => exact h.add hdirect hwithin
    | remove target => exact h.of_thins (thins_remove target)
    | removeNeighbour neighbour => exact h.of_thins (thins_removeNeighbour neighbour)
    | cleanup now from_ to_ => exact h.of_thins (thins_cleanup now from_ to_)
    | clear => exact h.of_thins thins_clear
    | updateSession remote session => exact h.of_thins (thins_updateSession remote session)

end DistancesWithin

/-- In every run, the routes of a source and a target are not empty, sorted by
distance, and at most one through every neighbour has no expiry. -/
theorem orderly_of_run {me : KeyHash} {retention : Int} {r : Routes}
    (hrun : (machine me retention).Run Machine.Free r)
    {from_ target : KeyHash} {info : RouteInfo}
    (hinfo : r.findNeighbor from_ target = some info) :
    info.list ≠ [] ∧
      info.list.Pairwise (fun a b => a.distance ≤ b.distance) ∧
      ∀ neighbour, info.list.countP
        (fun route => decide (route.hash = neighbour) && route.expireAt.isNone) ≤ 1 := by
  have h := AllOrderly.of_run hrun from_ target info hinfo
  exact ⟨h.nonempty, h.sorted, h.distinct⟩

/-- A route of a new session goes in front of one of an old session that is
longer, and the old one stays until it is cleaned up. -/
def twoSessions : List RouteAction :=
  [.add "me" "c" ⟨0, "a", 1, 1, 1⟩, .add "me" "c" ⟨5, "b", 0, 2, 1⟩,
    .cleanup 10000 "me" "c"]

theorem orderly_twoSessions :
    ∃ info, (twoSessions.foldl act (empty "me" 10000)).findNeighbor "me" "c" = some info ∧
      info.list.map RelayInfo.hash = ["b", "a"] ∧
      info.list ≠ [] ∧
      info.list.Pairwise (fun a b => a.distance ≤ b.distance) ∧
      ∀ neighbour, info.list.countP
        (fun route => decide (route.hash = neighbour) && route.expireAt.isNone) ≤ 1 := by
  have hrun : (machine "me" 10000).Run Machine.Free
      (twoSessions.foldl act (empty "me" 10000)) :=
    .of_exec .init twoSessions rfl
  have hinfo : (twoSessions.foldl act (empty "me" 10000)).findNeighbor "me" "c" =
      some ⟨1, 2, [⟨2, "b", none, 0⟩, ⟨1, "a", some 10005, 1⟩]⟩ := by
    decide
  exact ⟨_, hinfo, rfl, orderly_of_run hrun hinfo⟩

end Routes

end Transport
end Peerbit
