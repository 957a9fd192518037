import Peerbit.Transport.RouteCleanup
import Peerbit.Transport.RouteLists

/-!
# Removal of a node

`remove` takes a node out of the routes: as a neighbour, as a target, and also as a
source, with all routes from it (`not_removesNode_relayed`).  Routes of other sources
that go through other neighbours stay.

It returns the targets to which there was a route from this node before, and is none
after.  Nothing else becomes unreachable, as the first of the routes that stay is not
further away than a route can be.
-/

namespace Peerbit
namespace Transport

open Lib (InsertionMap Machine)

namespace Routes

/-- What a removal leaves, and what it returns.  The routes of the sources that are
`Spared` stay when they go through other neighbours. -/
structure RemovesNode (r : Routes) (node : KeyHash) (Spared : KeyHash → Prop) :
    Prop where
  neighbour : ∀ from_ target, ∀ route ∈ (r.remove node).2.relays from_ target,
    route.hash ≠ node
  target : ∀ from_, (r.remove node).2.findNeighbor from_ node = none
  others : ∀ from_ target, Spared from_ → target ≠ node →
    (r.remove node).2.relays from_ target =
      (r.relays from_ target).filter (fun route => route.hash ≠ node)
  reported : ∀ target, target ∈ (r.remove node).1 ↔
    r.relays r.me target ≠ [] ∧ (r.remove node).2.relays r.me target = []
  once : (r.remove node).1.Nodup
  unreachable : ∀ target, r.isReachable r.me target MAX_ROUTE_DISTANCE = true →
    (r.remove node).2.isReachable r.me target MAX_ROUTE_DISTANCE = false →
      target ∈ (r.remove node).1

section Remove

variable {r : Routes} {node from_ target : KeyHash}

/-- The routes of a list that do not go through a neighbour, if there are any. -/
def withoutRelay (neighbour : KeyHash) (info : RouteInfo) : Option RouteInfo :=
  let list := info.list.filter (fun route => route.hash ≠ neighbour)
  if list = [] then none else some { info with list := list }

theorem get_withoutNeighbour (neighbour target : KeyHash)
    (fromMap : InsertionMap KeyHash RouteInfo) :
    (withoutNeighbour neighbour fromMap).get target =
      (fromMap.get target).bind (withoutRelay neighbour) :=
  rfl

/-- The routes of a list as `relays` shows them. -/
theorem getD_withoutRelay (neighbour : KeyHash) (found : Option RouteInfo) :
    (((found.bind (withoutRelay neighbour)).map RouteInfo.list).getD []) =
      ((found.map RouteInfo.list).getD []).filter (fun route => route.hash ≠ neighbour) := by
  cases found with
  | none => rfl
  | some info =>
      rw [Option.bind_some, Option.map_some, Option.getD_some]
      unfold withoutRelay
      simp only
      split
      · rename_i hnil
        exact hnil.symm
      · rfl

theorem remove_remoteInfo (r : Routes) (node : KeyHash) :
    (r.remove node).2.remoteInfo = r.remoteInfo.delete node :=
  rfl

/-- The routes after a removal. -/
theorem findNeighbor_remove (r : Routes) (node from_ target : KeyHash) :
    (r.remove node).2.findNeighbor from_ target =
      if from_ = node ∨ target = node then none
      else (r.findNeighbor from_ target).bind (withoutRelay node) := by
  simp only [findNeighbor, remove, InsertionMap.get_filterMap]
  by_cases hfrom : from_ = node
  · subst hfrom
    rw [InsertionMap.get_delete_self, if_pos (Or.inl rfl)]
    rfl
  · rw [InsertionMap.get_delete_of_ne _ hfrom]
    cases hget : r.routes.get from_ with
    | none => simp
    | some fromMap =>
        have hkept : ∀ target,
            ((if (withoutNeighbour node (fromMap.delete node)).keys = [] then none
              else some (withoutNeighbour node (fromMap.delete node))).bind
                (fun kept => kept.get target)) =
              (withoutNeighbour node (fromMap.delete node)).get target := by
          intro target
          split
          · rename_i hnil
            -- a map without keys has no routes
            have hnot : target ∉ (withoutNeighbour node (fromMap.delete node)).keys := by
              rw [hnil]
              exact List.not_mem_nil
            rw [InsertionMap.mem_keys, Bool.not_eq_true, Option.isSome_eq_false_iff,
              Option.isNone_iff_eq_none] at hnot
            rw [hnot]
            rfl
          · rfl
        rw [Option.bind_some, Option.bind_some, hkept, get_withoutNeighbour]
        by_cases htarget : target = node
        · subst htarget
          rw [InsertionMap.get_delete_self, if_pos (Or.inr rfl)]
          rfl
        · rw [InsertionMap.get_delete_of_ne _ htarget,
            if_neg (fun h => h.elim hfrom htarget)]

theorem relays_remove (hfrom : from_ ≠ node) (htarget : target ≠ node) :
    (r.remove node).2.relays from_ target =
      (r.relays from_ target).filter (fun route => route.hash ≠ node) := by
  rw [relays, findNeighbor_remove, if_neg (fun h => h.elim hfrom htarget)]
  exact getD_withoutRelay node _

theorem relays_remove_node (h : from_ = node ∨ target = node) :
    (r.remove node).2.relays from_ target = [] := by
  refine relays_of_none ?_
  rw [findNeighbor_remove, if_pos h]

theorem relays_ne_nil_iff (horderly : r.AllOrderly) :
    r.relays from_ target ≠ [] ↔ (r.findNeighbor from_ target).isSome := by
  unfold relays
  cases hinfo : r.findNeighbor from_ target with
  | none => simp
  | some info => simpa using (horderly from_ target info hinfo).nonempty

/-- What is unreachable because it has no routes. -/
theorem isReachable_of_none (h : r.findNeighbor from_ target = none) (maxDistance : Nat) :
    r.isReachable from_ target maxDistance = false := by
  unfold isReachable
  rw [h]
  split
  · rename_i hinfo
    cases hinfo
  · rfl

/-- The other targets of this node whose last routes go with a node. -/
def losing (r : Routes) (node : KeyHash) : List KeyHash :=
  let mine := (((r.routes.delete node).get r.me).getD .empty).delete node
  mine.keys.filter (fun remote => ((withoutNeighbour node mine).get remote).isNone)

theorem remove_fst (r : Routes) (node : KeyHash) :
    (r.remove node).1 =
      (if ((((r.routes.delete node).get r.me).getD .empty).get node).isSome then
          r.losing node ++ [node]
        else r.losing node).filter
          (fun x => !(r.remove node).2.isReachable r.me x MAX_ROUTE_DISTANCE) :=
  rfl

theorem get_mine (hme : node ≠ r.me) (target : KeyHash) :
    (((r.routes.delete node).get r.me).getD .empty).get target =
      r.findNeighbor r.me target := by
  rw [InsertionMap.get_delete_of_ne _ hme.symm]
  unfold findNeighbor
  cases r.routes.get r.me with
  | none => rfl
  | some fromMap => rfl

theorem mem_losing (hme : node ≠ r.me) :
    target ∈ r.losing node ↔
      target ≠ node ∧ (r.findNeighbor r.me target).isSome ∧
        (r.findNeighbor r.me target).bind (withoutRelay node) = none := by
  rw [losing, List.mem_filter, InsertionMap.mem_keys, get_withoutNeighbour]
  by_cases htarget : target = node
  · subst htarget
    simp
  · rw [InsertionMap.get_delete_of_ne _ htarget, get_mine hme, Option.isNone_iff_eq_none]
    simp [htarget]

/-- The targets that a removal returns. -/
theorem mem_remove (hme : node ≠ r.me) :
    target ∈ (r.remove node).1 ↔
      (r.findNeighbor r.me target).isSome ∧
        (r.remove node).2.findNeighbor r.me target = none := by
  have hmaybe : target ∈ (if (r.findNeighbor r.me node).isSome then
        r.losing node ++ [node] else r.losing node) ↔
      (r.findNeighbor r.me target).isSome ∧
        (r.remove node).2.findNeighbor r.me target = none := by
    rw [findNeighbor_remove]
    by_cases htarget : target = node
    · subst htarget
      have hnot : target ∉ r.losing target := fun h => ((mem_losing hme).mp h).1 rfl
      rw [if_pos (Or.inr rfl)]
      split
      · rename_i hsome
        simp [hsome]
      · rename_i hnone
        simp [hnone, hnot]
    · have hother : ¬ (r.me = node ∨ target = node) := fun h => h.elim hme.symm htarget
      rw [if_neg hother]
      split
      · rw [List.mem_append, List.mem_singleton, mem_losing hme]
        simp [htarget]
      · rw [mem_losing hme]
        simp [htarget]
  rw [remove_fst, get_mine hme, List.mem_filter, hmaybe]
  constructor
  · exact And.left
  · intro h
    refine ⟨h, ?_⟩
    rw [isReachable_of_none h.2]
    rfl

theorem nodup_remove (r : Routes) (node : KeyHash) : (r.remove node).1.Nodup := by
  have hlosing : (r.losing node).Nodup := (InsertionMap.nodup _).filter _
  have hnot : node ∉ r.losing node := by
    intro h
    have hkey := (InsertionMap.mem_keys _ _).mp (List.mem_filter.mp h).1
    simp at hkey
  rw [remove_fst]
  refine List.Nodup.filter _ ?_
  split
  · exact List.nodup_append_comm.mp (List.nodup_cons.mpr ⟨hnot, hlosing⟩)
  · exact hlosing

/-- A target stays reachable when a route to it is left. -/
theorem isReachable_remove (hdistances : r.DistancesWithin (· ≤ MAX_ROUTE_DISTANCE))
    (hreachable : r.isReachable r.me target MAX_ROUTE_DISTANCE = true)
    {info' : RouteInfo}
    (hinfo' : (r.remove node).2.findNeighbor r.me target = some info') :
    (r.remove node).2.isReachable r.me target MAX_ROUTE_DISTANCE = true := by
  have hfound := hinfo'
  rw [findNeighbor_remove] at hfound
  split at hfound
  · cases hfound
  · rename_i hother
    obtain ⟨info, hinfo, hkept⟩ := Option.bind_eq_some_iff.mp hfound
    unfold withoutRelay at hkept
    simp only at hkept
    split at hkept
    · cases hkept
    · rename_i hne
      obtain rfl := Option.some.inj hkept
      have htarget : target ≠ node := fun h => hother (Or.inr h)
      unfold isReachable at hreachable ⊢
      rw [hinfo] at hreachable
      rw [hinfo', remove_remoteInfo, InsertionMap.get_delete_of_ne _ htarget]
      cases hsession : r.remoteInfo.get target with
      | none =>
          rw [hsession] at hreachable
          cases hreachable
      | some session =>
          rw [hsession] at hreachable
          simp only at hreachable ⊢
          split
          · rename_i holder
            rw [if_pos holder] at hreachable
            exact hreachable
          · -- the first route that is left has been in the list before
            cases hlist : info.list.filter (fun route => route.hash ≠ node) with
            | nil => exact absurd hlist hne
            | cons first rest =>
                have hmem : first ∈ info.list :=
                  List.mem_of_mem_filter (hlist ▸ List.mem_cons_self)
                have hbound := hdistances r.me target info hinfo first hmem
                exact decide_eq_true (by simpa using hbound)

end Remove

/-- A removal leaves no routes through, to and from the node, and keeps all others.  It
returns the targets that had a route before it and have none after. -/
theorem removesNode_of_run {me : KeyHash} {retention : Int} {r : Routes}
    (hrun : (machine me retention).Run (AddsWithin (· ≤ MAX_ROUTE_DISTANCE)) r)
    {node : KeyHash} (hme : node ≠ r.me) :
    r.RemovesNode node (· ≠ node) ∧
      ∀ target, (r.remove node).2.findNeighbor node target = none := by
  have horderly : r.AllOrderly := .of_run hrun
  have hdistances : r.DistancesWithin (· ≤ MAX_ROUTE_DISTANCE) :=
    .of_run (by decide) hrun
  have hafter : (r.remove node).2.AllOrderly := horderly.of_thins (thins_remove node)
  refine ⟨?_, fun target => by rw [findNeighbor_remove, if_pos (Or.inl rfl)]⟩
  constructor
  case neighbour =>
    intro from_ target route hroute
    by_cases hgone : from_ = node ∨ target = node
    · rw [relays_remove_node hgone] at hroute
      cases hroute
    · rw [not_or] at hgone
      rw [relays_remove hgone.1 hgone.2] at hroute
      simpa using (List.mem_filter.mp hroute).2
  case target =>
    intro from_
    rw [findNeighbor_remove, if_pos (Or.inr rfl)]
  case others =>
    intro from_ target hfrom htarget
    exact relays_remove hfrom htarget
  case reported =>
    intro target
    have hnil : (r.remove node).2.relays r.me target = [] ↔
        (r.remove node).2.findNeighbor r.me target = none := by
      rw [← Option.not_isSome_iff_eq_none, ← relays_ne_nil_iff hafter, not_not]
    rw [mem_remove hme, relays_ne_nil_iff horderly, hnil]
  case once => exact nodup_remove r node
  case unreachable =>
    intro target hreachable hunreachable
    have hfound : (r.findNeighbor r.me target).isSome := by
      by_contra hnone
      rw [Option.not_isSome_iff_eq_none] at hnone
      rw [isReachable_of_none hnone] at hreachable
      cases hreachable
    refine (mem_remove hme).mpr ⟨hfound, ?_⟩
    cases hleft : (r.remove node).2.findNeighbor r.me target with
    | none => rfl
    | some info' =>
        rw [isReachable_remove hdistances hreachable hleft] at hunreachable
        cases hunreachable

/-- This node knows `c` through `a`, and relays from `a` to `c` through `b`. -/
def relayed : List RouteAction :=
  [.add "me" "c" ⟨0, "a", 1, 1, 1⟩, .add "a" "c" ⟨0, "b", 1, 1, 1⟩]

theorem removesNode_relayed :
    (relayed.foldl act (empty "me" 10000)).RemovesNode "a" (· ≠ "a") ∧
      ((relayed.foldl act (empty "me" 10000)).remove "a").1 = ["c"] := by
  have hrun : (machine "me" 10000).Run (AddsWithin (· ≤ MAX_ROUTE_DISTANCE))
      (relayed.foldl act (empty "me" 10000)) :=
    .step (a := .add "a" "c" ⟨0, "b", 1, 1, 1⟩)
      (.step (a := .add "me" "c" ⟨0, "a", 1, 1, 1⟩) .init (by decide) rfl) (by decide) rfl
  exact ⟨(removesNode_of_run hrun (by decide)).1, by decide⟩

/-- The routes from the node go too, although they are neither to it nor through it. -/
theorem not_removesNode_relayed :
    ∃ r, (machine "me" 10000).Run (AddsWithin (· ≤ MAX_ROUTE_DISTANCE)) r ∧ "a" ≠ r.me ∧
      ¬ r.RemovesNode "a" (fun _ => True) := by
  refine ⟨relayed.foldl act (empty "me" 10000), ?_, by decide, fun h => ?_⟩
  · exact .step (a := .add "a" "c" ⟨0, "b", 1, 1, 1⟩)
      (.step (a := .add "me" "c" ⟨0, "a", 1, 1, 1⟩) .init (by decide) rfl) (by decide) rfl
  · have hothers := h.others "a" "c" trivial (by decide)
    have hbefore : (relayed.foldl act (empty "me" 10000)).relays "a" "c" =
        [⟨1, "b", none, 1⟩] := by
      decide
    rw [relays_remove_node (Or.inl rfl), hbefore] at hothers
    exact absurd hothers (by decide)

end Routes

end Transport
end Peerbit
