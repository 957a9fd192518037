import Peerbit.Transport.Routes

/-!
# Cleanups of routes

A cleanup should take the expired routes of its source and target away, and no
others.  When nothing is left of them it removes the target; and when one other
target is left of the source, it removes the source, with the routes to that
target (`not_cleansUp_reached`).  `remove` does so when no target is left.
-/

namespace Peerbit
namespace Transport

open Lib (InsertionMap Machine)

namespace Routes

/-- The list of a source and a target, if there is one. -/
def relays (r : Routes) (from_ target : KeyHash) : List RelayInfo :=
  ((r.findNeighbor from_ target).map RouteInfo.list).getD []

/-- The cleanup takes the expired routes of its source and target away, and no
others. -/
def CleansUp (r : Routes) (now : Int) (from_ to_ : KeyHash) : Prop :=
  ∀ f t, (r.cleanup now from_ to_).relays f t =
    if f = from_ ∧ t = to_ then
      (r.relays f t).filter (fun route => !route.expired now)
    else r.relays f t

/-- The routes of the source and target have all expired, and there is exactly one
other target of the source, with routes. -/
def LosesOther (r : Routes) (now : Int) (from_ to_ : KeyHash) : Prop :=
  ∃ fromMap info other,
    r.routes.get from_ = some fromMap ∧ fromMap.get to_ = some info ∧
      (∀ route ∈ info.list, route.expired now = true) ∧
      (fromMap.delete to_).keys = [other] ∧ r.relays from_ other ≠ []

section Cleanup

variable {r : Routes} {now : Int} {from_ to_ f t : KeyHash}
  {fromMap : InsertionMap KeyHash RouteInfo} {info : RouteInfo}

theorem relays_of_get (hfrom : r.routes.get from_ = some fromMap) (t : KeyHash) :
    r.relays from_ t = ((fromMap.get t).map RouteInfo.list).getD [] := by
  unfold relays findNeighbor
  rw [hfrom]
  rfl

theorem relays_of_none (h : r.findNeighbor f t = none) : r.relays f t = [] := by
  unfold relays
  rw [h]
  rfl

/-- Only the routes of the source can change. -/
theorem relays_cleanup_of_ne (hf : f ≠ from_) (t : KeyHash) :
    (r.cleanup now from_ to_).relays f t = r.relays f t := by
  unfold cleanup
  split
  · rfl
  · split
    · rfl
    · simp only
      split
      · split
        · simp only [relays, findNeighbor, InsertionMap.get_delete_of_ne _ hf]
        · simp only [relays, findNeighbor, InsertionMap.get_set_of_ne _ _ hf]
      · simp only [relays, findNeighbor, InsertionMap.get_set_of_ne _ _ hf]

/-- Without the pair there is nothing to clean up. -/
theorem cleansUp_of_none (h : r.findNeighbor from_ to_ = none) :
    r.CleansUp now from_ to_ := by
  have hsame : r.cleanup now from_ to_ = r := by
    unfold cleanup
    unfold findNeighbor at h
    cases hfrom : r.routes.get from_ with
    | none => rfl
    | some fromMap =>
        rw [hfrom, Option.bind_some] at h
        simp only [h]
  intro f t
  rw [hsame]
  split
  · rename_i hpair
    rw [hpair.1, hpair.2, relays_of_none h]
    rfl
  · rfl

/-- Some routes are kept. -/
theorem cleansUp_of_kept (hfrom : r.routes.get from_ = some fromMap)
    (hto : fromMap.get to_ = some info)
    (hkept : info.list.filter (fun route => !route.expired now) ≠ []) :
    r.CleansUp now from_ to_ := by
  have hset : (r.cleanup now from_ to_).routes = r.routes.set from_
      (((r.routes.get from_).getD .empty).set to_
        { info with list := info.list.filter (fun route => !route.expired now) }) := by
    unfold cleanup
    simp only [hfrom, hto, if_neg hkept, Option.getD_some]
  intro f t
  simp only [relays, findNeighbor_set hset]
  split
  · rename_i hpair
    simp only [hpair.1, hpair.2, findNeighbor, hfrom, hto, Option.bind_some,
      Option.map_some, Option.getD_some]
  · rfl

/-- No routes are kept, and the source has another number of other targets than
one. -/
theorem cleansUp_of_deleted (hfrom : r.routes.get from_ = some fromMap)
    (hto : fromMap.get to_ = some info)
    (hkept : info.list.filter (fun route => !route.expired now) = [])
    (hsize : (fromMap.delete to_).keys.length ≠ 1) : r.CleansUp now from_ to_ := by
  have hset : (r.cleanup now from_ to_).routes =
      r.routes.set from_ (fromMap.delete to_) := by
    unfold cleanup
    simp only [hfrom, hto, hkept, if_true, if_neg hsize]
  intro f t
  by_cases hf : f = from_
  · subst hf
    rw [relays_of_get (by rw [hset, InsertionMap.get_set_self]), relays_of_get hfrom]
    by_cases ht : t = to_
    · subst ht
      rw [if_pos ⟨rfl, rfl⟩, InsertionMap.get_delete_self, hto]
      exact hkept.symm
    · rw [if_neg (fun h => ht h.2), InsertionMap.get_delete_of_ne _ ht]
  · rw [if_neg (fun h => hf h.1), relays_cleanup_of_ne hf]

/-- No routes are kept, and the source goes with its only other target. -/
theorem cleansUp_iff_of_alone (hfrom : r.routes.get from_ = some fromMap)
    (hto : fromMap.get to_ = some info)
    (hkept : info.list.filter (fun route => !route.expired now) = [])
    {other : KeyHash} (hkeys : (fromMap.delete to_).keys = [other]) :
    r.CleansUp now from_ to_ ↔ r.relays from_ other = [] := by
  have hdelete : (r.cleanup now from_ to_).routes = r.routes.delete from_ := by
    unfold cleanup
    simp only [hfrom, hto, hkept, if_true, hkeys, List.length_singleton]
  have hgone : ∀ t, (r.cleanup now from_ to_).relays from_ t = [] := by
    intro t
    refine relays_of_none ?_
    unfold findNeighbor
    rw [hdelete, InsertionMap.get_delete_self]
    rfl
  have hother : other ≠ to_ := by
    rintro rfl
    have hmem := ((fromMap.delete other).mem_keys other).mp (by rw [hkeys]; simp)
    simp at hmem
  constructor
  · intro h
    have h := h from_ other
    rw [hgone, if_neg (fun hpair => hother hpair.2)] at h
    exact h.symm
  · intro hempty f t
    by_cases hf : f = from_
    · subst hf
      rw [hgone]
      by_cases ht : t = to_
      · subst ht
        rw [if_pos ⟨rfl, rfl⟩, relays_of_get hfrom, hto]
        exact hkept.symm
      · rw [if_neg (fun h => ht h.2)]
        by_cases hto' : t = other
        · rw [hto', hempty]
        · -- a third target is not there
          have hnot : ¬ t ∈ (fromMap.delete to_).keys := by
            rw [hkeys, List.mem_singleton]
            exact hto'
          rw [InsertionMap.mem_keys, InsertionMap.get_delete_of_ne _ ht,
            Bool.not_eq_true, Option.isSome_eq_false_iff, Option.isNone_iff_eq_none] at hnot
          rw [relays_of_get hfrom, hnot]
          rfl
    · rw [if_neg (fun h => hf h.1), relays_cleanup_of_ne hf]

end Cleanup

/-- A cleanup takes the expired routes of its source and target away and no others,
if and only if it does not lose the routes to the only other target. -/
theorem cleansUp_iff (r : Routes) (now : Int) (from_ to_ : KeyHash) :
    r.CleansUp now from_ to_ ↔ ¬ r.LosesOther now from_ to_ := by
  cases hfrom : r.routes.get from_ with
  | none =>
      refine iff_of_true (cleansUp_of_none (by simp [findNeighbor, hfrom])) ?_
      rintro ⟨fromMap, info, other, hget, -⟩
      rw [hfrom] at hget
      cases hget
  | some fromMap =>
      cases hto : fromMap.get to_ with
      | none =>
          refine iff_of_true (cleansUp_of_none (by simp [findNeighbor, hfrom, hto])) ?_
          rintro ⟨fromMap', info, other, hget, hinfo, -⟩
          rw [hfrom] at hget
          obtain rfl := Option.some.inj hget
          rw [hto] at hinfo
          cases hinfo
      | some info =>
          have hloses : r.LosesOther now from_ to_ ↔
              info.list.filter (fun route => !route.expired now) = [] ∧
                ∃ other, (fromMap.delete to_).keys = [other] ∧
                  r.relays from_ other ≠ [] := by
            unfold LosesOther
            simp [hfrom, hto, List.filter_eq_nil_iff]
          rw [hloses]
          by_cases hkept : info.list.filter (fun route => !route.expired now) = []
          · by_cases hsize : (fromMap.delete to_).keys.length = 1
            · obtain ⟨other, hkeys⟩ := List.length_eq_one_iff.mp hsize
              rw [cleansUp_iff_of_alone hfrom hto hkept hkeys, hkeys]
              simp [hkept]
            · refine iff_of_true (cleansUp_of_deleted hfrom hto hkept hsize) ?_
              rintro ⟨-, other, hkeys, -⟩
              exact hsize (by rw [hkeys]; rfl)
          · exact iff_of_true (cleansUp_of_kept hfrom hto hkept) (fun h => hkept h.1)

/-- The node that reported `c` in the latest session goes, so that all other routes
to `c` expire. -/
def lastRelayGoes : List RouteAction :=
  [.add "me" "c" ⟨0, "a", 1, 2, 1⟩, .add "me" "c" ⟨1, "b", 1, 1, 1⟩,
    .add "me" "d" ⟨1, "b", 1, 1, 1⟩, .remove "a"]

theorem not_cleansUp_reached :
    ∃ r, (machine "me" 10000).Run Machine.Free r ∧ ¬ r.CleansUp 10101 "me" "c" := by
  refine ⟨lastRelayGoes.foldl act (empty "me" 10000),
    .of_exec .init lastRelayGoes rfl, fun h => ?_⟩
  have hbefore : (lastRelayGoes.foldl act (empty "me" 10000)).relays "me" "d" =
      [⟨1, "b", none, 1⟩] := by
    decide
  have hafter : ((lastRelayGoes.foldl act (empty "me" 10000)).cleanup 10101 "me"
      "c").relays "me" "d" = [] := by
    decide
  have hd := h "me" "d"
  rw [hbefore, hafter] at hd
  exact absurd hd (by decide)

end Routes

end Transport
end Peerbit
