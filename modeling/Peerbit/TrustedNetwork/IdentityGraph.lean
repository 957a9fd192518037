import Peerbit.Lib.LevelOrder
import Mathlib.Logic.Relation

/-!
# The graph of identity relations

A relation says that one key trusts another.  The search follows the relations
from a key, level by level, and keeps the ids of those it has seen in a set.

The set holds byte arrays, which it compares by reference.  A relation in the
resolver cache of the store comes with the same array each time; any other is
decoded anew, and its id is never found in the set.
-/

namespace Peerbit
namespace TrustedNetwork

open Lib

/-- `IdentityRelation`.  Its id is the hash of both keys. -/
structure IdentityRelation (K : Type) where
  from_ : K
  to_ : K
deriving Repr, DecidableEq

/-- A local store of relations, in the order of its index, and which of them are
in its resolver cache. -/
structure RelationStore (K : Type) where
  relations : List (IdentityRelation K)
  cached : IdentityRelation K → Bool
  nodup : relations.Nodup

section Search

variable {K : Type} [DecidableEq K]

structure RelationResolver (K : Type) where
  resolve : K → RelationStore K → List (IdentityRelation K)
  next : IdentityRelation K → K

def getFromByTo : RelationResolver K where
  resolve to_ db := db.relations.filter (fun r => r.to_ = to_)
  next relation := relation.from_

def getToByFrom : RelationResolver K where
  resolve from_ db := db.relations.filter (fun r => r.from_ = from_)
  next relation := relation.to_

variable (db : RelationStore K) (resolver : RelationResolver K)

/-- The state of `getPathGenerator` within a level: what it has yielded so far,
which is also what it has visited, the keys of the next level, and whether it
has returned. -/
structure PathLoop (K : Type) where
  yielded : List (IdentityRelation K)
  newIter : List K
  returned : Bool

/-- The loop over the results for a key. -/
def visitResult (s : PathLoop K) (result : IdentityRelation K) : PathLoop K :=
  if s.returned then
    s
  else if db.cached result = true ∧ result ∈ s.yielded then
    { s with returned := true }
  else
    { s with
      yielded := s.yielded ++ [result]
      newIter := s.newIter ++ [resolver.next result] }

/-- The loop over the keys of a level. -/
def visitValue (s : PathLoop K) (value : K) : PathLoop K :=
  (resolver.resolve value db).foldl (visitResult db resolver) s

/-- `getPathGenerator`, up to a number of levels: what it yields, and whether it
has ended. -/
def getPathGenerator :
    Nat → List K → List (IdentityRelation K) → List (IdentityRelation K) × Bool
  | _, [], yielded => (yielded, true)
  | 0, _ :: _, yielded => (yielded, false)
  | fuel + 1, value :: iter, yielded =>
      let s :=
        (value :: iter).foldl (visitValue db resolver)
          { yielded := yielded, newIter := [], returned := false }
      if s.returned then (s.yielded, true)
      else getPathGenerator fuel s.newIter s.yielded

/-- `hasPathToTarget`: it takes from the generator until a relation comes from
the target. -/
def hasPathToTarget (fuel : Nat) (start : K) (target : K → Bool) :
    Option Bool :=
  if target start then
    some true
  else
    let generated := getPathGenerator db resolver fuel [start] []
    if generated.1.any (fun relation => target relation.from_) then some true
    else if generated.2 then some false
    else none

/-- `hasPath`. -/
def hasPath (fuel : Nat) (start end_ : K) : Option Bool :=
  hasPathToTarget db resolver fuel start (fun key => decide (end_ = key))

/-- `isTrusted`. -/
def isTrusted (rootTrust : K) (fuel : Nat) (trustee truster : K) :
    Option Bool :=
  if trustee = rootTrust then some true
  else hasPath db getFromByTo fuel trustee truster

/-- `getTrusted`, when the generator ends. -/
def getTrusted (rootTrust : K) (fuel : Nat) : Option (List K) :=
  let generated := getPathGenerator db getToByFrom fuel [rootTrust] []
  if generated.2 then
    some (rootTrust :: generated.1.map IdentityRelation.to_)
  else none

/-! ### The generator reads the walks in level order -/

/-- The relations that the search goes to from a relation. -/
def follow (r : IdentityRelation K) : List (IdentityRelation K) :=
  resolver.resolve (resolver.next r) db

theorem foldl_visitResult_of_returned (results : List (IdentityRelation K))
    {s : PathLoop K} (hs : s.returned = true) :
    results.foldl (visitResult db resolver) s = s := by
  induction results with
  | nil => rfl
  | cons r results ih =>
      have hskip : visitResult db resolver s r = s := if_pos hs
      rw [List.foldl_cons, hskip]
      exact ih

theorem foldl_visitResult (results : List (IdentityRelation K))
    (s : PathLoop K) (hs : s.returned = false) :
    let t := results.foldl (visitResult db resolver) s
    t.yielded = (untilAgain db.cached s.yielded results).1 ∧
      t.returned = (untilAgain db.cached s.yielded results).2 ∧
      (t.returned = false →
        t.newIter = s.newIter ++ results.map resolver.next) := by
  induction results generalizing s with
  | nil => exact ⟨rfl, hs, fun _ => by simp⟩
  | cons r results ih =>
      simp only [List.foldl_cons]
      unfold untilAgain
      by_cases hagain : db.cached r = true ∧ r ∈ s.yielded
      · have hvisit : visitResult db resolver s r =
            { s with returned := true } := by
          unfold visitResult
          rw [if_neg (by simp [hs]), if_pos hagain]
        rw [hvisit, foldl_visitResult_of_returned _ _ _ rfl, if_pos hagain]
        exact ⟨rfl, rfl, Bool.noConfusion⟩
      · have hvisit : visitResult db resolver s r =
            { s with
              yielded := s.yielded ++ [r]
              newIter := s.newIter ++ [resolver.next r] } := by
          unfold visitResult
          rw [if_neg (by simp [hs]), if_neg hagain]
        rw [hvisit, if_neg hagain]
        obtain ⟨hyielded, hstop, hnext⟩ := ih
          { s with
            yielded := s.yielded ++ [r]
            newIter := s.newIter ++ [resolver.next r] } hs
        refine ⟨hyielded, hstop, ?_⟩
        intro h
        rw [hnext h, List.map_cons, List.append_assoc, List.singleton_append]

theorem foldl_visitValue (iter : List K) (s : PathLoop K) :
    iter.foldl (visitValue db resolver) s =
      (iter.flatMap (fun value => resolver.resolve value db)).foldl
        (visitResult db resolver) s := by
  induction iter generalizing s with
  | nil => rfl
  | cons value iter ih =>
      rw [List.foldl_cons, ih, List.flatMap_cons, List.foldl_append]
      rfl

/-- The generator reads the walks in level order until it stops, or there are no
more. -/
theorem getPathGenerator_spec (fuel : Nat) (iter : List K)
    (yielded : List (IdentityRelation K)) :
    let roots := iter.flatMap (fun value => resolver.resolve value db)
    let generated := getPathGenerator db resolver fuel iter yielded
    let read := untilAgain db.cached yielded
      (levelsUpTo (follow db resolver) roots fuel)
    generated.1 = read.1 ∧
      (generated.2 = true ↔ read.2 = true ∨ iter = [] ∨
        ∃ n < fuel, level (follow db resolver) roots n = []) := by
  induction fuel generalizing iter yielded with
  | zero =>
      cases iter with
      | nil => simp [getPathGenerator, levelsUpTo, untilAgain]
      | cons value iter =>
          simp [getPathGenerator, levelsUpTo, untilAgain]
  | succ fuel ih =>
      cases iter with
      | nil =>
          have hnone : ∀ n,
              levelsUpTo (follow db resolver) ([] : List (IdentityRelation K)) n
                = [] := by
            intro n
            exact levelsUpTo_eq_of_level_eq_nil (m := 0) (Nat.zero_le n) rfl
          simp [getPathGenerator, hnone, untilAgain]
      | cons value iter =>
          intro roots generated read
          let first : PathLoop K :=
            { yielded := yielded, newIter := [], returned := false }
          obtain ⟨hyielded, hreturned, hnext⟩ :=
            foldl_visitResult db resolver roots first rfl
          rw [← foldl_visitValue] at hyielded hreturned hnext
          generalize hs : (value :: iter).foldl (visitValue db resolver) first
            = s at hyielded hreturned hnext
          have hgenerated : generated =
              if s.returned then (s.yielded, true)
              else getPathGenerator db resolver fuel s.newIter s.yielded := by
            rw [← hs]
            rfl
          have hread : read =
              if (untilAgain db.cached yielded roots).2 = true then
                untilAgain db.cached yielded roots
              else
                untilAgain db.cached (untilAgain db.cached yielded roots).1
                  (levelsUpTo (follow db resolver)
                    (roots.flatMap (follow db resolver)) fuel) :=
            untilAgain_append _ _ _
          rw [hgenerated, hread, ← hyielded, ← hreturned]
          cases hstop : s.returned with
          | true =>
              rw [if_pos rfl, if_pos rfl]
              exact ⟨hyielded, iff_of_true rfl
                (Or.inl (hreturned ▸ hstop))⟩
          | false =>
              rw [if_neg (by simp), if_neg (by simp)]
              have hnewIter : s.newIter = roots.map resolver.next := hnext hstop
              have hroots : s.newIter.flatMap
                  (fun value => resolver.resolve value db) =
                  roots.flatMap (follow db resolver) := by
                rw [hnewIter, List.flatMap_map]
                rfl
              obtain ⟨hfst, hsnd⟩ := ih s.newIter s.yielded
              rw [hroots] at hfst hsnd
              refine ⟨hfst, hsnd.trans (or_congr_right ?_)⟩
              rw [hnewIter, List.map_eq_nil_iff]
              constructor
              · rintro (hnil | ⟨n, hn, hlevel⟩)
                · exact Or.inr ⟨0, Nat.succ_pos fuel, hnil⟩
                · exact Or.inr ⟨n + 1, Nat.succ_lt_succ hn, hlevel⟩
              · rintro (hnil | ⟨n, hn, hlevel⟩)
                · cases hnil
                · cases n with
                  | zero => exact Or.inl hlevel
                  | succ n => exact Or.inr ⟨n, Nat.lt_of_succ_lt_succ hn, hlevel⟩

end Search

end TrustedNetwork
end Peerbit
