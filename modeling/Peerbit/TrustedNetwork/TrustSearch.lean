import Peerbit.TrustedNetwork.IdentityGraph

/-!
# When the trust search is exact

The search for a trust path follows the walks in level order, and gives up when
a relation in the resolver cache comes again; relations that are not in the
cache may come again for ever.  It is exact when the end key is met before it
gives up, and, if there is no path, when it ends at all.

The generator is exact when every relation that can be reached comes once before
one comes again, and the search then ends.
-/

namespace Peerbit
namespace TrustedNetwork

open Lib

section TrustSearch

variable {K : Type} [DecidableEq K] (db : RelationStore K)

/-- The first key trusts the second. -/
def Trusts (a b : K) : Prop :=
  ⟨a, b⟩ ∈ db.relations

/-- A chain of relations, of any length, leads from the first key to the
second. -/
def TrustPath (a b : K) : Prop :=
  Relation.ReflTransGen (Trusts db) a b

/-! ### Exactness -/

/-- `hasPath` ends and tells whether there is a path. -/
def HasPathExact (start end_ : K) : Prop :=
  ∃ fuel b, hasPath db getFromByTo fuel start end_ = some b ∧
    (b = true ↔ TrustPath db end_ start)

/-- The generator ends, and has yielded every relation that can be reached
once. -/
def GeneratesOnce (start : K) : Prop :=
  ∃ fuel out, getPathGenerator db getToByFrom fuel [start] [] = (out, true) ∧
    out.Nodup ∧
    ∀ r, r ∈ out ↔ r ∈ db.relations ∧ TrustPath db start r.from_

/-! ### Conditions on the walks -/

/-- The last relations of the walks of one length. -/
def walkLevel (resolver : RelationResolver K) (start : K) (n : Nat) :
    List (IdentityRelation K) :=
  level (follow db resolver) (resolver.resolve start db) n

/-- The last relations of all shorter walks, in level order. -/
def walks (resolver : RelationResolver K) (start : K) (n : Nat) :
    List (IdentityRelation K) :=
  levelsUpTo (follow db resolver) (resolver.resolve start db) n

/-- The end key is met before a cached relation comes again; if there is no path
the walks end, or a cached relation does come again. -/
def MeetsInTime (start end_ : K) : Prop :=
  start = end_ ∨
    (TrustPath db end_ start →
      ∃ n pre r, pre ++ [r] <+: walks db getFromByTo start n ∧
        r.from_ = end_ ∧ OnceEach db.cached (pre ++ [r])) ∧
    (¬ TrustPath db end_ start →
      (∃ n, walkLevel db getFromByTo start n = []) ∨
        ∃ n, ¬ OnceEach db.cached (walks db getFromByTo start n))

/-- Every relation that can be reached comes once before one comes again, and if
one does, the first is cached. -/
def CoversOnce (start : K) : Prop :=
  ∃ n pre, pre <+: walks db getToByFrom start n ∧ pre.Nodup ∧
    (∀ r ∈ db.relations, TrustPath db start r.from_ → r ∈ pre) ∧
    (pre = walks db getToByFrom start n ∧
        walkLevel db getToByFrom start n = [] ∨
      ∃ r, pre ++ [r] <+: walks db getToByFrom start n ∧ db.cached r = true)

/-! ### What is reached -/

variable {db}

theorem mem_resolve_getFromByTo {r : IdentityRelation K} {key : K} :
    r ∈ getFromByTo.resolve key db ↔ r ∈ db.relations ∧ r.to_ = key := by
  simp [getFromByTo]

theorem mem_resolve_getToByFrom {r : IdentityRelation K} {key : K} :
    r ∈ getToByFrom.resolve key db ↔ r ∈ db.relations ∧ r.from_ = key := by
  simp [getToByFrom]

theorem reached_getFromByTo {start : K} {r : IdentityRelation K} :
    Reached (follow db getFromByTo) (getFromByTo.resolve start db) r ↔
      r ∈ db.relations ∧ TrustPath db r.to_ start := by
  constructor
  · intro h
    induction h with
    | root h =>
        obtain ⟨hmem, rfl⟩ := mem_resolve_getFromByTo.mp h
        exact ⟨hmem, .refl⟩
    | @step a b _ hb ih =>
        obtain ⟨hmem, hto⟩ := mem_resolve_getFromByTo.mp hb
        refine ⟨hmem, .head ?_ ih.2⟩
        rw [hto]
        exact ih.1
  · rintro ⟨hmem, hpath⟩
    obtain ⟨a, b⟩ := r
    change TrustPath db b start at hpath
    unfold TrustPath at hpath
    induction hpath using Relation.ReflTransGen.head_induction_on generalizing a
      with
    | refl => exact .root (mem_resolve_getFromByTo.mpr ⟨hmem, rfl⟩)
    | @head b c hbc _ ih =>
        exact .step (ih b hbc) (mem_resolve_getFromByTo.mpr ⟨hmem, rfl⟩)

theorem reached_getToByFrom {start : K} {r : IdentityRelation K} :
    Reached (follow db getToByFrom) (getToByFrom.resolve start db) r ↔
      r ∈ db.relations ∧ TrustPath db start r.from_ := by
  constructor
  · intro h
    induction h with
    | root h =>
        obtain ⟨hmem, rfl⟩ := mem_resolve_getToByFrom.mp h
        exact ⟨hmem, .refl⟩
    | @step a b _ hb ih =>
        obtain ⟨hmem, hfrom⟩ := mem_resolve_getToByFrom.mp hb
        refine ⟨hmem, ih.2.tail ?_⟩
        rw [hfrom]
        exact ih.1
  · rintro ⟨hmem, hpath⟩
    obtain ⟨a, b⟩ := r
    change TrustPath db start a at hpath
    unfold TrustPath at hpath
    induction hpath generalizing b with
    | refl => exact .root (mem_resolve_getToByFrom.mpr ⟨hmem, rfl⟩)
    | @tail c a _ hca ih =>
        exact .step (ih a hca) (mem_resolve_getToByFrom.mpr ⟨hmem, rfl⟩)

/-- The relations from the end key are reached exactly when a path leads from
it, unless it is where the search starts. -/
theorem trustPath_iff {start end_ : K} (hne : start ≠ end_) :
    TrustPath db end_ start ↔
      ∃ r, Reached (follow db getFromByTo) (getFromByTo.resolve start db) r ∧
        r.from_ = end_ := by
  simp only [reached_getFromByTo]
  constructor
  · intro hpath
    rcases Relation.ReflTransGen.cases_head hpath with heq | ⟨b, hb, hrest⟩
    · exact absurd heq.symm hne
    · exact ⟨⟨end_, b⟩, ⟨hb, hrest⟩, rfl⟩
  · rintro ⟨⟨a, b⟩, ⟨hmem, hrest⟩, rfl⟩
    exact .head hmem hrest

/-! ### What the generator reads -/

theorem getPathGenerator_eq (resolver : RelationResolver K) (start : K)
    (fuel : Nat) :
    (getPathGenerator db resolver fuel [start] []).1 =
        (untilAgain db.cached [] (walks db resolver start fuel)).1 ∧
      ((getPathGenerator db resolver fuel [start] []).2 = true ↔
        ¬ OnceEach db.cached (walks db resolver start fuel) ∨
          ∃ n < fuel, walkLevel db resolver start n = []) := by
  obtain ⟨hfst, hsnd⟩ := getPathGenerator_spec db resolver fuel [start] []
  simp only [List.flatMap_cons, List.flatMap_nil, List.append_nil] at hfst hsnd
  refine ⟨hfst, hsnd.trans ?_⟩
  simp only [untilAgain_nil_snd, List.cons_ne_nil, false_or]
  rfl

theorem hasPath_of_ne {start end_ : K} (hne : start ≠ end_) (fuel : Nat) :
    hasPath db getFromByTo fuel start end_ =
      if ∃ r ∈ (getPathGenerator db getFromByTo fuel [start] []).1,
        r.from_ = end_ then some true
      else if (getPathGenerator db getFromByTo fuel [start] []).2 then some false
      else none := by
  unfold hasPath hasPathToTarget
  rw [if_neg (by simpa using Ne.symm hne)]
  simp only [List.any_eq_true, decide_eq_true_eq]
  simp only [eq_comm]

theorem hasPathExact_iff (start end_ : K) :
    HasPathExact db start end_ ↔ MeetsInTime db start end_ := by
  by_cases hne : start = end_
  · subst hne
    refine iff_of_true ⟨0, true, ?_, iff_of_true rfl .refl⟩ (Or.inl rfl)
    unfold hasPath hasPathToTarget
    rw [if_pos (by simp)]
  · have hmet : ∀ fuel r,
        r ∈ (getPathGenerator db getFromByTo fuel [start] []).1 →
        r.from_ = end_ → TrustPath db end_ start := by
      intro fuel r hr hfrom
      obtain ⟨hread, _⟩ := untilAgain_nil
        (walks db getFromByTo start fuel)
      rw [(getPathGenerator_eq getFromByTo start fuel).1] at hr
      exact (trustPath_iff hne).mpr
        ⟨r, reached_of_mem_levelsUpTo (hread.mem hr), hfrom⟩
    constructor
    · rintro ⟨fuel, b, hrun, hb⟩
      obtain ⟨hfst, hsnd⟩ := getPathGenerator_eq getFromByTo start fuel
      rw [hasPath_of_ne hne] at hrun
      refine Or.inr ⟨fun hpath => ?_, fun hnone => ?_⟩
      · obtain rfl := hb.mpr hpath
        split at hrun
        · rename_i hany
          obtain ⟨r, hr, hfrom⟩ := hany
          obtain ⟨hread, honce, _⟩ := untilAgain_nil
            (walks db getFromByTo start fuel)
          rw [← hfst] at hread honce
          obtain ⟨pre, rest, hsplit⟩ := List.append_of_mem hr
          have hpre : pre ++ [r] <+:
              (getPathGenerator db getFromByTo fuel [start] []).1 :=
            ⟨rest, by rw [hsplit]; simp⟩
          exact ⟨fuel, pre, r, hpre.trans hread, hfrom, honce.of_prefix hpre⟩
        · split at hrun
          · cases hrun
          · cases hrun
      · split at hrun
        · rename_i hany
          obtain ⟨r, hr, hfrom⟩ := hany
          exact absurd (hmet fuel r hr hfrom) hnone
        · split at hrun
          · rename_i hended
            rcases hsnd.mp hended with hagain | ⟨n, _, hlevel⟩
            · exact Or.inr ⟨fuel, hagain⟩
            · exact Or.inl ⟨n, hlevel⟩
          · cases hrun
    · intro hmeets
      obtain ⟨hfound, hends⟩ := hmeets.resolve_left hne
      by_cases hpath : TrustPath db end_ start
      · obtain ⟨n, pre, r, hprefix, hfrom, honce⟩ := hfound hpath
        refine ⟨n, true, ?_, iff_of_true rfl hpath⟩
        rw [hasPath_of_ne hne, if_pos]
        refine ⟨r, ?_, hfrom⟩
        rw [(getPathGenerator_eq getFromByTo start n).1]
        exact (prefix_untilAgain hprefix honce).mem (by simp)
      · have hended : ∃ fuel,
            (getPathGenerator db getFromByTo fuel [start] []).2 = true := by
          rcases hends hpath with ⟨n, hlevel⟩ | ⟨n, hagain⟩
          · exact ⟨n + 1, (getPathGenerator_eq getFromByTo start (n + 1)).2.mpr
              (Or.inr ⟨n, Nat.lt_succ_self n, hlevel⟩)⟩
          · exact ⟨n, (getPathGenerator_eq getFromByTo start n).2.mpr
              (Or.inl hagain)⟩
        obtain ⟨fuel, hended⟩ := hended
        refine ⟨fuel, false, ?_, iff_of_false (by simp) hpath⟩
        rw [hasPath_of_ne hne, if_neg, if_pos hended]
        rintro ⟨r, hr, hfrom⟩
        exact hpath (hmet fuel r hr hfrom)

theorem generatesOnce_iff (start : K) :
    GeneratesOnce db start ↔ CoversOnce db start := by
  constructor
  · rintro ⟨fuel, out, hrun, hnodup, hmem⟩
    obtain ⟨hfst, hsnd⟩ := getPathGenerator_eq getToByFrom start fuel
    obtain ⟨hread, honce, hall, hnext⟩ := untilAgain_nil
      (walks db getToByFrom start fuel)
    rw [hrun] at hfst hsnd
    rw [← hfst] at hread honce hall hnext
    refine ⟨fuel, out, hread, hnodup,
      fun r hr hpath => (hmem r).mpr ⟨hr, hpath⟩, ?_⟩
    cases hstop : (untilAgain db.cached []
        (walks db getToByFrom start fuel)).2 with
    | true =>
        obtain ⟨r, hprefix, hcached, _⟩ := hnext hstop
        exact Or.inr ⟨r, hprefix, hcached⟩
    | false =>
        refine Or.inl ⟨hall hstop, ?_⟩
        rcases hsnd.mp rfl with hagain | ⟨n, hn, hlevel⟩
        · rw [(untilAgain_nil_snd _).mpr hagain] at hstop
          cases hstop
        · exact level_eq_nil_of_le (Nat.le_of_lt hn) hlevel
  · rintro ⟨n, pre, hprefix, hnodup, hcovers, hend⟩
    have hmem : ∀ r, r ∈ pre ↔ r ∈ db.relations ∧ TrustPath db start r.from_ := by
      intro r
      constructor
      · intro hr
        exact reached_getToByFrom.mp
          (reached_of_mem_levelsUpTo ( hprefix.mem hr))
      · exact fun hr => hcovers r hr.1 hr.2
    have honce : OnceEach db.cached pre := hnodup.filter _
    rcases hend with ⟨heq, hlevel⟩ | ⟨r, hnext, hcached⟩
    · -- the walks end
      have hwalks : walks db getToByFrom start (n + 1) = pre := by
        rw [heq]
        exact levelsUpTo_eq_of_level_eq_nil (Nat.le_succ n) hlevel
      obtain ⟨hfst, hsnd⟩ :=
        getPathGenerator_eq getToByFrom start (n + 1)
      rw [hwalks] at hfst
      have hread := prefix_untilAgain (l := pre) List.prefix_rfl honce
      obtain ⟨hback, _⟩ := untilAgain_nil pre
      have hout : (getPathGenerator db getToByFrom (n + 1) [start] []).1 = pre :=
        hfst.trans (hback.eq_of_length_le hread.length_le)
      refine ⟨n + 1, pre, Prod.ext hout ?_, hnodup, hmem⟩
      exact hsnd.mpr (Or.inr ⟨n, Nat.lt_succ_self n, hlevel⟩)
    · -- a cached relation comes again
      have hagain : db.cached r = true ∧ r ∈ pre := by
        refine ⟨hcached, (hmem r).mpr ?_⟩
        exact reached_getToByFrom.mp
          (reached_of_mem_levelsUpTo (hnext.mem (by simp)))
      obtain ⟨hfst, hsnd⟩ := getPathGenerator_eq getToByFrom start n
      obtain ⟨hback, hbackOnce, _⟩ := untilAgain_nil
        (walks db getToByFrom start n)
      have hread := prefix_untilAgain hprefix honce
      have hnotOnce : ¬ OnceEach db.cached (pre ++ [r]) :=
        fun h => (onceEach_concat.mp h).2 hagain
      have hout : (getPathGenerator db getToByFrom n [start] []).1 = pre := by
        rw [hfst]
        rcases List.prefix_or_prefix_of_prefix hback hnext with hle | hge
        · rcases List.prefix_concat_iff.mp hle with heq | hle
          · exact absurd (heq ▸ hbackOnce) hnotOnce
          · exact hle.eq_of_length_le hread.length_le
        · exact absurd (hbackOnce.of_prefix hge) hnotOnce
      refine ⟨n, pre, Prod.ext hout ?_, hnodup, hmem⟩
      exact hsnd.mpr (Or.inl (fun h => hnotOnce (h.of_prefix hnext)))

/-- The search for a path and the generator are both exact exactly when the
walks meet both conditions. -/
theorem trustSearchExact_iff (db : RelationStore K) (start end_ : K) :
    HasPathExact db start end_ ∧ GeneratesOnce db start ↔
      MeetsInTime db start end_ ∧ CoversOnce db start :=
  and_congr (hasPathExact_iff start end_) (generatesOnce_iff start)

/-- From the root of trust, who is trusted is who has a path. -/
theorem isTrusted_rootTrust (rootTrust : K) (fuel : Nat) (trustee : K) :
    isTrusted db rootTrust fuel trustee rootTrust =
      hasPath db getFromByTo fuel trustee rootTrust := by
  unfold isTrusted
  split
  · rename_i heq
    unfold hasPath hasPathToTarget
    rw [if_pos (by simp [heq])]
  · rfl

end TrustSearch

/-! ### A key that trusts itself -/

namespace SelfTrust

/-- The root trusts a key, which trusts another, which trusts itself. -/
def db : RelationStore String where
  relations :=
    [{ from_ := "c", to_ := "c" }, { from_ := "b", to_ := "c" },
      { from_ := "root", to_ := "b" }]
  cached _ := true
  nodup := by decide

/-- The relation of the key with itself comes again before the search gets to
the root. -/
theorem not_trustSearchExact :
    ¬ (HasPathExact db "c" "root" ∧ GeneratesOnce db "c") := by
  rintro ⟨⟨fuel, b, hrun, hb⟩, _⟩
  have hpath : TrustPath db "root" "c" := by
    have hfirst : Trusts db "root" "b" := by simp [Trusts, db]
    have hsecond : Trusts db "b" "c" := by simp [Trusts, db]
    exact .head hfirst (.single hsecond)
  obtain rfl := hb.mpr hpath
  cases fuel with
  | zero => exact absurd hrun (by decide)
  | succ fuel =>
      cases fuel with
      | zero => exact absurd hrun (by decide)
      | succ fuel =>
          have hfalse : hasPath db getFromByTo (fuel + 2) "c" "root" =
              some false := rfl
          rw [hfalse] at hrun
          cases hrun

end SelfTrust

end TrustedNetwork
end Peerbit
