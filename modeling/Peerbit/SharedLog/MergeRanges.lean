import Mathlib
import Peerbit.SharedLog.Ranges

/-!
# Merging ranges

`mergeRanges` makes one range of several: it sorts them by their starts, merges
those that touch, and returns the ring without the largest gap that remains.

The ends are compared by `end2`, which is past the start of a range that wraps
only when seen from zero, and the extent of merged ranges goes through a double.
Where no wrapped range meets another range, and all extents are doubles, the
result covers the ranges (`mergeRanges_covers`).
-/

namespace Peerbit
namespace SharedLog

/-- `Number(n)` for a `bigint`: the closest double, the even one of two. -/
def numberOfBigInt (n : Nat) : Nat :=
  let unit := 2 ^ (n.log2 - 52)
  if unit < 2 * (n % unit) ∨ (unit = 2 * (n % unit) ∧ n / unit % 2 = 1) then
    (n / unit + 1) * unit
  else n / unit * unit

/-- `Number` of a number, or of a `bigint`. -/
def Resolution.numberOf : Resolution → Nat → Nat
  | .u32, n => n
  | .u64, n => numberOfBigInt n

section Merging

variable (R : Resolution)

/-- The arc that replaces the last one, which the current one touches; a
negative width makes the constructor throw. -/
def mergedArc (last current : ReplicationRangeIndexable) :
    Option ReplicationRangeIndexable :=
  let newEnd2 := if last.end2 > current.end2 then last.end2 else current.end2
  let newMode :=
    if last.mode = .Strict ∨ current.mode = .Strict then .Strict
    else .NonStrict
  if newEnd2 < last.start1 then none
  else
    ReplicationRangeIndexable.construct R last.id last.hash 0 newMode last.start1
      (R.numberOf (newEnd2 - last.start1))

/-- The fold over the sorted arcs. -/
def mergeArcs (last : ReplicationRangeIndexable) :
    List ReplicationRangeIndexable → Option (List ReplicationRangeIndexable)
  | [] => some [last]
  | current :: rest =>
      if current.start1 ≤ last.end2 then
        (mergedArc R last current).bind fun arc => mergeArcs arc rest
      else
        (mergeArcs current rest).map fun merged => last :: merged

/-- The gap from the end of an arc to the start of the next one. -/
def gapBetween (arc nextArc : ReplicationRangeIndexable) : Nat :=
  if nextArc.start1 < arc.end2 then
    R.maxValue - arc.end2 + nextArc.start1
  else
    nextArc.start1 - arc.end2

/-- `largestGap` and `largestGapIndex`, where `none` is -1. -/
def largestGap (arr : List ReplicationRangeIndexable) : Nat × Option Nat :=
  (List.range arr.length).foldl
    (fun acc i =>
      match arr[i]?, arr[(i + 1) % arr.length]? with
      | some arc, some nextArc =>
          let gap := gapBetween R arc nextArc
          if gap > acc.1 then (gap, some ((i + 1) % arr.length)) else acc
      | _, _ => acc)
    (0, none)

def sortRanges (segments : List ReplicationRangeIndexable) :
    List ReplicationRangeIndexable :=
  segments.insertionSort (fun a b => a.start1 ≤ b.start1)

/-- The ring without the largest gap. -/
def ringWithoutGap (id : String) (hash : PeerHash)
    (merged : List ReplicationRangeIndexable) :
    Option ReplicationRangeIndexable :=
  let finalMode :=
    if merged.any (fun m => m.mode = .Strict) then .Strict else .NonStrict
  let gap := largestGap R merged
  match gap.2.bind fun i => merged[i]? with
  | some arc =>
      ReplicationRangeIndexable.construct R id hash 0 finalMode arc.start1
        (R.maxValue - gap.1)
  | none => none

/-- `mergeRanges`, given the id a new range gets; `none` is an error that it
throws. -/
def mergeRanges (id : String) :
    List ReplicationRangeIndexable → Option ReplicationRangeIndexable
  | [] => none
  | [segment] => some segment
  | first :: segments =>
      if (first :: segments).all (fun x => x.hash = first.hash) then
        match sortRanges (first :: segments) with
        | [] => none
        | current :: rest =>
            match mergeArcs R current rest with
            | none => none
            | some [arc] => some arc
            | some merged => ringWithoutGap R id first.hash merged
      else none

end Merging

/-! ### The condition -/

/-- A wrapped arc, seen from another arc: that one does not wrap, ends before
the wrapped one starts, and starts where it ends or later. -/
def ApartFrom (w a : ReplicationRangeIndexable) : Prop :=
  w.wrapped = true →
    a.wrapped = false ∧ a.end2 < w.start1 ∧ w.end2 ≤ a.start1

/-- No wrapped arc overlaps another one or starts where another one ends. -/
def WrappedApart (segments : List ReplicationRangeIndexable) : Prop :=
  segments.Pairwise fun a b => ApartFrom a b ∧ ApartFrom b a

/-- The extents of touching arcs, each from the start of the first one to the
end reached so far, are kept by `Number`. -/
def ExtentsExact (R : Resolution) (start stop : Nat) :
    List ReplicationRangeIndexable → Prop
  | [] => True
  | current :: rest =>
      if current.start1 ≤ stop then
        R.numberOf (max stop current.end2 - start) =
            max stop current.end2 - start ∧
          ExtentsExact R start (max stop current.end2) rest
      else ExtentsExact R current.start1 current.end2 rest

/-- The same for arcs that are not sorted. -/
def AllExtentsExact (R : Resolution)
    (segments : List ReplicationRangeIndexable) : Prop :=
  match sortRanges segments with
  | [] => True
  | first :: rest => ExtentsExact R first.start1 first.end2 rest

/-! ### The merge pass -/

section MergePass

variable {R : Resolution}

open ReplicationRangeIndexable (Shape)

/-- Arcs in the order of their starts of which only the last one can wrap, with
a gap before every other arc. -/
structure Tidy (R : Resolution) (arcs : List ReplicationRangeIndexable) :
    Prop where
  shape : ∀ a ∈ arcs, Shape R a
  sorted : arcs.Pairwise fun a b => a.wrapped = false ∧ a.end2 < b.start1
  tail : ∀ w ∈ arcs, w.wrapped = true → ∀ a ∈ arcs, w.end2 ≤ a.start1

/-- Sorted arcs of which none comes after, touches or overlaps a wrapped one. -/
def PlainBefore (a b : ReplicationRangeIndexable) : Prop :=
  a.start1 ≤ b.start1 ∧ a.wrapped = false ∧
    (b.wrapped = true → a.end2 < b.start1 ∧ b.end2 ≤ a.start1)

/-- Two arcs that touch, and do not wrap, become one that covers both. -/
theorem mergedArc_of_touch {last current : ReplicationRangeIndexable}
    (hlast : Shape R last) (hcurrent : Shape R current)
    (hplain : last.wrapped = false) (hplain' : current.wrapped = false)
    (hsorted : last.start1 ≤ current.start1)
    (htouch : current.start1 ≤ last.end2)
    (hexact : R.numberOf (max last.end2 current.end2 - last.start1) =
      max last.end2 current.end2 - last.start1) :
    ∃ arc, mergedArc R last current = some arc ∧
      Shape R arc ∧ arc.wrapped = false ∧ arc.start1 = last.start1 ∧
      arc.end2 = max last.end2 current.end2 ∧ arc.hash = last.hash ∧
      (∀ p, last.contains p = true ∨ current.contains p = true →
        arc.contains p = true) ∧
      (arc.mode = .Strict ↔ last.mode = .Strict ∨ current.mode = .Strict) := by
  obtain ⟨hs2, he2, hle, hmax⟩ := hlast.plain hplain
  obtain ⟨hs2', he2', hle', hmax'⟩ := hcurrent.plain hplain'
  have hend : (if last.end2 > current.end2 then last.end2 else current.end2) =
      max last.end2 current.end2 := by
    split <;> omega
  generalize hstop : max last.end2 current.end2 = stop at hend hexact
  have hbound : last.start1 + (stop - last.start1) ≤ R.maxValue := by omega
  rw [mergedArc]
  simp only [hend, hexact]
  rw [if_neg (by omega), ReplicationRangeIndexable.construct_of_le hbound]
  have hsum : last.start1 + (stop - last.start1) = stop := by omega
  refine ⟨_, rfl, ?_, ?_, rfl, hsum, rfl, ?_, ?_⟩
  · exact .single rfl rfl (Nat.le_add_right _ _) hbound (by simp)
  · simp [ReplicationRangeIndexable.wrapped]
  · intro p hp
    simp only [ReplicationRangeIndexable.contains_iff] at hp ⊢
    omega
  · by_cases hstrict : last.mode = .Strict ∨ current.mode = .Strict
    · simp [hstrict]
    · simp [hstrict]

/-- What the fold makes of sorted arcs. -/
structure Merged (R : Resolution) (arcs merged : List ReplicationRangeIndexable) :
    Prop where
  tidy : Tidy R merged
  nonempty : merged ≠ []
  covers : ∀ a ∈ arcs, ∀ p, a.contains p = true →
    ∃ m ∈ merged, m.contains p = true
  strict : (∃ m ∈ merged, m.mode = .Strict) ↔ ∃ a ∈ arcs, a.mode = .Strict
  wrapped : ∀ m ∈ merged, m.wrapped = true → m ∈ arcs

theorem exists_mergeArcs (last : ReplicationRangeIndexable)
    (rest : List ReplicationRangeIndexable)
    (hshape : ∀ a ∈ last :: rest, Shape R a)
    (hsorted : (last :: rest).Pairwise PlainBefore)
    (hexact : ExtentsExact R last.start1 last.end2 rest) :
    ∃ merged, mergeArcs R last rest = some merged ∧
      Merged R (last :: rest) merged ∧ ∀ m ∈ merged, last.start1 ≤ m.start1 := by
  induction rest generalizing last with
  | nil =>
      have hself : last.wrapped = true → last.end2 ≤ last.start1 :=
        fun h => ((hshape last (by simp)).wraps h).2.2.1
      refine ⟨[last], rfl, ⟨⟨hshape, List.pairwise_singleton _ _, ?_⟩, by simp,
        fun a ha p hp => ⟨a, ha, hp⟩, Iff.rfl, fun m hm _ => hm⟩, by simp⟩
      simpa using hself
  | cons current rest ih =>
      obtain ⟨hhead, htail⟩ := List.pairwise_cons.mp hsorted
      obtain ⟨hle, hplain, hwrapped⟩ := hhead current (by simp)
      have hrest : ∀ b ∈ rest, PlainBefore last b := fun b hb =>
        hhead b (List.mem_cons_of_mem _ hb)
      rw [ExtentsExact] at hexact
      by_cases htouch : current.start1 ≤ last.end2
      · rw [if_pos htouch] at hexact
        have hplain' : current.wrapped = false := by
          cases hw : current.wrapped with
          | false => rfl
          | true =>
              have hgap := (hwrapped hw).1
              omega
        obtain ⟨arc, harc, hshape', hplainArc, hstart, hend, _, hcovers,
            hstrict⟩ :=
          mergedArc_of_touch (hshape last (by simp)) (hshape current (by simp))
            hplain hplain' hle htouch hexact.1
        have hsorted' : (arc :: rest).Pairwise PlainBefore := by
          refine List.pairwise_cons.mpr
            ⟨fun b hb => ?_, (List.pairwise_cons.mp htail).2⟩
          obtain ⟨hle', _, hb'⟩ := hrest b hb
          obtain ⟨_, _, hb''⟩ := (List.pairwise_cons.mp htail).1 b hb
          refine ⟨by omega, hplainArc, fun hw => ?_⟩
          have hgap := hb' hw
          have hgap' := hb'' hw
          omega
        obtain ⟨merged, hmerged, hspec, hbound⟩ := ih arc
          (fun a ha => by
            rcases List.mem_cons.mp ha with rfl | ha
            · exact hshape'
            · exact hshape a (by simp [ha]))
          hsorted' (by rw [hstart, hend]; exact hexact.2)
        refine ⟨merged, ?_, ⟨hspec.tidy, hspec.nonempty, ?_, ?_, ?_⟩, ?_⟩
        · rw [mergeArcs, if_pos htouch, harc]
          exact hmerged
        · intro a ha p hp
          rcases List.mem_cons.mp ha with rfl | ha
          · exact hspec.covers arc (by simp) p (hcovers p (.inl hp))
          · rcases List.mem_cons.mp ha with rfl | ha
            · exact hspec.covers arc (by simp) p (hcovers p (.inr hp))
            · exact hspec.covers a (by simp [ha]) p hp
        · rw [hspec.strict]
          simp [hstrict, or_assoc]
        · intro m hm hw
          rcases List.mem_cons.mp (hspec.wrapped m hm hw) with rfl | hm
          · rw [hplainArc] at hw
            exact (nomatch hw)
          · exact List.mem_cons_of_mem _ (List.mem_cons_of_mem _ hm)
        · rw [← hstart]
          exact hbound
      · rw [if_neg htouch] at hexact
        obtain ⟨merged, hmerged, hspec, hbound⟩ := ih current
          (fun a ha => hshape a (List.mem_cons_of_mem _ ha)) htail hexact
        obtain ⟨_, _, hself, _⟩ := (hshape last (by simp)).plain hplain
        have hend := ((hshape last (by simp)).plain hplain).2.1
        refine ⟨last :: merged, ?_, ⟨⟨?_, ?_, ?_⟩, by simp, ?_, ?_, ?_⟩, ?_⟩
        · rw [mergeArcs, if_neg htouch, hmerged]
          rfl
        · intro a ha
          rcases List.mem_cons.mp ha with rfl | ha
          · exact hshape a (by simp)
          · exact hspec.tidy.shape a ha
        · refine List.pairwise_cons.mpr ⟨fun m hm => ⟨hplain, ?_⟩,
            hspec.tidy.sorted⟩
          have hstart := hbound m hm
          omega
        · intro w hw hwrap a ha
          rcases List.mem_cons.mp hw with rfl | hmem
          · rw [hplain] at hwrap
            exact (nomatch hwrap)
          · rcases List.mem_cons.mp ha with rfl | ha
            · exact ((hhead w (hspec.wrapped w hmem hwrap)).2.2 hwrap).2
            · exact hspec.tidy.tail w hmem hwrap a ha
        · intro a ha p hp
          rcases List.mem_cons.mp ha with rfl | ha
          · exact ⟨a, by simp, hp⟩
          · obtain ⟨m, hm, hmp⟩ := hspec.covers a ha p hp
            exact ⟨m, List.mem_cons_of_mem _ hm, hmp⟩
        · rw [List.exists_mem_cons_iff, hspec.strict]
          simp
        · intro m hm hw
          rcases List.mem_cons.mp hm with rfl | hm
          · simp
          · exact List.mem_cons_of_mem _ (hspec.wrapped m hm hw)
        · intro m hm
          rcases List.mem_cons.mp hm with rfl | hm
          · exact Nat.le_refl _
          · exact hle.trans (hbound m hm)

/-! ### The largest gap -/

namespace Tidy

variable {arr : List ReplicationRangeIndexable}

theorem before (h : Tidy R arr) {k l : Nat} (hk : k < arr.length) (hl : l < arr.length)
    (hkl : k < l) : arr[k].wrapped = false ∧ arr[k].end2 < arr[l].start1 :=
  List.pairwise_iff_getElem.mp h.sorted k l hk hl hkl

/-- An arc that does not wrap starts where it ends or before. -/
theorem start_le_end (h : Tidy R arr) {a : ReplicationRangeIndexable}
    (ha : a ∈ arr) (hplain : a.wrapped = false) : a.start1 ≤ a.end2 := by
  obtain ⟨_, hend, hle, _⟩ := (h.shape a ha).plain hplain
  omega

theorem start_le (h : Tidy R arr) {k l : Nat} (hk : k < arr.length) (hl : l < arr.length)
    (hkl : k ≤ l) : arr[k].start1 ≤ arr[l].start1 := by
  rcases Nat.lt_or_eq_of_le hkl with hlt | rfl
  · obtain ⟨hplain, hgap⟩ := h.before hk hl hlt
    have hle := h.start_le_end (List.getElem_mem _) hplain
    omega
  · exact Nat.le_refl _

/-- Where the points of an arc lie. -/
theorem of_contains (h : Tidy R arr) {a : ReplicationRangeIndexable}
    (ha : a ∈ arr) {p : Nat} (hp : a.contains p = true) :
    p < R.maxValue ∧
      ((a.start1 ≤ p ∧ (a.wrapped = false → p < a.end2)) ∨
        (a.wrapped = true ∧ p < a.end2)) := by
  rw [ReplicationRangeIndexable.contains_iff] at hp
  have hshape := h.shape a ha
  cases hw : a.wrapped with
  | false =>
      obtain ⟨hstart, hend, hle, hmax⟩ := hshape.plain hw
      simp only [true_implies]
      omega
  | true =>
      obtain ⟨hstart, hend1, hend, hmax⟩ := hshape.wraps hw
      simp only [true_and, Bool.true_eq_false, false_implies, and_true]
      omega

/-- The arcs lie outside the gap before the next one. -/
theorem outside_gap (h : Tidy R arr) {i : Nat} (hi : i + 1 < arr.length)
    {a : ReplicationRangeIndexable} (ha : a ∈ arr) {p : Nat}
    (hp : a.contains p = true) :
    gapBetween R arr[i] arr[i + 1] = arr[i + 1].start1 - arr[i].end2 ∧
      arr[i].end2 < arr[i + 1].start1 ∧
      p < R.maxValue ∧ (arr[i + 1].start1 ≤ p ∨ p < arr[i].end2) := by
  obtain ⟨hplain, hgap⟩ := h.before (Nat.lt_of_succ_lt hi) hi (Nat.lt_succ_self i)
  have harc := h.start_le_end (List.getElem_mem _) hplain
  obtain ⟨hmax, hpoint⟩ := h.of_contains ha hp
  refine ⟨?_, hgap, hmax, ?_⟩
  · rw [gapBetween, if_neg (by omega)]
  · obtain ⟨k, hk, rfl⟩ := List.getElem_of_mem ha
    rcases Nat.lt_or_ge i k with hik | hki
    · -- the arc starts after the gap, and its tail ends before all arcs
      have hstart := h.start_le hi hk (show i + 1 ≤ k from hik)
      rcases hpoint with ⟨hge, _⟩ | ⟨hw, hlt⟩
      · omega
      · have htail := h.tail _ ha hw _ (List.getElem_mem (by omega : i < _))
        omega
    · -- the arc ends before the gap
      have hplain' : arr[k].wrapped = false := by
        rcases Nat.lt_or_eq_of_le hki with hlt | rfl
        · exact (h.before hk (Nat.lt_of_succ_lt hi) hlt).1
        · exact hplain
      have hend : arr[k].end2 ≤ arr[i].end2 := by
        rcases Nat.lt_or_eq_of_le hki with hlt | rfl
        · have hbefore := (h.before hk (Nat.lt_of_succ_lt hi) hlt).2
          omega
        · exact Nat.le_refl _
      rcases hpoint with ⟨_, hlt⟩ | ⟨hw, _⟩
      · have hlt := hlt hplain'
        omega
      · rw [hplain'] at hw
        exact (nomatch hw)

/-- The arcs lie outside the gap over the end of the ring, or up to the first
arc when the last one wraps. -/
theorem outside_last_gap (h : Tidy R arr) (hlength : 2 ≤ arr.length)
    {a : ReplicationRangeIndexable} (ha : a ∈ arr) {p : Nat}
    (hp : a.contains p = true) :
    p < R.maxValue ∧ arr[0].start1 ≤ arr[arr.length - 1].start1 ∧
      ((arr[arr.length - 1].wrapped = false ∧
          arr[0].start1 < arr[arr.length - 1].end2 ∧
          arr[arr.length - 1].end2 ≤ R.maxValue ∧
          arr[0].start1 ≤ p ∧ p < arr[arr.length - 1].end2) ∨
        (arr[arr.length - 1].end2 ≤ arr[0].start1 ∧
          (arr[0].start1 ≤ p ∨ p < arr[arr.length - 1].end2))) := by
  have hlast : arr.length - 1 < arr.length := by omega
  obtain ⟨hmax, hpoint⟩ := h.of_contains ha hp
  obtain ⟨hplain0, hgap0⟩ := h.before (by omega) hlast (by omega : 0 < arr.length - 1)
  have hfirst := h.start_le_end (List.getElem_mem _) hplain0
  refine ⟨hmax, by omega, ?_⟩
  obtain ⟨k, hk, rfl⟩ := List.getElem_of_mem ha
  have hstart := h.start_le (by omega) hk (Nat.zero_le k)
  cases hw : arr[arr.length - 1].wrapped with
  | false =>
      obtain ⟨_, hend, hle, hring⟩ :=
        (h.shape _ (List.getElem_mem hlast)).plain hw
      have hplain : arr[k].wrapped = false ∧
          arr[k].end2 ≤ arr[arr.length - 1].end2 := by
        rcases Nat.lt_or_eq_of_le (by omega : k ≤ arr.length - 1) with hlt | rfl
        · obtain ⟨hplain, hgap⟩ := h.before hk hlast hlt
          exact ⟨hplain, by omega⟩
        · exact ⟨hw, Nat.le_refl _⟩
      left
      rcases hpoint with ⟨hge, hlt⟩ | ⟨hw', _⟩
      · have hlt := hlt hplain.1
        exact ⟨rfl, by omega, by omega, by omega, by omega⟩
      · rw [hplain.1] at hw'
        exact (nomatch hw')
  | true =>
      have htail := h.tail _ (List.getElem_mem hlast) hw _
        (List.getElem_mem (by omega : 0 < arr.length))
      right
      refine ⟨htail, ?_⟩
      rcases hpoint with ⟨hge, _⟩ | ⟨hw', hlt⟩
      · exact .inl (by omega)
      · rcases Nat.lt_or_eq_of_le (by omega : k ≤ arr.length - 1) with hlt' | rfl
        · rw [(h.before hk hlast hlt').1] at hw'
          exact (nomatch hw')
        · exact .inr hlt

end Tidy

/-- What the fold over the gaps has found so far. -/
def FoundGap (R : Resolution) (arr : List ReplicationRangeIndexable)
    (acc : Nat × Option Nat) : Prop :=
  0 < acc.1 ∧ ∃ i arc nextArc, arr[i]? = some arc ∧
    arr[(i + 1) % arr.length]? = some nextArc ∧
    acc = (gapBetween R arc nextArc, some ((i + 1) % arr.length))

/-- There is a gap after the first of several tidy arcs, so that one is
found. -/
theorem foundGap_largestGap {arr : List ReplicationRangeIndexable}
    (h : Tidy R arr) (hlength : 2 ≤ arr.length) :
    FoundGap R arr (largestGap R arr) := by
  have hkeep : ∀ (is : List Nat) (acc : Nat × Option Nat), FoundGap R arr acc →
      FoundGap R arr
        (is.foldl
          (fun acc i =>
            match arr[i]?, arr[(i + 1) % arr.length]? with
            | some arc, some nextArc =>
                let gap := gapBetween R arc nextArc
                if gap > acc.1 then (gap, some ((i + 1) % arr.length)) else acc
            | _, _ => acc)
          acc) := by
    intro is
    induction is with
    | nil => exact fun _ hacc => hacc
    | cons i is ih =>
        intro acc hacc
        refine ih _ ?_
        simp only
        split
        · rename_i arc nextArc harc hnext
          split
          · exact ⟨by simp only; omega, i, arc, nextArc, harc, hnext, rfl⟩
          · exact hacc
        · exact hacc
  obtain ⟨n, hn⟩ : ∃ n, arr.length = n + 1 := ⟨arr.length - 1, by omega⟩
  have hmod : (0 + 1) % arr.length = 1 := Nat.mod_eq_of_lt (by omega)
  have hgap : 0 < gapBetween R arr[0] arr[1] := by
    have hbefore := (h.before (by omega) (by omega : 1 < arr.length) Nat.zero_lt_one).2
    rw [gapBetween]
    split <;> omega
  rw [largestGap]
  have hrange : List.range arr.length = 0 :: (List.range n).map Nat.succ := by
    rw [hn, List.range_succ_eq_map]
  rw [hrange, List.foldl_cons]
  refine hkeep _ _ ?_
  rw [hmod, List.getElem?_eq_getElem (by omega : 0 < arr.length),
    List.getElem?_eq_getElem (by omega : 1 < arr.length)]
  simp only
  rw [if_pos hgap]
  refine ⟨hgap, 0, arr[0], arr[1], by simp, ?_, by rw [hmod]⟩
  rw [hmod]
  simp

/-- The ring without a gap contains what does not lie in the gap. -/
theorem exists_construct_of_gap (id : String) (hash : PeerHash)
    (mode : ReplicationIntent) {offset gap : Nat}
    (hoffset : offset ≤ R.maxValue) (hgap : 0 < gap) :
    ∃ r, ReplicationRangeIndexable.construct R id hash 0 mode offset
        (R.maxValue - gap) = some r ∧ r.mode = mode ∧
      ∀ p, p < R.maxValue →
        (offset ≤ p ∧ p < offset + (R.maxValue - gap) ∨
          R.maxValue < offset + (R.maxValue - gap) ∧
            (offset ≤ p ∨ p < offset + (R.maxValue - gap) - R.maxValue)) →
        r.contains p = true := by
  have hpos := R.maxValue_pos
  rcases Nat.lt_or_ge R.maxValue (offset + (R.maxValue - gap)) with hover | hle
  · refine ⟨_, ReplicationRangeIndexable.construct_of_gt hoffset (by omega) (by omega) hover,
      rfl, fun p hp hcase => ?_⟩
    rw [ReplicationRangeIndexable.contains_iff]
    simp only
    omega
  · refine ⟨_, ReplicationRangeIndexable.construct_of_le hle, rfl,
      fun p hp hcase => ?_⟩
    rw [ReplicationRangeIndexable.contains_iff]
    simp only
    omega

/-- The ring without the largest gap contains all arcs. -/
theorem exists_ringWithoutGap {arr : List ReplicationRangeIndexable}
    (h : Tidy R arr) (hlength : 2 ≤ arr.length) (id : String) (hash : PeerHash) :
    ∃ r, ringWithoutGap R id hash arr = some r ∧
      (∀ a ∈ arr, ∀ p, a.contains p = true → r.contains p = true) ∧
      (r.mode = .Strict ↔ ∃ a ∈ arr, a.mode = .Strict) := by
  obtain ⟨hpos, i, arc, nextArc, harc, hnext, hfound⟩ :=
    foundGap_largestGap h hlength
  have hpositive : 0 < gapBetween R arc nextArc := by
    rwa [hfound] at hpos
  obtain ⟨hi, rfl⟩ := List.getElem?_eq_some_iff.mp harc
  obtain ⟨hnextlt, rfl⟩ := List.getElem?_eq_some_iff.mp hnext
  have hoffset := (h.shape _ (List.getElem_mem hnextlt)).start_le
  obtain ⟨r, hr, hmode, hcontains⟩ := exists_construct_of_gap id hash
    (if arr.any (fun m => m.mode = .Strict) then .Strict else .NonStrict)
    hoffset hpositive
  refine ⟨r, ?_, fun a ha p hp => ?_, ?_⟩
  · rw [ringWithoutGap]
    simp only [hfound, Option.bind_some, hnext]
    exact hr
  · rcases Nat.lt_or_ge (i + 1) arr.length with hlt | hge
    · have hmod : (i + 1) % arr.length = i + 1 := Nat.mod_eq_of_lt hlt
      obtain ⟨hgap, hend, hmax, houtside⟩ := h.outside_gap hlt ha hp
      simp only [hmod] at hcontains hoffset
      refine hcontains p hmax ?_
      rw [hgap]
      omega
    · obtain rfl : i = arr.length - 1 := by omega
      have hmod : (arr.length - 1 + 1) % arr.length = 0 := by
        rw [Nat.sub_add_cancel (by omega), Nat.mod_self]
      obtain ⟨hmax, hstart, houtside⟩ := h.outside_last_gap hlength ha hp
      simp only [hmod] at hcontains hoffset
      refine hcontains p hmax ?_
      rw [gapBetween]
      split <;> omega
  · rw [hmode]
    simp

/-! ### The whole function -/

theorem sortRanges_perm (segments : List ReplicationRangeIndexable) :
    (sortRanges segments).Perm segments :=
  List.perm_insertionSort _ _

theorem sortRanges_sorted (segments : List ReplicationRangeIndexable) :
    (sortRanges segments).Pairwise (fun a b => a.start1 ≤ b.start1) := by
  have : Std.Total (fun a b : ReplicationRangeIndexable => a.start1 ≤ b.start1) :=
    ⟨fun a b => Nat.le_total a.start1 b.start1⟩
  have : IsTrans ReplicationRangeIndexable (fun a b => a.start1 ≤ b.start1) :=
    ⟨fun _ _ _ h1 h2 => Nat.le_trans h1 h2⟩
  exact List.pairwise_insertionSort _ _

/-- Sorting brings a wrapped arc behind the others. -/
theorem plainBefore_sortRanges {segments : List ReplicationRangeIndexable}
    (hshape : ∀ s ∈ segments, Shape R s) (hapart : WrappedApart segments) :
    (sortRanges segments).Pairwise PlainBefore := by
  have hperm := sortRanges_perm segments
  have hapart' : (sortRanges segments).Pairwise
      fun a b => ApartFrom a b ∧ ApartFrom b a :=
    (hperm.pairwise_iff fun h => ⟨h.2, h.1⟩).mpr hapart
  refine List.Pairwise.imp_of_mem ?_
    ((sortRanges_sorted segments).and hapart')
  rintro a b ha hb ⟨hle, hab, hba⟩
  refine ⟨hle, ?_, fun hw => (hba hw).2⟩
  cases hw : a.wrapped with
  | false => rfl
  | true =>
      obtain ⟨hplain, hend, _⟩ := hab hw
      obtain ⟨_, hend2, hstart, _⟩ :=
        (hshape b (hperm.mem_iff.mp hb)).plain hplain
      omega

/-- **Merging ranges loses no coverage** where no wrapped range overlaps another
one or starts where one ends, and the extents of touching ranges are kept by
`Number`. -/
theorem mergeRanges_covers {segments : List ReplicationRangeIndexable}
    {owner : PeerHash} (id : String) (hne : segments ≠ [])
    (hshape : ∀ s ∈ segments, Shape R s)
    (howner : ∀ s ∈ segments, s.hash = owner)
    (hapart : WrappedApart segments) (hexact : AllExtentsExact R segments) :
    ∃ merged, mergeRanges R id segments = some merged ∧
      (∀ s ∈ segments, ∀ p, s.contains p = true → merged.contains p = true) ∧
      (merged.mode = .Strict ↔ ∃ s ∈ segments, s.mode = .Strict) := by
  match segments, hne with
  | [segment], _ => exact ⟨segment, rfl, by simp, by simp⟩
  | first :: second :: others, _ =>
      have hall : (first :: second :: others).all
          (fun x => x.hash = first.hash) = true := by
        rw [List.all_eq_true]
        intro x hx
        simp [howner x hx, howner first (by simp)]
      have hperm := sortRanges_perm (first :: second :: others)
      have hplain := plainBefore_sortRanges hshape hapart
      rw [AllExtentsExact] at hexact
      rw [mergeRanges, if_pos hall]
      · cases hsort : sortRanges (first :: second :: others) with
        | nil =>
            rw [hsort] at hperm
            simp at hperm
        | cons current rest =>
            rw [hsort] at hperm hplain hexact
            obtain ⟨merged, hmerged, hspec, _⟩ := exists_mergeArcs current rest
              (fun a ha => hshape a (hperm.mem_iff.mp ha)) hplain hexact
            have hstrict : (∃ m ∈ merged, m.mode = .Strict) ↔
                ∃ s ∈ first :: second :: others, s.mode = .Strict := by
              rw [hspec.strict]
              exact exists_congr fun a => and_congr_left' hperm.mem_iff
            have hcovers : ∀ s ∈ first :: second :: others, ∀ p,
                s.contains p = true → ∃ m ∈ merged, m.contains p = true :=
              fun s hs => hspec.covers s (hperm.mem_iff.mpr hs)
            simp only [hmerged]
            match merged, hspec.nonempty with
            | [arc], _ =>
                exact ⟨arc, rfl, by simpa using hcovers, by simpa using hstrict⟩
            | arc :: next :: more, _ =>
                obtain ⟨r, hr, hr_covers, hr_mode⟩ := exists_ringWithoutGap
                  hspec.tidy (by simp) id first.hash
                refine ⟨r, hr, fun s hs p hp => ?_, hr_mode.trans hstrict⟩
                obtain ⟨m, hm, hmp⟩ := hcovers s hs p hp
                exact hr_covers m hm p hmp
      · simp

end MergePass

section AroundZero

def plainArc (offset width : Nat) : ReplicationRangeIndexable where
  id := "id"
  hash := "owner"
  timestamp := 1
  start1 := offset
  end1 := offset + width
  start2 := offset
  end2 := offset + width
  width := width
  mode := .NonStrict

/-- The last five points of the ring and the first five. -/
def wrappedArc : ReplicationRangeIndexable where
  id := "id"
  hash := "owner"
  timestamp := 1
  start1 := 4294967290
  end1 := 4294967295
  start2 := 0
  end2 := 5
  width := 10
  mode := .NonStrict

/-- Both are what the constructor builds. -/
theorem construct_arcs :
    ReplicationRangeIndexable.construct .u32 "id" "owner" 1 .NonStrict 100 10 =
        some (plainArc 100 10) ∧
      ReplicationRangeIndexable.construct .u32 "id" "owner" 1 .NonStrict 0 10 =
        some (plainArc 0 10) ∧
      ReplicationRangeIndexable.construct .u32 "id" "owner" 1 .NonStrict
        4294967290 10 = some wrappedArc :=
  ⟨rfl, rfl, rfl⟩

/-- The wrapped arc ends before the plain one starts. -/
theorem mergeRanges_covers_wrapped :
    ∃ merged,
      mergeRanges .u32 "new" [plainArc 100 10, wrappedArc] = some merged ∧
      (∀ s ∈ [plainArc 100 10, wrappedArc], ∀ p, s.contains p = true →
        merged.contains p = true) ∧
      (merged.mode = .Strict ↔
        ∃ s ∈ [plainArc 100 10, wrappedArc], s.mode = .Strict) := by
  have howner : ∀ s ∈ [plainArc 100 10, wrappedArc], s.hash = "owner" := by
    decide
  refine mergeRanges_covers "new" (by simp) ?_ howner ?_ ?_
  · have hplain := ReplicationRangeIndexable.shape_of_construct
      construct_arcs.1
    have hwrapped := ReplicationRangeIndexable.shape_of_construct
      construct_arcs.2.2
    simpa using ⟨hplain, hwrapped⟩
  · simp [WrappedApart, ApartFrom, plainArc, wrappedArc,
      ReplicationRangeIndexable.wrapped]
  · simp [AllExtentsExact, sortRanges, ExtentsExact, plainArc, wrappedArc]

/-- The wrapped arc ends after the plain one has started. -/
theorem not_mergeRanges_covers_aroundZero :
    ∃ merged, mergeRanges .u32 "new" [plainArc 0 10, wrappedArc] = some merged ∧
      (plainArc 0 10).contains 7 = true ∧ merged.contains 7 = false := by
  refine ⟨_, rfl, ?_, ?_⟩
  · decide
  · decide

end AroundZero

end SharedLog
end Peerbit
