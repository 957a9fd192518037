import Peerbit.RatelessIblt.Unbalanced
import Peerbit.SharedLog.Coordinates

/-!
# Rateless sync

A sender encodes the coordinates of its entries, and a receiver loads its decoder with
the coordinates of its own entries in the range of the sender.  When the decoder has
decoded all, the receiver queues the coordinates of the remote side for request.

Entries may share coordinates, and a coordinate that both sides hold equally often
cancels.  So an entry is requested when one of its coordinates occurs more often at the
sender; and decoding comes to an end when no coordinate occurs twice more often on one
side (`requestsMissing_iff`).
-/

namespace Peerbit
namespace SharedLog

open Lib
open RatelessIblt

/-! ### The sender -/

def minSyncIbltSize : Nat := 333

def maxSyncWithSimpleMethod : Nat := 1000

/-- The test for `entriesToSyncNaively`, in a map of this size. -/
def EntryReplicated.syncNaively (size : Nat) (entry : EntryReplicated) : Bool :=
  entry.assignedToRangeBoundary || decide (size < minSyncIbltSize)

/-- The entries of a map, by hash, whose coordinates `onMaybeMissingEntries` puts into
`allCoordinatesToSyncWithIblt`. -/
def entriesToSyncWithIblt (entries : List EntryReplicated) : List EntryReplicated :=
  let naively := entries.filter (fun e => e.syncNaively entries.length)
  let rest := entries.filter (fun e => !e.syncNaively entries.length)
  if rest.flatMap EntryReplicated.coordinates = [] ∨
      maxSyncWithSimpleMethod < naively.length then entries
  else rest

/-- The symbols of the encoder. -/
def encoderSymbols (entries : List EntryReplicated) : List UInt64 :=
  ((entriesToSyncWithIblt entries).flatMap EntryReplicated.coordinates).insertionSort
    (· ≤ ·)

/-! ### The receiver -/

/-- `buildEncoderOrDecoderFromRange`, for a decoder; `none` is `false`. -/
def decoderSymbols (R : Resolution) (range : Nat × Nat) (index : List EntryReplicated) :
    Option (List UInt64) :=
  let entries := index.filter (EntryReplicated.matchesSome (startSyncQuery R range))
  if entries = [] then none else some (entries.flatMap EntryReplicated.coordinates)

/-- The symbols of the encoder and of the decoder; `none` when there is no coordinate to
send, or when the receiver has no entry of the range and requests all. -/
def startedSync (R : Resolution) (entries index : List EntryReplicated) :
    Option (List UInt64 × List UInt64) :=
  (syncRange R ((encoderSymbols entries).map UInt64.toNat)).bind (fun range =>
    (decoderSymbols R range index).map (fun symbols => (encoderSymbols entries, symbols)))

/-- `allMissingSymbolsInRemote`, which is queued for request. -/
def allMissingSymbolsInRemote (d : Decoder UInt64) : List UInt64 :=
  d.getRemoteSymbols.map HashedSymbol.symbol

/-! ### What is requested -/

/-- The receiver does not have an entry. -/
def Lacks (index : List EntryReplicated) (entry : EntryReplicated) : Prop :=
  ∀ e ∈ index, e.hash ≠ entry.hash

variable (nextIndex : RandomMapping → RandomMapping)

/-- Whenever all is decoded, a coordinate of each entry that the receiver lacks is queued;
and all is decoded after finitely many coded symbols.  The first message has one at
least. -/
def RequestsMissing (R : Resolution) (entries index : List EntryReplicated) : Prop :=
  ∀ C D, startedSync R entries index = some (C, D) →
    (∀ s d, (sessions nextIndex C D).Run Machine.Free s → 1 ≤ s.decoder.coded.length →
      s.decoder.tryDecode nextIndex = some (.ok (), d) → d.decoded = true →
      ∀ e ∈ entriesToSyncWithIblt entries, Lacks index e →
        ∃ c ∈ e.coordinates, c ∈ allMissingSymbolsInRemote d) ∧
    ∃ n, ∀ s, (sessions nextIndex C D).Run Machine.Free s → n ≤ s.decoder.coded.length →
      ∃ d, s.decoder.tryDecode nextIndex = some (.ok (), d) ∧ d.decoded = true

/-- The reconciliation is sound for a set: its hashes do not collide, and its symbols are
each alone in some coded symbol. -/
def SoundFor (U : Finset UInt64) : Prop :=
  CollisionFree U ∧ ∃ n, Separates nextIndex U n

variable {nextIndex} {R : Resolution} {entries index : List EntryReplicated}
variable {C D : List UInt64}

theorem mem_allMissingSymbolsInRemote {d : Decoder UInt64}
    (h : d.getRemoteSymbols.Perm ((surplus C D).map hashed)) {c : UInt64} :
    c ∈ allMissingSymbolsInRemote d ↔ D.count c < C.count c := by
  have hperm := (h.map HashedSymbol.symbol).mem_iff (a := c)
  rw [List.map_map] at hperm
  rw [allMissingSymbolsInRemote, hperm, ← mem_surplus]
  exact ⟨fun hc => by simpa [hashed] using hc, fun hc => by simpa [hashed] using hc⟩

/-- **All missing entries are requested** when no coordinate occurs twice more often on
one side, and each missing entry has a coordinate that occurs more often at the sender;
and not otherwise. -/
theorem requestsMissing_iff (hnext : Increasing nextIndex)
    (hsound : ∀ C D, startedSync R entries index = some (C, D) →
      SoundFor nextIndex (differing C D)) :
    RequestsMissing nextIndex R entries index ↔
      ∀ C D, startedSync R entries index = some (C, D) →
        EvenlyHeld C D ∧ ∀ e ∈ entriesToSyncWithIblt entries, Lacks index e →
          ∃ c ∈ e.coordinates, D.count c < C.count c := by
  refine ⟨fun h C D hstarted => ?_, fun h C D hstarted => ?_⟩
  · obtain ⟨hfree, n, hseparates⟩ := hsound C D hstarted
    obtain ⟨hrequested, m, hcompletes⟩ := h C D hstarted
    have hbalanced : EvenlyHeld C D := by
      by_contra hnot
      obtain ⟨s, hrun, hlength, hnever⟩ :=
        exists_not_decoded hnext hfree hseparates hnot (Nat.le_max_left n m)
      obtain ⟨d, hok, hdecoded⟩ := hcompletes s hrun (by omega)
      rw [hnever d hok] at hdecoded
      cases hdecoded
    refine ⟨hbalanced, fun e he hlacks => ?_⟩
    obtain ⟨s, hrun, hlength, -⟩ := exists_received hnext C D (m + 1)
    obtain ⟨d, hok, hdecoded⟩ := hcompletes s hrun (by omega)
    obtain ⟨c, hc, hqueued⟩ := hrequested s d hrun (by omega) hok hdecoded e he hlacks
    have hremote := remote_of_decoded hnext hbalanced hfree hrun (by omega) hok hdecoded
    exact ⟨c, hc, (mem_allMissingSymbolsInRemote hremote).mp hqueued⟩
  · obtain ⟨hfree, n, hseparates⟩ := hsound C D hstarted
    obtain ⟨hbalanced, hmissing⟩ := h C D hstarted
    refine ⟨fun s d hrun hn hok hdecoded e he hlacks => ?_, n, fun s hrun hn =>
      decoded_of_run hnext hbalanced hfree hseparates hrun hn⟩
    obtain ⟨c, hc, hlt⟩ := hmissing e he hlacks
    have hremote := remote_of_decoded hnext hbalanced hfree hrun hn hok hdecoded
    exact ⟨c, hc, (mem_allMissingSymbolsInRemote hremote).mpr hlt⟩

/-- Two entries, of which the receiver has the one with the coordinate `2`. -/
theorem requestsMissing_two :
    RequestsMissing RandomMapping.nextIndex .u64
      [⟨"a", [1], false⟩, ⟨"b", [2], false⟩] [⟨"b", [2], false⟩] := by
  have hstarted : startedSync .u64 [⟨"a", [1], false⟩, ⟨"b", [2], false⟩]
      [⟨"b", [2], false⟩] = some ([1, 2], [2]) := by
    decide +kernel
  have hdiffering : differing ([1, 2] : List UInt64) [2] = {1} := by
    decide +kernel
  refine (requestsMissing_iff increasing_nextIndex fun C D h => ?_).mpr fun C D h => ?_
  · obtain ⟨rfl, rfl⟩ := Prod.mk.inj (Option.some.inj (hstarted.symm.trans h))
    rw [hdiffering]
    refine ⟨⟨by simp, fun S hsub hcard => ?_⟩, 1, fun s hs => ⟨0, Nat.zero_lt_one, ?_⟩⟩
    · have hle := Finset.card_le_card hsub
      rw [Finset.card_singleton] at hle
      omega
    · rw [goesTo_zero, Finset.mem_singleton.mp hs]
  · obtain ⟨rfl, rfl⟩ := Prod.mk.inj (Option.some.inj (hstarted.symm.trans h))
    refine ⟨evenlyHeld_of_nodup (by decide) (by decide), fun e he hlacks => ?_⟩
    have hentries : e ∈ [⟨"a", [1], false⟩, ⟨"b", [2], false⟩] := he
    rcases List.mem_cons.mp hentries with rfl | hb
    · exact ⟨1, by simp, by decide⟩
    · rw [List.mem_singleton.mp hb] at hlacks
      exact absurd rfl (hlacks ⟨"b", [2], false⟩ (by simp))

/-- An entry is not requested when the receiver has another one with its coordinate. -/
theorem not_requestsMissing_shared :
    ¬ RequestsMissing RandomMapping.nextIndex .u64 [⟨"a", [1], false⟩]
      [⟨"b", [1], false⟩] := by
  intro h
  obtain ⟨hrequested, -⟩ := h [1] [1] (by decide +kernel)
  have hdecodes : ((sessions RandomMapping.nextIndex ([1] : List UInt64) [1]).exec
      (sessions RandomMapping.nextIndex [1] [1]).init [.codedSymbol]).map
        (fun s => (s.decoder.coded.length,
          (s.decoder.tryDecode RandomMapping.nextIndex).map (fun result =>
            (result.1.isOk, result.2.decoded, allMissingSymbolsInRemote result.2)))) =
      some (1, some (true, true, [])) := by
    decide +kernel
  obtain ⟨s, hexec, hs⟩ := Option.map_eq_some_iff.mp hdecodes
  obtain ⟨hlength, hdecode⟩ := Prod.mk.inj hs
  obtain ⟨⟨result, d⟩, hresult, hd⟩ := Option.map_eq_some_iff.mp hdecode
  obtain ⟨hok, hrest⟩ := Prod.mk.inj hd
  obtain ⟨hdecoded, hnothing⟩ := Prod.mk.inj hrest
  obtain rfl : result = .ok () := by
    cases result with
    | ok _ => rfl
    | error e => cases hok
  obtain ⟨c, -, hc⟩ := hrequested s d (Machine.Run.of_exec .init _ hexec) (by omega) hresult
    hdecoded ⟨"a", [1], false⟩ (by decide) (by simp [Lacks])
  rw [hnothing] at hc
  cases hc

end SharedLog
end Peerbit
