import Mathlib

/-!
# The last word

Messages with times speak of keys: a message gives a key a value, or it is silent
about it.  A store that has handled some of them, in whatever order, should have
under each key what the latest message that speaks of the key gives it.

Whoever takes them in the order of their times has this (`lastWord_foldl`).  In
another order each message must be met in the right way: one that is outdated must
change nothing, and one that is the newest must be taken.
-/

namespace Peerbit
namespace Lib

universe u v w x

section LastWord

variable {M : Type u} {K : Type v} {V : Type w} {T : Type x} [LinearOrder T]
variable (time : M → T) (tells : M → K → Option V)

/-- The value is what the latest of the messages about the key tells, or the default
where all are silent about it. -/
def LastWord (default : V) (messages : List M) (key : K) (value : V) : Prop :=
  (value = default ∧ ∀ m ∈ messages, tells m key = none) ∨
    ∃ m ∈ messages, tells m key = some value ∧
      ∀ m' ∈ messages, tells m' key ≠ none → time m' ≤ time m

variable {time tells} {default value word : V} {messages : List M} {key : K} {m m' : M}

variable (time tells default key) in
theorem lastWord_nil : LastWord time tells default [] key default :=
  .inl ⟨rfl, fun _ h => (nomatch h)⟩

/-- A message that is silent about the key leaves its value. -/
theorem LastWord.silent (h : LastWord time tells default messages key value)
    (hsilent : tells m key = none) :
    LastWord time tells default (m :: messages) key value := by
  rcases h with ⟨hvalue, hall⟩ | ⟨n, hn, htells, hlatest⟩
  · exact .inl ⟨hvalue, List.forall_mem_cons.mpr ⟨hsilent, hall⟩⟩
  · refine .inr ⟨n, List.mem_cons_of_mem m hn, htells, ?_⟩
    exact List.forall_mem_cons.mpr ⟨fun hspeaks => absurd hsilent hspeaks, hlatest⟩

/-- The newest message about a key has the last word. -/
theorem lastWord_newest (htells : tells m key = some value)
    (hnewest : ∀ m' ∈ messages, tells m' key ≠ none → time m' ≤ time m) :
    LastWord time tells default (m :: messages) key value :=
  .inr ⟨m, List.mem_cons_self, htells,
    List.forall_mem_cons.mpr ⟨fun _ => le_refl _, hnewest⟩⟩

/-- An outdated message has not. -/
theorem LastWord.outdated (h : LastWord time tells default messages key value)
    (hm' : m' ∈ messages) (hspeaks : tells m' key ≠ none) (hle : time m ≤ time m') :
    LastWord time tells default (m :: messages) key value := by
  rcases h with ⟨-, hall⟩ | ⟨n, hn, htells, hlatest⟩
  · exact absurd (hall m' hm') hspeaks
  · refine .inr ⟨n, List.mem_cons_of_mem m hn, htells, ?_⟩
    exact List.forall_mem_cons.mpr
      ⟨fun _ => hle.trans (hlatest m' hm' hspeaks), hlatest⟩

/-- A message that gives what is there may come at any time. -/
theorem LastWord.repeated (h : LastWord time tells default messages key value)
    (htells : tells m key = some value) :
    LastWord time tells default (m :: messages) key value := by
  by_cases hnewer : ∃ m' ∈ messages, tells m' key ≠ none ∧ time m < time m'
  · obtain ⟨m', hm', hspeaks, hlt⟩ := hnewer
    exact h.outdated hm' hspeaks hlt.le
  · refine lastWord_newest htells fun m' hm' hspeaks => ?_
    by_contra hnot
    exact hnewer ⟨m', hm', hspeaks, not_le.mp hnot⟩

/-- It only matters which messages there are. -/
theorem LastWord.of_mem_iff {messages' : List M}
    (h : LastWord time tells default messages key value)
    (hmem : ∀ m, m ∈ messages ↔ m ∈ messages') :
    LastWord time tells default messages' key value := by
  simpa only [LastWord, hmem] using h

/-- There is one last word where the times differ. -/
theorem LastWord.unique {value' : V}
    (h : LastWord time tells default messages key value)
    (h' : LastWord time tells default messages key value')
    (htimes : ∀ m ∈ messages, ∀ m' ∈ messages, time m = time m' → m = m') :
    value = value' := by
  rcases h with ⟨rfl, hall⟩ | ⟨n, hn, htells, hlatest⟩
  · rcases h' with ⟨rfl, -⟩ | ⟨n', hn', htells', -⟩
    · rfl
    · exact (nomatch (hall n' hn').symm.trans htells')
  · rcases h' with ⟨-, hall'⟩ | ⟨n', hn', htells', hlatest'⟩
    · exact (nomatch (hall' n hn).symm.trans htells)
    · have hle := hlatest n' hn' (by simp [htells'])
      have hle' := hlatest' n hn (by simp [htells])
      obtain rfl := htimes n hn n' hn' (le_antisymm hle' hle)
      exact Option.some.inj (htells.symm.trans htells')

/-- Taking all messages in the order of their times leads to the last word. -/
theorem lastWord_foldl {S : Type*} (read : S → K → V) {take : S → M → S}
    (htake : ∀ s, ∀ m ∈ messages, read (take s m) key = (tells m key).getD (read s key))
    {s : S} (hsorted : messages.Pairwise (fun m m' => time m < time m')) :
    LastWord time tells (read s key) messages key (read (messages.foldl take s) key) := by
  induction messages using List.reverseRecOn with
  | nil => exact lastWord_nil time tells _ key
  | append_singleton messages m ih =>
      rw [List.pairwise_append] at hsorted
      obtain ⟨hbefore, -, hlast⟩ := hsorted
      have hword := ih (fun s n hn => htake s n (List.mem_append_left _ hn)) hbefore
      have hm := htake (messages.foldl take s) m (by simp)
      rw [List.foldl_append, List.foldl_cons, List.foldl_nil, hm]
      refine LastWord.of_mem_iff ?_ fun n => (List.perm_append_singleton m messages).symm.mem_iff
      cases htells : tells m key with
      | none => exact hword.silent htells
      | some word =>
          refine lastWord_newest htells fun m' hm' _ => ?_
          exact (hlast m' hm' m (by simp)).le

end LastWord

end Lib
end Peerbit
