import Peerbit.RatelessIblt.Encoder

/-!
# The decoder

A decoder takes its own symbols out of the coded symbols that it receives.  A
coded symbol that then holds one symbol only gives it away: the symbol is taken
out of all other coded symbols, which may leave only one symbol in these in turn.

Coded symbols that hold one symbol or none wait in `decodable`, and are counted
when they are handled.
-/

namespace Peerbit
namespace RatelessIblt

universe u

structure Decoder (T : Type u) where
  coded : List (CodedSymbol T)
  local_ : Encoder T
  remote : Encoder T
  window : Encoder T
  decodable : List Nat
  numDecoded : Nat

section Operations

variable {T : Type u} [Symbol T]

/-- The count of one symbol, and its hash. -/
def CodedSymbol.isSingle (c : CodedSymbol T) : Bool :=
  (decide (c.count = 1) || decide (c.count = -1)) &&
    decide (c.hash = Symbol.hash c.symbol)

namespace Decoder

def empty : Decoder T where
  coded := []
  local_ := .empty
  remote := .empty
  window := .empty
  decodable := []
  numDecoded := 0

def addSymbol (d : Decoder T) (sym : T) : Decoder T :=
  { d with window := d.window.addHashedSymbol (hashed sym) }

variable (nextIndex : RandomMapping → RandomMapping)

def addCodedSymbol (d : Decoder T) (sym : CodedSymbol T) : Decoder T :=
  let window := d.window.applyWindow nextIndex sym .REMOVE
  let remote := d.remote.applyWindow nextIndex window.1 .REMOVE
  let local_ := d.local_.applyWindow nextIndex remote.1 .ADD
  let nextSym := local_.1
  { d with
    window := window.2
    remote := remote.2
    local_ := local_.2
    coded := d.coded ++ [nextSym]
    decodable :=
      if nextSym.isSingle || (decide (nextSym.count = 0) && decide (nextSym.hash = 0)) then
        d.decodable ++ [d.coded.length]
      else d.decodable }

/-- The loop of `apply_new_symbol` over the coded symbols and `decodable`.  The
index grows with every step, so that there are no more steps than coded symbols. -/
def applyNewLoop (sym : HashedSymbol T) (direction : Direction) :
    Nat → RandomMapping → List (CodedSymbol T) → List Nat →
      RandomMapping × List (CodedSymbol T) × List Nat
  | 0, mapp, coded, decodable => (mapp, coded, decodable)
  | fuel + 1, mapp, coded, decodable =>
      match coded[mapp.lastIdx]? with
      | none => (mapp, coded, decodable)
      | some c =>
          applyNewLoop sym direction fuel (nextIndex mapp)
            (coded.set mapp.lastIdx (c.apply sym direction))
            (if (c.apply sym direction).isSingle then decodable ++ [mapp.lastIdx]
              else decodable)

def applyNewSymbol (d : Decoder T) (sym : HashedSymbol T) (direction : Direction) :
    RandomMapping × List (CodedSymbol T) × List Nat :=
  applyNewLoop nextIndex sym direction d.coded.length (.start sym.hash) d.coded d.decodable

/-- A coded symbol that holds one symbol, of the remote side or of the local one. -/
def recover (d : Decoder T) (sym : CodedSymbol T) (isRemote : Bool) : Decoder T :=
  let newSym : HashedSymbol T :=
    { symbol := Symbol.xor Symbol.zero sym.symbol, hash := sym.hash }
  let applied := d.applyNewSymbol nextIndex newSym (if isRemote then .REMOVE else .ADD)
  { d with
    coded := applied.2.1
    decodable := applied.2.2
    remote :=
      if isRemote then d.remote.addHashedSymbolWithMapping newSym applied.1 else d.remote
    local_ :=
      if isRemote then d.local_ else d.local_.addHashedSymbolWithMapping newSym applied.1
    numDecoded := d.numDecoded + 1 }

/-- The loop of `try_decode`; `none` is a panic, or that the steps run out. -/
def tryDecodeLoop : Nat → Nat → Decoder T → Option (Except DecodeError Unit × Decoder T)
  | 0, _, _ => none
  | fuel + 1, didx, d =>
      match d.decodable[didx]? with
      | none => some (.ok (), { d with decodable := [] })
      | some cidx =>
          match d.coded[cidx]? with
          | none => none
          | some sym =>
              if sym.count = 1 then
                tryDecodeLoop fuel (didx + 1) (d.recover nextIndex sym true)
              else if sym.count = -1 then
                tryDecodeLoop fuel (didx + 1) (d.recover nextIndex sym false)
              else if sym.count = 0 then
                tryDecodeLoop fuel (didx + 1) { d with numDecoded := d.numDecoded + 1 }
              else some (.error .InvalidDegree, d)

/-- A coded symbol comes into `decodable` once, so that the loop takes no more
steps than there are (`tryDecode_ok`). -/
def tryDecode (d : Decoder T) : Option (Except DecodeError Unit × Decoder T) :=
  d.tryDecodeLoop nextIndex (d.coded.length + 1) 0

def decoded (d : Decoder T) : Bool :=
  decide (d.numDecoded = d.coded.length)

def getRemoteSymbols (d : Decoder T) : List (HashedSymbol T) :=
  d.remote.symbols

def getLocalSymbols (d : Decoder T) : List (HashedSymbol T) :=
  d.local_.symbols

@[simp] theorem length_addCodedSymbol (d : Decoder T) (sym : CodedSymbol T) :
    (d.addCodedSymbol nextIndex sym).coded.length = d.coded.length + 1 :=
  List.length_append

end Decoder

end Operations

/-! ### Taking a symbol out -/

section Loops

variable {T : Type u} [Symbol T]
variable {nextIndex : RandomMapping → RandomMapping}

theorem Ahead.not_maps {hash : UInt64} {t i : Nat} {m : RandomMapping}
    (hnext : Increasing nextIndex) (h : Ahead nextIndex hash t m) (hle : t ≤ i)
    (hlt : i < m.lastIdx) : ¬ Maps nextIndex hash i := by
  obtain ⟨-, k, rfl, hbefore⟩ := h
  rintro ⟨l, hl⟩
  rcases Nat.lt_or_ge l k with hlk | hkl
  · have hless := hbefore l hlk
    omega
  · have hmono := (hnext.strictMono hash).monotone hkl
    simp only [hl] at hmono
    omega

theorem Ahead.later {hash : UInt64} {t t' : Nat} {m : RandomMapping}
    (h : Ahead nextIndex hash t m) (hle : t ≤ t') (hlast : t' ≤ m.lastIdx) :
    Ahead nextIndex hash t' m := by
  obtain ⟨-, k, hk, hbefore⟩ := h
  exact ⟨hlast, k, hk, fun l hl => Nat.lt_of_lt_of_le (hbefore l hl) hle⟩

/-- What the loop of `apply_new_symbol` does from the index `t` on. -/
structure TakesOut (nextIndex : RandomMapping → RandomMapping) (sym : HashedSymbol T)
    (direction : Direction) (t : Nat) (coded : List (CodedSymbol T)) (decodable : List Nat)
    (applied : RandomMapping × List (CodedSymbol T) × List Nat) : Prop where
  ahead : Ahead nextIndex sym.hash coded.length applied.1
  length : applied.2.1.length = coded.length
  mapped : ∀ i c, coded[i]? = some c → t ≤ i → Maps nextIndex sym.hash i →
    applied.2.1[i]? = some (c.apply sym direction)
  others : ∀ i, i < t ∨ ¬ Maps nextIndex sym.hash i → applied.2.1[i]? = coded[i]?
  decodable : ∃ singles, applied.2.2 = decodable ++ singles ∧
    singles.Pairwise (· < ·) ∧ ∀ i ∈ singles, t ≤ i ∧ Maps nextIndex sym.hash i ∧
      ∃ c, applied.2.1[i]? = some c ∧ c.isSingle = true

/-- The step of the loop at the index `j`. -/
theorem TakesOut.cons {sym : HashedSymbol T} {direction : Direction} {t j : Nat}
    {coded : List (CodedSymbol T)} {decodable : List Nat} {c : CodedSymbol T}
    {applied : RandomMapping × List (CodedSymbol T) × List Nat}
    (h : TakesOut nextIndex sym direction (j + 1) (coded.set j (c.apply sym direction))
      (if (c.apply sym direction).isSingle then decodable ++ [j] else decodable) applied)
    (hc : coded[j]? = some c) (hle : t ≤ j) (hmaps : Maps nextIndex sym.hash j)
    (hskip : ∀ i, t ≤ i → i < j → ¬ Maps nextIndex sym.hash i) :
    TakesOut nextIndex sym direction t coded decodable applied := by
  have hlt : j < coded.length := (List.getElem?_eq_some_iff.mp hc).1
  have hj : applied.2.1[j]? = some (c.apply sym direction) := by
    rw [h.others j (.inl (Nat.lt_succ_self j)), List.getElem?_set_self hlt]
  constructor
  case ahead => simpa using h.ahead
  case length => simpa using h.length
  case mapped =>
    intro i c' hi hti hmapsi
    rcases Nat.lt_trichotomy i j with hij | rfl | hij
    · exact absurd hmapsi (hskip i hti hij)
    · rw [hc] at hi
      rw [hj, ← Option.some.inj hi]
    · refine h.mapped i c' ?_ hij hmapsi
      rwa [List.getElem?_set_ne (by omega)]
  case others =>
    intro i hi
    have hne : j ≠ i := by
      rintro rfl
      rcases hi with hi | hi
      · omega
      · exact hi hmaps
    rw [h.others i (hi.imp (fun hit => by omega) id), List.getElem?_set_ne hne]
  case decodable =>
    obtain ⟨singles, hsingles, hsorted, hall⟩ := h.decodable
    have hlater : ∀ i ∈ singles, t ≤ i ∧ Maps nextIndex sym.hash i ∧
        ∃ c, applied.2.1[i]? = some c ∧ c.isSingle = true := by
      intro i hi
      obtain ⟨hji, hrest⟩ := hall i hi
      exact ⟨by omega, hrest⟩
    by_cases hsingle : (c.apply sym direction).isSingle = true
    · rw [if_pos hsingle, List.append_assoc] at hsingles
      refine ⟨j :: singles, hsingles, List.pairwise_cons.mpr ⟨?_, hsorted⟩, ?_⟩
      · exact fun i hi => (hall i hi).1
      · intro i hi
        rcases List.mem_cons.mp hi with rfl | hi
        · exact ⟨hle, hmaps, _, hj, hsingle⟩
        · exact hlater i hi
    · rw [if_neg hsingle] at hsingles
      exact ⟨singles, hsingles, hsorted, hlater⟩

theorem applyNewLoop_spec {sym : HashedSymbol T} {direction : Direction}
    (hnext : Increasing nextIndex) {fuel t : Nat} {mapp : RandomMapping}
    {coded : List (CodedSymbol T)} {decodable : List Nat}
    (hahead : Ahead nextIndex sym.hash t mapp) (ht : t ≤ coded.length)
    (hfuel : coded.length ≤ t + fuel) :
    TakesOut nextIndex sym direction t coded decodable
      (Decoder.applyNewLoop nextIndex sym direction fuel mapp coded decodable) := by
  induction fuel generalizing t mapp coded decodable with
  | zero =>
      obtain rfl : t = coded.length := by omega
      exact {
        ahead := hahead
        length := rfl
        mapped := fun i c hc hle => by
          have hlt := (List.getElem?_eq_some_iff.mp hc).1
          omega
        others := fun _ _ => rfl
        decodable := ⟨[], by simp [Decoder.applyNewLoop], .nil, by simp⟩ }
  | succ fuel ih =>
      rw [Decoder.applyNewLoop]
      cases hc : coded[mapp.lastIdx]? with
      | none =>
          have hend : coded.length ≤ mapp.lastIdx := List.getElem?_eq_none_iff.mp hc
          exact {
            ahead := hahead.later ht hend
            length := rfl
            mapped := fun i c hi hle hmaps => by
              have hlt := (List.getElem?_eq_some_iff.mp hi).1
              exact absurd hmaps (hahead.not_maps hnext hle (by omega))
            others := fun _ _ => rfl
            decodable := ⟨[], by simp, .nil, by simp⟩ }
      | some c =>
          have hlt : mapp.lastIdx < coded.length := (List.getElem?_eq_some_iff.mp hc).1
          have hmaps : Maps nextIndex sym.hash mapp.lastIdx :=
            ((hahead.later hahead.1 (Nat.le_refl _)).lastIdx_eq_iff hnext).mp rfl
          have hle := hahead.1
          refine TakesOut.cons ?_ hc hle hmaps fun i hti hij =>
            hahead.not_maps hnext hti hij
          refine ih ((hahead.later hle (Nat.le_refl _)).next hnext rfl) ?_ ?_
          · rw [List.length_set]
            omega
          · rw [List.length_set]
            omega

/-- The loop puts all that is left with one symbol into `decodable`. -/
theorem applyNewLoop_singles {sym : HashedSymbol T} {direction : Direction}
    (hnext : Increasing nextIndex) {fuel t : Nat} {mapp : RandomMapping}
    {coded : List (CodedSymbol T)} {decodable : List Nat}
    {applied : RandomMapping × List (CodedSymbol T) × List Nat}
    (hahead : Ahead nextIndex sym.hash t mapp) (ht : t ≤ coded.length)
    (hfuel : coded.length ≤ t + fuel)
    (happlied : Decoder.applyNewLoop nextIndex sym direction fuel mapp coded decodable =
      applied) :
    ∃ singles, applied.2.2 = decodable ++ singles ∧
      ∀ i c, t ≤ i → Maps nextIndex sym.hash i → applied.2.1[i]? = some c →
        c.isSingle = true → i ∈ singles := by
  induction fuel generalizing t mapp coded decodable with
  | zero =>
      obtain rfl := happlied
      refine ⟨[], by simp [Decoder.applyNewLoop], fun i c hle _ hc => ?_⟩
      have hlt : i < coded.length := (List.getElem?_eq_some_iff.mp hc).1
      omega
  | succ fuel ih =>
      rw [Decoder.applyNewLoop] at happlied
      cases hcoded : coded[mapp.lastIdx]? with
      | none =>
          rw [hcoded] at happlied
          obtain rfl := happlied
          have hend : coded.length ≤ mapp.lastIdx := List.getElem?_eq_none_iff.mp hcoded
          refine ⟨[], by simp, fun i c hle hmaps hc => ?_⟩
          have hlt : i < coded.length := (List.getElem?_eq_some_iff.mp hc).1
          exact absurd hmaps (hahead.not_maps hnext hle (by omega))
      | some c₀ =>
          rw [hcoded] at happlied
          have hlt : mapp.lastIdx < coded.length := (List.getElem?_eq_some_iff.mp hcoded).1
          have hlength : (coded.set mapp.lastIdx (c₀.apply sym direction)).length =
              coded.length := List.length_set
          have hle := hahead.1
          have hahead' := (hahead.later hle (Nat.le_refl _)).next hnext rfl
          have htakes : TakesOut nextIndex sym direction (mapp.lastIdx + 1)
              (coded.set mapp.lastIdx (c₀.apply sym direction))
              (if (c₀.apply sym direction).isSingle then decodable ++ [mapp.lastIdx]
                else decodable) applied := by
            rw [← happlied]
            exact applyNewLoop_spec hnext hahead' (by rw [hlength]; omega)
              (by rw [hlength]; omega)
          have hroot : applied.2.1[mapp.lastIdx]? = some (c₀.apply sym direction) := by
            rw [htakes.others _ (.inl (Nat.lt_succ_self _)), List.getElem?_set_self hlt]
          obtain ⟨singles, hsingles, hall⟩ :=
            ih hahead' (by rw [hlength]; omega) (by rw [hlength]; omega) happlied
          refine ⟨if (c₀.apply sym direction).isSingle then mapp.lastIdx :: singles
            else singles, ?_, fun i c hti hmaps hc hsingle => ?_⟩
          · rw [hsingles]
            split
            · simp
            · rfl
          · rcases Nat.lt_trichotomy i mapp.lastIdx with hi | rfl | hi
            · exact absurd hmaps (hahead.not_maps hnext hti hi)
            · rw [hroot] at hc
              obtain rfl := Option.some.inj hc
              simp [hsingle]
            · have hmem := hall i c hi hmaps hc hsingle
              split
              · exact List.mem_cons_of_mem _ hmem
              · exact hmem

end Loops

end RatelessIblt
end Peerbit
