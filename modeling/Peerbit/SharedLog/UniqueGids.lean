import Peerbit.Lib.FirstMet
import Peerbit.Lib.InsertionMap
import Peerbit.Log.Resolve

/-!
# The gids that an exchanged head references

A head is sent together with the gids of the graphs that were merged below it.
`allEntriesWithUniqueGids` walks level by level from the head to its parents, and
keeps the first entry with each gid.

The map of gids also says what was visited.  An entry whose gid is in the map is not
only no new result, its parents are not visited either.  So a gid is missed when all
ways to it pass such an entry, which is the case already when the merge is not the
head itself but a parent with its gid (`not_referencesGids`).  None is missed when a
way leads to it that goes on only from entries that are the first ones with their
gids, as the ancestors are listed (`referencesGids_of_led`).
-/

namespace Peerbit
namespace SharedLog

open Log

section Walk

variable {α : Type}

/-- The meta record of a shallow or full entry. -/
def metaOf : ShallowOrFullEntry α → Meta
  | .shallow entry => entry.meta
  | .full entry => entry.meta

def gidOf (element : ShallowOrFullEntry α) : String := (metaOf element).gid

/-- The parents of an entry that are in the index, if the entry appends. -/
def storedNexts (index : HeadsIndex) (element : ShallowOrFullEntry α) :
    List (ShallowOrFullEntry α) :=
  if (metaOf element).type = .APPEND then
    ((metaOf element).next.filterMap index.get).map .shallow
  else []

/-- One level of the walk: the map of gids and the next level. -/
def visitLevel (index : HeadsIndex) :
    List (ShallowOrFullEntry α) → Lib.InsertionMap String (ShallowOrFullEntry α) →
      List (ShallowOrFullEntry α) →
        Lib.InsertionMap String (ShallowOrFullEntry α) × List (ShallowOrFullEntry α)
  | [], map, nexts => (map, nexts)
  | element :: curr, map, nexts =>
      if (map.get (gidOf element)).isSome then visitLevel index curr map nexts
      else
        visitLevel index curr (map.set (gidOf element) element)
          (nexts ++ storedNexts index element)

/-- The loop over the levels. -/
def visitLevels (index : HeadsIndex) :
    Nat → List (ShallowOrFullEntry α) →
      Lib.InsertionMap String (ShallowOrFullEntry α) →
        Except LogError (Lib.InsertionMap String (ShallowOrFullEntry α))
  | _, [], map => .ok map
  | 0, _ :: _, _ => .error .depth
  | fuel + 1, curr, map =>
      let visited := visitLevel index curr map []
      visitLevels index fuel visited.2 visited.1

/-- An entry of the map in full. -/
def resolveElement (s : EntryIndex α) :
    ShallowOrFullEntry α → Except LogError (Option (Entry α)) × EntryIndex α
  | .full entry => (.ok (some entry), s)
  | .shallow x => s.getOrThrow x.hash

/-- The entries of the map in full, without those that are cached as missing. -/
def resolveElements :
    List (ShallowOrFullEntry α) → EntryIndex α →
      Except LogError (List (Entry α)) × EntryIndex α
  | [], s => (.ok [], s)
  | element :: elements, s =>
      match resolveElement s element with
      | (.error e, s) => (.error e, s)
      | (.ok found, s) =>
          match resolveElements elements s with
          | (.error e, s) => (.error e, s)
          | (.ok entries, s) => (.ok (found.toList ++ entries), s)

/-- `allEntriesWithUniqueGids` -/
def allEntriesWithUniqueGids (fuel : Nat) (s : EntryIndex α) (entry : Entry α) :
    Except LogError (List (Entry α)) × EntryIndex α :=
  match visitLevels s.index fuel [.full entry] .empty with
  | .error e => (.error e, s)
  | .ok map => resolveElements (map.entries.map Prod.snd) s

/-! ### What should come of it -/

/-- The entry and its stored ancestors, through entries that append. -/
def Ancestor (index : HeadsIndex) (entry : Entry α) : ShallowOrFullEntry α → Prop :=
  Lib.Reached (storedNexts index) [.full entry]

/-- The returned entries have the gids of the ancestors, each gid once. -/
structure ReferencesGids (index : HeadsIndex) (entry : Entry α)
    (returned : List (Entry α)) : Prop where
  once : (returned.map (fun e => e.meta.gid)).Nodup
  all : ∀ gid, gid ∈ returned.map (fun e => e.meta.gid) ↔
    ∃ x, Ancestor index entry x ∧ gidOf x = gid

/-- The stored ancestors are listed level by level, each by every way to it and none
left out.  To each gid of an ancestor leads a way that goes on only from entries that
are the first ones listed with their gids. -/
def LedToGids (index : HeadsIndex) (entry : Entry α) : Prop :=
  ∀ x, Ancestor index entry x → ∃ n before y,
    Lib.Led gidOf (storedNexts index) [.full entry] n before y ∧ gidOf y = gidOf x

end Walk

/-! ### The levels -/

section Levels

variable {α : Type} {index : HeadsIndex}
variable {map : Lib.InsertionMap String (ShallowOrFullEntry α)}
variable {curr nexts : List (ShallowOrFullEntry α)}

/-- The entries of the map are under their gids, and are ancestors. -/
structure GidMap (index : HeadsIndex) (entry : Entry α)
    (map : Lib.InsertionMap String (ShallowOrFullEntry α)) : Prop where
  gid : ∀ gid x, map.get gid = some x → gidOf x = gid
  ancestor : ∀ gid x, map.get gid = some x → Ancestor index entry x

variable (index) in
/-- A level adds the entries with new gids, and goes on from these. -/
theorem visitLevel_eq (curr : List (ShallowOrFullEntry α))
    (map : Lib.InsertionMap String (ShallowOrFullEntry α))
    (nexts : List (ShallowOrFullEntry α)) :
    (visitLevel index curr map nexts).1.keys =
        map.keys ++ (Lib.firsts gidOf map.keys curr).map gidOf ∧
      (visitLevel index curr map nexts).2 =
        nexts ++ (Lib.firsts gidOf map.keys curr).flatMap (storedNexts index) := by
  induction curr generalizing map nexts with
  | nil => simp [visitLevel, Lib.firsts]
  | cons element curr ih =>
      unfold visitLevel Lib.firsts
      by_cases hseen : gidOf element ∈ map.keys
      · rw [if_pos ((map.mem_keys _).mp hseen), if_pos hseen]
        exact ih map nexts
      · rw [if_neg (fun h => hseen ((map.mem_keys _).mpr h)), if_neg hseen]
        have hkeys : (map.set (gidOf element) element).keys =
            map.keys ++ [gidOf element] := if_neg hseen
        obtain ⟨hmap, hnexts⟩ := ih (map.set (gidOf element) element)
          (nexts ++ storedNexts index element)
        rw [hkeys] at hmap hnexts
        refine ⟨?_, ?_⟩
        · rw [hmap, List.append_assoc]
          rfl
        · rw [hnexts, List.append_assoc]
          rfl

theorem GidMap.visitLevel {entry : Entry α} (h : GidMap index entry map)
    (hcurr : ∀ x ∈ curr, Ancestor index entry x) :
    GidMap index entry (visitLevel index curr map nexts).1 := by
  induction curr generalizing map nexts with
  | nil => exact h
  | cons element curr ih =>
      rw [List.forall_mem_cons] at hcurr
      unfold SharedLog.visitLevel
      split
      · exact ih h hcurr.2
      · refine ih ⟨?_, ?_⟩ hcurr.2
        · intro gid x hx
          by_cases hgid : gid = gidOf element
          · subst hgid
            rw [Lib.InsertionMap.get_set_self] at hx
            rw [← Option.some.inj hx]
          · rw [Lib.InsertionMap.get_set_of_ne _ _ hgid] at hx
            exact h.gid gid x hx
        · intro gid x hx
          by_cases hgid : gid = gidOf element
          · subst hgid
            rw [Lib.InsertionMap.get_set_self] at hx
            rw [← Option.some.inj hx]
            exact hcurr.1
          · rw [Lib.InsertionMap.get_set_of_ne _ _ hgid] at hx
            exact h.ancestor gid x hx

/-- The loop runs through the levels of the search. -/
theorem visitLevels_ok (entry : Entry α) (fuel : Nat) {n : Nat}
    (hend : (Lib.openLevel gidOf (storedNexts index) [.full entry] (n + fuel)).2 = [])
    (hmap : GidMap index entry map)
    (hkeys : map.keys =
      (Lib.openLevel gidOf (storedNexts index) [.full entry] n).1) :
    ∃ last N, visitLevels index fuel
        (Lib.openLevel gidOf (storedNexts index) [.full entry] n).2 map = .ok last ∧
      GidMap index entry last ∧
      (Lib.openLevel gidOf (storedNexts index) [.full entry] N).2 = [] ∧
      last.keys = (Lib.openLevel gidOf (storedNexts index) [.full entry] N).1 := by
  induction fuel generalizing n map with
  | zero =>
      rw [Nat.add_zero] at hend
      rw [hend]
      exact ⟨map, n, rfl, hmap, hend, hkeys⟩
  | succ fuel ih =>
      cases hlevel : (Lib.openLevel gidOf (storedNexts index) [.full entry] n).2 with
      | nil => exact ⟨map, n, rfl, hmap, hlevel, hkeys⟩
      | cons element curr =>
          obtain ⟨hvisited, hnexts⟩ :=
            visitLevel_eq index (element :: curr) map []
          have hancestors : ∀ x ∈ element :: curr, Ancestor index entry x := by
            intro x hx
            exact Lib.Met.reached ⟨n, hlevel ▸ hx⟩
          have hnext : (visitLevel index (element :: curr) map []).2 =
              (Lib.openLevel gidOf (storedNexts index) [.full entry] (n + 1)).2 := by
            rw [hnexts, hkeys, ← hlevel]
            rfl
          have hnextKeys : (visitLevel index (element :: curr) map []).1.keys =
              (Lib.openLevel gidOf (storedNexts index) [.full entry] (n + 1)).1 := by
            rw [hvisited, hkeys, ← hlevel]
            rfl
          change ∃ last N, visitLevels index fuel
            (visitLevel index (element :: curr) map []).2
            (visitLevel index (element :: curr) map []).1 = .ok last ∧ _
          rw [hnext]
          refine ih ?_ (hmap.visitLevel hancestors) hnextKeys
          rw [Nat.add_right_comm]
          exact hend

/-- An ancestor is the entry itself, or an entry of the index. -/
theorem ancestor_cases {entry : Entry α} {x : ShallowOrFullEntry α}
    (hx : Ancestor index entry x) :
    x = .full entry ∨ ∃ e ∈ index, x = .shallow e := by
  cases hx with
  | root h => exact .inl (List.mem_singleton.mp h)
  | step _ hb =>
      unfold storedNexts at hb
      split at hb
      · obtain ⟨e, he, rfl⟩ := List.mem_map.mp hb
        obtain ⟨k, -, hk⟩ := List.mem_filterMap.mp he
        exact .inr ⟨e, (HeadsIndex.get_eq_some hk).1, rfl⟩
      · cases hb

theorem gidOf_mem {entry : Entry α} {x : ShallowOrFullEntry α}
    (hx : Ancestor index entry x) :
    gidOf x ∈ entry.meta.gid :: index.map (fun e => e.meta.gid) := by
  rcases ancestor_cases hx with rfl | ⟨e, he, rfl⟩
  · exact List.mem_cons_self
  · exact List.mem_cons_of_mem _ (List.mem_map_of_mem (f := fun e => e.meta.gid) he)

end Levels

/-! ### The returned entries -/

section Returned

variable {α : Type} {U : Entry α → Prop} {s : EntryIndex α}

/-- Elements of the log are resolved to entries with their gids. -/
theorem resolveElements_ok (hlog : ResolveInv U s)
    (hcontent : ∀ e f, U e → U f → e.hash = f.hash → e = f)
    {elements : List (ShallowOrFullEntry α)}
    (helements : ∀ x ∈ elements, (∃ e, x = .full e) ∨ ∃ e ∈ s.index, x = .shallow e) :
    ∃ returned s', resolveElements elements s = (.ok returned, s') ∧
      returned.map (fun e => e.meta.gid) = elements.map gidOf := by
  induction elements generalizing s with
  | nil => exact ⟨[], s, rfl, rfl⟩
  | cons element elements ih =>
      rw [List.forall_mem_cons] at helements
      obtain ⟨hfirst, hrest⟩ := helements
      rcases hfirst with ⟨entry, rfl⟩ | ⟨e, he, rfl⟩
      · obtain ⟨returned, s', hrun, hgids⟩ := ih hlog hrest
        refine ⟨entry :: returned, s', ?_, ?_⟩
        · rw [resolveElements, resolveElement]
          simp only [hrun, Option.toList_some, List.singleton_append]
        · rw [List.map_cons, List.map_cons, hgids]
          rfl
      · have hstored := HeadsIndex.stored_of_mem he
        obtain ⟨hfound, hsome⟩ := hlog.get_fst e.hash
        obtain ⟨v, hv⟩ := hsome hstored
        obtain ⟨hUv, hhash⟩ := hfound v hv
        obtain ⟨f, hUf, hfe⟩ :=
          hlog.sub _ (HeadsIndex.mem_sortables.mpr ⟨e, he, rfl⟩)
        have hsame : f = v := by
          refine hcontent f v hUf hUv ?_
          rw [hhash, hfe]
        have hgid : v.meta.gid = e.meta.gid := by
          rw [← hsame, hfe]
        obtain ⟨returned, s', hrun, hgids⟩ := ih (hlog.get e.hash) (by
          rw [EntryIndex.get_index]
          exact hrest)
        refine ⟨v :: returned, s', ?_, ?_⟩
        · rw [resolveElements, resolveElement, hlog.getOrThrow hstored, hv]
          simp only [hrun, Option.toList_some, List.singleton_append]
        · rw [List.map_cons, List.map_cons, hgids, hgid]
          rfl

/-- The walk ends, and the returned gids are those that it meets, each once. -/
theorem allEntriesWithUniqueGids_ok (hlog : ResolveInv U s)
    (hcontent : ∀ e f, U e → U f → e.hash = f.hash → e = f)
    (entry : Entry α) {fuel : Nat} (hfuel : s.index.length + 2 ≤ fuel) :
    ∃ returned s', allEntriesWithUniqueGids fuel s entry = (.ok returned, s') ∧
      (returned.map (fun e => e.meta.gid)).Nodup ∧
      ∀ gid, gid ∈ returned.map (fun e => e.meta.gid) ↔
        ∃ x, Lib.Met gidOf (storedNexts s.index) [.full entry] x ∧ gidOf x = gid := by
  have hend : (Lib.openLevel gidOf (storedNexts s.index) [.full entry] (0 + fuel)).2 = [] := by
    refine Lib.openLevel_eq_nil (fun x hx => gidOf_mem hx) ?_
    rw [List.length_cons, List.length_map]
    omega
  have hempty : GidMap s.index entry .empty :=
    ⟨fun _ _ h => (nomatch h), fun _ _ h => nomatch h⟩
  obtain ⟨map, n, hrun, hmap, hlast, hkeys⟩ := visitLevels_ok entry fuel hend hempty rfl
  have helements : ∀ x ∈ map.entries.map Prod.snd,
      (∃ e, x = .full e) ∨ ∃ e ∈ s.index, x = .shallow e := by
    intro x hx
    obtain ⟨⟨gid, x⟩, hentry, rfl⟩ := List.mem_map.mp hx
    have hancestor := hmap.ancestor gid x (Lib.InsertionMap.mem_entries.mp hentry)
    exact (ancestor_cases hancestor).imp (fun h => ⟨entry, h⟩) id
  have hgidsOf : (map.entries.map Prod.snd).map gidOf = map.keys := by
    rw [List.map_map, ← Lib.InsertionMap.map_fst_entries]
    refine List.map_congr_left ?_
    rintro ⟨gid, x⟩ hentry
    exact hmap.gid gid x (Lib.InsertionMap.mem_entries.mp hentry)
  obtain ⟨returned, s', hresolved, hgids⟩ := resolveElements_ok hlog hcontent helements
  rw [hgidsOf, hkeys] at hgids
  refine ⟨returned, s', ?_, ?_, ?_⟩
  · have hvisited : visitLevels s.index fuel [.full entry] .empty = .ok map := hrun
    rw [allEntriesWithUniqueGids, hvisited]
    exact hresolved
  · rw [hgids]
    exact Lib.nodup_openLevel n
  · intro gid
    rw [hgids]
    exact Lib.mem_openLevel_of_ended hlast

/-- All gids are referenced, each once, where a way leads to each of them. -/
theorem referencesGids_of_led (hlog : ResolveInv U s)
    (hcontent : ∀ e f, U e → U f → e.hash = f.hash → e = f)
    (entry : Entry α) (hled : LedToGids s.index entry) {fuel : Nat}
    (hfuel : s.index.length + 2 ≤ fuel) :
    ∃ returned s', allEntriesWithUniqueGids fuel s entry = (.ok returned, s') ∧
      ReferencesGids s.index entry returned := by
  obtain ⟨returned, s', hrun, honce, hgids⟩ :=
    allEntriesWithUniqueGids_ok hlog hcontent entry hfuel
  refine ⟨returned, s', hrun, honce, ?_⟩
  intro gid
  rw [hgids]
  constructor
  · rintro ⟨y, hy, rfl⟩
    exact ⟨y, hy.reached, rfl⟩
  · rintro ⟨x, hx, rfl⟩
    obtain ⟨n, before, y, hy, hgid⟩ := hled x hx
    exact ⟨y, hy.met, hgid⟩

end Returned

namespace MergedBelow

def entryOf (hash gid : String) (wallTime : Nat) (next : List Hash) : Entry String where
  hash := hash
  «meta» :=
    { clock := { id := "writer", timestamp := { wallTime := wallTime, logical := 0 } }
      gid := gid
      next := next
      type := .APPEND }
  payload := hash
  payloadSize := 1

def one : Entry String := entryOf "1" "b" 1 []

def two : Entry String := entryOf "2" "a" 2 []

/-- Merges the two graphs. -/
def three : Entry String := entryOf "3" "a" 3 ["2", "1"]

def four : Entry String := entryOf "4" "a" 4 ["3"]

def entries : List (Entry String) := [one, two, three, four]

def log : EntryIndex String :=
  entries.foldl (fun s e => s.put e true true true) .empty

/-- The merge is the parent of the head and has its gid: the gid of the other graph is
not referenced. -/
theorem not_referencesGids :
    ¬ ∃ returned s', allEntriesWithUniqueGids 6 log four = (.ok returned, s') ∧
      ReferencesGids log.index four returned := by
  have hgids : ((allEntriesWithUniqueGids 6 log four).1.toOption.getD []).map
      (fun e => e.meta.gid) = ["a"] := by
    decide +kernel
  have hthree : log.index.get "3" = some (three.toShallow false) := by decide
  have hone : log.index.get "1" = some (one.toShallow false) := by decide
  rintro ⟨returned, s', hrun, hall⟩
  rw [hrun] at hgids
  have hmerge : Ancestor log.index four (.shallow (three.toShallow false)) := by
    refine .step (.root (List.mem_singleton_self _)) ?_
    exact List.mem_map_of_mem (List.mem_filterMap.mpr ⟨"3", List.mem_singleton_self _, hthree⟩)
  have hother : Ancestor log.index four (.shallow (one.toShallow false)) := by
    refine .step hmerge ?_
    exact List.mem_map_of_mem (List.mem_filterMap.mpr ⟨"1", by decide, hone⟩)
  have hgid := (hall.all "b").mpr ⟨_, hother, rfl⟩
  change returned.map (fun e => e.meta.gid) = ["a"] at hgids
  rw [hgids] at hgid
  exact absurd hgid (by decide)

/-- Where the merge is the head, both gids are. -/
theorem referencesGids_three :
    ∃ returned s', allEntriesWithUniqueGids 6 log three = (.ok returned, s') ∧
      ReferencesGids log.index three returned := by
  have hempty : ResolveInv (· ∈ entries) (EntryIndex.empty (α := String)) :=
    .of_index_eq_nil rfl rfl (fun _ h => by cases h)
  have hlog : ResolveInv (· ∈ entries) log :=
    (((hempty.put (e := one) (by decide) (.inl rfl)).put (e := two) (by decide)
      (.inl rfl)).put (e := three) (by decide) (.inl rfl)).put (e := four) (by decide)
      (.inl rfl)
  have hcontent : ∀ e ∈ entries, ∀ f ∈ entries, e.hash = f.hash → e = f := by decide
  have hled : LedToGids log.index three := by
    intro x hx
    have hgid := gidOf_mem hx
    have hgids : three.meta.gid :: log.index.map (fun e => e.meta.gid) =
        ["a", "b", "a", "a", "a"] := by decide
    rw [hgids] at hgid
    have hcases : gidOf x = "a" ∨ gidOf x = "b" := by
      simp only [List.mem_cons, List.not_mem_nil, or_false] at hgid
      tauto
    have hroots : [ShallowOrFullEntry.full three] = [] ++ .full three :: [] := rfl
    have hnexts : storedNexts log.index (.full three) =
        [.shallow (two.toShallow false)] ++ .shallow (one.toShallow false) :: [] := by
      decide
    rcases hcases with ha | hb
    · exact ⟨0, [], .full three, .root hroots, ha.symm⟩
    · refine ⟨1, [.shallow (two.toShallow false)], .shallow (one.toShallow false), ?_,
        hb.symm⟩
      exact .step (.root hroots) (fun _ h => by cases h) hnexts
  exact referencesGids_of_led hlog (fun e f he hf => hcontent e he f hf) three hled
    (by decide)

end MergedBelow

end SharedLog
end Peerbit
