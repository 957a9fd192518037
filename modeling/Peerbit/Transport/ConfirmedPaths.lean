import Peerbit.Transport.Routes

/-!
# Paths that are confirmed again

The first report of a new session lets all routes expire but its own.  The other
neighbours can be reported in the same session too; but their routes are there
already, and `add` leaves them as they are (`not_confirmed_twice`).  So a route
stays alive only when its neighbour was the first that the session reported, or
has never been reported before the session (`confirmed_iff_firstReported`).
-/

namespace Peerbit
namespace Transport

/-- No report is of a later session. -/
def IsLatest (reports : List RouteReport) (report : RouteReport) : Prop :=
  ∀ other ∈ reports, other.session ≤ report.session

/-- The neighbour is the first that the session reports, or the session is the
first that reports the neighbour. -/
def FirstReported (reports : List RouteReport) (session : Int) (neighbour : KeyHash) :
    Prop :=
  (∃ first, reports.find? (fun report => report.session = session) = some first ∧
    first.neighbour = neighbour) ∨
  ∃ first, reports.find? (fun report => report.neighbour = neighbour) = some first ∧
    first.session = session

section FirstReported

variable {reports : List RouteReport} {report : RouteReport} {session : Int}
  {neighbour : KeyHash}

theorem find?_append_of_mem {p : RouteReport → Bool} (hmem : ∃ other ∈ reports, p other) :
    (reports ++ [report]).find? p = reports.find? p := by
  obtain ⟨other, hother, hp⟩ := hmem
  rw [List.find?_append]
  cases hfind : reports.find? p with
  | none => exact absurd hp (List.find?_eq_none.mp hfind other hother)
  | some first => rfl

theorem find?_append_of_not_mem {p : RouteReport → Bool}
    (hnot : ∀ other ∈ reports, ¬ p other) :
    (reports ++ [report]).find? p = [report].find? p := by
  rw [List.find?_append, List.find?_eq_none.mpr hnot, Option.none_or]

/-- A report of a session or a neighbour that is known changes nothing. -/
theorem firstReported_append
    (hsession : ∃ other ∈ reports, other.session = session)
    (hneighbour : neighbour ∈ reports.map RouteReport.neighbour ∨
      report.neighbour ≠ neighbour) :
    FirstReported (reports ++ [report]) session neighbour ↔
      FirstReported reports session neighbour := by
  unfold FirstReported
  rw [find?_append_of_mem (by simpa using hsession)]
  by_cases hmem : neighbour ∈ reports.map RouteReport.neighbour
  · rw [find?_append_of_mem (by simpa using hmem)]
  · have hne := hneighbour.resolve_left hmem
    have hnot : ∀ other ∈ reports, ¬ decide (other.neighbour = neighbour) = true := by
      intro other hother heq
      exact hmem (List.mem_map.mpr ⟨other, hother, by simpa using heq⟩)
    rw [find?_append_of_not_mem hnot, List.find?_eq_none.mpr hnot,
      List.find?_cons_of_neg (by simpa using hne), List.find?_nil]

/-- A neighbour that is reported for the first time. -/
theorem firstReported_append_self
    (hsession : ∃ other ∈ reports, other.session = session)
    (hnot : report.neighbour ∉ reports.map RouteReport.neighbour) :
    FirstReported (reports ++ [report]) session report.neighbour ↔
      report.session = session := by
  have hnone : ∀ other ∈ reports,
      ¬ decide (other.neighbour = report.neighbour) = true := by
    intro other hother heq
    exact hnot (List.mem_map.mpr ⟨other, hother, by simpa using heq⟩)
  unfold FirstReported
  rw [find?_append_of_mem (by simpa using hsession), find?_append_of_not_mem hnone,
    List.find?_cons_of_pos (by simp)]
  constructor
  · rintro (⟨first, hfirst, heq⟩ | ⟨first, hfirst, heq⟩)
    · have hmem := List.mem_of_find?_eq_some hfirst
      exact absurd (heq ▸ List.mem_map_of_mem hmem) hnot
    · obtain rfl := Option.some.inj hfirst
      exact heq
  · intro heq
    exact Or.inr ⟨report, rfl, heq⟩

/-- The first report of a session. -/
theorem firstReported_append_new
    (hnew : ∀ other ∈ reports, other.session < report.session) :
    FirstReported (reports ++ [report]) report.session neighbour ↔
      neighbour = report.neighbour := by
  have hnone : ∀ other ∈ reports,
      ¬ decide (other.session = report.session) = true := by
    intro other hother heq
    have h := hnew other hother
    simp only [decide_eq_true_eq] at heq
    omega
  unfold FirstReported
  rw [find?_append_of_not_mem hnone, List.find?_cons_of_pos (by simp)]
  constructor
  · rintro (⟨first, hfirst, heq⟩ | ⟨first, hfirst, heq⟩)
    · obtain rfl := Option.some.inj hfirst
      exact heq.symm
    · have hmem := List.mem_of_find?_eq_some hfirst
      have hneighbour := List.find?_some hfirst
      simp only [decide_eq_true_eq] at hneighbour
      rcases List.mem_append.mp hmem with hmem | hmem
      · have h := hnew first hmem
        omega
      · obtain rfl := List.mem_singleton.mp hmem
        exact hneighbour.symm
  · rintro rfl
    exact Or.inl ⟨report, rfl, rfl⟩

end FirstReported

/-- What the routes of a source and target say of the reports. -/
structure Reported (reports : List RouteReport) (info : RouteInfo) : Prop where
  reached : ∃ report ∈ reports, report.session = info.session
  latest : ∀ report ∈ reports, report.session ≤ info.session
  neighbours : ∀ neighbour, neighbour ∈ info.list.map RelayInfo.hash ↔
    neighbour ∈ reports.map RouteReport.neighbour
  lasting : ∀ neighbour, 0 < info.list.countP (RelayInfo.lastsVia neighbour) ↔
    FirstReported reports info.session neighbour

namespace Reported

variable {reports : List RouteReport} {report directed : RouteReport}
  {info info' : RouteInfo} (retention : Int)

/-- The report of a session that is new. -/
theorem of_new (hneighbour : directed.neighbour = report.neighbour)
    {list : List RelayInfo}
    (hnew : ∀ other ∈ reports, other.session < report.session)
    (hneighbours : ∀ neighbour, neighbour ∈ list.map RelayInfo.hash ↔
      neighbour ∈ reports.map RouteReport.neighbour)
    (hsession' : info'.session = report.session)
    (hlist' : info'.list = (directed.updateList retention true false list).1) :
    Reported (reports ++ [report]) info' where
  reached := ⟨report, by simp, hsession'.symm⟩
  latest := by
    intro other hother
    rw [hsession']
    rcases List.mem_append.mp hother with hother | hother
    · exact Int.le_of_lt (hnew other hother)
    · exact Int.le_of_eq (congrArg _ (List.mem_singleton.mp hother))
  neighbours := by
    intro neighbour
    rw [hlist', RouteReport.mem_map_hash_updateList, hneighbours, hneighbour, List.map_append,
      List.mem_append, or_comm]
    simp
  lasting := by
    intro neighbour
    rw [hlist', hsession', RouteReport.countP_updateList_new,
      firstReported_append_new hnew, hneighbour]
    split
    · rename_i heq
      simp [heq]
    · rename_i hne
      simp [hne]

/-- The report of a session that is not new. -/
theorem of_known (h : Reported reports info)
    (hneighbour : directed.neighbour = report.neighbour)
    (hsession : directed.session = report.session)
    (hknown : report.session ≤ info.session) (hsession' : info'.session = info.session)
    (hlist' : info'.list = (directed.updateList retention false
      (decide (directed.session < info.session)) info.list).1) :
    Reported (reports ++ [report]) info' where
  reached := by
    obtain ⟨other, hother, heq⟩ := h.reached
    exact ⟨other, List.mem_append_left _ hother, heq.trans hsession'.symm⟩
  latest := by
    intro other hother
    rw [hsession']
    rcases List.mem_append.mp hother with hother | hother
    · exact h.latest other hother
    · rw [List.mem_singleton.mp hother]
      exact hknown
  neighbours := by
    intro neighbour
    rw [hlist', RouteReport.mem_map_hash_updateList, h.neighbours, hneighbour, List.map_append,
      List.mem_append, or_comm]
    simp
  lasting := by
    intro neighbour
    rw [hlist', hsession']
    by_cases hmem : directed.neighbour ∈ info.list.map RelayInfo.hash
    · -- nothing is changed
      rw [RouteReport.updateList_of_mem _ hmem, h.lasting]
      rw [h.neighbours, hneighbour] at hmem
      refine (firstReported_append h.reached ?_).symm
      by_cases heq : report.neighbour = neighbour
      · exact Or.inl (heq ▸ hmem)
      · exact Or.inr heq
    · -- a route is added, which expires when the session is old
      rw [RouteReport.updateList_of_not_mem _ hmem]
      simp only
      rw [RouteReport.countP_pushed]
      have hzero := RelayInfo.countP_lastsVia hmem
      rw [h.neighbours, hneighbour] at hmem
      rw [hneighbour] at hzero ⊢
      by_cases heq : neighbour = report.neighbour
      · subst heq
        rw [firstReported_append_self h.reached hmem, hzero, hsession]
        by_cases hold : report.session < info.session
        · rw [decide_eq_true hold]
          simp
          omega
        · have hsame : report.session = info.session := by omega
          simp [hsame]
      · rw [firstReported_append h.reached (Or.inr (fun h => heq h.symm)), ← h.lasting]
        simp [heq]

theorem next (h : Reported reports info)
    (hneighbour : directed.neighbour = report.neighbour)
    (hsession : directed.session = report.session) :
    Reported (reports ++ [report]) (directed.update retention (some info)).2.2 := by
  have hmax : (directed.update retention (some info)).2.2.session =
      max directed.session info.session := rfl
  by_cases hnew : info.session < report.session
  · refine of_new retention hneighbour ?_ h.neighbours ?_ ?_
    · intro other hother
      exact Int.lt_of_le_of_lt (h.latest other hother) hnew
    · omega
    · have hold : ¬ directed.session < info.session := by omega
      rw [RouteReport.update_some, hsession, decide_eq_true hnew,
        decide_eq_false (hsession ▸ hold)]
  · refine h.of_known retention hneighbour hsession (by omega) (by omega) ?_
    rw [RouteReport.update_some, decide_eq_false (hsession ▸ hnew)]

theorem first (hneighbour : directed.neighbour = report.neighbour)
    (hsession : directed.session = report.session) :
    Reported [report] (directed.update retention none).2.2 := by
  have hnone : ∀ other ∈ ([] : List RouteReport), other.session < report.session := by
    intro other hother
    cases hother
  refine of_new retention hneighbour hnone ?_ ?_ (RouteReport.update_none directed retention)
  · intro neighbour
    exact Iff.rfl
  · exact (max_self directed.session).trans hsession

end Reported

namespace Routes

/-- The routes after reports of ways from `from_` to `target`. -/
def addAll (r : Routes) (from_ target : KeyHash) (reports : List RouteReport) : Routes :=
  reports.foldl (fun r report => (r.add from_ target report).2.2) r

/-- There is a route through the neighbour that does not expire. -/
def Lasts (r : Routes) (from_ target neighbour : KeyHash) : Prop :=
  ∃ info, r.findNeighbor from_ target = some info ∧
    ∃ route ∈ info.list, route.hash = neighbour ∧ route.expireAt = none

theorem reported_addAll (me : KeyHash) (retention : Int) (from_ target : KeyHash)
    {reports : List RouteReport} (hne : reports ≠ []) :
    ∃ info, ((empty me retention).addAll from_ target reports).findNeighbor from_ target =
      some info ∧ Reported reports info := by
  induction reports using List.reverseRecOn with
  | nil => exact absurd rfl hne
  | append_singleton reports report ih =>
      rw [addAll, List.foldl_append, List.foldl_cons, List.foldl_nil, findNeighbor_add,
        if_pos ⟨rfl, rfl⟩]
      refine ⟨_, rfl, ?_⟩
      by_cases hnil : reports = []
      · subst hnil
        exact Reported.first _ (directed_neighbour _ _ _ _) (directed_session _ _ _ _)
      · obtain ⟨info, hinfo, h⟩ := ih hnil
        rw [addAll] at hinfo
        rw [hinfo]
        exact h.next _ (directed_neighbour _ _ _ _) (directed_session _ _ _ _)

/-- The neighbours that the latest session reports have routes that do not expire
if and only if each is the first that the session reports, or has not been reported
before the session. -/
theorem confirmed_iff_firstReported (me : KeyHash) (retention : Int)
    (from_ target : KeyHash) (reports : List RouteReport) :
    (∀ report ∈ reports, IsLatest reports report →
      ((empty me retention).addAll from_ target reports).Lasts from_ target
        report.neighbour) ↔
    ∀ report ∈ reports, IsLatest reports report →
      FirstReported reports report.session report.neighbour := by
  refine forall₃_congr (fun report hreport hlatest => ?_)
  obtain ⟨info, hinfo, h⟩ := reported_addAll me retention from_ target
    (List.ne_nil_of_mem hreport)
  have hsession : report.session = info.session := by
    obtain ⟨other, hother, heq⟩ := h.reached
    exact Int.le_antisymm (h.latest report hreport) (heq ▸ hlatest other hother)
  rw [hsession, ← h.lasting, List.countP_pos_iff]
  unfold Lasts
  rw [hinfo]
  simp [RelayInfo.lastsVia]

/-- Two neighbours are reported in two sessions.  In the second session the route
through the one that is reported last expires. -/
def twiceReported : List RouteReport :=
  [⟨0, "b", 0, 1, 1⟩, ⟨0, "a", 0, 1, 1⟩, ⟨5, "a", 0, 2, 1⟩, ⟨6, "b", 0, 2, 1⟩]

theorem not_confirmed_twice :
    ¬ ∀ (me : KeyHash) (retention : Int) (from_ target : KeyHash)
      (reports : List RouteReport), ∀ report ∈ reports, IsLatest reports report →
        ((empty me retention).addAll from_ target reports).Lasts from_ target
          report.neighbour := by
  intro h
  have hlist : ((empty "me" 10000).addAll "me" "c" twiceReported).findNeighbor "me" "c" =
      some ⟨1, 2, [⟨1, "b", some 10005, 0⟩, ⟨2, "a", none, 0⟩]⟩ := by
    decide
  obtain ⟨info, hinfo, route, hroute, hhash, hexpire⟩ :=
    h "me" 10000 "me" "c" twiceReported ⟨6, "b", 0, 2, 1⟩ (by simp [twiceReported])
      (by simp [IsLatest, twiceReported])
  rw [hlist] at hinfo
  obtain rfl := Option.some.inj hinfo
  simp only [List.mem_cons, List.not_mem_nil, or_false] at hroute
  rcases hroute with rfl | rfl
  · exact absurd hexpire (by decide)
  · exact absurd hhash (by decide)

end Routes

end Transport
end Peerbit
