import LoopMemory.Proofs.Description.Analysis
import LoopMemory.Proofs.Description.Renumbered
import Mathlib.Data.List.Find

/-! The order in which a routine is described does not matter. Main statement: loops, blocks, alias
pairs and lists of names may come in any order, and the analysis reports the same about each region
apart from the work it took. -/
namespace LoopMemory.Description

/-- All of a report but the work it took. -/
def RegionReport.findings (report : RegionReport) : RegionReport := { report with transfers := 0 }

/- A report is put together from the summary of its region, the values around it, and the verdicts
of a loop. -/
theorem RegionReport.of_ofResults {m : Model} {results : Results} {region : Region}
    {report : RegionReport} (h : ofResults m results region = .ok report) :
    ∃ footprint flow candidates, results.summary? region.id = some footprint ∧
      results.regionFlow region.id = .ok flow ∧
      (if region.isLoop then
        classifyLoop m.tree results region.id (m.liveAfter region.id) m.aliases.overlap
      else .ok []) = .ok candidates ∧
      report.findings = {
        name := region.name
        isLoop := region.isLoop
        defs := m.names.list footprint.defs
        mayDefs := m.names.list footprint.mayDefs
        uses := m.names.list footprint.uses
        mustReachOut := m.names.listReach? flow.output.must
        mayReachOut := m.names.listReach? flow.output.may
        addressTaken := Text.sort (footprint.addresses.toList.map m.names.baseName)
        unknownInstructions := footprint.unknown.length
        transfers := 0
        privatization := candidates.map (.ofCandidate m.names) } := by
  simp only [ofResults, bind_eq_ok, Results.regionFootprint_eq_ok] at h
  obtain ⟨f, hf, flow, hflow, h⟩ := h
  refine ⟨f, flow, ?_⟩
  cases hloop : region.isLoop with
  | true =>
    simp only [hloop, if_true, bind_eq_ok, pure_eq_ok] at h
    obtain ⟨cs, hcs, rfl⟩ := h
    exact ⟨cs, hf, hflow, hcs, rfl⟩
  | false =>
    simp only [hloop, Bool.false_eq_true, if_false, bind_eq_ok, pure_eq_ok] at h
    obtain ⟨cs, rfl, rfl⟩ := h
    exact ⟨[], hf, hflow, rfl, rfl⟩

section Findings
variable {names : Names} {regions regions' : List RegionReport} {e : String × Expectation}
  {arith : Arithmetic}

theorem map_name_findings :
    (regions.map RegionReport.findings).map (·.name) = regions.map (·.name) := by
  rw [List.map_map]
  rfl

/- A region is found by its name wherever it stands. -/
theorem find?_findings
    (hperm : (regions.map RegionReport.findings).Perm (regions'.map RegionReport.findings))
    (hnodup : (regions.map (·.name)).Nodup) (name : String) :
    (regions.find? (·.name == name)).map RegionReport.findings =
      (regions'.find? (·.name == name)).map RegionReport.findings := by
  have hfind := List.find?_eq_find?_of_perm (p := (·.name == name)) hperm ?_
  · rwa [List.find?_map, List.find?_map] at hfind
  · rw [← map_name_findings] at hnodup
    rintro x ⟨hx, hxname⟩ y ⟨hy, hyname⟩
    exact List.inj_on_of_nodup_map hnodup hx hy
      ((beq_iff_eq.1 hxname).trans (beq_iff_eq.1 hyname).symm)

/- What is compared with an expectation are findings. -/
theorem mismatchesOf_eq (h : (regions.find? (·.name == e.1)).map RegionReport.findings =
      (regions'.find? (·.name == e.1)).map RegionReport.findings) :
    mismatchesOf arith names regions e = mismatchesOf arith names regions' e := by
  rw [mismatchesOf, mismatchesOf]
  cases hr : regions.find? (·.name == e.1) with
  | none =>
    rw [hr, Option.map_none, eq_comm, Option.map_eq_none_iff] at h
    rw [h]
  | some report =>
    rw [hr, Option.map_some, eq_comm, Option.map_eq_some_iff] at h
    obtain ⟨report', hr', hsame⟩ := h
    rw [hr']
    change e.2.mismatches arith names report.findings = e.2.mismatches arith names report'.findings
    rw [hsame]

end Findings

/- Two models of one routine that was described in two orders. -/
namespace Routine.Lowered
variable {r r' : Routine} {d d' : Draft} {m m' : Model} {settings : Settings}
  {progress progress' : Progress} {p p' : RegionId} {reg reg' : Region}
  {report report' : RegionReport} {regions regions' : List RegionReport}

theorem region_names_nodup (hlow : r.Lowered d m) :
    (m.tree.regions.toList.map (·.name)).Nodup := by
  rw [List.nodup_iff_getElem?_ne_getElem?]
  intro i j hij hj hsame
  have hreg : ∀ i, i ≤ j → ∃ reg, m.tree.regions[i]? = some reg := fun i hi =>
    ⟨_, Array.getElem?_eq_getElem (by simpa using hi.trans_lt hj)⟩
  obtain ⟨reg, hi⟩ := hreg i hij.le
  obtain ⟨reg', hj⟩ := hreg j le_rfl
  simp only [List.getElem?_map, Array.getElem?_toList, hi, hj, Option.map_some,
    Option.some.injEq] at hsame
  rw [hlow.tree] at hi hj
  exact hij.ne (hlow.drawn.whole.name_inj hi hj hsame)

theorem names_nodup {results : Results} (hlow : r.Lowered d m)
    (hregions : m.tree.regions.toList.mapM (RegionReport.ofResults m results) = .ok regions) :
    (regions.map (·.name)).Nodup := by
  have hnames : regions.map (·.name) = m.tree.regions.toList.map (·.name) :=
    map_of_mapM hregions fun _ _ hreport => (RegionReport.region_of_ofResults hreport).1
  exact hnames ▸ hlow.region_names_nodup

variable (h : r.Reordered r') (hpin : r.Pinned) (hlow : r.Lowered d m) (hlow' : r'.Lowered d' m')
  (hm : r.model = .ok m) (hm' : r'.model = .ok m')
  (hp : (m.memory settings).analyze m.tree = .ok progress)
  (hp' : (m'.memory settings).analyze m'.tree = .ok progress')
include h hpin hlow hlow' hm hm' hp hp'

theorem findings_eq (hpp : (renumbering r d r' d').region p p') (hreg : m.tree.region? p = some reg)
    (hreg' : m'.tree.region? p' = some reg')
    (hrep : RegionReport.ofResults m progress.results reg = .ok report)
    (hrep' : RegionReport.ofResults m' progress'.results reg' = .ok report') :
    report'.findings = report.findings := by
  obtain ⟨hv, hl, hnest, -⟩ := Routine.lowered hm
  obtain ⟨hv', hl', hnest', -⟩ := Routine.lowered hm'
  have hren := hlow.renumbers h hlow' hpin settings
  have hsame := hren.sameRegion hpp hreg hreg'
  rw [hlow.memory_eq h hlow'] at hp'
  obtain rfl := (hv.region p reg hreg).id
  obtain rfl := (hv'.region p' reg' hreg').id
  have hisLoop : reg'.isLoop = reg.isLoop := by rw [Region.isLoop, Region.isLoop, hsame.kind]
  have hcandidates : (if reg'.isLoop then classifyLoop m'.tree progress'.results reg'.id
        (m'.liveAfter reg'.id) m'.aliases.overlap else .ok []) =
      if reg.isLoop then classifyLoop m.tree progress.results reg.id
        (m.liveAfter reg.id) m.aliases.overlap else .ok [] := by
    rw [hisLoop]
    split
    · rename_i hloop
      rw [hlow.overlap_eq h hlow', hlow.liveAfter_eq h hlow' hpp hreg hloop]
      exact hren.classifyLoop_eq m.aliases.regular hl hl' hp hp' hpp hreg hloop
    · rfl
  obtain ⟨f, flow, cs, hf, hflow, hcs, hreport⟩ := RegionReport.of_ofResults hrep
  obtain ⟨g, flow', cs', hg, hflow', hcs', hreport'⟩ := RegionReport.of_ofResults hrep'
  have hfg := hren.summary_alike hl hl' hp hp' hpp hf hg
  rw [hren.regionFlow_eq hl hl' hp hp' hnest hnest' hpp, hflow] at hflow'
  rw [hcandidates, hcs] at hcs'
  obtain rfl := Except.ok.inj hflow'
  obtain rfl := Except.ok.inj hcs'
  rw [hreport, hreport', ← hsame.name, hisLoop, hlow.names_eq h hlow', ← hfg.defs, ← hfg.mayDefs,
    ← hfg.uses, ← hfg.addresses, ← hfg.unknown.length_eq hren.insts]

variable
  (hrep : m.tree.regions.toList.mapM (RegionReport.ofResults m progress.results) = .ok regions)
  (hrep' : m'.tree.regions.toList.mapM (RegionReport.ofResults m' progress'.results) = .ok regions')
include hrep hrep'

/- The name of a region stands for a region of the other model, too. -/
theorem findings_subset :
    regions.map RegionReport.findings ⊆ regions'.map RegionReport.findings := by
  intro x hx
  obtain ⟨report, hreport, rfl⟩ := List.mem_map.1 hx
  obtain ⟨reg, hmem, hreport⟩ := (mem_of_mapM hrep).1 hreport
  obtain ⟨p, hreg⟩ := Array.getElem?_of_mem (Array.mem_toList_iff.1 hmem)
  have hbuilt : d.builder.regions[p]? = some reg := by rwa [hlow.tree] at hreg
  obtain ⟨region, hr, hq⟩ := hlow.drawn.whole.region_of_lt hbuilt
  obtain ⟨p', hq'⟩ := hlow'.drawn.whole.exists_region (h.mem_regions hr)
  have hpp : (renumbering r d r' d').region p p' := ⟨region, hr, hq, hq'⟩
  obtain ⟨_, reg', -, hreg', -⟩ := (hlow.renumbers h hlow' hpin settings).region p p' hpp
  obtain ⟨report', hreport'⟩ := ofResults_ok hm' hp' hreg'
  refine List.mem_map.2
    ⟨report', (mem_of_mapM hrep').2 ⟨reg', ?_, hreport'⟩, ?_⟩
  · exact Array.mem_toList_iff.2 (Array.mem_of_getElem? hreg')
  · exact findings_eq h hpin hlow hlow' hm hm' hp hp' hpp hreg hreg' hreport hreport'

/- Both reports have the same findings, each in the order of its own regions. -/
theorem findings_perm :
    (regions'.map RegionReport.findings).Perm (regions.map RegionReport.findings) := by
  have hnodup := hlow.names_nodup hrep
  have hnodup' := hlow'.names_nodup hrep'
  rw [← map_name_findings] at hnodup hnodup'
  refine (List.perm_ext_iff_of_nodup hnodup'.of_map hnodup.of_map).2 fun x => ⟨fun hx => ?_,
    fun hx => ?_⟩
  · exact findings_subset h.symm (h.pinned hpin) hlow' hlow hm' hm hp' hp hrep' hrep hx
  · exact findings_subset h hpin hlow hlow' hm hm' hp hp' hrep hrep' hx

end Routine.Lowered

/-- Two loops after each other, the second with a loop inside. -/
def chained : Routine where
  name := "chained"
  entry := some "first"
  vars := [{ name := "x", size := some 8 }, { name := "y", size := some 8 },
    { name := "z", size := some 4 }]
  aliases := [⟨"x", "y"⟩, ⟨"y", "z"⟩]
  loops := [{ name := "first", entry := some "fill", successors := ["second", "exit"],
              liveOut := ["x", "y"] },
    { name := "second", entry := some "inner" },
    { name := "inner", parent := some "second", entry := some "drain" }]
  blocks := [{ name := "fill", region := some "first"
               instructions := [{ operation := .store, target := some "x" },
                 { operation := .load, target := some "y" }] },
    { name := "drain", region := some "inner", successors := ["exit"]
      instructions := [{ operation := .update, target := some "z" },
        { operation := .unresolved }] }]
  expect := [("inner", { defs := some ["z"] })]

/-- The order of a description does not matter, as long as no entry is left to it. With its loops,
its blocks, its alias pairs and the names in its lists in another order, a routine is accepted just
when it is as it stands. Then the analysis finds the same about the region of each name, and misses
the same expectations. A program that checks its arithmetic ends at an expectation of the one just
when it ends at one of the other. -/
theorem reordered_analysed {r r' : Routine} (settings : Settings) (arith : Arithmetic)
    (h : r.Reordered r') (hpin : r.Pinned) :
    ((∃ m, r.model = .ok m) ↔ ∃ m, r'.model = .ok m) ∧
    ∀ m m', r.model = .ok m → r'.model = .ok m' →
      (arith = .checked ∧ m.analyze arith settings = .error (.overflow {}) ∧
        m'.analyze arith settings = .error (.overflow {})) ∨
      ∃ rep rep',
        m.analyze arith settings = .ok rep ∧ m'.analyze arith settings = .ok rep' ∧
        rep'.routine = rep.routine ∧ (rep.regions.map (·.name)).Nodup ∧
        (rep'.regions.map RegionReport.findings).Perm (rep.regions.map RegionReport.findings) ∧
        (∀ name, (rep'.regions.find? (·.name == name)).map RegionReport.findings =
          (rep.regions.find? (·.name == name)).map RegionReport.findings) ∧
        rep'.mismatches = rep.mismatches := by
  refine ⟨⟨fun ⟨m, hm⟩ => ?_, fun ⟨m, hm⟩ => ?_⟩, fun m m' hm hm' => ?_⟩
  · exact (h.wellFormed hpin (Routine.wellFormed_of_model hm)).exists_model
  · exact (h.symm.wellFormed (h.pinned hpin) (Routine.wellFormed_of_model hm)).exists_model
  obtain ⟨d, hlow⟩ := Routine.exists_lowered hm
  obtain ⟨d', hlow'⟩ := Routine.exists_lowered hm'
  obtain ⟨progress, hp⟩ : ∃ progress, (m.memory settings).analyze m.tree = .ok progress :=
    analyze_of_model hm
  obtain ⟨progress', hp'⟩ : ∃ progress, (m'.memory settings).analyze m'.tree = .ok progress :=
    analyze_of_model hm'
  obtain ⟨regions, hregions⟩ := regions_of_analyze hm hp
  obtain ⟨regions', hregions'⟩ := regions_of_analyze hm' hp'
  have hperm := Routine.Lowered.findings_perm h hpin hlow hlow' hm hm' hp hp' hregions hregions'
  have hfind := find?_findings hperm (hlow'.names_nodup hregions')
  have hmismatches : m'.expect.mapM (mismatchesOf arith m'.names regions') =
      m.expect.mapM (mismatchesOf arith m.names regions) := by
    rw [hlow.expect, hlow'.expect, h.expect_eq, hlow.names_eq h hlow']
    congr 1
    funext e
    exact mismatchesOf_eq (hfind e.1)
  rw [Model.analyze_eq hp, Model.analyze_eq hp', Model.report_eq hregions,
    Model.report_eq hregions', hmismatches]
  cases hms : m.expect.mapM (mismatchesOf arith m.names regions) with
  | error overflow =>
    refine .inl ⟨?_, rfl, rfl⟩
    cases arith with
    | checked => rfl
    | wrapping =>
      obtain ⟨ms, hok⟩ : ∃ ms, m.expect.mapM (mismatchesOf .wrapping m.names regions) = .ok ms :=
        (Model.exists_mismatches hregions).2 nofun
      rw [hms] at hok
      cases hok
  | ok ms =>
    refine .inr ⟨_, _, rfl, rfl, ?_, hlow.names_nodup hregions, hperm, hfind, rfl⟩
    rw [hlow.name, hlow'.name, h.name_eq]

theorem reordered_analysed_chained : chained.Pinned ∧ ∃ m m' rep rep',
    chained.model = .ok m ∧ chained.reversed.model = .ok m' ∧
    m.analyze .checked {} = .ok rep ∧ m'.analyze .checked {} = .ok rep' ∧
    rep.regions.map (·.name) = ["chained", "first", "second", "inner"] ∧
    rep'.regions.map (·.name) = ["chained", "second", "first", "inner"] ∧
    (rep'.regions.map RegionReport.findings).Perm (rep.regions.map RegionReport.findings) ∧
    rep'.mismatches = ["inner.defs: expected [z], found []"] := by
  have hpin : chained.Pinned := by decide
  have hfound : (chained.model.toOption.bind fun m => (m.analyze .checked {}).toOption).map
      (fun rep => (rep.regions.map (·.name), rep.mismatches)) =
      some (["chained", "first", "second", "inner"], ["inner.defs: expected [z], found []"]) := by
    decide +kernel
  have hreversed : (chained.reversed.model.toOption.bind fun m =>
      (m.analyze .checked {}).toOption).map (fun rep => rep.regions.map (·.name)) =
      some ["chained", "second", "first", "inner"] := by
    decide +kernel
  obtain ⟨rep, hrep, hfound⟩ := Option.map_eq_some_iff.1 hfound
  obtain ⟨m, hm, hrep⟩ := Option.bind_eq_some_iff.1 hrep
  obtain ⟨hnames, hmismatches⟩ := Prod.mk.inj hfound
  obtain ⟨rep', hrep', hnames'⟩ := Option.map_eq_some_iff.1 hreversed
  obtain ⟨m', hm', hrep'⟩ := Option.bind_eq_some_iff.1 hrep'
  have hm := eq_ok_of_toOption hm
  have hm' := eq_ok_of_toOption hm'
  have hrep := eq_ok_of_toOption hrep
  have hrep' := eq_ok_of_toOption hrep'
  obtain ⟨-, hsame⟩ := reordered_analysed {} .checked (Routine.reordered_reversed chained) hpin
  obtain ⟨-, hended, -⟩ | ⟨u, u', hu, hu', -, -, hperm, -, hmiss⟩ := hsame m m' hm hm'
  · rw [hrep] at hended
    cases hended
  · obtain rfl := Except.ok.inj (hrep.symm.trans hu)
    obtain rfl := Except.ok.inj (hrep'.symm.trans hu')
    exact ⟨hpin, m, m', rep, rep', hm, hm', hrep, hrep', hnames, hnames', hperm,
      hmiss.trans hmismatches⟩

end LoopMemory.Description
