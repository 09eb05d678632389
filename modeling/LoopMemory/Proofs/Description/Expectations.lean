import LoopMemory.Proofs.Analysis.Origins
import LoopMemory.Proofs.Description.Comparison
import LoopMemory.Proofs.Description.Effects
import LoopMemory.Proofs.Privatization.Classes
import Mathlib

/-! Expecting of a region just what the analysis found there. Main statement: then it is missed only
where two locations have one name or a name does not read back, which plain names and offsets rule
out. -/
namespace LoopMemory.Description
open Names

/-- Every location in the routine is told by its name: names have no marks, and nothing that is
accessed goes past the last offset. -/
structure Routine.Modest (r : Routine) : Prop where
  names : ∀ v ∈ r.vars, Plain v.name
  sizes : ∀ v ∈ r.vars, ∀ n, v.size = some n → (n.toNat : Int) ≤ Int64.maxValue.toInt
  accesses : ∀ b ∈ r.blocks, ∀ i ∈ b.instructions, ∀ n, i.size = some n →
    i.offset.toInt + n.toNat ≤ Int64.maxValue.toInt

namespace Routine.Modest
variable {r : Routine} {x : String} {o : Int64} {s : Option UInt64} {l : Location}

theorem spelled_of_part (h : r.Modest) (hl : r.Part x o s l)
    (hs : ∀ n, s = some n → o.toInt + n.toNat ≤ Int64.maxValue.toInt) :
    Names.Spelled ⟨r.variables⟩ l := by
  have hentry : ∀ {k : Nat} {v : VariableEntry}, r.vars[k]? = some v →
      Names.entry? ⟨r.variables⟩ (k + 1) = some (v.name, v.size) := by
    intro k v hv
    change (r.vars.map fun v => (v.name, v.size))[k]? = _
    rw [List.getElem?_map, hv]
    rfl
  have hmax := o.toInt_le
  cases hl with
  | @sized k v n hv _ ho =>
    have hend := hs n rfl
    exact ⟨⟨v.name, v.size, hentry hv, h.names v (List.mem_of_getElem? hv),
      .inr (.inr ⟨_, stop_eq_some.2 ⟨rfl, by omega, hend⟩⟩)⟩, rfl⟩
  | @rest k v n hv _ ho hn =>
    have hsize := h.sizes v (List.mem_of_getElem? hv) n hn
    have hlt := n.toNat_lt
    have hleft : (UInt64.ofNat (n.toNat - o.toInt.toNat)).toNat = n.toNat - o.toInt.toNat :=
      UInt64.toNat_ofNat_of_lt' (by simp only [UInt64.size]; omega)
    exact ⟨⟨v.name, v.size, hentry hv, h.names v (List.mem_of_getElem? hv),
      .inr (.inr ⟨_, stop_eq_some.2 ⟨rfl, by rw [hleft]; omega, by rw [hleft]; omega⟩⟩)⟩, rfl⟩
  | @endless k v hv _ _ _ =>
    exact ⟨⟨v.name, v.size, hentry hv, h.names v (List.mem_of_getElem? hv), .inr (.inl rfl)⟩, rfl⟩

theorem spelled {d : Draft} {m : Model} {settings : Settings} (h : r.Modest) (hlow : r.Lowered d m)
    (hl : (m.memory settings).Mentions l) : m.names.Spelled l := by
  obtain ⟨i, e, a, he, ha, rfl⟩ := hl
  obtain ⟨ls, -, hh⟩ := hlow.drawn.whole.holds
  have hmem : some e ∈ d.effects.toList := by
    have hjoin := Option.join_eq_some_iff.1 he
    rw [hlow.effects] at hjoin
    exact Array.mem_toList_iff.2 (Array.mem_of_getElem? hjoin)
  obtain ⟨entry, hentry, heffect⟩ := (mem_of_mapM hh.effects).1 hmem
  obtain ⟨b, hb, hentry⟩ := List.mem_flatMap.1 hentry
  rw [hlow.names]
  obtain ⟨x, hx | hx⟩ := (does_of_effect heffect).exists_part ha
  · exact h.spelled_of_part hx (h.accesses b hb entry hentry)
  · exact h.spelled_of_part hx nofun

end Routine.Modest

/- What is told by its name is legible. -/
section Lists
variable {names : Names} {ls : List Location} (hn : (names.vars.map (·.1)).Nodup)
include hn

theorem legible_map (hls : ls.Nodup) (h : ∀ l ∈ ls, names.Spelled l) :
    Legible names (ls.map names.name) := by
  refine ⟨hls.map_on fun k hk l hl => name_inj hn (h k hk) (h l hl), fun t ht arith => ?_⟩
  obtain ⟨l, hl, rfl⟩ := List.mem_map.1 ht
  exact normal_name hn (h l hl)

theorem legible_list {s : LocationSet} (h : ∀ l ∈ s, names.Spelled l) :
    Legible names (names.list s) :=
  (legible_map hn s.nodup h).perm (Text.perm_sort _).symm

theorem legible_listReach? {r : Reach} (h : r.isFull = false → ∀ l ∈ r, names.Spelled l) :
    Legible names ((names.listReach? r).getD [everything]) := by
  cases r with
  | full => exact legible_everything
  | only s => exact legible_list hn fun l hl => h rfl l (Reach.mem_only.2 hl)

end Lists

/-- When all that is accessed is told by its name, so is all that is reported. -/
theorem RegionReport.legible_of_ofResults {m : Model} {settings : Settings} {progress : Progress}
    {r : RegionId} {region : Region} {report : RegionReport}
    (hn : (m.names.vars.map (·.1)).Nodup) (h : (m.memory settings).analyze m.tree = .ok progress)
    (hr : m.tree.region? r = some region)
    (hrep : RegionReport.ofResults m progress.results region = .ok report)
    (hs : ∀ l, (m.memory settings).Mentions l → m.names.Spelled l) :
    ∀ l ∈ report.lists, Legible m.names l := by
  obtain rfl := ((Memory.valid_of_analyze h).region r region hr).id
  obtain ⟨f, flow, cs, hf, hflow, hcs, hreport⟩ := RegionReport.of_ofResults hrep
  have hsourced := Memory.sourced_summary h hr hf
  have hwithin := Memory.regionFlow_within h hr hflow
  have hplaces : ∀ p, Legible m.names (report.findings.placesWhere p) := by
    intro p
    have hcandidates : (cs.map (·.location)).Nodup ∧
        ∀ l ∈ cs.map (·.location), l ∈ f.explicit.locations := by
      split at hcs
      · exact Memory.locations_of_classifyLoop hf hcs h m.aliases.regular hr
      · obtain rfl := Except.ok.inj hcs
        simp
    have hsub := (List.filter_sublist (l := cs) (p := fun c => p c.verdict)).map (·.location)
    have hlegible := legible_map hn (hsub.nodup hcandidates.1)
      fun l hl => hs l (hsourced.explicit l (hcandidates.2 l (hsub.subset hl)))
    rw [hreport, placesWhere, List.filter_map, List.map_map]
    rwa [List.map_map] at hlegible
  change ∀ l ∈ report.findings.lists, Legible m.names l
  simp only [lists, List.mem_cons, List.not_mem_nil, or_false, forall_eq_or_imp, forall_eq]
  rw [hreport]
  refine ⟨?_, ?_, ?_, ?_, ?_, ?_, ?_⟩
  · exact legible_list hn fun l hl => hs l (hsourced.writes l (.inl hl))
  · exact legible_list hn fun l hl => hs l (hsourced.writes l (.inr hl))
  · exact legible_list hn fun l hl => hs l (hsourced.uses l hl)
  · exact legible_listReach? hn fun hfull l hl => hs l (hwithin.must hfull l hl)
  · exact legible_listReach? hn fun _ l hl => hs l (hwithin.may l hl)
  · exact hreport ▸ hplaces Verdict.isPrivate
  · exact hreport ▸ hplaces (· == .shared)

/- Other expectations of one routine. -/

theorem partition_eq {ε α : Type} {l : List (Except ε α)} {as : List α} :
    partition l = (as, []) ↔ l = as.map .ok := by
  induction l generalizing as with
  | nil => cases as <;> simp [partition]
  | cons x l ih =>
    cases x with
    | error e => cases as <;> simp [partition]
    | ok a =>
      cases as with
      | nil => simp [partition]
      | cons b bs =>
        simp only [partition, List.map_cons, List.cons.injEq, Except.ok.injEq, ← ih, Prod.ext_iff]
        exact and_assoc

theorem reportOrFault_eq_ok {m : Model} {arith : Arithmetic} {settings : Settings}
    {rep : RoutineReport} :
    m.reportOrFault arith settings = .ok (.ok rep) ↔ m.analyze arith settings = .ok rep := by
  rw [Model.reportOrFault]
  split <;> simp_all

theorem analyze_eq_ok {d : Description} {arith : Arithmetic} {settings : Settings} {a : Analysed} :
    d.analyze arith settings = .ok (.ok a) ↔
      ∃ models, d.routines.mapM Routine.modelOrFault = .ok models ∧
        models.mapM (·.analyze arith settings) = .ok a.reports ∧ a.warnings =
          if d.routines.isEmpty then ["Description contains no [[routine]] tables"] else [] := by
  constructor
  · intro h
    obtain ⟨outcomes, houtcomes, h⟩ := bind_eq_ok.1 h
    have h := pure_eq_ok.1 h
    split at h
    · rename_i hnone
      obtain ⟨hdefects, hbreaches⟩ := List.append_eq_nil_iff.1 (List.isEmpty_iff.1 hnone)
      obtain rfl := Except.ok.inj h
      have hmodels := map_eq_map_ok.1 (partition_eq.1 (Prod.ext rfl hdefects))
      have hreports := partition_eq.1 (Prod.ext rfl hbreaches)
      refine ⟨_, hmodels, (mapM_congr_ok fun m rep => reportOrFault_eq_ok).1 ?_, rfl⟩
      rw [← hreports]
      exact houtcomes
    · cases h
  · rintro ⟨models, hm, hr, hw⟩
    obtain ⟨reports, warnings⟩ := a
    obtain rfl : warnings = _ := hw
    have houtcomes := (mapM_congr_ok fun m rep => reportOrFault_eq_ok).2 hr
    simp only [Description.analyze, partition_eq.2 (map_eq_map_ok.2 hm), houtcomes]
    simp only [bind, Except.bind, partition_eq.2 rfl, List.append_nil, List.isEmpty_nil, if_true]
    rfl

theorem Routine.model_expecting {r : Routine} {m : Model} (h : r.model = .ok m)
    (es : List (String × Expectation)) :
    ({ r with expect := es } : Routine).model = .ok { m with expect := es } := by
  simp only [Routine.model, bind_eq_ok, pure_eq_ok] at h ⊢
  obtain ⟨names, hnames, aliases, haliases, d, hd, u, hu, v, hv, out, hout, _, hreach, rfl⟩ := h
  exact ⟨names, hnames, aliases, haliases, d, hd, u, hu, v, hv, out, hout, _, hreach, rfl⟩

/-- The description with other expectations for one of its routines. -/
def expecting (d : Description) (k : Nat) (es : List (String × Expectation)) :
    Description :=
  { routines := d.routines.modify k fun r => { r with expect := es } }

/-- The analysis with other differences from the expectations for one routine. -/
def Analysed.missing (a : Analysed) (k : Nat) (ms : List String) : Analysed :=
  { a with reports := a.reports.modify k fun rep => { rep with mismatches := ms } }

theorem Model.analyze_expecting {m : Model} {arith : Arithmetic} {settings : Settings}
    {rep : RoutineReport} (h : m.analyze arith settings = .ok rep)
    (es : List (String × Expectation)) :
    ({ m with expect := es } : Model).analyze arith settings =
      (es.mapM (mismatchesOf arith m.names rep.regions)).mapError .overflow >>= fun ms =>
        .ok { rep with mismatches := ms.flatten } := by
  simp only [Model.analyze, bind_eq_ok, mapError_eq_ok] at h
  obtain ⟨progress, hp, h⟩ := h
  simp only [Model.report, bind_eq_ok, mapError_eq_ok, pure_eq_ok] at h
  obtain ⟨regions, hregions, ms, -, rfl⟩ := h
  have hregions' : ({ m with expect := es } : Model).tree.regions.toList.mapM
      (RegionReport.ofResults { m with expect := es } progress.results) = .ok regions := hregions
  have hp' : (({ m with expect := es } : Model).memory settings).analyze m.tree = .ok progress := hp
  rw [Model.analyze_eq hp', Model.report_eq hregions']
  rfl

section Main
variable {d : Description} {arith : Arithmetic} {settings : Settings} {a : Analysed} {k : Nat}
  {r : Routine} {rep : RoutineReport} {found : RegionReport}

variable (h : d.analyze arith settings = .ok (.ok a)) (hk : d.routines[k]? = some r)
  (hrep : a.reports[k]? = some rep)
include h hk hrep

theorem model_of_analyze : ∃ m, r.model = .ok m ∧ m.analyze arith settings = .ok rep := by
  obtain ⟨models, hm, hr, -⟩ := analyze_eq_ok.1 h
  obtain ⟨m, hk', hmodel⟩ := getElem?_of_mapM hm hk
  obtain ⟨rep', hrep', hreport⟩ := getElem?_of_mapM hr hk'
  obtain rfl := Option.some.inj (hrep.symm.trans hrep')
  exact ⟨m, mapError_eq_ok.1 hmodel, hreport⟩

/-- Expectations change nothing but what is missed, unless the program ends where it reads them. -/
theorem analyze_expecting (es : List (String × Expectation)) :
    (d.expecting k es).analyze arith settings =
      es.mapM (mismatchesOf arith ⟨r.variables⟩ rep.regions) >>= fun ms =>
        .ok (.ok (a.missing k ms.flatten)) := by
  obtain ⟨models, hm, hr, hw⟩ := analyze_eq_ok.1 h
  obtain ⟨m, hk', hmodel⟩ := getElem?_of_mapM hm hk
  obtain ⟨rep', hrep', hreport⟩ := getElem?_of_mapM hr hk'
  obtain rfl := Option.some.inj (hrep.symm.trans hrep')
  rw [Routine.modelOrFault, mapError_eq_ok] at hmodel
  obtain ⟨_, hlow⟩ := Routine.exists_lowered hmodel
  rw [← hlow.names]
  have hexpecting := Model.analyze_expecting hreport es
  cases hms : es.mapM (mismatchesOf arith m.names rep.regions) with
  | ok ms =>
    rw [hms] at hexpecting
    refine analyze_eq_ok.2 ⟨models.modify k fun m => { m with expect := es }, ?_, ?_, ?_⟩
    · exact mapM_modify hm hk fun m hm =>
        mapError_eq_ok.2 (Routine.model_expecting (mapError_eq_ok.1 hm) es)
    · refine mapM_modify hr hk' fun rep' hrep' => ?_
      obtain rfl := Except.ok.inj (hreport.symm.trans hrep')
      exact hexpecting
    · have hempty : (d.expecting k es).routines.isEmpty = d.routines.isEmpty := by
        rw [Bool.eq_iff_iff, List.isEmpty_iff, List.isEmpty_iff, expecting, List.modify_eq_nil_iff]
      rw [hempty]
      exact hw
  | error overflow =>
    rw [hms] at hexpecting
    cases hended : (d.expecting k es).analyze arith settings with
    | error overflow' => rfl
    | ok outcome =>
      obtain ⟨outcomes, houtcomes, -⟩ := bind_eq_ok.1 hended
      have hmem : ({ r with expect := es } : Routine) ∈ (d.expecting k es).routines :=
        List.mem_of_getElem? (i := k) (by simp [expecting, hk])
      obtain ⟨outcome, houtcome⟩ := exists_mapM_ok.1 ⟨outcomes, houtcomes⟩ _
        (mem_models.2 ⟨_, hmem, Routine.model_expecting hmodel es⟩)
      rw [Model.reportOrFault, hexpecting] at houtcome
      cases houtcome

variable (hfound : found ∈ rep.regions)
include hfound

/-- Of a region that is expected to have what was found, only illegible lists are missed. -/
theorem mismatchesOf_expectation :
    (mismatchesOf arith ⟨r.variables⟩ rep.regions (found.name, found.expectation) = .ok [] ↔
      ∀ l ∈ found.lists, Legible ⟨r.variables⟩ l) ∧
    (r.Modest → ∀ l ∈ found.lists, Legible ⟨r.variables⟩ l) := by
  obtain ⟨m, hm, hreport⟩ := model_of_analyze h hk hrep
  obtain ⟨_, hlow⟩ := Routine.exists_lowered hm
  simp only [Model.analyze, Model.report, bind_eq_ok, mapError_eq_ok, pure_eq_ok] at hreport
  obtain ⟨progress, hp, regions, hregions, ms, -, rfl⟩ := hreport
  have hnames : (m.names.vars.map (·.1)).Nodup := by
    rw [hlow.names, Routine.variables, List.map_map]
    exact (Routine.wellFormed_of_model hm).vars.1
  have hfind : regions.find? (·.name == found.name) = some found := by
    cases hf : regions.find? (·.name == found.name) with
    | none => exact absurd (List.find?_eq_none.1 hf found hfound) (by simp)
    | some other =>
      have hname := List.find?_some hf
      simp only [beq_iff_eq] at hname
      exact congrArg some (List.inj_on_of_nodup_map (hlow.names_nodup hregions)
        (List.mem_of_find?_eq_some hf) hfound hname)
  obtain ⟨region, hmem, hregion⟩ := (mem_of_mapM hregions).1 hfound
  obtain ⟨p, hp'⟩ := Array.getElem?_of_mem (Array.mem_toList_iff.1 hmem)
  rw [← hlow.names]
  refine ⟨?_, fun hmodest => ?_⟩
  · rw [mismatchesOf, hfind]
    exact (RegionReport.tidy_of_ofResults hregion).mismatches_eq_nil hnames
  · exact RegionReport.legible_of_ofResults hnames hp hp' hregion fun l hl =>
      hmodest.spelled hlow hl

/-- A region may be expected to have what was found there, where a list of all locations is written
as `*`. Then the analysis finds the same again and misses what it missed before. About the region
itself it misses nothing, as long as every list of it is legible: each text in it would be reported
as it stands there, and none stands there twice. That is so for every routine with plain names in
which nothing goes past the last offset. A program that checks its arithmetic may end at one of the
expectations, but not at one that is legible. -/
theorem own_expectation_met (before after : List (String × Expectation)) :
    ∃ ms own ms' : Except Overflow (List String),
      (d.expecting k (before ++ after)).analyze arith settings = (do
        let missed ← ms
        let missed' ← ms'
        return .ok (a.missing k (missed ++ missed'))) ∧
      (d.expecting k (before ++ (found.name, found.expectation) :: after)).analyze arith settings =
        (do
          let missed ← ms
          let missedHere ← own
          let missed' ← ms'
          return .ok (a.missing k (missed ++ missedHere ++ missed'))) ∧
      (own = .ok [] ↔ ∀ l ∈ found.lists, Legible ⟨r.variables⟩ l) ∧ (r.Modest → own = .ok []) ∧
      (arith = .wrapping → ∃ missed missedHere missed',
        ms = .ok missed ∧ own = .ok missedHere ∧ ms' = .ok missed') := by
  obtain ⟨hown, hmodest⟩ := mismatchesOf_expectation h hk hrep hfound
  have hread : ∀ e, arith = .wrapping →
      ∃ missed, mismatchesOf arith ⟨r.variables⟩ rep.regions e = .ok missed :=
    fun e hw => exists_mismatchesOf.2 fun hc => by rw [hw] at hc; cases hc
  refine ⟨List.flatten <$> before.mapM (mismatchesOf arith ⟨r.variables⟩ rep.regions), _,
    List.flatten <$> after.mapM (mismatchesOf arith ⟨r.variables⟩ rep.regions), ?_, ?_, hown,
    fun hr => hown.2 (hmodest hr), fun hw => ?_⟩
  · rw [analyze_expecting h hk hrep, List.mapM_append]
    simp only [map_eq_pure_bind, bind_assoc, pure_bind, List.flatten_append]
    rfl
  · rw [analyze_expecting h hk hrep, List.mapM_append, List.mapM_cons]
    simp only [map_eq_pure_bind, bind_assoc, pure_bind, List.flatten_append, List.flatten_cons,
      List.append_assoc]
    rfl
  · obtain ⟨missed, hmissed⟩ := mapM_ok fun e (_ : e ∈ before) => hread e hw
    obtain ⟨missed', hmissed'⟩ := mapM_ok fun e (_ : e ∈ after) => hread e hw
    obtain ⟨missedHere, hhere⟩ := hread (found.name, found.expectation) hw
    exact ⟨_, _, _, map_eq_ok.2 ⟨missed, hmissed, rfl⟩, hhere,
      map_eq_ok.2 ⟨missed', hmissed', rfl⟩⟩

end Main

theorem modest_storeLoop : storeLoop.Modest := by
  refine ⟨by decide +kernel, fun v hv n hn => ?_, fun b hb i hi n hn => ?_⟩
  · obtain rfl := List.mem_singleton.1 hv
    obtain rfl := Option.some.inj hn
    decide
  · obtain rfl := List.mem_singleton.1 hb
    obtain rfl := List.mem_singleton.1 hi
    cases hn

theorem own_expectation_met_storeLoop : ∃ a rep found,
    analyze { routines := [storeLoop] } .checked {} = .ok (.ok a) ∧
    a.reports[0]? = some rep ∧ found ∈ rep.regions ∧ found.isLoop = true ∧
    (expecting { routines := [storeLoop] } 0
      [(found.name, found.expectation)]).analyze .checked {} =
      (expecting { routines := [storeLoop] } 0 []).analyze .checked {} := by
  have hall : (((analyze { routines := [storeLoop] } .checked {}).toOption.bind
      Except.toOption).bind fun a => a.reports[0]?.bind fun rep =>
        rep.regions[1]?.map fun found => found.isLoop) = some true := by
    decide +kernel
  obtain ⟨a, ha, hall⟩ := Option.bind_eq_some_iff.1 hall
  obtain ⟨rep, hrep, hall⟩ := Option.bind_eq_some_iff.1 hall
  obtain ⟨found, hfound, hloop⟩ := Option.map_eq_some_iff.1 hall
  have ha := eq_ok_of_analysis ha
  have hmem := List.mem_of_getElem? hfound
  obtain ⟨ms, own, ms', hwithout, hwith, -, hown, -⟩ :=
    own_expectation_met (k := 0) (r := storeLoop) ha rfl hrep hmem [] []
  obtain rfl := hown modest_storeLoop
  rw [List.append_nil] at hwithout
  simp only [ok_bind, List.append_nil] at hwith
  exact ⟨a, rep, found, ha, hrep, hmem, hloop, hwith.trans hwithout.symm⟩

/-- Two parts of one variable from one byte on: one goes past the last offset, and the other one has
an end that is not known. -/
def stretched : Routine where
  name := "routine"
  vars := [{ name := "x" }]
  blocks := [{
    name := "block"
    instructions := [
      { operation := .store, target := some "x", offset := 8, size := some 9223372036854775807 },
      { operation := .store, target := some "x", offset := 8 }] }]

/-- Both parts have one name, which is found twice but can only be expected once. -/
theorem own_expectation_missed_stretched : ∃ a rep found a',
    analyze { routines := [stretched] } .wrapping {} = .ok (.ok a) ∧ a.reports[0]? = some rep ∧
    found ∈ rep.regions ∧ found.defs = ["x[8..]", "x[8..]"] ∧
    (expecting { routines := [stretched] } 0
      [(found.name, found.expectation)]).analyze .wrapping {} = .ok (.ok a') ∧
    a'.reports.map (·.mismatches) = [["routine.defs: expected [x[8..]], found [x[8..], x[8..]]",
      "routine.must_reach_out: expected [x[8..]], found [x[8..], x[8..]]",
      "routine.may_reach_out: expected [x[8..]], found [x[8..], x[8..]]"]] := by
  have hall : (((analyze { routines := [stretched] } .wrapping {}).toOption.bind
      Except.toOption).bind fun a => a.reports[0]?.bind fun rep => rep.regions[0]?.bind fun found =>
        (((expecting { routines := [stretched] } 0
          [(found.name, found.expectation)]).analyze .wrapping {}).toOption.bind
            Except.toOption).map fun a' => (found.defs, a'.reports.map (·.mismatches))) =
      some (["x[8..]", "x[8..]"], [["routine.defs: expected [x[8..]], found [x[8..], x[8..]]",
        "routine.must_reach_out: expected [x[8..]], found [x[8..], x[8..]]",
        "routine.may_reach_out: expected [x[8..]], found [x[8..], x[8..]]"]]) := by
    cbv
  obtain ⟨a, ha, hall⟩ := Option.bind_eq_some_iff.1 hall
  obtain ⟨rep, hrep, hall⟩ := Option.bind_eq_some_iff.1 hall
  obtain ⟨found, hfound, hall⟩ := Option.bind_eq_some_iff.1 hall
  obtain ⟨a', ha', hall⟩ := Option.map_eq_some_iff.1 hall
  obtain ⟨hdefs, hmissed⟩ := Prod.mk.inj hall
  exact ⟨a, rep, found, a', eq_ok_of_analysis ha, hrep, List.mem_of_getElem? hfound, hdefs,
    eq_ok_of_analysis ha', hmissed⟩

end LoopMemory.Description
