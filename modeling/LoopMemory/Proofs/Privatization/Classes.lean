import LoopMemory.Proofs.Description.Renumbered

/-! What the members of an alias class have in common in the verdicts on a loop. -/
namespace LoopMemory

/-- The location may be written in one iteration and read in the next, by accesses that are all
known. -/
structure Footprint.Carries (f : Footprint) (aliases : Aliasing) (l : Location) : Prop where
  known : f.hasUnknown = false
  kept : l.base ∉ f.addresses
  written : ∃ d, (d ∈ f.defs ∨ d ∈ f.mayDefs) ∧ aliases.meets d l = true
  used : ∃ u ∈ f.uses, aliases.meets u l = true

namespace LoopFacts
variable {x : LoopFacts} {cls : List Location} {k l : Location} {v : Verdict} {c : Candidate}

theorem own_eq_dependency_iff :
    x.own l = .dependency ↔ x.footprint.Carries x.aliases l := by
  have hwritten : (∃ d, (d ∈ x.footprint.defs ∨ d ∈ x.footprint.mayDefs) ∧
      x.aliases.meets d l = true) ↔ x.footprint.defs.meets x.aliases l = true ∨
        x.footprint.mayDefs.meets x.aliases l = true := by
    simp only [SortedSet.meets_iff, or_and_right, exists_or]
  have hcarries : x.footprint.Carries x.aliases l ↔ (x.footprint.hasUnknown = false ∧
      l.base ∉ x.footprint.addresses) ∧ (x.footprint.defs.meets x.aliases l = true ∨
        x.footprint.mayDefs.meets x.aliases l = true) ∧
      x.footprint.uses.meets x.aliases l = true := by
    rw [← hwritten, SortedSet.meets_iff]
    exact ⟨fun h => ⟨⟨h.known, h.kept⟩, h.written, h.used⟩,
      fun h => ⟨h.1.1, h.1.2, h.2.1, h.2.2⟩⟩
  rw [hcarries, own]
  split
  · rename_i hs
    refine iff_of_false (by simp) fun h => ?_
    rw [h.1.1, Bool.false_or, decide_eq_true_eq] at hs
    exact h.1.2 hs
  · rename_i hs
    split
    · rename_i hw
      refine iff_of_false (by simp) fun h => ?_
      rw [Bool.and_eq_true, Bool.not_eq_true', Bool.not_eq_true'] at hw
      simp [hw.1, hw.2] at h
    · rename_i hw
      split
      · rename_i hu
        have hw : x.footprint.defs.meets x.aliases l = true ∨
            x.footprint.mayDefs.meets x.aliases l = true := by
          cases hd : x.footprint.defs.meets x.aliases l <;> simp_all
        exact iff_of_true rfl ⟨by simpa using hs, hw, hu⟩
      · rename_i hu
        refine iff_of_false ?_ fun h => hu h.2.2
        split <;> simp

/- One class. -/

theorem verdict_of_blocking {b : Verdict} (hb : x.blocking? cls = some b) :
    x.verdict cls l = if (x.own l).isPrivate then b else x.own l := by
  simp only [verdict, hb]

theorem blocking?_of_shared (hk : k ∈ cls) (ho : x.own k = .shared) :
    x.blocking? cls = some .shared := by
  have hany : (cls.any fun l => x.own l == .shared) = true :=
    List.any_eq_true.2 ⟨k, hk, beq_iff_eq.2 ho⟩
  rw [blocking?, if_pos hany]

theorem blocking?_of_dependency (hn : ∀ l ∈ cls, x.own l ≠ .shared) (hk : k ∈ cls)
    (ho : x.own k = .dependency) : x.blocking? cls = some .dependency := by
  have hnone : ¬(cls.any fun l => x.own l == .shared) = true := by
    rw [List.any_eq_true]
    rintro ⟨l, hl, hs⟩
    exact hn l hl (beq_iff_eq.1 hs)
  have hany : (cls.any fun l => x.own l == .dependency) = true :=
    List.any_eq_true.2 ⟨k, hk, beq_iff_eq.2 ho⟩
  rw [blocking?, if_neg hnone, if_pos hany]

theorem exists_own_of_blocking? {b : Verdict} (h : x.blocking? cls = some b) :
    ∃ k ∈ cls, x.own k = b := by
  have hmember : ∀ v, (cls.any fun l => x.own l == v) = true → ∃ k ∈ cls, x.own k = v := by
    intro v hany
    obtain ⟨k, hk, ho⟩ := List.any_eq_true.1 hany
    exact ⟨k, hk, beq_iff_eq.1 ho⟩
  unfold blocking? at h
  split at h
  · rename_i hany
    obtain rfl := Option.some.inj h
    exact hmember _ hany
  · split at h
    · rename_i hany
      obtain rfl := Option.some.inj h
      exact hmember _ hany
    · cases h

/-- No member gets a verdict that none of them has for itself. -/
theorem exists_own_of_verdict (hl : l ∈ cls) (h : x.verdict cls l = v) :
    ∃ k ∈ cls, x.own k = v := by
  cases hb : x.blocking? cls with
  | none =>
    simp only [verdict, hb] at h
    exact ⟨l, hl, h⟩
  | some b =>
    rw [verdict_of_blocking hb] at h
    split at h
    · exact h ▸ exists_own_of_blocking? hb
    · exact ⟨l, hl, h⟩

theorem verdict_of_own_shared (h : x.own l = .shared) : x.verdict cls l = .shared := by
  cases hb : x.blocking? cls with
  | none => simp only [verdict, hb, h]
  | some b => simp [verdict_of_blocking hb, h, Verdict.isPrivate]

/-- Beside a shared member, only a location that carries a value between iterations by itself is not
shared as well. -/
theorem verdict_beside_shared (hk : k ∈ cls) (hs : x.verdict cls k = .shared)
    (hr : x.verdict cls l ≠ .readOnly) :
    (x.footprint.Carries x.aliases l → x.verdict cls l = .dependency) ∧
      (¬x.footprint.Carries x.aliases l → x.verdict cls l = .shared) := by
  obtain ⟨j, hj, ho⟩ := exists_own_of_verdict hk hs
  rw [verdict_of_blocking (blocking?_of_shared hj ho)] at hr ⊢
  rw [← own_eq_dependency_iff]
  cases h : x.own l <;> simp_all [Verdict.isPrivate]

theorem verdict_beside_dependency (hn : ∀ l ∈ cls, x.verdict cls l ≠ .shared) (hk : k ∈ cls)
    (hd : x.verdict cls k = .dependency) (hl : l ∈ cls) (hr : x.verdict cls l ≠ .readOnly) :
    x.verdict cls l = .dependency := by
  obtain ⟨j, hj, ho⟩ := exists_own_of_verdict hk hd
  have hnone : ∀ l ∈ cls, x.own l ≠ .shared := fun l hl h => hn l hl (verdict_of_own_shared h)
  have hself := hnone l hl
  rw [verdict_of_blocking (blocking?_of_dependency hnone hj ho)] at hr ⊢
  cases h : x.own l <;> simp_all [Verdict.isPrivate]

/- All classes. -/

theorem exists_candidate (hcls : cls ∈ x.footprint.explicit.classes) (hl : l ∈ cls) :
    ∃ c ∈ x.candidates, c.location = l :=
  ⟨x.candidate cls l, List.mem_flatMap.2 ⟨cls, hcls, List.mem_map.2 ⟨l, hl, rfl⟩⟩, rfl⟩

/-- As no location is in two classes, its candidate is the one of its class. -/
theorem verdict_of_mem {aliases : Aliasing} (ha : aliases.Regular)
    (hg : x.footprint.explicit.Grouped aliases) (hcls : cls ∈ x.footprint.explicit.classes)
    (hc : c ∈ x.candidates) (hl : c.location ∈ cls) : c.verdict = x.verdict cls c.location := by
  obtain ⟨cls', hcls', hc⟩ := List.mem_flatMap.1 hc
  obtain ⟨l, hl', rfl⟩ := List.mem_map.1 hc
  obtain rfl := hg.apart cls hcls cls' hcls' l hl l hl' (ha.refl l)
  rfl

end LoopFacts

namespace Memory
variable {m : Memory} {t : RegionTree} {region : Region} {r : RegionId} {progress : Progress}
  {model : AliasModel}

section Candidates
variable {aliases : Aliasing} {liveOut : LocationSet} {f : Footprint} {cs : List Candidate}
  (hf : progress.results.summary? r = some f)
  (hcs : classifyLoop t progress.results r liveOut aliases = .ok cs)
include hf hcs

/-- The verdicts are on what the summary of the loop lists. -/
theorem perm_classifyLoop : (cs.map (·.location)).Perm f.explicit.locations := by
  obtain ⟨_, g, flow, -, -, hg, -, rfl⟩ := classifyLoop_eq_ok.1 hcs
  rw [Results.regionFootprint_eq_ok, hf] at hg
  obtain rfl := Option.some.inj hg
  have hperm := (List.mergeSort_perm (LoopFacts.candidates
    ⟨f, flow.output.must, liveOut, aliases⟩)
      fun a b => decide (¬b.location.key < a.location.key)).map (·.location)
  rwa [LoopFacts.map_location_candidates] at hperm

/-- Each location that a loop touches has one candidate, and nothing else has. -/
theorem locations_of_classifyLoop (h : m.analyze t = .ok progress) (ha : m.aliases.Regular)
    (hr : t.region? r = some region) :
    (cs.map (·.location)).Nodup ∧ ∀ l ∈ cs.map (·.location), l ∈ f.explicit.locations := by
  obtain ⟨s⟩ := solved_of_analyze h hr
  obtain rfl := Option.some.inj (s.onFile.symm.trans hf)
  have hperm := perm_classifyLoop s.onFile hcs
  exact ⟨hperm.nodup_iff.2 (Problem.grouped_of_collapse ha s.collapses).nodup,
    fun l hl => hperm.mem_iff.1 hl⟩

end Candidates

/-- Every loop can be classified, whatever is read after it and whatever oracle is asked. If a
member of an alias class is shared, so is every other one that is not only read, except for those
that carry a value between iterations by themselves. If none is shared but one is a dependency, so
is every other one that is not only read. -/
theorem classifyLoop_classes (h : m.analyze t = .ok progress) (ha : m.aliases = model.overlap)
    (hr : t.region? r = some region) (hloop : region.isLoop = true) (liveOut : LocationSet)
    (aliases : Aliasing) :
    ∃ f cs, progress.results.regionFootprint r = .ok f ∧
      classifyLoop t progress.results r liveOut aliases = .ok cs ∧
      ∀ cls ∈ f.explicit.classes, (∀ l ∈ cls, ∃ c ∈ cs, c.location = l) ∧
        ((∃ c ∈ cs, c.location ∈ cls ∧ c.verdict = .shared) →
          ∀ c ∈ cs, c.location ∈ cls → c.verdict ≠ .readOnly →
            (f.Carries aliases c.location → c.verdict = .dependency) ∧
            (¬f.Carries aliases c.location → c.verdict = .shared)) ∧
        ((∀ c ∈ cs, c.location ∈ cls → c.verdict ≠ .shared) →
          (∃ c ∈ cs, c.location ∈ cls ∧ c.verdict = .dependency) →
          ∀ c ∈ cs, c.location ∈ cls → c.verdict ≠ .readOnly → c.verdict = .dependency) := by
  have hregular : m.aliases.Regular := ha ▸ model.regular
  obtain ⟨cs, hcs⟩ := classifyLoop_ok h hr hloop liveOut aliases
  obtain ⟨s⟩ := solved_of_analyze h hr
  have hgrouped := Problem.grouped_of_collapse hregular s.collapses
  refine ⟨s.summary, cs, Results.regionFootprint_eq_ok.2 s.onFile, hcs, fun cls hcls => ?_⟩
  obtain ⟨_, f, flow, -, -, hf, -, rfl⟩ := classifyLoop_eq_ok.1 hcs
  rw [Results.regionFootprint_eq_ok] at hf
  obtain rfl := Option.some.inj (s.onFile.symm.trans hf)
  simp only [List.mem_mergeSort]
  have hall : ∀ l ∈ cls, ∃ c ∈ LoopFacts.candidates ⟨s.summary, flow.output.must, liveOut, aliases⟩,
      c.location = l := fun l hl => LoopFacts.exists_candidate hcls hl
  refine ⟨hall, ?_, ?_⟩
  · rintro ⟨d, hd, hdl, hds⟩ c hc hl hro
    rw [LoopFacts.verdict_of_mem hregular hgrouped hcls hd hdl] at hds
    rw [LoopFacts.verdict_of_mem hregular hgrouped hcls hc hl] at hro ⊢
    exact LoopFacts.verdict_beside_shared hdl hds hro
  · rintro hn ⟨d, hd, hdl, hdd⟩ c hc hl hro
    rw [LoopFacts.verdict_of_mem hregular hgrouped hcls hd hdl] at hdd
    rw [LoopFacts.verdict_of_mem hregular hgrouped hcls hc hl] at hro ⊢
    refine LoopFacts.verdict_beside_dependency (fun l hl => ?_) hdl hdd hl hro
    obtain ⟨e, he, rfl⟩ := hall l hl
    rw [← LoopFacts.verdict_of_mem hregular hgrouped hcls he hl]
    exact hn e he hl

end Memory

namespace Description

/-- A loop that takes the address of one variable, and updates another one that may be the same. -/
def addressedAlias : Routine where
  name := "routine"
  vars := [{ name := "x", size := some 8 }, { name := "y", size := some 8 }]
  aliases := [⟨("x", "y")⟩]
  loops := [{ name := "loop" }]
  blocks := [{
    name := "block", region := some "loop"
    instructions := [
      { operation := .store, target := some "x" }, { operation := .address, target := some "x" },
      { operation := .load, target := some "y" }, { operation := .store, target := some "y" }] }]

theorem classifyLoop_classes_addressedAlias : ∃ model progress region,
    addressedAlias.model = .ok model ∧ (model.memory {}).analyze model.tree = .ok progress ∧
    model.tree.region? 1 = some region ∧ region.isLoop = true ∧
    ∃ f cs, progress.results.regionFootprint 1 = .ok f ∧
      classifyLoop model.tree progress.results 1 ∅ model.aliases.overlap = .ok cs ∧
      ∀ cls ∈ f.explicit.classes, ∀ l ∈ cls, ∃ c ∈ cs, c.location = l := by
  have hall : (addressedAlias.model.toOption.bind fun model =>
      ((model.memory {}).analyze model.tree).toOption.bind fun _ =>
        (model.tree.region? 1).map Region.isLoop) = some true := by
    decide +kernel
  obtain ⟨model, hm, hall⟩ := Option.bind_eq_some_iff.1 hall
  obtain ⟨progress, hp, hall⟩ := Option.bind_eq_some_iff.1 hall
  obtain ⟨region, hr, hloop⟩ := Option.map_eq_some_iff.1 hall
  have hm := eq_ok_of_toOption hm
  have hp := eq_ok_of_toOption hp
  obtain ⟨f, cs, hf, hcs, hclasses⟩ :=
    Memory.classifyLoop_classes hp rfl hr hloop ∅ model.aliases.overlap
  exact ⟨model, progress, region, hm, hp, hr, hloop, f, cs, hf, hcs,
    fun cls hcls => (hclasses cls hcls).1⟩

/-- Two variables of one class, of which one is shared and the other one is a dependency. -/
theorem verdicts_differ_addressedAlias : ∃ model progress f cs,
    addressedAlias.model = .ok model ∧ (model.memory {}).analyze model.tree = .ok progress ∧
    progress.results.regionFootprint 1 = .ok f ∧
    f.explicit.classes = [[⟨1, 0, .bytes 8, none⟩, ⟨2, 0, .bytes 8, none⟩]] ∧
    classifyLoop model.tree progress.results 1 ∅ model.aliases.overlap = .ok cs ∧
    ⟨⟨1, 0, .bytes 8, none⟩, .shared, false⟩ ∈ cs ∧
    ⟨⟨2, 0, .bytes 8, none⟩, .dependency, false⟩ ∈ cs := by
  have hall : (addressedAlias.model.toOption.bind fun model =>
      ((model.memory {}).analyze model.tree).toOption.bind fun progress =>
        ((model.tree.region? 1).filter (·.isLoop)).bind fun region =>
          (progress.results.regionFootprint 1).toOption.bind fun f =>
            (progress.results.nodeFlow region.exit).toOption.map fun flow =>
              (f.explicit.classes,
                LoopFacts.candidates ⟨f, flow.output.must, ∅, model.aliases.overlap⟩)) =
      some ([[⟨1, 0, .bytes 8, none⟩, ⟨2, 0, .bytes 8, none⟩]],
        [⟨⟨1, 0, .bytes 8, none⟩, .shared, false⟩,
          ⟨⟨2, 0, .bytes 8, none⟩, .dependency, false⟩]) := by
    decide +kernel
  obtain ⟨model, hm, hall⟩ := Option.bind_eq_some_iff.1 hall
  obtain ⟨progress, hp, hall⟩ := Option.bind_eq_some_iff.1 hall
  obtain ⟨region, hr, hall⟩ := Option.bind_eq_some_iff.1 hall
  obtain ⟨f, hf, hall⟩ := Option.bind_eq_some_iff.1 hall
  obtain ⟨flow, hflow, hall⟩ := Option.map_eq_some_iff.1 hall
  obtain ⟨hr, hloop⟩ := Option.filter_eq_some_iff.1 hr
  obtain ⟨hclasses, hcandidates⟩ := Prod.mk.inj hall
  have hf := eq_ok_of_toOption hf
  obtain ⟨cs, hcs⟩ : ∃ cs, cs = (LoopFacts.candidates
      ⟨f, flow.output.must, ∅, model.aliases.overlap⟩).mergeSort
        fun a b => decide (¬b.location.key < a.location.key) := ⟨_, rfl⟩
  have hclassify := classifyLoop_eq_ok.2
    ⟨region, f, flow, hr, hloop, hf, eq_ok_of_toOption hflow, hcs⟩
  rw [hcandidates] at hcs
  refine ⟨model, progress, f, cs, eq_ok_of_toOption hm, eq_ok_of_toOption hp, hf, hclasses,
    hclassify, ?_⟩
  rw [hcs, List.mem_mergeSort, List.mem_mergeSort]
  exact ⟨.head _, .tail _ (.head _)⟩

end Description
end LoopMemory
