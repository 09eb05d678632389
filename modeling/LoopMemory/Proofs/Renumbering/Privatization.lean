import LoopMemory.Proofs.Privatization
import LoopMemory.Proofs.Renumbering.Analysis
import Mathlib.Data.List.Nodup

/-! The verdicts on the locations of a loop do not depend on the order in which the loop came to
touch them. -/
namespace LoopMemory

namespace LoopFacts
variable {x y : LoopFacts} {I : Inst → Inst → Prop} {cls cls' : List Location} {l : Location}
  {c : Candidate}

/-- The same loop, whose instructions have other numbers. -/
structure Alike (I : Inst → Inst → Prop) (x y : LoopFacts) : Prop where
  footprint : x.footprint.Alike I y.footprint
  iterationEnd : x.iterationEnd = y.iterationEnd
  liveOut : x.liveOut = y.liveOut
  aliases : x.aliases = y.aliases

theorem any_congr {p q : Location → Bool} (hcls : ∀ l, l ∈ cls ↔ l ∈ cls') (hpq : p = q) :
    cls.any p = cls'.any q := by
  rw [Bool.eq_iff_iff, List.any_eq_true, List.any_eq_true, hpq]
  exact exists_congr fun l => and_congr_left' (hcls l)

namespace Alike
variable (h : x.Alike I y)
include h

theorem symm : y.Alike (flip I) x :=
  ⟨h.footprint.symm, h.iterationEnd.symm, h.liveOut.symm, h.aliases.symm⟩

theorem own_eq : x.own = y.own := by
  funext l
  simp only [own, h.footprint.hasUnknown, h.footprint.addresses, h.footprint.defs,
    h.footprint.mayDefs, h.footprint.uses, h.iterationEnd, h.liveOut, h.aliases]

theorem candidate_eq (hcls : ∀ l, l ∈ cls ↔ l ∈ cls') :
    x.candidate cls l = y.candidate cls' l := by
  have hblocking : x.blocking? cls = y.blocking? cls' := by
    rw [blocking?, blocking?, h.own_eq, any_congr hcls rfl, any_congr hcls rfl]
  have hverdict : x.verdict cls l = y.verdict cls' l := by
    rw [verdict, verdict, hblocking, h.own_eq]
  simp only [candidate, hverdict, any_congr h.footprint.locations rfl]

end Alike

theorem map_location_candidates : x.candidates.map (·.location) =
    x.footprint.explicit.locations := by
  rw [candidates, List.map_flatMap, AliasClasses.locations, List.flatten_eq_flatMap]
  congr 1
  funext cls
  rw [List.map_map]
  exact List.map_id cls

/- The order in which the verdicts are given. -/

theorem pairwise_mergeSort (cs : List Candidate) :
    (cs.mergeSort fun a b => decide (¬b.location.key < a.location.key)).Pairwise
      fun a b => ¬b.location.key < a.location.key := by
  refine (List.pairwise_mergeSort (fun a b c hab hbc => ?_) (fun a b => ?_) cs).imp fun hab => ?_
  · rw [decide_eq_true_eq] at hab hbc ⊢
    exact List.le_trans hab hbc
  · rw [Bool.or_eq_true, decide_eq_true_eq, decide_eq_true_eq]
    exact List.le_total _ _
  · exact of_decide_eq_true hab

/-- Where a location has one candidate only, the order in which they were found does not show. -/
theorem mergeSort_eq_of_perm {cs cs' : List Candidate} (hperm : cs.Perm cs')
    (hinj : ∀ a ∈ cs, ∀ b ∈ cs, a.location = b.location → a = b) :
    (cs.mergeSort fun a b => decide (¬b.location.key < a.location.key)) =
      cs'.mergeSort fun a b => decide (¬b.location.key < a.location.key) := by
  refine List.Perm.eq_of_pairwise ?_ (pairwise_mergeSort cs) (pairwise_mergeSort cs')
    ((List.mergeSort_perm _ _).trans (hperm.trans (List.mergeSort_perm _ _).symm))
  intro a b ha hb hab hba
  rw [List.mem_mergeSort] at ha hb
  exact hinj a ha b (hperm.mem_iff.2 hb) (Location.key_inj (List.le_antisymm hab hba))

section Grouped
variable (h : x.Alike I y) (hx : x.footprint.explicit.Grouped x.aliases)
  (hy : y.footprint.explicit.Grouped y.aliases)
include h hx hy

theorem candidates_subset : x.candidates ⊆ y.candidates := by
  intro c hc
  obtain ⟨cls, hcls, hc⟩ := List.mem_flatMap.1 hc
  obtain ⟨l, hl, rfl⟩ := List.mem_map.1 hc
  have hmem := (h.footprint.locations l).1 (AliasClasses.mem_locations hcls hl)
  obtain ⟨cls', hcls', hl'⟩ := List.mem_flatten.1 hmem
  refine List.mem_flatMap.2 ⟨cls', hcls', List.mem_map.2 ⟨l, hl', ?_⟩⟩
  refine (h.candidate_eq fun k => ?_).symm
  exact (h.aliases ▸ hx).mem_class_iff hy h.footprint.locations hcls hcls' hl hl'

/-- Sorted by their locations, the verdicts are the same list. -/
theorem sorted_candidates_eq :
    (x.candidates.mergeSort fun a b => decide (¬b.location.key < a.location.key)) =
      y.candidates.mergeSort fun a b => decide (¬b.location.key < a.location.key) := by
  have hnodup := hx.nodup
  have hnodup' := hy.nodup
  rw [← map_location_candidates] at hnodup hnodup'
  have hperm : x.candidates.Perm y.candidates :=
    (List.perm_ext_iff_of_nodup hnodup.of_map hnodup'.of_map).2 fun c =>
      ⟨fun hc => candidates_subset h hx hy hc, fun hc => candidates_subset h.symm hy hx hc⟩
  exact mergeSort_eq_of_perm hperm fun a ha b hb => List.inj_on_of_nodup_map hnodup ha hb

end Grouped
end LoopFacts

namespace Renumbering.Renumbers
variable {ν : Renumbering} {m : Memory} {effects : Effects} {t t' : RegionTree} {r r' : RegionId}
  {region region' : Region} {progress progress' : Progress} {liveOut : LocationSet}

/-- A loop has the same candidates under both numberings. -/
theorem classifyLoop_eq (h : ν.Renumbers m t effects t') (ha : m.aliases.Regular)
    (hl : t.Linked) (hl' : t'.Linked) (hp : m.analyze t = .ok progress)
    (hp' : Memory.analyze { m with effects } t' = .ok progress') (hrr : ν.region r r')
    (hr : t.region? r = some region) (hloop : region.isLoop = true) :
    classifyLoop t' progress'.results r' liveOut m.aliases =
      classifyLoop t progress.results r liveOut m.aliases := by
  obtain ⟨_, region', hreg, hr', hsame⟩ := h.region r r' hrr
  obtain rfl := Option.some.inj (hr.symm.trans hreg)
  have hloop' : region'.isLoop = true := by rwa [Region.isLoop, ← hsame.kind]
  obtain ⟨cs, hcs⟩ := Memory.classifyLoop_ok hp hr hloop liveOut m.aliases
  obtain ⟨cs', hcs'⟩ := Memory.classifyLoop_ok hp' hr' hloop' liveOut m.aliases
  have hexit := h.nodeFlow_eq hl hl' hp hp' hsame.exit
  obtain ⟨s⟩ := Memory.solved_of_analyze hp hr
  obtain ⟨s'⟩ := Memory.solved_of_analyze hp' hr'
  rw [hcs, hcs']
  obtain ⟨reg, f, flow, hreg, -, hf, hflow, rfl⟩ := classifyLoop_eq_ok.1 hcs
  obtain ⟨reg', g, flow', hreg', -, hg, hflow', rfl⟩ := classifyLoop_eq_ok.1 hcs'
  rw [Results.regionFootprint_eq_ok] at hf hg
  obtain rfl := Option.some.inj (hr.symm.trans hreg)
  obtain rfl := Option.some.inj (hr'.symm.trans hreg')
  rw [hexit, hflow] at hflow'
  obtain rfl := Except.ok.inj hflow'
  have hfg := h.summary_alike hl hl' hp hp' hrr hf hg
  obtain rfl := Option.some.inj (hf.symm.trans s.onFile)
  obtain rfl := Option.some.inj (hg.symm.trans s'.onFile)
  have hfacts : LoopFacts.Alike ν.inst ⟨s.summary, flow.output.must, liveOut, m.aliases⟩
      ⟨s'.summary, flow.output.must, liveOut, m.aliases⟩ := ⟨hfg, rfl, rfl, rfl⟩
  rw [LoopFacts.sorted_candidates_eq hfacts (Problem.grouped_of_collapse ha s.collapses)
    (Problem.grouped_of_collapse ha s'.collapses)]

end Renumbering.Renumbers
end LoopMemory
