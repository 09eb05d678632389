import LoopMemory.Proofs.Analysis.Complete
import LoopMemory.Proofs.Inventory
import LoopMemory.Proofs.Solver.Greatest

/-! All locations in the results of an analysis are ones that some instruction accesses. -/
namespace LoopMemory.Memory
variable {m : Memory} {t : RegionTree} {region : Region} {r : RegionId} {n : NodeId} {node : Node}
  {progress : Progress} {f : Footprint} {flow : Flow} {l : Location} {E : Set Event}

/-- Some instruction accesses the location. -/
def Mentions (m : Memory) (l : Location) : Prop :=
  ∃ i e a, m.effects i = some e ∧ a ∈ e.accesses ∧ a.location = l

theorem mentions_of_event {a : Access} {i : Inst} (h : .access a ∈ m.instEvents i) :
    m.Mentions a.location := by
  unfold instEvents at h
  cases he : m.effects i with
  | none => simp [he] at h
  | some e =>
    have ha : a ∈ e.accesses := by
      cases hu : e.unknown <;> simpa [he, hu] using h
    exact ⟨i, e, a, he, ha, rfl⟩

/-- The footprint speaks of accessed locations only. -/
structure Sourced (m : Memory) (f : Footprint) : Prop where
  explicit : ∀ l ∈ f.explicit.locations, m.Mentions l
  uses : ∀ l ∈ f.uses, m.Mentions l
  writes : ∀ l, f.Writes l → m.Mentions l

theorem Tallies.sourced (h : m.Tallies E f)
    (hE : ∀ a, .access a ∈ E → ∃ i, .access a ∈ m.instEvents i) : m.Sourced f := by
  have hexplicit : ∀ l ∈ f.explicit.locations, m.Mentions l := by
    intro l hl
    obtain ⟨a, ha, -, rfl⟩ := (h.explicit l).1 hl
    obtain ⟨i, hi⟩ := hE a ha
    exact mentions_of_event hi
  exact ⟨hexplicit, fun l hl => hexplicit l (h.uses l hl), fun l hl => hexplicit l (h.touched l hl)⟩

section Analysed
variable (h : m.analyze t = .ok progress)
include h

theorem sourced_summary (hr : t.region? r = some region)
    (hf : progress.results.summary? r = some f) : m.Sourced f := by
  refine (tallies_of_analyze h hr f hf).sourced fun a ha => ?_
  obtain ⟨i, -, hi⟩ := ha
  exact ⟨i, hi⟩

/-- The footprint of a node tallies with the events of what it stands for. -/
theorem tallies_of_node (hr : t.region? r = some region) (hn : n ∈ region.nodes)
    (hnode : t.node? n = some node) (hf : m.IsFootprint progress.results node.kind f) :
    m.Tallies (m.eventsOf t node.kind) f := by
  refine hf.tallies fun c hk g hg => ?_
  obtain ⟨inner, hc, -⟩ := loop_of_analyze h hr hn hnode hk
  exact tallies_of_analyze h hc g hg

theorem sourced_node (hr : t.region? r = some region) (hn : n ∈ region.nodes)
    (hnode : t.node? n = some node) (hf : m.IsFootprint progress.results node.kind f) :
    m.Sourced f := by
  refine (tallies_of_node h hr hn hnode hf).sourced fun a ha => ?_
  cases hk : node.kind with
  | entry | exit => simp [hk, eventsOf] at ha
  | block insts =>
    rw [hk] at ha
    obtain ⟨i, -, hi⟩ := List.mem_flatMap.1 ha
    exact ⟨i, hi⟩
  | region c =>
    rw [hk] at ha
    obtain ⟨i, -, hi⟩ := ha
    exact ⟨i, hi⟩

theorem nodeFlow_within (hn : t.node? n = some node)
    (hf : progress.results.nodeFlow n = .ok flow) :
    flow.output.Within m.Mentions m.Mentions := by
  have hv := valid_of_analyze h
  obtain ⟨region, hr, hmem⟩ := hv.owner hn
  obtain ⟨s⟩ := solved_of_analyze h hr
  obtain ⟨x, y, -, hy, hfile⟩ := s.filed n hmem
  rw [Results.nodeFlow_eq_ok, hfile] at hf
  obtain rfl := Option.some.inj hf
  refine Problem.outputs_within (s.surveyed.closed hv hr) (fun k hk f hfk => ?_) s.solves hy
  obtain ⟨node, g, hnode, hg, hfoot⟩ := s.surveyed k hk
  obtain rfl := Option.some.inj (hfk.symm.trans hg)
  have hsourced := sourced_node h hr hk hnode hfoot
  exact ⟨fun l hl => hsourced.writes l (.inl hl), hsourced.writes⟩

theorem regionFlow_within (hr : t.region? r = some region)
    (hf : progress.results.regionFlow r = .ok flow) :
    flow.output.Within m.Mentions m.Mentions := by
  have hv := valid_of_analyze h
  have hparent := (hv.region r region hr).parent
  rw [RegionTree.ParentOk] at hparent
  split at hparent
  · rw [(hv.region r region hr).id] at hparent
    subst hparent
    obtain ⟨x, y, hexit, hroot⟩ := regionFlow_root h hr
    obtain rfl := Except.ok.inj (hroot.symm.trans hf)
    obtain ⟨exit, hexit', -⟩ := hv.exit_node hr
    have hwithin := nodeFlow_within h hexit' hexit
    exact hwithin
  · obtain ⟨_, n, _, -, -, hs, -⟩ := hparent
    obtain ⟨_, k, flow', -, -, hlast, hflow, hflow'⟩ := region_facts_of_standIn h hr hs
    obtain rfl := Except.ok.inj (hflow.symm.trans hf)
    obtain ⟨node, hk⟩ := hv.node_of_mem_walk (RegionTree.mem_of_lastFor hlast).1
    exact nodeFlow_within h hk hflow'

end Analysed
end LoopMemory.Memory
