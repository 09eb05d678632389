import LoopMemory.Proofs.Analysis
import LoopMemory.Proofs.Footprint.Summary

/-! The results of an analysis, read as equations between the values on file. -/
namespace LoopMemory.Memory
variable {m : Memory} {t : RegionTree} {region : Region} {r : RegionId} {n k : NodeId}
  {node node' : Node} {results : Results} {progress : Progress} {f g : Footprint}
  {x y : Reaching} {l : Location} {b : Base}

/-- The footprint of a node and the values around it, as the results have them. -/
structure OnFile (m : Memory) (t : RegionTree) (results : Results) (n : NodeId) (node : Node)
    (f : Footprint) (x : Reaching) : Prop where
  lookup : t.node? n = some node
  footprint : m.IsFootprint results node.kind f
  flow : results.nodes[n]?.bind (·.flow) = some ⟨x, x.transfer m.aliases f⟩

theorem OnFile.unique (h : m.OnFile t results n node f x) (k : m.OnFile t results n node' g y) :
    node = node' ∧ f = g ∧ x = y := by
  obtain rfl : node = node' := Option.some.inj (h.lookup.symm.trans k.lookup)
  have hflow := Option.some.inj (h.flow.symm.trans k.flow)
  exact ⟨rfl, h.footprint.unique k.footprint, (Flow.mk.inj hflow).1⟩

namespace Solved

def problem (s : Solved m t results r region) : Problem := ⟨t, region, s.fps, m.aliases⟩

theorem onFile_iff (s : Solved m t results r region) (hl : t.Linked) (hn : n ∈ region.nodes) :
    m.OnFile t results n node f x ↔ t.node? n = some node ∧ s.problem.Has s.sol n f x ∧
      s.sol.outputs.get? n = some (x.transfer m.aliases f) := by
  obtain ⟨node', f', x', hnode', hf', hx', hy'⟩ :=
    (Problem.solves_of_solve hl s.solves).flow n hn
  obtain ⟨_, f'', hnode'', hf'', hfoot⟩ := s.surveyed n hn
  obtain ⟨x'', y'', hx'', hy'', hfile⟩ := s.filed n hn
  simp only at hnode' hf' hx' hy'
  obtain rfl := Option.some.inj (hf'.symm.trans hf'')
  obtain rfl := Option.some.inj (hnode'.symm.trans hnode'')
  obtain rfl := Option.some.inj (hx'.symm.trans hx'')
  obtain rfl := Option.some.inj (hy'.symm.trans hy'')
  have hon : m.OnFile t results n node' f' x' := ⟨hnode', hfoot, by rw [hfile]; rfl⟩
  constructor
  · intro h
    obtain ⟨rfl, rfl, rfl⟩ := hon.unique h
    exact ⟨hnode', ⟨hf', hx'⟩, hy'⟩
  · rintro ⟨hnode, ⟨hf, hx⟩, -⟩
    obtain rfl := Option.some.inj (hf'.symm.trans hf)
    obtain rfl := Option.some.inj (hnode'.symm.trans hnode)
    obtain rfl := Option.some.inj (hx'.symm.trans hx)
    exact hon

theorem exists_onFile (s : Solved m t results r region) (hl : t.Linked) (hn : n ∈ region.nodes) :
    ∃ node f x, m.OnFile t results n node f x := by
  obtain ⟨node, f, x, hnode, hf, hx, hy⟩ := (Problem.solves_of_solve hl s.solves).flow n hn
  exact ⟨node, f, x, (s.onFile_iff hl hn).2 ⟨hnode, ⟨hf, hx⟩, hy⟩⟩

end Solved

section Facts
variable (h : m.analyze t = .ok progress) (hl : t.Linked) (hr : t.region? r = some region)
include h hl hr

theorem exists_onFile (hn : n ∈ region.nodes) :
    ∃ node f x, m.OnFile t progress.results n node f x := by
  obtain ⟨s⟩ := solved_of_analyze h hr
  exact s.exists_onFile hl hn

theorem OnFile.entry (hx : m.OnFile t progress.results region.entry node f x) : x = .start := by
  obtain ⟨s⟩ := solved_of_analyze h hr
  have he := (valid_of_analyze h).entry_mem hr
  obtain ⟨hnode, ⟨-, hx⟩, -⟩ := (s.onFile_iff hl he).1 hx
  rw [(Problem.solves_of_solve hl s.solves).input _ node x hnode hx]
  exact Problem.inputOf_entry _ _

/-- The data-flow inequation of an edge. -/
theorem OnFile.edge (hn : n ∈ region.nodes) (hx : m.OnFile t progress.results n node f x)
    (hy : m.OnFile t progress.results k node' g y) (hs : k ∈ node.succs) :
    y ≤ x.transfer m.aliases f := by
  obtain ⟨s⟩ := solved_of_analyze h hr
  have hv := valid_of_analyze h
  have hk : k ∈ region.nodes := hv.succ_mem hr hn hx.lookup hs
  obtain ⟨hnode, -, hout⟩ := (s.onFile_iff hl hn).1 hx
  obtain ⟨hnode', ⟨-, hin⟩, -⟩ := (s.onFile_iff hl hk).1 hy
  refine (Problem.solves_of_solve hl s.solves).input_le hl hnode hnode' hs hout hin ?_
  rintro rfl
  exact hv.not_leads_entry hl hr ⟨node, hx.lookup, hs⟩

/- The summary of a region, from its nodes. -/

omit hl in
theorem exists_summary : ∃ g, progress.results.summary? r = some g := by
  obtain ⟨s⟩ := solved_of_analyze h hr
  exact ⟨_, s.onFile⟩

variable (hg : progress.results.summary? r = some g)
include hg

theorem OnFile.uses_summary (hn : n ∈ region.nodes) (hx : m.OnFile t progress.results n node f x)
    (hu : l ∈ f.uses) (hc : x.must.covers l = false) : l ∈ g.uses := by
  obtain ⟨s⟩ := solved_of_analyze h hr
  obtain rfl := Option.some.inj (hg.symm.trans s.onFile)
  exact Problem.mem_uses_collapse s.collapses hn ((s.onFile_iff hl hn).1 hx).2.1 hu hc

theorem OnFile.written_summary (hn : n ∈ region.nodes)
    (hx : m.OnFile t progress.results n node f x) (hw : l ∈ f.defs ∨ l ∈ f.mayDefs) :
    l ∈ g.defs ∨ l ∈ g.mayDefs := by
  obtain ⟨s⟩ := solved_of_analyze h hr
  obtain rfl := Option.some.inj (hg.symm.trans s.onFile)
  exact Problem.written_collapse s.collapses hn ((s.onFile_iff hl hn).1 hx).2.1 hw

theorem OnFile.addresses_summary (hn : n ∈ region.nodes)
    (hx : m.OnFile t progress.results n node f x) (hb : b ∈ f.addresses) : b ∈ g.addresses := by
  obtain ⟨s⟩ := solved_of_analyze h hr
  obtain rfl := Option.some.inj (hg.symm.trans s.onFile)
  exact (Problem.mem_addresses_collapse s.collapses).2
    ⟨n, hn, f, x, ((s.onFile_iff hl hn).1 hx).2.1, hb⟩

theorem OnFile.unknown_summary (hn : n ∈ region.nodes)
    (hx : m.OnFile t progress.results n node f x) (hu : f.hasUnknown = true) :
    g.hasUnknown = true := by
  obtain ⟨s⟩ := solved_of_analyze h hr
  obtain rfl := Option.some.inj (hg.symm.trans s.onFile)
  exact (Problem.hasUnknown_collapse s.collapses).2
    ⟨n, hn, f, x, ((s.onFile_iff hl hn).1 hx).2.1, hu⟩

theorem OnFile.unknownWrites_summary (hn : n ∈ region.nodes)
    (hx : m.OnFile t progress.results n node f x) (hu : f.hasUnknownWrites = true) :
    g.hasUnknownWrites = true := by
  obtain ⟨s⟩ := solved_of_analyze h hr
  obtain rfl := Option.some.inj (hg.symm.trans s.onFile)
  exact (Problem.hasUnknownWrites_collapse s.collapses).2
    ⟨n, hn, f, x, ((s.onFile_iff hl hn).1 hx).2.1, hu⟩

/-- A definition of a region surely runs, and something that covers it reaches the exit. -/
theorem mem_defs_summary (hx : m.OnFile t progress.results region.exit node f x) :
    l ∈ g.defs ↔ region.runsOnce m.settings = true ∧
      (x.transfer m.aliases f).must.covers l = true ∧
      ∃ n ∈ region.nodes, ∃ node f x, m.OnFile t progress.results n node f x ∧ l ∈ f.defs := by
  obtain ⟨s⟩ := solved_of_analyze h hr
  obtain rfl := Option.some.inj (hg.symm.trans s.onFile)
  have hex := (valid_of_analyze h).exit_mem hr
  rw [Problem.mem_defs_collapse s.collapses]
  refine and_congr_right fun _ => ?_
  obtain ⟨-, -, hy⟩ := (s.onFile_iff hl hex).1 hx
  constructor
  · rintro ⟨y, hy', hc, n, hn, f, x, hfx, hd⟩
    obtain rfl := Option.some.inj (hy.symm.trans hy')
    obtain ⟨node, f', x', hon⟩ := s.exists_onFile hl hn
    obtain ⟨-, ⟨hf', -⟩, -⟩ := (s.onFile_iff hl hn).1 hon
    obtain rfl := Option.some.inj (hf'.symm.trans hfx.1)
    exact ⟨hc, n, hn, node, f', x', hon, hd⟩
  · rintro ⟨hc, n, hn, node, f, x, hon, hd⟩
    exact ⟨_, hy, hc, n, hn, f, x, ((s.onFile_iff hl hn).1 hon).2.1, hd⟩

end Facts
end LoopMemory.Memory
