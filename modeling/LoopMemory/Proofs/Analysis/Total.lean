import LoopMemory.Proofs.Analysis
import LoopMemory.Proofs.Footprint.Summary
import LoopMemory.Proofs.Region.Walk

/-! The analysis of a valid tree comes to an end without a breach. -/
namespace LoopMemory
open RegionTree

theorem RegionTree.Valid.region_of_mem_postOrder {t : RegionTree} (hv : t.Valid) {r : RegionId}
    (hr : r ∈ t.postOrder) : ∃ region, t.region? r = some region := by
  have hlt := hv.postOrder_walk.2.2.1 r hr
  exact ⟨t.regions[r], by simp [region?, hlt]⟩

namespace Memory
variable {m : Memory} {t : RegionTree} {region : Region} {r : RegionId} {n : NodeId}
  {results : Results} {fps : NodeMap Footprint} {sol : Solution}

theorem surveyBlock_ok {insts : List Inst} {f : Footprint} (h : m.blockFootprint insts = .ok f) :
    ∃ s, m.surveyBlock insts = .ok s := by
  obtain ⟨s, hs, -⟩ := map_eq_ok.1 h
  exact ⟨s, hs⟩

theorem surveyNode_ok {s : NodeSurvey} {node : Node} {f : Footprint} (hn : t.node? n = some node)
    (hf : m.IsFootprint results node.kind f) : ∃ u, m.surveyNode t results s n = .ok u := by
  unfold surveyNode
  rw [node_eq_ok.2 hn]
  obtain ⟨_, _, kind, _, _⟩ := node
  cases kind with
  | entry | exit => exact ⟨_, rfl⟩
  | block insts =>
    obtain ⟨block, hb⟩ := surveyBlock_ok hf
    exact ⟨_, bind_eq_ok.2 ⟨_, rfl, bind_eq_ok.2 ⟨block, hb, rfl⟩⟩⟩
  | region c =>
    have hsum := Results.regionFootprint_eq_ok.2 hf
    exact ⟨_, bind_eq_ok.2 ⟨_, rfl, bind_eq_ok.2 ⟨_, map_eq_ok.2 ⟨f, hsum, rfl⟩, rfl⟩⟩⟩

theorem surveyRegion_ok (h : ∀ n ∈ region.nodes, ∃ node f, t.node? n = some node ∧
    m.IsFootprint results node.kind f) : ∃ s, m.surveyRegion t region results = .ok s := by
  obtain ⟨s, hs, -⟩ := foldlM_ok (l := region.nodes) (f := m.surveyNode t results) (s := {})
    (fun _ _ => True) trivial (fun before n after s hn _ => by
      obtain ⟨node, f, hnode, hf⟩ := h n (by simp [hn])
      obtain ⟨u, hu⟩ := surveyNode_ok hnode hf
      exact ⟨u, hu, trivial⟩)
  exact ⟨s, hs⟩

theorem fileNodes_ok (h : ∀ n ∈ region.nodes, ∃ x y node, sol.inputs.get? n = some x ∧
    sol.outputs.get? n = some y ∧ t.node? n = some node) :
    ∃ u, region.nodes.foldlM (fileNode t region fps sol) results = .ok u := by
  obtain ⟨u, hu, -⟩ := foldlM_ok (l := region.nodes) (f := fileNode t region fps sol) (s := results)
    (fun _ _ => True) trivial (fun before n after s hn _ => by
      obtain ⟨x, y, node, hx, hy, hnode⟩ := h n (by simp [hn])
      exact ⟨_, fileNode_eq_ok.2 ⟨x, y, node, hx, hy, hnode, rfl⟩, trivial⟩)
  exact ⟨u, hu⟩

theorem fileBody_ok (h : ∃ y, sol.outputs.get? region.exit = some y) :
    ∃ u, fileBody region sol results = .ok u := by
  obtain ⟨y, hy⟩ := h
  cases hp : region.parent with
  | some p => exact ⟨results, fileBody_eq_ok.2 (.inl ⟨p, hp, rfl⟩)⟩
  | none => exact ⟨_, fileBody_eq_ok.2 (.inr ⟨hp, y, hy, rfl⟩)⟩

/-- A region can be analysed as soon as its nodes have footprints. -/
theorem analyzeRegion_ok (hv : t.Valid) (hl : t.Linked) (hr : t.region? r = some region)
    {p : Progress} (h : ∀ n ∈ region.nodes, ∃ node f, t.node? n = some node ∧
      m.IsFootprint p.results node.kind f) : ∃ q, m.analyzeRegion t p r = .ok q := by
  obtain ⟨s, hs⟩ := surveyRegion_ok h
  obtain ⟨sol, hsol⟩ := Problem.solve_ok ((surveyed_of_surveyRegion hs).closed hv hr)
  have hflow := (Problem.solves_of_solve hl hsol).flow
  have hexit : ∃ y, sol.outputs.get? region.exit = some y := by
    obtain ⟨_, _, _, -, -, -, hy⟩ := hflow _ (hv.exit_mem hr)
    exact ⟨_, hy⟩
  obtain ⟨summary, hsum⟩ := @Problem.collapse_ok (.mk t region s.footprints m.aliases) sol
    m.settings (fun n hn => by
      obtain ⟨_, f, x, -, hf, hx, -⟩ := hflow n hn
      exact ⟨f, x, hf, hx⟩) hexit
  obtain ⟨u, hu⟩ := @fileNodes_ok t region p.results s.footprints sol (fun n hn => by
      obtain ⟨node, f, x, hnode, -, hx, hy⟩ := hflow n hn
      exact ⟨x, _, node, hx, hy, hnode⟩)
  obtain ⟨v, hv⟩ := @fileBody_ok region u sol hexit
  exact ⟨⟨_, p.asked ++ s.asked⟩, analyzeRegion_eq_ok.2 ⟨region, s, sol, summary,
    ⟨hr, hs, hsol, hsum, u, v, hu, hv, rfl⟩, rfl⟩⟩

/-- Nothing can go wrong in a valid tree whose blocks have footprints and whose nodes come in
time. -/
theorem analyze_ok (hv : t.Valid) (hl : t.Linked) (ht : t.Timely)
    (hblock : ∀ n node insts, t.node? n = some node → node.kind = .block insts →
      ∃ f, m.blockFootprint insts = .ok f) : ∃ progress, m.analyze t = .ok progress := by
  obtain ⟨progress, hp, -⟩ := foldlM_ok (l := t.postOrder) (f := m.analyzeRegion t)
    (s := { results := .empty t }) (Sofar m t) sofar_nil (fun before r after p hpo hs => by
      obtain ⟨region, hr⟩ := hv.region_of_mem_postOrder (r := r) (by simp [hpo])
      have hfoot : ∀ n ∈ region.nodes, ∃ node f, t.node? n = some node ∧
          m.IsFootprint p.results node.kind f := by
        intro n hn
        obtain ⟨node, hnode, hreg⟩ := hv.listed hr hn
        cases hk : node.kind with
        | entry => exact ⟨node, {}, hnode, by rw [hk]; rfl⟩
        | exit => exact ⟨node, {}, hnode, by rw [hk]; rfl⟩
        | block insts =>
          obtain ⟨f, hf⟩ := hblock n node insts hnode hk
          exact ⟨node, f, hnode, by rw [hk]; exact hf⟩
        | region c =>
          have hc := ht.mem_before hv hnode hk (hreg.symm ▸ hpo)
          obtain ⟨_, -, ⟨S⟩⟩ := hs.solved c hc
          exact ⟨node, S.summary, hnode, by rw [hk]; exact S.onFile⟩
      obtain ⟨q, hq⟩ := analyzeRegion_ok hv hl hr hfoot
      exact ⟨q, hq, hs.step hv (not_mem_of_split hv.postOrder_nodup hpo) hq⟩)
  exact ⟨progress, analyze_eq_ok.2 ⟨hv, hp⟩⟩

theorem analyze_ok_of_nested (hv : t.Valid) (hl : t.Linked) (hnest : t.Nested)
    (hblock : ∀ n node insts, t.node? n = some node → node.kind = .block insts →
      ∃ f, m.blockFootprint insts = .ok f) : ∃ progress, m.analyze t = .ok progress :=
  analyze_ok hv hl (hv.timely hnest) hblock

/-- Only what was done before can be looked up, so where the analysis ends well all nodes came in
time. -/
theorem timely_of_analyze {progress : Progress} (h : m.analyze t = .ok progress) : t.Timely := by
  have hv := valid_of_analyze h
  intro n node c hn hk
  obtain ⟨owner, ho, hmem⟩ := hv.owner hn
  obtain ⟨before, after, hpo⟩ := List.append_of_mem (hv.mem_postOrder ho)
  obtain ⟨p, q, hs, hq⟩ := analyzed_at h hpo
  obtain ⟨region, s, _, _, hA, -⟩ := analyzeRegion_eq_ok.1 hq
  obtain rfl := Option.some.inj (ho.symm.trans hA.lookup)
  obtain ⟨node', f, hn', -, hf⟩ := surveyed_of_surveyRegion hA.survey n hmem
  obtain rfl := Option.some.inj (hn.symm.trans hn')
  exact ⟨before, after, hpo, hs.summary c f (hf.of_region hk)⟩

end Memory
end LoopMemory
