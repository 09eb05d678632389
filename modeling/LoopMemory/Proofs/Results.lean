import LoopMemory.Analysis
import LoopMemory.Proofs.Region.Valid

/-! What is on file about a node or a region, and what filing the values of a region changes. -/
namespace LoopMemory.Results
variable {r : Results} {n k : NodeId} {i j : RegionId}

def summary? (r : Results) (i : RegionId) : Option Footprint := r.regions[i]?.bind (·.summary)

def flow? (r : Results) (i : RegionId) : Option Flow := r.regions[i]?.bind (·.flow)

def nodeFlow? (r : Results) (n : NodeId) : Option Flow := r.nodes[n]?.bind (·.flow)

theorem orElse_eq_ok {α : Type} {b : Breach} {o : Option α} {a : α} :
    orElse b o = .ok a ↔ o = some a := by
  cases o <;> simp [orElse]

theorem regionFootprint_eq_ok {f : Footprint} :
    r.regionFootprint i = .ok f ↔ r.summary? i = some f := by
  cases h : r.regions[i]? <;>
    simp [regionFootprint, regionFacts, summary?, h, bind_eq_ok, orElse_eq_ok]

theorem nodeFootprint_eq_ok {f : Footprint} :
    r.nodeFootprint n = .ok f ↔ r.nodes[n]?.bind (·.footprint) = some f := by
  cases h : r.nodes[n]? <;> simp [nodeFootprint, nodeFacts, h, bind_eq_ok, orElse_eq_ok]

theorem nodeFlow_eq_ok {flow : Flow} :
    r.nodeFlow n = .ok flow ↔ r.nodes[n]?.bind (·.flow) = some flow := by
  cases h : r.nodes[n]? <;> simp [nodeFlow, nodeFacts, h, bind_eq_ok, orElse_eq_ok]

theorem regionFlow_eq_ok {flow : Flow} :
    r.regionFlow i = .ok flow ↔ r.regions[i]?.bind (·.flow) = some flow := by
  cases h : r.regions[i]? <;> simp [regionFlow, regionFacts, h, bind_eq_ok, orElse_eq_ok]

@[simp] theorem nodes_setRegion (f : RegionFacts → RegionFacts) :
    (r.setRegion i f).nodes = r.nodes :=
  rfl

@[simp] theorem regions_setNode (f : NodeFacts → NodeFacts) : (r.setNode n f).regions = r.regions :=
  rfl

theorem nodes_setNode (f : NodeFacts → NodeFacts) :
    (r.setNode n f).nodes[k]? = if n = k then r.nodes[k]?.map f else r.nodes[k]? := by
  simp [setNode, Array.getElem?_modify]

@[simp] theorem summary?_setNode (f : NodeFacts → NodeFacts) :
    (r.setNode n f).summary? i = r.summary? i := rfl

theorem summary?_setRegion (f : RegionFacts → RegionFacts) : (r.setRegion i f).summary? j =
    if i = j then r.regions[j]?.bind fun facts => (f facts).summary else r.summary? j := by
  simp only [summary?, setRegion, Array.getElem?_modify]
  split
  · rw [Option.bind_map]; rfl
  · rfl

/-- Filing a flow leaves all summaries as they are. -/
theorem summary?_setRegion_flow (flow : Option Flow) :
    (r.setRegion i fun facts => { facts with flow }).summary? j = r.summary? j := by
  rw [summary?_setRegion]
  split <;> rfl

@[simp] theorem size_nodes_setNode (f : NodeFacts → NodeFacts) :
    (r.setNode n f).nodes.size = r.nodes.size := by
  simp [setNode]

@[simp] theorem size_regions_setRegion (f : RegionFacts → RegionFacts) :
    (r.setRegion i f).regions.size = r.regions.size := by
  simp [setRegion]

@[simp] theorem size_nodes_setRegion (f : RegionFacts → RegionFacts) :
    (r.setRegion i f).nodes.size = r.nodes.size := rfl

@[simp] theorem flow?_setNode (f : NodeFacts → NodeFacts) :
    (r.setNode n f).flow? i = r.flow? i := rfl

theorem flow?_setRegion (f : RegionFacts → RegionFacts) : (r.setRegion i f).flow? j =
    if i = j then r.regions[j]?.bind fun facts => (f facts).flow else r.flow? j := by
  simp only [flow?, setRegion, Array.getElem?_modify]
  split
  · rw [Option.bind_map]; rfl
  · rfl

theorem flow?_setRegion_flow (hi : i < r.regions.size) (flow : Flow) :
    (r.setRegion i fun facts => { facts with flow := some flow }).flow? j =
      if i = j then some flow else r.flow? j := by
  rw [flow?_setRegion]
  by_cases h : i = j
  · simp [h, h ▸ hi]
  · simp [h]

@[simp] theorem regionStats?_setNode (f : NodeFacts → NodeFacts) :
    (r.setNode n f).regionStats? i = r.regionStats? i := rfl

theorem regionStats?_setRegion (f : RegionFacts → RegionFacts) : (r.setRegion i f).regionStats? j =
    if i = j then r.regions[j]?.bind fun facts => (f facts).stats else r.regionStats? j := by
  simp only [regionStats?, setRegion, Array.getElem?_modify]
  split
  · rw [Option.bind_map]; rfl
  · rfl

theorem regionStats?_setRegion_flow (flow : Option Flow) :
    (r.setRegion i fun facts => { facts with flow }).regionStats? j = r.regionStats? j := by
  rw [regionStats?_setRegion]
  split <;> rfl

end LoopMemory.Results

namespace LoopMemory.Memory
variable {t : RegionTree} {region : Region} {fps : NodeMap Footprint} {sol : Solution}
  {r s : Results} {n k : NodeId}

theorem fileNode_eq_ok : fileNode t region fps sol r n = .ok s ↔
    ∃ x y node, sol.inputs.get? n = some x ∧ sol.outputs.get? n = some y ∧
      t.node? n = some node ∧ s = Results.setNode
        (match node.kind with
          | .region child => r.setRegion child fun facts => { facts with flow := some ⟨x, y⟩ }
          | _ => r) n
        fun _ => { footprint := fps.get? n, flow := some ⟨x, y⟩ } := by
  unfold fileNode
  cases hx : sol.inputs.get? n with
  | none => simp
  | some x =>
    cases hy : sol.outputs.get? n with
    | none => simp
    | some y =>
      simp only [bind_eq_ok, RegionTree.node_eq_ok, pure_eq_ok]
      constructor
      · rintro ⟨node, hn, rfl⟩
        exact ⟨x, y, node, rfl, rfl, hn, rfl⟩
      · rintro ⟨_, _, node, hx', hy', hn, rfl⟩
        cases hx'
        cases hy'
        exact ⟨node, hn, rfl⟩

theorem nodes_of_fileNode (h : fileNode t region fps sol r n = .ok s) (hs : n < r.nodes.size) :
    ∃ x y, sol.inputs.get? n = some x ∧ sol.outputs.get? n = some y ∧
      s.nodes[n]? = some { footprint := fps.get? n, flow := some ⟨x, y⟩ } := by
  obtain ⟨x, y, node, hx, hy, hn, rfl⟩ := fileNode_eq_ok.1 h
  refine ⟨x, y, hx, hy, ?_⟩
  rw [Results.nodes_setNode, if_pos rfl]
  split <;> simp [hs]

theorem nodes_of_fileNode_ne (h : fileNode t region fps sol r n = .ok s) (hk : n ≠ k) :
    s.nodes[k]? = r.nodes[k]? := by
  obtain ⟨x, y, node, -, -, -, rfl⟩ := fileNode_eq_ok.1 h
  rw [Results.nodes_setNode, if_neg hk]
  split <;> rfl

theorem summary?_of_fileNode (h : fileNode t region fps sol r n = .ok s) (i : RegionId) :
    s.summary? i = r.summary? i := by
  obtain ⟨x, y, node, -, -, -, rfl⟩ := fileNode_eq_ok.1 h
  rw [Results.summary?_setNode]
  split
  · rw [Results.summary?_setRegion_flow]
  · rfl

theorem size_of_fileNode (h : fileNode t region fps sol r n = .ok s) :
    s.nodes.size = r.nodes.size ∧ s.regions.size = r.regions.size := by
  obtain ⟨x, y, node, -, -, -, rfl⟩ := fileNode_eq_ok.1 h
  split <;> simp

/- All nodes of a region. -/
structure Filed (region : Region) (fps : NodeMap Footprint) (sol : Solution) (r s : Results) :
    Prop where
  mem : ∀ n ∈ region.nodes, ∃ x y, sol.inputs.get? n = some x ∧ sol.outputs.get? n = some y ∧
    s.nodes[n]? = some { footprint := fps.get? n, flow := some ⟨x, y⟩ }
  other : ∀ n, n ∉ region.nodes → s.nodes[n]? = r.nodes[n]?
  summary : ∀ i, s.summary? i = r.summary? i
  nodes : s.nodes.size = r.nodes.size
  regions : s.regions.size = r.regions.size

theorem filed_of_fileNodes (hsize : ∀ n ∈ region.nodes, n < r.nodes.size)
    (h : region.nodes.foldlM (fileNode t region fps sol) r = .ok s) :
    Filed region fps sol r s := by
  obtain ⟨hm, ho, hs, hn, hr⟩ := foldlM_inv (fun filed s =>
    (∀ n ∈ filed, ∃ x y, sol.inputs.get? n = some x ∧ sol.outputs.get? n = some y ∧
      s.nodes[n]? = some { footprint := fps.get? n, flow := some ⟨x, y⟩ }) ∧
    (∀ n, n ∉ filed → s.nodes[n]? = r.nodes[n]?) ∧ (∀ i, s.summary? i = r.summary? i) ∧
    s.nodes.size = r.nodes.size ∧ s.regions.size = r.regions.size) h
    (by simp) (by
      rintro before n after u v hl ⟨hm, ho, hs, hn, hr⟩ hv
      have hnode : n < u.nodes.size := hn ▸ hsize n (by simp [hl])
      refine ⟨fun k hk => ?_, fun k hk => ?_, fun i => ?_, ?_, ?_⟩
      · by_cases hkn : n = k
        · exact hkn ▸ nodes_of_fileNode hv hnode
        · rw [nodes_of_fileNode_ne hv hkn]
          exact hm k (by simpa [Ne.symm hkn] using hk)
      · simp only [List.mem_append, List.mem_singleton, not_or] at hk
        rw [nodes_of_fileNode_ne hv (Ne.symm hk.2)]
        exact ho k hk.1
      · rw [summary?_of_fileNode hv, hs]
      · rw [(size_of_fileNode hv).1, hn]
      · rw [(size_of_fileNode hv).2, hr])
  exact ⟨hm, ho, hs, hn, hr⟩

theorem fileBody_eq_ok : fileBody region sol r = .ok s ↔
    (∃ p, region.parent = some p ∧ s = r) ∨
    (region.parent = none ∧ ∃ y, sol.outputs.get? region.exit = some y ∧
      s = r.setRegion region.id fun facts => { facts with flow := some ⟨.start, y⟩ }) := by
  unfold fileBody
  cases region.parent with
  | some p => simp [pure_eq_ok, eq_comm (a := r)]
  | none =>
    cases sol.outputs.get? region.exit with
    | none => simp
    | some y => simp [pure_eq_ok, eq_comm (a := s)]

theorem Filed.body {u : Results} (h : Filed region fps sol r s)
    (hb : fileBody region sol s = .ok u) : Filed region fps sol r u := by
  rcases fileBody_eq_ok.1 hb with ⟨_, -, rfl⟩ | ⟨-, y, -, rfl⟩
  · exact h
  · refine ⟨h.mem, h.other, fun i => ?_, h.nodes, ?_⟩
    · rw [Results.summary?_setRegion_flow, h.summary]
    · rw [Results.size_regions_setRegion, h.regions]

end LoopMemory.Memory
