import LoopMemory.Privatization
import LoopMemory.Proofs.Analysis.Facts
import LoopMemory.Proofs.Region.Walk

/-! After the analysis nothing is missing: every node and every region has all that was to be found
out about it, and a loop shares the values of the node that stands for it. -/
namespace LoopMemory.Memory
variable {m : Memory} {t : RegionTree} {region inner : Region} {r c i : RegionId} {n : NodeId}
  {node : Node} {fps : NodeMap Footprint} {sol : Solution} {results results' : Results}
  {progress : Progress} {done : List RegionId}

/- Filing the values around a node. -/

theorem regionStats?_of_fileNode (h : fileNode t region fps sol results n = .ok results')
    (i : RegionId) : results'.regionStats? i = results.regionStats? i := by
  obtain ⟨x, y, node, -, -, -, rfl⟩ := fileNode_eq_ok.1 h
  rw [Results.regionStats?_setNode]
  split
  · rw [Results.regionStats?_setRegion_flow]
  · rfl

theorem flow?_of_fileNode (h : fileNode t region fps sol results n = .ok results')
    (hn : t.node? n = some node) (hk : node.kind ≠ .region c) :
    results'.flow? c = results.flow? c := by
  obtain ⟨x, y, node', -, -, hn', rfl⟩ := fileNode_eq_ok.1 h
  obtain rfl := Option.some.inj (hn.symm.trans hn')
  rw [Results.flow?_setNode]
  split
  · rename_i child hchild
    rw [Results.flow?_setRegion, if_neg fun he => hk (by rw [hchild, he])]
  · rfl

theorem flow?_of_fileNode_self (h : fileNode t region fps sol results n = .ok results')
    (hn : t.node? n = some node) (hk : node.kind = .region c) (hsize : n < results.nodes.size)
    (hc : c < results.regions.size) : results'.flow? c = results'.nodeFlow? n := by
  obtain ⟨x, y, hx, hy, hfile⟩ := nodes_of_fileNode h hsize
  obtain ⟨x', y', node', hx', hy', hn', rfl⟩ := fileNode_eq_ok.1 h
  obtain rfl := Option.some.inj (hn.symm.trans hn')
  obtain rfl := Option.some.inj (hx.symm.trans hx')
  obtain rfl := Option.some.inj (hy.symm.trans hy')
  rw [Results.nodeFlow?, hfile]
  simp only [hk, Results.flow?_setNode, Results.flow?_setRegion_flow hc, if_true, Option.bind_some]

/- All nodes of a region. -/

theorem regionStats?_of_fileNodes
    (h : region.nodes.foldlM (fileNode t region fps sol) results = .ok results') (i : RegionId) :
    results'.regionStats? i = results.regionStats? i :=
  foldlM_inv (fun _ s => s.regionStats? i = results.regionStats? i) h rfl
    fun _ _ _ _ _ _ ih hs => (regionStats?_of_fileNode hs i).trans ih

/-- The last node that stands for a region leaves its values with the region. -/
theorem flow?_of_fileNodes (hnodes : ∀ n ∈ region.nodes, n < results.nodes.size)
    (hc : c < results.regions.size)
    (h : region.nodes.foldlM (fileNode t region fps sol) results = .ok results') :
    results'.flow? c = ((t.lastFor c region.nodes).bind results'.nodeFlow?).or
      (results.flow? c) := by
  have hfiled := filed_of_fileNodes hnodes h
  have hall := foldlM_inv (fun filed s =>
    (s.nodes.size = results.nodes.size ∧ s.regions.size = results.regions.size) ∧
    s.flow? c = ((t.lastFor c filed).bind results'.nodeFlow?).or (results.flow? c)) h
    (by simp [RegionTree.lastFor]) (by
      rintro before n after s s' hl ⟨⟨hsn, hsr⟩, hflow⟩ hs
      have hmem : n ∈ region.nodes := by simp [hl]
      have hn : n < s.nodes.size := hsn ▸ hnodes n hmem
      obtain ⟨x, y, hx, hy, hfile⟩ := nodes_of_fileNode hs hn
      obtain ⟨_, _, node, -, -, hnode, -⟩ := fileNode_eq_ok.1 hs
      obtain ⟨hsn', hsr'⟩ := size_of_fileNode hs
      refine ⟨⟨hsn'.trans hsn, hsr'.trans hsr⟩, ?_⟩
      rw [RegionTree.lastFor_snoc]
      by_cases hk : node.kind = .region c
      · obtain ⟨x', y', hx', hy', hfile'⟩ := hfiled.mem n hmem
        obtain rfl := Option.some.inj (hx.symm.trans hx')
        obtain rfl := Option.some.inj (hy.symm.trans hy')
        have hown := flow?_of_fileNode_self hs hnode hk hn (hsr ▸ hc)
        rw [if_pos ((RegionTree.standsFor_iff hnode).2 hk), hown]
        simp only [Results.nodeFlow?, hfile, hfile', Option.bind_some, Option.some_or]
      · rw [if_neg (mt (RegionTree.standsFor_iff hnode).1 hk), flow?_of_fileNode hs hnode hk, hflow])
  exact hall.2

/- The body has a flow of its own, and nothing else of it is filed apart. -/

theorem nodes_of_fileBody (h : fileBody region sol results = .ok results') :
    results'.nodes = results.nodes := by
  rcases fileBody_eq_ok.1 h with ⟨_, -, rfl⟩ | ⟨-, y, -, rfl⟩ <;> rfl

theorem regionStats?_of_fileBody (h : fileBody region sol results = .ok results')
    (i : RegionId) : results'.regionStats? i = results.regionStats? i := by
  rcases fileBody_eq_ok.1 h with ⟨_, -, rfl⟩ | ⟨-, y, -, rfl⟩
  · rfl
  · rw [Results.regionStats?_setRegion_flow]

theorem flow?_of_fileBody (hv : t.Valid) (hr : t.region? r = some region)
    (h : fileBody region sol results = .ok results') (hc : c ≠ RegionTree.root) :
    results'.flow? c = results.flow? c := by
  rcases fileBody_eq_ok.1 h with ⟨_, -, rfl⟩ | ⟨hp, y, -, rfl⟩
  · rfl
  · have hroot := (hv.region r region hr).parent
    rw [RegionTree.ParentOk, hp] at hroot
    rw [Results.flow?_setRegion, if_neg (hroot ▸ hc.symm)]

/- What is complete about the regions that are done: a region has the values of the last node so
far that stands for it. -/
structure Complete (m : Memory) (t : RegionTree) (done : List RegionId) (p : Progress) :
    Prop where
  sofar : Sofar m t done p
  stats : ∀ r ∈ done, ∃ stats, p.results.regionStats? r = some stats
  flow : ∀ c inner, t.region? c = some inner → c ≠ RegionTree.root →
    p.results.flow? c = (t.lastFor c (done.flatMap t.nodesOf)).bind p.results.nodeFlow?

theorem complete_nil : Complete m t [] { results := .empty t } := by
  refine ⟨sofar_nil, by simp, fun c inner _ _ => ?_⟩
  simp only [Results.flow?, Results.empty, Array.getElem?_replicate]
  split <;> rfl

/- The nodes of earlier regions keep their values. -/
theorem Complete.step (hv : t.Valid) {p q : Progress} (h : Complete m t done p) (hr : r ∉ done)
    (hq : m.analyzeRegion t p r = .ok q) : Complete m t (done ++ [r]) q := by
  obtain ⟨region, s, sol, summary, ⟨hreg, -, -, -, u, v, hu, hbody, hres⟩, -⟩ :=
    analyzeRegion_eq_ok.1 hq
  have hlt := h.sofar.lt_size hv hreg
  have hfiled := (filed_of_fileNodes hlt hu).body hbody
  have hnodes : q.results.nodes = u.nodes := by
    rw [hres, Results.nodes_setRegion, nodes_of_fileBody hbody]
  have hsame : q.results.nodeFlow? = u.nodeFlow? := by
    funext n
    rw [Results.nodeFlow?, hnodes, Results.nodeFlow?]
  refine ⟨h.sofar.step hv hr hq, fun k hk => ?_, fun c inner hc hroot => ?_⟩
  · rw [hres, Results.regionStats?_setRegion]
    split
    · rename_i hrk
      have hk : k < v.regions.size := by
        rw [hfiled.regions, h.sofar.regions]
        exact RegionTree.region?_lt (hrk ▸ hreg)
      exact ⟨sol.stats, by simp [hk]⟩
    · rename_i hrk
      obtain ⟨stats, hst⟩ := h.stats k (by simpa [Ne.symm hrk] using hk)
      exact ⟨stats, ((regionStats?_of_fileBody hbody k).trans
        (regionStats?_of_fileNodes hu k)).trans hst⟩
  · have hlast : q.results.flow? c = u.flow? c := by
      rw [hres, Results.flow?_setRegion, ← flow?_of_fileBody hv hreg hbody hroot]
      split <;> rfl
    have hlt' : c < p.results.regions.size := by
      rw [h.sofar.regions]
      exact RegionTree.region?_lt hc
    have hold : (t.lastFor c (done.flatMap t.nodesOf)).bind p.results.nodeFlow? =
        (t.lastFor c (done.flatMap t.nodesOf)).bind q.results.nodeFlow? := by
      cases hk : t.lastFor c (done.flatMap t.nodesOf) with
      | none => rfl
      | some k =>
        obtain ⟨i, hi, hki⟩ := List.mem_flatMap.1 (RegionTree.mem_of_lastFor hk).1
        obtain ⟨other, ho, hko⟩ := RegionTree.mem_nodesOf hki
        have hout : k ∉ region.nodes := fun hin => hr (hv.eq_of_mem ho hreg hko hin ▸ hi)
        rw [Option.bind_some, Option.bind_some, hsame, Results.nodeFlow?, Results.nodeFlow?,
          ← nodes_of_fileBody hbody, hfiled.other k hout]
    rw [hlast, flow?_of_fileNodes hlt hlt' hu, h.flow c inner hc hroot, hold, ← hsame,
      List.flatMap_append, List.flatMap_singleton, RegionTree.nodesOf_eq hreg,
      RegionTree.lastFor_append]
    cases hk : t.lastFor c region.nodes with
    | none => rfl
    | some k =>
      obtain ⟨x, y, -, -, hfile⟩ := hfiled.mem k (RegionTree.mem_of_lastFor hk).1
      rw [nodes_of_fileBody hbody] at hfile
      simp [hsame, Results.nodeFlow?, hfile]

theorem complete_of_analyze (h : m.analyze t = .ok progress) :
    Complete m t t.postOrder progress := by
  obtain ⟨hv, hp⟩ := analyze_eq_ok.1 h
  exact foldlM_inv (Complete m t) hp complete_nil fun _ _ _ _ _ hl ih hq =>
    ih.step hv (not_mem_of_split hv.postOrder_nodup hl) hq

/- What can be asked of the results. -/

theorem exists_node_facts (h : m.analyze t = .ok progress) (hn : t.node? n = some node) :
    ∃ f flow, progress.results.nodeFootprint n = .ok f ∧
      m.IsFootprint progress.results node.kind f ∧ progress.results.nodeFlow n = .ok flow := by
  obtain ⟨region, hr, hmem⟩ := (valid_of_analyze h).owner hn
  obtain ⟨s⟩ := solved_of_analyze h hr
  obtain ⟨node', f, hnode', hf, hfoot⟩ := s.surveyed n hmem
  obtain rfl := Option.some.inj (hn.symm.trans hnode')
  obtain ⟨x, y, -, -, hfile⟩ := s.filed n hmem
  refine ⟨f, ⟨x, y⟩, Results.nodeFootprint_eq_ok.2 ?_, hfoot, Results.nodeFlow_eq_ok.2 ?_⟩
  · rw [hfile]
    exact hf
  · rw [hfile]
    rfl

section Regions
variable (h : m.analyze t = .ok progress) (hr : t.region? r = some region)
include h hr

/-- A loop has the footprint of the node that stands for it, and the values of the last node in the
walk that does. -/
theorem region_facts_of_standIn (hs : region.standIn = some n) : ∃ f k flow,
    progress.results.regionFootprint r = .ok f ∧ progress.results.nodeFootprint n = .ok f ∧
    t.lastFor r t.walk = some k ∧ progress.results.regionFlow r = .ok flow ∧
    progress.results.nodeFlow k = .ok flow := by
  have hv := valid_of_analyze h
  obtain ⟨node, outer, hn, hk, -, -⟩ := hv.of_standIn hr hs
  obtain ⟨f, _, hf, hfoot, -⟩ := exists_node_facts h hn
  obtain ⟨k, hlast⟩ := RegionTree.exists_lastFor (hv.mem_walk hn)
    ((RegionTree.standsFor_iff hn).2 hk)
  obtain ⟨node', hnode'⟩ := hv.node_of_mem_walk (RegionTree.mem_of_lastFor hlast).1
  obtain ⟨_, flow, -, -, hflow⟩ := exists_node_facts h hnode'
  refine ⟨f, k, flow, Results.regionFootprint_eq_ok.2 (hfoot.of_region hk), hf, hlast, ?_, hflow⟩
  have hroot : r ≠ RegionTree.root := by
    rintro rfl
    obtain ⟨body, hbody, -, -, hnone⟩ := hv.body
    obtain rfl := Option.some.inj (hr.symm.trans hbody)
    simp [hnone] at hs
  have hcomplete := (complete_of_analyze h).flow r region hr hroot
  rw [← RegionTree.walk, hlast, Option.bind_some] at hcomplete
  exact Results.regionFlow_eq_ok.2 (hcomplete.trans (Results.nodeFlow_eq_ok.1 hflow))

/-- A loop has the values and the footprint of the node that stands for it. -/
theorem shared_of_analyze (hnest : t.Nested) (hs : region.standIn = some n) :
    ∃ f flow, progress.results.regionFootprint r = .ok f ∧
      progress.results.nodeFootprint n = .ok f ∧ progress.results.regionFlow r = .ok flow ∧
      progress.results.nodeFlow n = .ok flow := by
  have hv := valid_of_analyze h
  obtain ⟨node, _, hn, hk, -⟩ := hv.of_standIn hr hs
  obtain ⟨f, k, flow, hf, hf', hlast, hflow, hflow'⟩ := region_facts_of_standIn h hr hs
  have hone := hv.lastFor_walk hr hs fun k node' hk' hkind => hnest.unique hk' hkind hn hk
  obtain rfl := Option.some.inj (hlast.symm.trans hone)
  exact ⟨f, flow, hf, hf', hflow, hflow'⟩

theorem exists_region_facts : ∃ f flow stats, progress.results.regionFootprint r = .ok f ∧
    progress.results.regionFlow r = .ok flow ∧ progress.results.regionStats? r = some stats := by
  have hv := valid_of_analyze h
  obtain ⟨stats, hst⟩ := (complete_of_analyze h).stats r (hv.mem_postOrder hr)
  obtain ⟨f, hf⟩ := exists_summary h hr
  have hflow : ∃ flow, progress.results.regionFlow r = .ok flow := by
    have hparent := (hv.region r region hr).parent
    rw [RegionTree.ParentOk] at hparent
    split at hparent
    · rw [(hv.region r region hr).id] at hparent
      obtain ⟨_, y, -, hroot⟩ := regionFlow_root h (hparent ▸ hr)
      exact ⟨_, hparent ▸ hroot⟩
    · obtain ⟨_, n, _, -, -, hs, -⟩ := hparent
      obtain ⟨_, _, flow, -, -, -, hflow, -⟩ := region_facts_of_standIn h hr hs
      exact ⟨flow, hflow⟩
  obtain ⟨flow, hflow⟩ := hflow
  exact ⟨f, flow, stats, Results.regionFootprint_eq_ok.2 hf, hflow, hst⟩

/-- Every loop can be classified. -/
theorem classifyLoop_ok (hloop : region.isLoop = true) (liveOut : LocationSet)
    (aliases : Aliasing) :
    ∃ candidates, classifyLoop t progress.results r liveOut aliases = .ok candidates := by
  have hv := valid_of_analyze h
  obtain ⟨f, _, _, hf, -, -⟩ := exists_region_facts h hr
  obtain ⟨exit, hexit, -⟩ := hv.exit_node hr
  obtain ⟨_, flow, -, -, hflow⟩ := exists_node_facts h hexit
  simp only [classifyLoop, bind_eq_ok, RegionTree.region_eq_ok, require_eq_ok, pure_eq_ok]
  exact ⟨_, region, hr, (), hloop, f, hf, flow, hflow, rfl⟩

end Regions

end LoopMemory.Memory
