import LoopMemory.Proofs.Region.PostOrder
import LoopMemory.Proofs.Results
import LoopMemory.Proofs.Solver.Solution

/-! What a successful analysis leaves on file about every region: footprints, a solution of the
data-flow equations, and the summary made of both. -/
namespace LoopMemory.Memory
variable {m : Memory} {t : RegionTree} {region : Region} {r : RegionId} {n : NodeId}
  {results results' : Results} {progress : Progress}

/-- The footprint that belongs to a node of a kind; a loop has the one of its summary. -/
def IsFootprint (m : Memory) (results : Results) : NodeKind → Footprint → Prop
  | .entry, f | .exit, f => f = {}
  | .block insts, f => m.blockFootprint insts = .ok f
  | .region c, f => results.summary? c = some f

theorem IsFootprint.unique {k : NodeKind} {f g : Footprint} (hf : m.IsFootprint results k f)
    (hg : m.IsFootprint results k g) : f = g := by
  cases k with
  | entry => exact hf.trans hg.symm
  | exit => exact hf.trans hg.symm
  | block insts => exact Except.ok.inj (Eq.trans (Eq.symm hf) hg)
  | region c => exact Option.some.inj (Eq.trans (Eq.symm hf) hg)

theorem IsFootprint.mono {k : NodeKind} {f : Footprint} (h : m.IsFootprint results k f)
    (hs : ∀ c f, results.summary? c = some f → results'.summary? c = some f) :
    m.IsFootprint results' k f := by
  cases k with
  | region c => exact hs c f h
  | entry | exit | block => exact h

section Kinds
variable {node : Node} {f : Footprint} (hf : m.IsFootprint results node.kind f)
include hf

theorem IsFootprint.of_end (hk : node.kind = .entry ∨ node.kind = .exit) : f = {} := by
  rcases hk with hk | hk <;> rw [hk] at hf <;> exact hf

theorem IsFootprint.of_block {insts : List Inst} (hk : node.kind = .block insts) :
    m.blockFootprint insts = .ok f := by
  rw [hk] at hf
  exact hf

theorem IsFootprint.of_region {c : RegionId} (hk : node.kind = .region c) :
    results.summary? c = some f := by
  rw [hk] at hf
  exact hf

end Kinds

theorem surveyNode_eq_ok {s u : NodeSurvey} (h : m.surveyNode t results s n = .ok u) :
    ∃ node f, t.node? n = some node ∧ m.IsFootprint results node.kind f ∧
      u.footprints = s.footprints.set n f := by
  rw [surveyNode, bind_eq_ok] at h
  obtain ⟨node, hn, h⟩ := h
  refine ⟨node, ?_⟩
  cases hk : node.kind with
  | entry | exit =>
    simp only [hk, bind_eq_ok, pure_eq_ok] at h
    obtain ⟨survey, rfl, rfl⟩ := h
    exact ⟨{}, RegionTree.node_eq_ok.1 hn, rfl, rfl⟩
  | block insts =>
    simp only [hk, bind_eq_ok, pure_eq_ok] at h
    obtain ⟨survey, hs, rfl⟩ := h
    exact ⟨_, RegionTree.node_eq_ok.1 hn, by simp [IsFootprint, blockFootprint, hs], rfl⟩
  | region c =>
    simp only [hk, bind_eq_ok, pure_eq_ok, map_eq_ok, Results.regionFootprint_eq_ok] at h
    obtain ⟨_, ⟨f, hf, rfl⟩, rfl⟩ := h
    exact ⟨f, RegionTree.node_eq_ok.1 hn, hf, rfl⟩

/-- Every node of the region has its footprint. -/
def Surveyed (m : Memory) (t : RegionTree) (results : Results) (region : Region)
    (fps : NodeMap Footprint) : Prop :=
  ∀ n ∈ region.nodes, ∃ node f, t.node? n = some node ∧ fps.get? n = some f ∧
    m.IsFootprint results node.kind f

theorem surveyed_of_surveyRegion {s : NodeSurvey} (h : m.surveyRegion t region results = .ok s) :
    m.Surveyed t results region s.footprints := by
  refine foldlM_inv (fun done s => ∀ n ∈ done, ∃ node f, t.node? n = some node ∧
    s.footprints.get? n = some f ∧ m.IsFootprint results node.kind f) h (by simp) ?_
  rintro before n after s u - ih hu k hk
  obtain ⟨node, f, hn, hf, hset⟩ := surveyNode_eq_ok hu
  rw [hset, NodeMap.get?_set]
  by_cases hkn : k = n
  · exact ⟨node, f, hkn ▸ hn, by rw [if_pos hkn], hf⟩
  · rw [if_neg hkn]
    exact ih k (by simpa [hkn] using hk)

/-- The problem of a surveyed region has all that the solver needs. -/
theorem Surveyed.closed (hv : t.Valid) (hr : t.region? r = some region) {fps : NodeMap Footprint}
    (h : m.Surveyed t results region fps) : (Problem.mk t region fps m.aliases).Closed := by
  refine ⟨fun n hn => ?_, fun n hn => ?_, fun n hn node hnode k hk => hv.succ_mem hr hn hnode hk⟩
  · obtain ⟨node, f, hnode, -⟩ := h n hn
    exact ⟨node, hnode⟩
  · obtain ⟨node, f, -, hf, -⟩ := h n hn
    exact ⟨f, hf⟩

theorem Surveyed.footprint {fps : NodeMap Footprint} (h : m.Surveyed t results region fps) :
    ∀ n ∈ region.nodes, ∃ f, fps.get? n = some f := by
  intro n hn
  obtain ⟨_, f, -, hf, -⟩ := h n hn
  exact ⟨f, hf⟩

/-- All that the analysis knows about a region once it has dealt with it. -/
structure Solved (m : Memory) (t : RegionTree) (results : Results) (r : RegionId)
    (region : Region) where
  fps : NodeMap Footprint
  sol : Solution
  summary : Footprint
  surveyed : m.Surveyed t results region fps
  solves : (Problem.mk t region fps m.aliases).solve = .ok sol
  collapses : (Problem.mk t region fps m.aliases).collapse sol m.settings = .ok summary
  onFile : results.summary? r = some summary
  filed : ∀ n ∈ region.nodes, ∃ x y, sol.inputs.get? n = some x ∧ sol.outputs.get? n = some y ∧
    results.nodes[n]? = some { footprint := fps.get? n, flow := some ⟨x, y⟩ }

/-- Later regions change nothing about the ones before them. -/
def Solved.keep (s : Solved m t results r region)
    (hs : ∀ c f, results.summary? c = some f → results'.summary? c = some f)
    (hn : ∀ n ∈ region.nodes, results'.nodes[n]? = results.nodes[n]?) :
    Solved m t results' r region where
  fps := s.fps
  sol := s.sol
  summary := s.summary
  surveyed n hmem := by
    obtain ⟨node, f, hnode, hf, hk⟩ := s.surveyed n hmem
    exact ⟨node, f, hnode, hf, hk.mono hs⟩
  solves := s.solves
  collapses := s.collapses
  onFile := hs r _ s.onFile
  filed n hmem := by
    rw [hn n hmem]
    exact s.filed n hmem

/- The state of the analysis when the regions of a list are done. -/
structure Sofar (m : Memory) (t : RegionTree) (done : List RegionId) (progress : Progress) :
    Prop where
  solved : ∀ r ∈ done, ∃ region, t.region? r = some region ∧
    Nonempty (Solved m t progress.results r region)
  summary : ∀ c f, progress.results.summary? c = some f → c ∈ done
  nodes : progress.results.nodes.size = t.nodes.size
  regions : progress.results.regions.size = t.regions.size

theorem sofar_nil : Sofar m t [] { results := .empty t } := by
  refine ⟨by simp, fun c f h => ?_, by simp [Results.empty], by simp [Results.empty]⟩
  simp only [Results.summary?, Results.empty, Array.getElem?_replicate] at h
  split at h <;> simp at h

/- The steps by which a region is dealt with, given that all of them succeed. -/
structure Analysing (m : Memory) (t : RegionTree) (r : RegionId) (region : Region)
    (before after : Results) (s : NodeSurvey) (sol : Solution) (summary : Footprint) : Prop where
  lookup : t.region? r = some region
  survey : m.surveyRegion t region before = .ok s
  solve : (Problem.mk t region s.footprints m.aliases).solve = .ok sol
  collapse : (Problem.mk t region s.footprints m.aliases).collapse sol m.settings = .ok summary
  file : ∃ u v, region.nodes.foldlM (fileNode t region s.footprints sol) before = .ok u ∧
    fileBody region sol u = .ok v ∧ after = v.setRegion r fun facts =>
      { facts with summary := some summary, stats := some sol.stats }

theorem analyzeRegion_eq_ok {p q : Progress} : m.analyzeRegion t p r = .ok q ↔
    ∃ region s sol summary, Analysing m t r region p.results q.results s sol summary ∧
      q.asked = p.asked ++ s.asked := by
  simp only [analyzeRegion, bind_eq_ok, RegionTree.region_eq_ok, pure_eq_ok]
  constructor
  · rintro ⟨region, hr, s, hs, sol, hsol, summary, hsum, u, hu, v, hv, rfl⟩
    exact ⟨region, s, sol, summary, ⟨hr, hs, hsol, hsum, u, v, hu, hv, rfl⟩, rfl⟩
  · rintro ⟨region, s, sol, summary, ⟨hr, hs, hsol, hsum, u, v, hu, hv, hq⟩, ha⟩
    refine ⟨region, hr, s, hs, sol, hsol, summary, hsum, u, hu, v, hv, ?_⟩
    cases q
    simp only at hq ha
    rw [hq, ha]

theorem Sofar.lt_size (hv : t.Valid) {done : List RegionId} (h : Sofar m t done progress)
    (hr : t.region? r = some region) : ∀ n ∈ region.nodes, n < progress.results.nodes.size := by
  intro n hn
  obtain ⟨node, hnode, -⟩ := hv.listed hr hn
  rw [h.nodes]
  rw [RegionTree.node?, Array.getElem?_eq_some_iff] at hnode
  exact hnode.1

theorem Sofar.step (hv : t.Valid) {done : List RegionId} {p q : Progress} (h : Sofar m t done p)
    (hr : r ∉ done) (hq : m.analyzeRegion t p r = .ok q) : Sofar m t (done ++ [r]) q := by
  obtain ⟨region, s, sol, summary, ⟨hreg, hs, hsol, hsum, u, v, hu, hbody, hres⟩, -⟩ :=
    analyzeRegion_eq_ok.1 hq
  have hfiled := (filed_of_fileNodes (h.lt_size hv hreg) hu).body hbody
  have hnew : q.results.summary? r = some summary := by
    have hlt : r < v.regions.size := by
      rw [hfiled.regions, h.regions]
      exact RegionTree.region?_lt hreg
    rw [hres, Results.summary?_setRegion, if_pos rfl]
    simp [hlt]
  have hold : ∀ c, c ≠ r → q.results.summary? c = p.results.summary? c := by
    intro c hc
    rw [hres, Results.summary?_setRegion, if_neg (Ne.symm hc), hfiled.summary]
  have hkeep : ∀ c f, p.results.summary? c = some f → q.results.summary? c = some f := by
    intro c f hc
    rwa [hold c fun he => hr (he ▸ h.summary c f hc)]
  have hnodes : q.results.nodes = v.nodes := by rw [hres, Results.nodes_setRegion]
  refine ⟨fun k hk => ?_, fun c f hc => ?_, ?_, ?_⟩
  · rcases List.mem_append.1 hk with hk | hk
    · obtain ⟨region', hreg', ⟨S⟩⟩ := h.solved k hk
      refine ⟨region', hreg', ⟨S.keep hkeep fun n hn => ?_⟩⟩
      rw [hnodes]
      refine hfiled.other n fun hn' => hr ?_
      exact hv.eq_of_mem hreg hreg' hn' hn ▸ hk
    · obtain rfl := List.mem_singleton.1 hk
      refine ⟨region, hreg, ⟨⟨s.footprints, sol, summary, ?_, hsol, hsum, hnew, ?_⟩⟩⟩
      · intro n hn
        obtain ⟨node, f, hnode, hf, hk⟩ := surveyed_of_surveyRegion hs n hn
        exact ⟨node, f, hnode, hf, hk.mono hkeep⟩
      · rw [hnodes]
        exact hfiled.mem
  · by_cases hcr : c = r
    · exact hcr ▸ List.mem_append_right _ (.head _)
    · rw [hold c hcr] at hc
      exact List.mem_append_left _ (h.summary c f hc)
  · rw [hnodes, hfiled.nodes, h.nodes]
  · rw [hres, Results.size_regions_setRegion, hfiled.regions, h.regions]

theorem analyze_eq_ok : m.analyze t = .ok progress ↔
    t.Valid ∧ t.postOrder.foldlM (m.analyzeRegion t) { results := .empty t } = .ok progress := by
  simp only [analyze, bind_eq_ok, ← RegionTree.validate_eq_ok]
  constructor
  · rintro ⟨_, hv, hp⟩
    exact ⟨hv, hp⟩
  · rintro ⟨hv, hp⟩
    exact ⟨(), hv, hp⟩

theorem valid_of_analyze (h : m.analyze t = .ok progress) : t.Valid := (analyze_eq_ok.1 h).1

theorem not_mem_of_split {α : Type} {l before after : List α} {a : α} (h : l.Nodup)
    (hl : l = before ++ a :: after) : a ∉ before := by
  rw [hl, List.nodup_append] at h
  exact fun ha => h.2.2 a ha a (.head _) rfl

theorem sofar_of_foldlM (hv : t.Valid) {done : List RegionId} (hd : done.Nodup)
    (h : done.foldlM (m.analyzeRegion t) { results := .empty t } = .ok progress) :
    Sofar m t done progress :=
  foldlM_inv (Sofar m t) h sofar_nil fun _ _ _ _ _ hl ih hq =>
    ih.step hv (not_mem_of_split hd hl) hq

theorem solved_of_analyze (h : m.analyze t = .ok progress) (hr : t.region? r = some region) :
    Nonempty (Solved m t progress.results r region) := by
  obtain ⟨hv, hp⟩ := analyze_eq_ok.1 h
  obtain ⟨region', hr', hs⟩ := (sofar_of_foldlM hv hv.postOrder_nodup hp).solved r
    (hv.mem_postOrder hr)
  rw [hr] at hr'
  exact Option.some.inj hr' ▸ hs

/-- The routine body comes last, and the value at its exit is on file for the whole routine. -/
theorem regionFlow_root (h : m.analyze t = .ok progress)
    (hr : t.region? RegionTree.root = some region) :
    ∃ x y, progress.results.nodeFlow region.exit = .ok ⟨x, y⟩ ∧
      progress.results.regionFlow RegionTree.root = .ok ⟨.start, y⟩ := by
  obtain ⟨hv, hp⟩ := analyze_eq_ok.1 h
  obtain ⟨before, hpo⟩ := RegionTree.postOrder_eq hr
  have hd := hpo ▸ hv.postOrder_nodup
  rw [hpo, List.foldlM_append, bind_eq_ok] at hp
  obtain ⟨p, hbefore, hp⟩ := hp
  have hs := sofar_of_foldlM hv (List.nodup_append.1 hd).1 hbefore
  simp only [List.foldlM_cons, List.foldlM_nil, bind_pure] at hp
  obtain ⟨region', s, sol, summary, ⟨hr', -, -, -, u, v, hu, hbody, hres⟩, -⟩ :=
    analyzeRegion_eq_ok.1 hp
  obtain rfl := Option.some.inj (hr.symm.trans hr')
  have hfiled := (filed_of_fileNodes (hs.lt_size hv hr) hu).body hbody
  obtain ⟨x, y, -, hy, hfile⟩ := hfiled.mem _ (hv.exit_mem hr)
  refine ⟨x, y, ?_, ?_⟩
  · rw [Results.nodeFlow_eq_ok, hres, Results.nodes_setRegion, hfile]
    rfl
  · obtain ⟨body, hbody', -, hparent, -⟩ := hv.body
    obtain rfl := Option.some.inj (hr.symm.trans hbody')
    rcases fileBody_eq_ok.1 hbody with ⟨_, hp, -⟩ | ⟨-, y', hy', rfl⟩
    · simp [hparent] at hp
    · obtain rfl := Option.some.inj (hy.symm.trans hy')
      have hlt : RegionTree.root < u.regions.size := by
        have hsize := hfiled.regions
        rw [Results.size_regions_setRegion, hs.regions] at hsize
        rw [hsize]
        exact RegionTree.region?_lt hr
      rw [Results.regionFlow_eq_ok, hres, (hv.region _ _ hr).id]
      simp only [Results.setRegion, Array.getElem?_modify, if_true, Array.getElem?_eq_getElem hlt]
      rfl

/-- The regions that come before one in the walk are done when its turn comes. -/
theorem analyzed_at (h : m.analyze t = .ok progress) {before after : List RegionId}
    (hpo : t.postOrder = before ++ r :: after) :
    ∃ p q, Sofar m t before p ∧ m.analyzeRegion t p r = .ok q := by
  obtain ⟨hv, hp⟩ := analyze_eq_ok.1 h
  have hd := hpo ▸ hv.postOrder_nodup
  rw [hpo, List.foldlM_append, bind_eq_ok] at hp
  obtain ⟨p, hbefore, hp⟩ := hp
  rw [List.foldlM_cons, bind_eq_ok] at hp
  obtain ⟨q, hq, -⟩ := hp
  exact ⟨p, q, sofar_of_foldlM hv (List.nodup_append.1 hd).1 hbefore, hq⟩

/-- The nodes that stand for regions stand for loops. -/
theorem loop_of_analyze (h : m.analyze t = .ok progress) (hr : t.region? r = some region)
    (hn : n ∈ region.nodes) {node : Node} {c : RegionId} (hnode : t.node? n = some node)
    (hk : node.kind = .region c) : ∃ inner, t.region? c = some inner ∧ inner.isLoop = true := by
  have hv := valid_of_analyze h
  obtain ⟨before, after, hpo⟩ := List.append_of_mem (hv.mem_postOrder hr)
  obtain ⟨p, q, hs, hq⟩ := analyzed_at h hpo
  obtain ⟨region', s, sol, summary, hA, -⟩ := analyzeRegion_eq_ok.1 hq
  obtain rfl := Option.some.inj (hr.symm.trans hA.lookup)
  obtain ⟨node', f, hnode', -, hf⟩ := surveyed_of_surveyRegion hA.survey n hn
  obtain rfl := Option.some.inj (hnode.symm.trans hnode')
  have hc := hs.summary c f (hf.of_region hk)
  obtain ⟨inner, hinner, -⟩ := hs.solved c hc
  have hne : c ≠ RegionTree.root := by
    rintro rfl
    obtain ⟨init, hlast⟩ := RegionTree.postOrder_eq hinner
    have hroot : (r :: after).getLast? = some RegionTree.root := by
      have hall := congrArg List.getLast? (hpo.symm.trans hlast)
      simpa [List.getLast?_append] using hall
    have hd := hpo ▸ hv.postOrder_nodup
    exact (List.nodup_append.1 hd).2.2 _ hc _ (List.mem_of_getLast? hroot) rfl
  refine ⟨inner, hinner, ?_⟩
  have hkind := (hv.region c inner hinner).nested.resolve_left hne
  cases hk : inner.kind with
  | body => exact absurd hk hkind
  | loop once => simp [Region.isLoop, hk, RegionKind.isLoop]

/-- What holds of a region as soon as it holds of the loops whose nodes it has, holds of every
analysed region. -/
theorem analyze_induction (h : m.analyze t = .ok progress) (P : RegionId → Prop)
    (step : ∀ r region, t.region? r = some region → (∀ n ∈ region.nodes, ∀ node c,
      t.node? n = some node → node.kind = .region c →
      (∃ inner, t.region? c = some inner) ∧ P c) → P r)
    (hr : t.region? r = some region) : P r := by
  obtain ⟨hv, hp⟩ := analyze_eq_ok.1 h
  have hall : Sofar m t t.postOrder progress ∧ ∀ r ∈ t.postOrder, P r := by
    refine foldlM_inv (fun done p => Sofar m t done p ∧ ∀ r ∈ done, P r) hp
      ⟨sofar_nil, by simp⟩ ?_
    rintro before r after p q hl ⟨hs, hP⟩ hq
    refine ⟨hs.step hv (not_mem_of_split hv.postOrder_nodup hl) hq, fun k hk => ?_⟩
    rcases List.mem_append.1 hk with hk | hk
    · exact hP k hk
    · obtain rfl := List.mem_singleton.1 hk
      obtain ⟨region, s, sol, summary, hA, -⟩ := analyzeRegion_eq_ok.1 hq
      refine step k region hA.lookup fun n hn node c hnode hkind => ?_
      obtain ⟨node', f, hnode', -, hf⟩ := surveyed_of_surveyRegion hA.survey n hn
      rw [hnode] at hnode'
      rw [← Option.some.inj hnode', hkind] at hf
      have hc := hs.summary c f hf
      exact ⟨(hs.solved c hc).imp fun _ h => h.1, hP c hc⟩
  exact hall.2 r (hv.mem_postOrder hr)

end LoopMemory.Memory
