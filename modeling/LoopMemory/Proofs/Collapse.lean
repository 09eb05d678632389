import LoopMemory.Proofs.Analysis.Total
import LoopMemory.Proofs.Inline.Levels
import LoopMemory.Proofs.Soundness

/-! A routine whose loops are summarised and one whose loops are inlined have the same solution. -/
namespace LoopMemory.Memory
variable {m : Memory} {t : RegionTree} {body : Region} {r : RegionId} {n : NodeId} {node : Node}
  {f g : Footprint} {x y : Reaching} {l : Location} {progress : Progress}
  {fps : NodeMap Footprint}

theorem Plain.inlined (h : m.Plain t) : m.Plain (t.inlined m.settings) := by
  have hkind : ∀ {n flat}, (t.inlined m.settings).node? n = some flat →
      ∃ node, t.node? n = some node ∧ flat.kind = node.kind := by
    intro n flat hflat
    rw [RegionTree.node?_inlined] at hflat
    obtain ⟨node, hn, rfl⟩ := Option.map_eq_some_iff.1 hflat
    exact ⟨node, hn, (RegionTree.inlinedNode_kept t m.settings node).2⟩
  have hacc : ∀ {l}, m.Accessed (t.inlined m.settings) l → m.Accessed t l := by
    rintro l ⟨n, flat, insts, i, e, a, hflat, hk, hacc⟩
    obtain ⟨node, hn, hkind⟩ := hkind hflat
    exact ⟨n, node, insts, i, e, a, hn, hkind ▸ hk, hacc⟩
  refine ⟨fun n flat insts i hflat hk => ?_, fun l k hl hk => h.apart l k (hacc hl) (hacc hk)⟩
  obtain ⟨node, hn, hkind⟩ := hkind hflat
  exact h.resolved n node insts i hn (hkind ▸ hk)

/-- All is in place for the analysis. -/
theorem analyze_ok_of_resolved (hv : t.Valid) (hl : t.Linked) (hnest : t.Nested)
    (hres : m.Resolved t) : ∃ progress, m.analyze t = .ok progress :=
  analyze_ok_of_nested hv hl hnest fun _ _ _ hn hk => hres.blockFootprint_ok hn hk

theorem visited_of_analyze (hc : t.Connected) (h : m.analyze t = .ok progress) : m.Visited t := by
  have hv := valid_of_analyze h
  intro r region hr n hn
  refine analyze_induction h (fun r => ∀ region, t.region? r = some region →
    ∀ n ∈ region.nodes, ∃ es, m.Run t r n es) ?_ hr region hr n hn
  intro r region' hr' ih region hr n hn
  obtain rfl := Option.some.inj (hr.symm.trans hr')
  have hway : ∀ k ∈ region.nodes, ∃ es, m.Across t k es := by
    intro k hk
    obtain ⟨node, hnode, -⟩ := hv.listed hr hk
    cases hkind : node.kind with
    | entry => exact ⟨[], .pass hnode (.inl hkind)⟩
    | exit => exact ⟨[], .pass hnode (.inr hkind)⟩
    | block insts => exact ⟨_, .block hnode hkind⟩
    | region c =>
      obtain ⟨⟨inner, hinner⟩, hruns⟩ := ih k hk node c hnode hkind
      obtain ⟨es, run⟩ := hruns inner hinner _ (hv.exit_mem hinner)
      exact ⟨es, .loop hnode hkind hinner run⟩
  obtain ⟨es, run⟩ := Run.extend hv hr hway (hv.entry_mem hr) (hc r region hr n hn).1 (.enter hr)
  exact ⟨_, run⟩

/-- The runs of the flat graph get everywhere. -/
theorem run_inlined (hv : t.Valid) (hnest : t.Nested) (hvis : m.Visited t)
    (hn : t.node? n = some node) :
    ∃ es, m.Run (t.inlined m.settings) RegionTree.root (t.door n) es := by
  have hentry : ∀ r region, t.region? r = some region →
      ∃ es, m.Run (t.inlined m.settings) RegionTree.root region.entry es := by
    intro r region hr
    refine hv.top_down (fun r => ∀ region, t.region? r = some region →
      ∃ es, m.Run (t.inlined m.settings) RegionTree.root region.entry es) ?_ ?_ hr region hr
    · intro body hbody
      refine ⟨[], ?_⟩
      rw [← RegionTree.entry_inlinedBody hbody]
      exact .enter RegionTree.region?_inlined
    · intro r region hr ih c hc inner hinner
      obtain ⟨inner', p, node, hinner', hs, hp, hk, hreg⟩ := hv.of_child hr hc
      obtain rfl := Option.some.inj (hinner.symm.trans hinner')
      obtain ⟨es₀, start⟩ := ih region hr
      obtain ⟨es, run⟩ := hvis r region hr p (hv.mem_nodes hr hp hreg)
      have hrun := run.inlined hv hnest region hr es₀ start
      rw [RegionTree.door_of_loop hp hk hinner] at hrun
      exact ⟨_, hrun⟩
  obtain ⟨region, hr, hmem⟩ := hv.owner hn
  obtain ⟨es₀, start⟩ := hentry _ region hr
  obtain ⟨es, run⟩ := hvis _ region hr n hmem
  exact ⟨_, run.inlined hv hnest region hr es₀ start⟩

theorem traversed_inlined (hv : t.Valid) (hl : t.Linked) (hnest : t.Nested) (hvis : m.Visited t)
    (hf : ∀ n ∈ t.inlinedBody.nodes, ∃ f, fps.get? n = some f) :
    (Problem.mk (t.inlined m.settings) t.inlinedBody fps m.aliases).Traversed := by
  have hclosed : (Problem.mk (t.inlined m.settings) t.inlinedBody fps m.aliases).Closed := by
    refine ⟨fun n hn => ?_, hf, fun n hn flat hflat k hk => ?_⟩
    · obtain ⟨node, hnode, -⟩ := hv.mem_inlinedBody.1 hn
      obtain ⟨flat, hflat, -⟩ := RegionTree.exists_node_inlined m.settings hnode
      exact ⟨flat, hflat⟩
    · obtain ⟨node, hnode, -, j, hj, rfl⟩ := RegionTree.leads_inlined.1 ⟨flat, hflat, hk⟩
      obtain ⟨target, htarget⟩ := hv.node_of_onward hnode hj
      exact hv.door_mem_inlinedBody hnest htarget
  refine { hclosed with
    linked := hv.linked_inlined
    entry := hv.entry_mem_inlinedBody
    fresh := fun n node hn he => hv.not_leads_inlined_entry hl hnest ⟨node, hn, he⟩
    reached := fun n hn => ?_ }
  obtain ⟨node, hnode, hk⟩ := hv.mem_inlinedBody.1 hn
  obtain ⟨es, run⟩ := run_inlined hv hnest hvis hnode
  rw [RegionTree.door_of_plain hnode hk] at run
  exact hclosed.path hv.entry_mem_inlinedBody (run.leads RegionTree.region?_inlined)

section Body
variable (hv : t.Valid) (hnest : t.Nested) (hr : t.region? RegionTree.root = some body)
  (hmem : n ∈ body.nodes) (hn : t.node? n = some node) (hk : node.kind.loop? = none)
include hv hnest hr hmem hn hk

omit hmem in
theorem run_inlined_of_run {es : List Event} (run : m.Run t RegionTree.root n es) :
    m.Run (t.inlined m.settings) RegionTree.root n es := by
  have start : m.Run (t.inlined m.settings) RegionTree.root body.entry [] := by
    rw [← RegionTree.entry_inlinedBody hr]
    exact .enter RegionTree.region?_inlined
  have hrun := run.inlined hv hnest body hr [] start
  rwa [RegionTree.door_of_plain hn hk] at hrun

/-- In the routine body, the flat graph and the tree agree on what all runs assign. -/
theorem assigned_inlined_iff : (∀ es, m.Run (t.inlined m.settings) RegionTree.root n es →
    m.Assigned l es) ↔ ∀ es, m.Run t RegionTree.root n es → m.Assigned l es := by
  constructor
  · exact fun h es run => h es (run_inlined_of_run hv hnest hr hn hk run)
  · intro h es run
    refine Classical.byContradiction fun hes => ?_
    obtain ⟨hmiss, -⟩ := RegionTree.throughout_iff.1 (missed_of_inlined hv hnest run hes)
    rcases (missed_iff hv hr hmem).1 hmiss with hz | ⟨es', run', hes'⟩
    · obtain ⟨body', hbody, hkind, -⟩ := hv.body
      obtain rfl := Option.some.inj (hr.symm.trans hbody)
      simp [Region.runsOnce, hkind] at hz
    · exact hes' (h es' run')

/-- They agree as well on what some run writes. -/
theorem wrote_inlined_iff (hvis : m.Visited t) (hc : t.Connected) :
    (∃ es, m.Run (t.inlined m.settings) RegionTree.root n es ∧ Wrote l es) ↔
      ∃ es, m.Run t RegionTree.root n es ∧ Wrote l es := by
  constructor
  · rintro ⟨es, run, hw⟩
    have hsome := hit_of_inlined hv hnest hvis hc run hw
    rcases RegionTree.somewhere_iff.1 hsome with hhit | ⟨q, hq, -⟩
    · exact (hit_iff hv hr hmem).1 hhit
    · obtain ⟨body', hbody, -, -, hroot⟩ := hv.body
      obtain rfl := Option.some.inj (hr.symm.trans hbody)
      simp [hv.outer?_eq hr hmem, hroot] at hq
  · rintro ⟨es, run, hw⟩
    exact ⟨es, run_inlined_of_run hv hnest hr hn hk run, hw⟩

end Body

/-- The footprint of a node that stands for no loop depends on no results. -/
theorem IsFootprint.agree {results results' : Results} (hk : node.kind.loop? = none)
    (hf : m.IsFootprint results node.kind f) (hg : m.IsFootprint results' node.kind g) :
    f = g := by
  cases hkind : node.kind with
  | entry => rw [hf.of_end (.inl hkind), hg.of_end (.inl hkind)]
  | exit => rw [hf.of_end (.inr hkind), hg.of_end (.inr hkind)]
  | block insts =>
    exact Except.ok.inj ((hf.of_block hkind).symm.trans (hg.of_block hkind))
  | region c => simp [hkind, NodeKind.loop?] at hk

/-- Blocks and ends have footprints in the flat graph, without any results. -/
theorem surveyRegion_inlined_ok (hv : t.Valid) (hres : m.Resolved t) (results : Results) :
    ∃ survey, m.surveyRegion (t.inlined m.settings) t.inlinedBody results = .ok survey := by
  refine surveyRegion_ok fun n hn => ?_
  obtain ⟨node, hnode, hk⟩ := hv.mem_inlinedBody.1 hn
  obtain ⟨flat, hflat, hkind⟩ := RegionTree.exists_node_inlined m.settings hnode
  rw [← hkind] at hk
  cases hkind' : flat.kind with
  | entry | exit => exact ⟨flat, {}, hflat, by rw [hkind']; rfl⟩
  | block insts =>
    obtain ⟨f, hf⟩ := hres.blockFootprint_ok hnode (hkind ▸ hkind')
    exact ⟨flat, f, hflat, by rw [hkind']; exact hf⟩
  | region c => simp [hkind', NodeKind.loop?] at hk

theorem faithful_inlined (hv : t.Valid) (hap : m.Plain t) {results : Results}
    (hs : m.Surveyed (t.inlined m.settings) results t.inlinedBody fps)
    (hn : n ∈ t.inlinedBody.nodes) (hf : fps.get? n = some f) :
    m.Faithful (t.inlined m.settings) n f := by
  obtain ⟨flat, f', hflat, hf', hfoot⟩ := hs n hn
  obtain rfl := Option.some.inj (hf.symm.trans hf')
  obtain ⟨node, hnode, hk⟩ := hv.mem_inlinedBody.1 hn
  obtain ⟨flat', hflat', hkind⟩ := RegionTree.exists_node_inlined m.settings hnode
  obtain rfl := Option.some.inj (hflat.symm.trans hflat')
  rw [← hkind] at hk
  cases hkind' : flat.kind with
  | entry =>
    rw [hfoot.of_end (.inl hkind')]
    exact faithful_end hflat (.inl hkind')
  | exit =>
    rw [hfoot.of_end (.inr hkind')]
    exact faithful_end hflat (.inr hkind')
  | block insts => exact faithful_block hap.inlined hflat hkind' (hfoot.of_block hkind')
  | region c => simp [hkind', NodeKind.loop?] at hk

/-- At a node of the routine body, the analysis and a solution of the flat graph agree. In front of
it both say what the runs do, and both let that through the same footprint. -/
theorem flow_inlined (hl : t.Linked) (hnest : t.Nested) (hc : t.Connected) (hap : m.Plain t)
    (h : m.analyze t = .ok progress) {results : Results} {sol : Solution}
    (hs : m.Surveyed (t.inlined m.settings) results t.inlinedBody fps)
    (hsol : (Problem.mk (t.inlined m.settings) t.inlinedBody fps m.aliases).solve = .ok sol)
    (hr : t.region? RegionTree.root = some body) (hmem : n ∈ body.nodes)
    (hn : t.node? n = some node) (hk : node.kind.loop? = none) :
    ∃ flow, progress.results.nodeFlow n = .ok flow ∧ sol.inputs.get? n = some flow.input ∧
      sol.outputs.get? n = some flow.output := by
  have hv := valid_of_analyze h
  have hvis := visited_of_analyze hc h
  have hp := traversed_inlined (m := m) hv hl hnest hvis hs.footprint
  have hflatmem : n ∈ t.inlinedBody.nodes := hv.mem_inlinedBody.2 ⟨node, hn, hk⟩
  have hfaith := fun n hn f => @faithful_inlined m t n f fps hv hap results hs hn
  obtain ⟨node', f, x, hx⟩ := exists_onFile h hl hr hmem
  obtain rfl := Option.some.inj (hn.symm.trans hx.lookup)
  obtain ⟨flat, g, y, hflat, hg, hy, hout⟩ :=
    (Problem.solves_of_solve hp.linked hsol).flow n hflatmem
  have hex := Problem.exact_of_solve hp hsol hflatmem hy
  obtain ⟨hknown, hmust, hmay⟩ := flow_iff_runs hl hc hap h hr hmem hx
  have hin : x = y := by
    refine Reaching.ext (Reach.ext ?_ fun l => ?_) (Reach.ext ?_ fun l => ?_)
    · rw [hknown.1, hex.known.1]
    · rw [hmust, ← assigned_inlined_iff hv hnest hr hmem hn hk]
      exact (mem_must_iff_runs RegionTree.region?_inlined hp hap.inlined hfaith hex).symm
    · rw [hknown.2, hex.known.2]
    · rw [hmay, ← wrote_inlined_iff hv hnest hr hmem hn hk hvis hc]
      exact (mem_may_iff_runs RegionTree.region?_inlined hp hfaith hex).symm
  have hfoot : f = g := by
    obtain ⟨flat', g', hflat', hg', hfoot'⟩ := hs n hflatmem
    obtain rfl := Option.some.inj (hg.symm.trans hg')
    obtain ⟨flat'', hflat'', hkind⟩ := RegionTree.exists_node_inlined m.settings hn
    obtain rfl := Option.some.inj (hflat'.symm.trans hflat'')
    exact hx.footprint.agree hk (hkind ▸ hfoot')
  refine ⟨⟨x, x.transfer m.aliases f⟩, Results.nodeFlow_eq_ok.2 hx.flow, hin ▸ hy, ?_⟩
  rw [hin, hfoot]
  exact hout

/-- A loop inside a loop; the inner one may run no iteration. -/
def loopInLoop : TreeBuilder :=
  (TreeBuilder.new "routine").run [.loop 0 "outer" true, .loop 1 "inner" false, .block 2 [0],
    .path 2 [8], .path 1 [7], .path 0 [4]]

/-- Where no two locations overlap and nothing is unknown, analysing the loops one by one, at
whatever depth, comes to the same as solving one flat graph into which all of them are inlined: at
the exit of the routine, and around every node of its body. -/
theorem analyze_agrees_inlined (routine : String) (steps : List TreeBuilder.Step) (m : Memory)
    (hv : ((TreeBuilder.new routine).run steps).finish.validate = .ok ())
    (hc : ((TreeBuilder.new routine).run steps).finish.Connected)
    (hap : m.Plain ((TreeBuilder.new routine).run steps).finish) :
    let t := ((TreeBuilder.new routine).run steps).finish
    let flat := t.inlined m.settings
    ∃ progress survey sol body, m.analyze t = .ok progress ∧
      m.surveyRegion flat t.inlinedBody (.empty flat) = .ok survey ∧
      (Problem.mk flat t.inlinedBody survey.footprints m.aliases).solve = .ok sol ∧
      t.region? RegionTree.root = some body ∧
      (∃ flow, progress.results.regionFlow RegionTree.root = .ok flow ∧
        sol.outputs.get? body.exit = some flow.output) ∧
      ∀ n ∈ body.nodes, ∀ node, t.node? n = some node → node.kind.loop? = none →
        ∃ flow, progress.results.nodeFlow n = .ok flow ∧
          sol.inputs.get? n = some flow.input ∧ sol.outputs.get? n = some flow.output := by
  intro t flat
  have hvalid : t.Valid := RegionTree.validate_eq_ok.1 hv
  have hl : t.Linked := RegionTree.linked_ofParts hvalid.indexed
  have hnest : t.Nested := ((TreeBuilder.formed_new routine).run steps).nested_finish
  obtain ⟨progress, h⟩ := analyze_ok_of_resolved hvalid hl hnest hap.resolved
  obtain ⟨survey, hsurvey⟩ := surveyRegion_inlined_ok hvalid hap.resolved (.empty flat)
  have hs := surveyed_of_surveyRegion hsurvey
  have hvis := visited_of_analyze hc h
  have hp := traversed_inlined (m := m) hvalid hl hnest hvis hs.footprint
  obtain ⟨sol, hsol⟩ := Problem.solve_ok hp.toClosed
  obtain ⟨body, hbody, -⟩ := hvalid.body
  have hflow := fun n hn node hnode hk =>
    @flow_inlined m t body n node progress _ hl hnest hc hap h _ sol hs hsol hbody hn hnode hk
  refine ⟨progress, survey, sol, body, h, hsurvey, hsol, hbody, ?_, hflow⟩
  obtain ⟨exit, hx, hkx, -⟩ := hvalid.exit_node hbody
  obtain ⟨flow, hflow, -, hout⟩ := hflow body.exit (hvalid.exit_mem hbody) exit hx
    (NodeKind.loop?_of_end (.inr hkx))
  obtain ⟨x, y, hexit, hroot⟩ := regionFlow_root h hbody
  obtain rfl := Except.ok.inj (hflow.symm.trans hexit)
  exact ⟨_, hroot, hout⟩

theorem connected_loopInLoop : loopInLoop.finish.Connected :=
  RegionTree.connected_of_chains (·.nodes.drop 2) (by decide +kernel)

theorem apart_source_target : ∀ l ∈ [source, target], ∀ k ∈ [source, target], l ≠ k →
    copying.aliases l k = .none ∧ l.covers k = false := by
  decide +kernel

theorem plain_copying (t : RegionTree) : copying.Plain t :=
  plain_of_locations (fun _ => ⟨_, rfl, rfl, by decide⟩) apart_source_target

theorem analyze_agrees_inlined_loopInLoop : ∃ progress flow survey sol,
    copying.analyze loopInLoop.finish = .ok progress ∧
    progress.results.regionFlow RegionTree.root = .ok flow ∧
    flow.output = ⟨.only ∅, .only (.ofList [target])⟩ ∧
    copying.surveyRegion (loopInLoop.finish.inlined {}) loopInLoop.finish.inlinedBody
      (.empty (loopInLoop.finish.inlined {})) = .ok survey ∧
    (Problem.mk (loopInLoop.finish.inlined {}) loopInLoop.finish.inlinedBody survey.footprints
      copying.aliases).solve = .ok sol ∧
    sol.outputs.get? 1 = some flow.output := by
  obtain ⟨progress, survey, sol, body, h, hs, hsol, hr, ⟨flow, hflow, hout⟩, -⟩ :=
    analyze_agrees_inlined "routine" _ copying (by decide +kernel) connected_loopInLoop
      (plain_copying _)
  have hexit : loopInLoop.finish.region? RegionTree.root = some body → body.exit = 1 := by
    intro hbody
    have hone : (loopInLoop.finish.region? RegionTree.root).map Region.exit = some 1 := by
      decide +kernel
    rw [hbody] at hone
    exact Option.some.inj hone
  have hsolved : (copying.analyze loopInLoop.finish >>= fun p =>
      (·.output) <$> p.results.regionFlow RegionTree.root) =
        .ok ⟨.only ∅, .only (.ofList [target])⟩ := by
    decide +kernel
  obtain ⟨progress', h', hp⟩ := bind_eq_ok.1 hsolved
  obtain rfl := Except.ok.inj (h.symm.trans h')
  obtain ⟨flow', hflow', hvalue⟩ := map_eq_ok.1 hp
  obtain rfl := Except.ok.inj (hflow.symm.trans hflow')
  exact ⟨progress, flow, survey, sol, h, hflow, hvalue, hs, hsol, hexit hr ▸ hout⟩

end LoopMemory.Memory
