import LoopMemory.Proofs.Exactness
import Mathlib.Data.List.Chain

/-! The summaries of loops, at any depth, say just what the runs of the loops do. -/
namespace LoopMemory

/-- Every node of a region lies on a path from its entry to its exit. -/
def RegionTree.Connected (t : RegionTree) : Prop :=
  ∀ r region, t.region? r = some region → ∀ n ∈ region.nodes,
    Relation.ReflTransGen t.Leads region.entry n ∧ Relation.ReflTransGen t.Leads n region.exit

/- Regions whose nodes follow each other from entry to exit are connected. -/
theorem RegionTree.connected_of_chains {t : RegionTree} (inside : Region → List NodeId)
    (h : ∀ region ∈ t.regions.toList,
      region.nodes ⊆ region.entry :: inside region ++ [region.exit] ∧
      (region.entry :: inside region ++ [region.exit]).IsChain t.Leads) : t.Connected := by
  intro r region hr n hn
  obtain ⟨hnodes, hchain⟩ := h region (Array.mem_toList_iff.2 (Array.mem_of_getElem? hr))
  have hpairs : (region.entry :: inside region ++ [region.exit]).Pairwise
      (Relation.ReflTransGen t.Leads) :=
    List.isChain_iff_pairwise.1 (hchain.imp fun _ _ hlead => .single hlead)
  refine ⟨?_, ?_⟩
  · rcases List.mem_cons.1 (hnodes hn) with rfl | hn
    · exact .refl
    · exact (List.pairwise_cons.1 hpairs).1 n hn
  · rcases List.mem_append.1 (hnodes hn) with hn | hn
    · exact (List.pairwise_append.1 hpairs).2.2 n hn region.exit (.head _)
    · exact List.mem_singleton.1 hn ▸ .refl

namespace Memory
variable {m : Memory} {t : RegionTree} {region inner : Region} {r c : RegionId} {n k : NodeId}
  {node : Node} {f g : Footprint} {x : Reaching} {l : Location} {es : List Event}
  {results : Results} {progress : Progress} {fps : NodeMap Footprint}

/-- A region graph of a valid tree whose nodes have footprints. -/
theorem traversed_of_connected (hv : t.Valid) (hl : t.Linked) (hc : t.Connected)
    (hr : t.region? r = some region) (hf : ∀ n ∈ region.nodes, ∃ f, fps.get? n = some f) :
    (Problem.mk t region fps m.aliases).Traversed := by
  have hclosed : (Problem.mk t region fps m.aliases).Closed := by
    refine ⟨fun n hn => ?_, hf, fun n hn node hnode k hk => hv.succ_mem hr hn hnode hk⟩
    obtain ⟨node, hnode, -⟩ := hv.listed hr hn
    exact ⟨node, hnode⟩
  refine { hclosed with
    linked := hl
    entry := hv.entry_mem hr
    fresh := fun n node hn he => hv.not_leads_entry hl hr ⟨node, hn, he⟩
    reached := fun n hn => ?_ }
  exact hclosed.path (hv.entry_mem hr) (hc r region hr n hn).1

/- A run goes on along any path, if there is a way through each node. -/
theorem Run.extend (hv : t.Valid) (hr : t.region? r = some region)
    (hway : ∀ n ∈ region.nodes, ∃ es, m.Across t n es) (hn : n ∈ region.nodes)
    (hp : Relation.ReflTransGen t.Leads n k) (run : m.Run t r n es) :
    ∃ es', m.Run t r k (es ++ es') := by
  have hall : k ∈ region.nodes ∧ ∃ es', m.Run t r k (es ++ es') := by
    induction hp with
    | refl => exact ⟨hn, [], by simpa using run⟩
    | tail _ hlead ih =>
      obtain ⟨hmem, es', run'⟩ := ih
      obtain ⟨node, hnode, hk⟩ := hlead
      obtain ⟨es'', ha⟩ := hway _ hmem
      refine ⟨hv.succ_mem hr hmem hnode hk, es' ++ es'', ?_⟩
      rw [← List.append_assoc]
      exact run'.step ha hnode hk
  exact hall.2

section Loop
variable (hv : t.Valid) (hl : t.Linked) (hc : t.Connected) (hap : m.Plain t)
  (s : Solved m t results c inner) (hr : t.region? c = some inner)
  (hf : ∀ n ∈ inner.nodes, ∀ f, s.fps.get? n = some f → m.Faithful t n f)

/- The summary of a loop whose nodes have faithful footprints, one part after the other. -/

include hf in
theorem Solved.known : s.summary.hasUnknown = false := by
  rw [Bool.eq_false_iff]
  intro hu
  obtain ⟨n, hn, f, x, ⟨hfn, -⟩, hu⟩ := (Problem.hasUnknown_collapse s.collapses).1 hu
  simp [(hf n hn f hfn).known] at hu

include hl hf in
theorem Solved.written_iff : l ∈ s.summary.defs ∨ l ∈ s.summary.mayDefs ↔
    ∃ n ∈ inner.nodes, ∃ f, s.fps.get? n = some f ∧ (l ∈ f.defs ∨ l ∈ f.mayDefs) := by
  refine (Problem.written_collapse_iff s.collapses (s.known hf)).trans ⟨?_, ?_⟩
  · rintro ⟨n, hn, f, x, ⟨hfn, -⟩, hw⟩
    exact ⟨n, hn, f, hfn, hw⟩
  · rintro ⟨n, hn, f, hfn, hw⟩
    obtain ⟨_, _, x, -, -, hx, -⟩ := (Problem.solves_of_solve hl s.solves).flow n hn
    exact ⟨n, hn, f, x, ⟨hfn, hx⟩, hw⟩

include hv hl hc hr

/- Nothing happens at the exit, so the value behind it is the one in front of it. -/
theorem Solved.exit_exact : ∃ x, s.sol.outputs.get? inner.exit = some x ∧
    (Problem.mk t inner s.fps m.aliases).Exact inner.exit x := by
  have hp := traversed_of_connected (m := m) hv hl hc hr s.surveyed.footprint
  have hmem := hv.exit_mem hr
  obtain ⟨exit, hexit, hkind, -⟩ := hv.exit_node hr
  obtain ⟨_, f, x, -, hfx, hx, hy⟩ := (Problem.solves_of_solve hl s.solves).flow inner.exit hmem
  obtain ⟨exit', f', hexit', hfx', hfoot⟩ := s.surveyed inner.exit hmem
  obtain rfl := Option.some.inj (hexit.symm.trans hexit')
  obtain rfl := Option.some.inj (hfx.symm.trans hfx')
  obtain rfl : f = {} := hfoot.of_end (.inr hkind)
  rw [Reaching.transfer_empty] at hy
  exact ⟨x, hy, Problem.exact_of_solve hp s.solves hmem hx⟩

include hf

/- What some node of the loop writes, some run writes on its way to the exit. -/
theorem Solved.wrote_iff : (∃ es, m.Run t c inner.exit es ∧ Wrote l es) ↔
    l ∈ s.summary.defs ∨ l ∈ s.summary.mayDefs := by
  have hp := traversed_of_connected (m := m) hv hl hc hr s.surveyed.footprint
  rw [s.written_iff hl hf]
  constructor
  · rintro ⟨es, run, hw⟩
    obtain ⟨u, hu, -, hmay⟩ := path_of_run hr hp hf run
    exact writes_of_path hp hu (hmay l hw)
  · rintro ⟨k, hk, f, hfk, hw⟩
    obtain ⟨u, hu⟩ := hp.reached k hk
    obtain ⟨es, run⟩ := run_of_path hr hp hf hu
    obtain ⟨es', ha, hw⟩ := ((hf k hk f hfk).writes l).1 hw
    rcases (hc c inner hr k hk).2.cases_head with rfl | ⟨j, ⟨node, hn, hj⟩, hrest⟩
    · obtain ⟨exit, hexit, hkind, -⟩ := hv.exit_node hr
      rw [(across_end hexit (.inr hkind)).1 ha] at hw
      exact absurd hw not_wrote_nil
    · have hways : ∀ n ∈ inner.nodes, ∃ es, m.Across t n es := fun n hn => by
        obtain ⟨f, hfn⟩ := s.surveyed.footprint n hn
        exact (hf n hn f hfn).way
      obtain ⟨es'', whole⟩ := (run.step ha hn hj).extend hv hr hways
        (hv.succ_mem hr hk hn hj) hrest
      exact ⟨_, whole, by simp [hw]⟩

include hap

theorem Solved.mem_defs_iff : l ∈ s.summary.defs ↔ inner.runsOnce m.settings = true ∧
    ∀ es, m.Run t c inner.exit es → m.Assigned l es := by
  have hp := traversed_of_connected (m := m) hv hl hc hr s.surveyed.footprint
  obtain ⟨x, hy, hex⟩ := s.exit_exact hv hl hc hr
  obtain ⟨v, path⟩ := hp.reached inner.exit (hv.exit_mem hr)
  rw [Problem.mem_defs_collapse s.collapses]
  refine and_congr_right fun _ => ?_
  rw [← mem_must_iff_runs hr hp hap hf hex]
  constructor
  · rintro ⟨y, hy', hcov, n, hn, f, x', ⟨hfn, -⟩, hd⟩
    obtain rfl := Option.some.inj (hy.symm.trans hy')
    obtain ⟨-, d, hdx, hdl⟩ := Reach.covers_iff.1 hcov
    have hacc := (hf n hn f hfn).accessed l (.inl hd)
    have hdv := accessed_of_path hp hf path ((hex.must d).1 hdx v path)
    have hdl' : d = l := Classical.byContradiction fun hne => by
      simp [(hap.apart d l hdv hacc hne).2] at hdl
    exact hdl' ▸ hdx
  · intro hlx
    obtain ⟨k, hk, f, hfk, hd⟩ := defs_of_path hp path ((hex.must l).1 hlx v path)
    obtain ⟨_, _, x', -, -, hx', -⟩ := (Problem.solves_of_solve hl s.solves).flow k hk
    exact ⟨x, hy, Reach.covers_iff.2 ⟨hex.known.1, l, hlx, Location.covers_refl l⟩, k, hk, f, x',
      ⟨hfk, hx'⟩, hd⟩

/-- The summary of a loop is faithful if the footprints of the loop's nodes are. -/
theorem Solved.faithful (hn : t.node? n = some node) (hk : node.kind = .region c) :
    m.Faithful t n s.summary := by
  have hp := traversed_of_connected (m := m) hv hl hc hr s.surveyed.footprint
  have hacross := fun es => @across_region m t es n node c inner hn hk hr
  refine ⟨s.known hf, ?_, fun l => ?_, fun l => ?_, fun l hw => ?_⟩
  · obtain ⟨v, path⟩ := hp.reached inner.exit (hv.exit_mem hr)
    obtain ⟨es, run⟩ := run_of_path hr hp hf path
    exact ⟨es, (hacross es).2 (.inl run)⟩
  · rw [s.mem_defs_iff hv hl hc hap hr hf]
    constructor
    · rintro ⟨hone, hall⟩ es ha
      rcases (hacross es).1 ha with run | ⟨hz, -⟩
      · exact hall es run
      · simp [hone] at hz
    · intro hall
      refine ⟨?_, fun es run => hall es ((hacross es).2 (.inl run))⟩
      refine Classical.byContradiction fun hz => not_assigned_nil (m := m) (l := l) ?_
      exact hall [] ((hacross []).2 (.inr ⟨by simpa using hz, rfl⟩))
  · rw [← s.wrote_iff hv hl hc hr hf]
    constructor
    · rintro ⟨es, run, hw⟩
      exact ⟨es, (hacross es).2 (.inl run), hw⟩
    · rintro ⟨es, ha, hw⟩
      rcases (hacross es).1 ha with run | ⟨-, rfl⟩
      · exact ⟨es, run, hw⟩
      · exact absurd hw not_wrote_nil
  · obtain ⟨k, hk', f', hfk, hw⟩ := (s.written_iff hl hf).1 hw
    exact (hf k hk' f' hfk).accessed l hw

end Loop

section Runs
variable (hl : t.Linked) (hc : t.Connected) (hap : m.Plain t) (h : m.analyze t = .ok progress)
  (hr : t.region? r = some region)
include hl hc hap h hr

/-- All footprints of a successful analysis are faithful, whatever the nesting. -/
theorem faithful_of_analyze (s : Solved m t progress.results r region) (hmem : n ∈ region.nodes)
    (hf : s.fps.get? n = some f) : m.Faithful t n f := by
  have hv := valid_of_analyze h
  refine analyze_induction h (fun r => ∀ region, t.region? r = some region →
    ∀ s : Solved m t progress.results r region, ∀ n ∈ region.nodes, ∀ f,
      s.fps.get? n = some f → m.Faithful t n f) ?_ hr region hr s n hmem f hf
  intro r region' hr' ih region hr s n hmem f hf
  obtain rfl := Option.some.inj (hr.symm.trans hr')
  obtain ⟨node, f', hnode, hf', hfoot⟩ := s.surveyed n hmem
  obtain rfl := Option.some.inj (hf.symm.trans hf')
  cases hk : node.kind with
  | entry =>
    rw [hfoot.of_end (.inl hk)]
    exact faithful_end hnode (.inl hk)
  | exit =>
    rw [hfoot.of_end (.inr hk)]
    exact faithful_end hnode (.inr hk)
  | block insts => exact faithful_block hap hnode hk (hfoot.of_block hk)
  | region c =>
    obtain ⟨⟨inner, hinner⟩, hc'⟩ := ih n hmem node c hnode hk
    obtain ⟨s'⟩ := solved_of_analyze h hinner
    obtain rfl := Option.some.inj (s'.onFile.symm.trans (hfoot.of_region hk))
    exact s'.faithful hv hl hc hap hinner (hc' inner hinner s') hnode hk

/-- What must reach a node is what all runs to it assign, and what may reach it is what some run
writes. -/
theorem flow_iff_runs (hmem : n ∈ region.nodes) (hx : m.OnFile t progress.results n node f x) :
    (x.must.isFull = false ∧ x.may.isFull = false) ∧
    (∀ l, l ∈ x.must ↔ ∀ es, m.Run t r n es → m.Assigned l es) ∧
    ∀ l, l ∈ x.may ↔ ∃ es, m.Run t r n es ∧ Wrote l es := by
  have hv := valid_of_analyze h
  obtain ⟨s⟩ := solved_of_analyze h hr
  have hp := traversed_of_connected (m := m) hv hl hc hr s.surveyed.footprint
  have hf : ∀ n ∈ region.nodes, ∀ f, s.fps.get? n = some f → m.Faithful t n f :=
    fun n hn f => faithful_of_analyze hl hc hap h hr s hn
  have hex := Problem.exact_of_solve hp s.solves hmem ((s.onFile_iff hl hmem).1 hx).2.1.2
  exact ⟨hex.known, fun l => mem_must_iff_runs hr hp hap hf hex,
    fun l => mem_may_iff_runs hr hp hf hex⟩

end Runs
end Memory
end LoopMemory
