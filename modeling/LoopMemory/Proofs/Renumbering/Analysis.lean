import LoopMemory.Proofs.Analysis.Complete
import LoopMemory.Proofs.Renumbering.Summary
import LoopMemory.Proofs.Solver.Greatest

/-! One routine under two numberings of its regions, nodes and instructions. What the analysis finds
out about a region or a node is the same under both. -/
namespace LoopMemory
open Relator

/-- Which regions, nodes and instructions of two routines are the same ones. -/
structure Renumbering where
  region : RegionId → RegionId → Prop
  node : NodeId → NodeId → Prop
  inst : Inst → Inst → Prop

namespace Renumbering
variable (ν : Renumbering)

inductive Kind : NodeKind → NodeKind → Prop
  | entry : Kind .entry .entry
  | exit : Kind .exit .exit
  | block {insts insts' : List Inst} (h : List.Forall₂ ν.inst insts insts') :
    Kind (.block insts) (.block insts')
  | region {r r' : RegionId} (h : ν.region r r') : Kind (.region r) (.region r')

/-- The regions say the same of themselves, and their nodes are the same. -/
structure SameRegion (region region' : Region) : Prop where
  name : region.name = region'.name
  kind : region.kind = region'.kind
  entry : ν.node region.entry region'.entry
  exit : ν.node region.exit region'.exit
  standIn : ∀ n k, region.standIn = some n → region'.standIn = some k → ν.node n k
  forth : ∀ n ∈ region.nodes, ∃ k ∈ region'.nodes, ν.node n k
  back : ∀ k ∈ region'.nodes, ∃ n ∈ region.nodes, ν.node n k

/-- The nodes do the same in regions that are the same. -/
structure SameNode (node node' : Node) : Prop where
  kind : ν.Kind node.kind node'.kind
  region : ν.region node.region node'.region

/-- What is the same has the same effects and the same edges. -/
structure Renumbers (m : Memory) (t : RegionTree) (effects : Effects) (t' : RegionTree) :
    Prop where
  nodes : BiUnique ν.node
  insts : BiUnique ν.inst
  effects : ∀ i j, ν.inst i j → m.effects i = effects j
  region : ∀ r r', ν.region r r' → ∃ region region', t.region? r = some region ∧
    t'.region? r' = some region' ∧ ν.SameRegion region region'
  node : ∀ n k, ν.node n k → ∃ node node', t.node? n = some node ∧
    t'.node? k = some node' ∧ ν.SameNode node node'
  leads : ∀ n k, ν.node n k → ∀ j l, ν.node j l → (t.Leads n j ↔ t'.Leads k l)

namespace Renumbers
variable {ν : Renumbering} {m : Memory} {effects : Effects} {t t' : RegionTree}
  {results results' : Results} {r r' : RegionId} {region region' : Region} {n k : NodeId}
  {kind kind' : NodeKind} {f g : Footprint} {progress progress' : Progress}
  (h : ν.Renumbers m t effects t')
include h

theorem sameRegion (hrr : ν.region r r') (hr : t.region? r = some region)
    (hr' : t'.region? r' = some region') : ν.SameRegion region region' := by
  obtain ⟨reg, reg', hreg, hreg', hsame⟩ := h.region r r' hrr
  obtain rfl := Option.some.inj (hr.symm.trans hreg)
  obtain rfl := Option.some.inj (hr'.symm.trans hreg')
  exact hsame

theorem mem_right (hsame : ν.SameRegion region region') (hn : n ∈ region.nodes)
    (hk : ν.node n k) : k ∈ region'.nodes := by
  obtain ⟨k', hk', hnk⟩ := hsame.forth n hn
  exact h.nodes.2 hnk hk ▸ hk'

theorem mem_preds_iff (hl : t.Linked) (hl' : t'.Linked) (hnk : ν.node n k) {node node' : Node}
    (hn : t.node? n = some node) (hk : t'.node? k = some node') {j l : NodeId}
    (hjl : ν.node j l) : j ∈ node.preds ↔ l ∈ node'.preds := by
  rw [hl n node hn, hl' k node' hk]
  exact h.leads j l hjl n k hnk

theorem alike_of_kind (hk : ν.Kind kind kind') (hf : m.IsFootprint results kind f)
    (hg : Memory.IsFootprint { m with effects } results' kind' g)
    (hloops : ∀ c c', kind = .region c → ν.region c c' → ∀ f g, results.summary? c = some f →
      results'.summary? c' = some g → f.Alike ν.inst g) : f.Alike ν.inst g := by
  cases hk with
  | entry =>
    rw [hf.unique rfl, hg.unique rfl]
    exact Footprint.alike_empty
  | exit =>
    rw [hf.unique rfl, hg.unique rfl]
    exact Footprint.alike_empty
  | block hi => exact Memory.blockFootprint_alike h.insts h.effects hi hf hg
  | region hr => exact hloops _ _ rfl hr f g hf hg

/- One region, once its loops have the same summaries. -/
section Region
variable (hv : t.Valid) (hv' : t'.Valid) (hl : t.Linked) (hl' : t'.Linked)
  (hr : t.region? r = some region) (hr' : t'.region? r' = some region') (hrr : ν.region r r')
  (s : Memory.Solved m t results r region)
  (s' : Memory.Solved { m with effects } t' results' r' region')
  (hloops : ∀ n ∈ region.nodes, ∀ node c, t.node? n = some node → node.kind = .region c →
    ∀ c', ν.region c c' → ∀ f g, results.summary? c = some f → results'.summary? c' = some g →
      f.Alike ν.inst g)
include hr hr' hrr hloops

theorem alike_of_node (hn : n ∈ region.nodes) (hk : ν.node n k) (hf : s.fps.get? n = some f)
    (hg : s'.fps.get? k = some g) : f.Alike ν.inst g := by
  obtain ⟨node, f', hnode, hf', hfoot⟩ := s.surveyed n hn
  obtain ⟨node', g', hnode', hg', hfoot'⟩ :=
    s'.surveyed k (h.mem_right (h.sameRegion hrr hr hr') hn hk)
  obtain rfl := Option.some.inj (hf.symm.trans hf')
  obtain rfl := Option.some.inj (hg.symm.trans hg')
  obtain ⟨node₁, node₁', hnode₁, hnode₁', hsame⟩ := h.node n k hk
  obtain rfl := Option.some.inj (hnode.symm.trans hnode₁)
  obtain rfl := Option.some.inj (hnode'.symm.trans hnode₁')
  exact h.alike_of_kind hsame.kind hfoot hfoot' fun c c' hc => hloops n hn node c hnode hc c'

include hl hl'

theorem twin : s.problem.Twin ν.node s'.problem where
  unique := h.nodes
  entry := (h.sameRegion hrr hr hr').entry
  forth := (h.sameRegion hrr hr hr').forth
  back := (h.sameRegion hrr hr hr').back
  alike n hn k hk := by
    obtain ⟨node, f, hnode, hf, -⟩ := s.surveyed n hn
    obtain ⟨node', g, hnode', hg, -⟩ :=
      s'.surveyed k (h.mem_right (h.sameRegion hrr hr hr') hn hk)
    exact ⟨node, node', f, g, hnode, hnode', fun j l => h.mem_preds_iff hl hl' hk hnode hnode',
      hf, hg, (h.alike_of_node hr hr' hrr s s' hloops hn hk hf hg).transfer⟩

include hv hv'

theorem values_eq (hn : n ∈ region.nodes) (hk : ν.node n k) :
    s'.sol.inputs.get? k = s.sol.inputs.get? n ∧
      s'.sol.outputs.get? k = s.sol.outputs.get? n :=
  (h.twin hl hl' hr hr' hrr s s' hloops).solve_eq hl hl' (s.surveyed.closed hv hr)
    (s'.surveyed.closed hv' hr') s.solves s'.solves hn hk

theorem summary_alike_of_region : s.summary.Alike ν.inst s'.summary := by
  have hsame := h.sameRegion hrr hr hr'
  have hforth : Problem.Mirrors ν.inst s.problem s.sol s'.problem s'.sol := by
    rintro n hn f x ⟨hf, hx⟩
    obtain ⟨k, hk, hnk⟩ := hsame.forth n hn
    obtain ⟨_, g, -, hg, -⟩ := s'.surveyed k hk
    have hvalue := (h.values_eq hv hv' hl hl' hr hr' hrr s s' hloops hn hnk).1
    exact ⟨k, hk, g, ⟨hg, hvalue.trans hx⟩, h.alike_of_node hr hr' hrr s s' hloops hn hnk hf hg⟩
  have hback : Problem.Mirrors (flip ν.inst) s'.problem s'.sol s.problem s.sol := by
    rintro k hk g x ⟨hg, hx⟩
    obtain ⟨n, hn, hnk⟩ := hsame.back k hk
    obtain ⟨_, f, -, hf, -⟩ := s.surveyed n hn
    have hvalue := (h.values_eq hv hv' hl hl' hr hr' hrr s s' hloops hn hnk).1
    exact ⟨n, hn, f, ⟨hf, hvalue.symm.trans hx⟩,
      (h.alike_of_node hr hr' hrr s s' hloops hn hnk hf hg).symm⟩
  have hexit := (h.values_eq hv hv' hl hl' hr hr' hrr s s' hloops (hv.exit_mem hr) hsame.exit).2
  exact Problem.collapse_alike hforth hback hsame.kind hexit.symm s.collapses s'.collapses

end Region

/- The whole routine. -/
section Analysis
variable (hl : t.Linked) (hl' : t'.Linked) (hp : m.analyze t = .ok progress)
  (hp' : Memory.analyze { m with effects } t' = .ok progress')
include hl hl' hp hp'

/-- A region has the same summary under both numberings. -/
theorem summary_alike (hrr : ν.region r r') (hf : progress.results.summary? r = some f)
    (hg : progress'.results.summary? r' = some g) : f.Alike ν.inst g := by
  have hv := Memory.valid_of_analyze hp
  have hv' := Memory.valid_of_analyze hp'
  obtain ⟨region, -, hr, -⟩ := h.region r r' hrr
  refine Memory.analyze_induction hp (fun r => ∀ r', ν.region r r' → ∀ f g,
    progress.results.summary? r = some f → progress'.results.summary? r' = some g →
      f.Alike ν.inst g) ?_ hr r' hrr f g hf hg
  intro r region hr ih r' hrr f g hf hg
  obtain ⟨_, region', -, hr', -⟩ := h.region r r' hrr
  obtain ⟨s⟩ := Memory.solved_of_analyze hp hr
  obtain ⟨s'⟩ := Memory.solved_of_analyze hp' hr'
  obtain rfl := Option.some.inj (hf.symm.trans s.onFile)
  obtain rfl := Option.some.inj (hg.symm.trans s'.onFile)
  exact h.summary_alike_of_region hv hv' hl hl' hr hr' hrr s s'
    fun n hn node c hnode hc => (ih n hn node c hnode hc).2

/-- A node has the same values under both numberings. -/
theorem nodeFlow_eq (hnk : ν.node n k) :
    progress'.results.nodeFlow k = progress.results.nodeFlow n := by
  have hv := Memory.valid_of_analyze hp
  have hv' := Memory.valid_of_analyze hp'
  obtain ⟨node, node', hnode, hnode', hsame⟩ := h.node n k hnk
  obtain ⟨region, hr, hn⟩ := hv.owner hnode
  obtain ⟨region', hr', hk⟩ := hv'.owner hnode'
  obtain ⟨s⟩ := Memory.solved_of_analyze hp hr
  obtain ⟨s'⟩ := Memory.solved_of_analyze hp' hr'
  obtain ⟨x, y, hx, hy, hfile⟩ := s.filed n hn
  obtain ⟨x', y', hx', hy', hfile'⟩ := s'.filed k hk
  obtain ⟨hin, hout⟩ := h.values_eq hv hv' hl hl' hr hr' hsame.region s s'
    (fun _ _ _ _ _ _ _ hcc _ _ hf hg => h.summary_alike hl hl' hp hp' hcc hf hg) hn hnk
  obtain rfl := Option.some.inj (hx'.symm.trans (hin.trans hx))
  obtain rfl := Option.some.inj (hy'.symm.trans (hout.trans hy))
  have hflow := Results.nodeFlow_eq_ok.2 (congrArg (·.bind NodeFacts.flow) hfile)
  exact (Results.nodeFlow_eq_ok.2 (congrArg (·.bind NodeFacts.flow) hfile')).trans hflow.symm

/-- A region has the same values around it. -/
theorem regionFlow_eq (hnest : t.Nested) (hnest' : t'.Nested) (hrr : ν.region r r') :
    progress'.results.regionFlow r' = progress.results.regionFlow r := by
  have hv := Memory.valid_of_analyze hp
  have hv' := Memory.valid_of_analyze hp'
  obtain ⟨region, region', hr, hr', hsame⟩ := h.region r r' hrr
  cases hloop : region.isLoop with
  | true =>
    have hloop' : region'.isLoop = true := by rwa [Region.isLoop, ← hsame.kind]
    obtain ⟨n, hs⟩ := hv.exists_standIn hr hloop
    obtain ⟨k, hs'⟩ := hv'.exists_standIn hr' hloop'
    obtain ⟨_, flow, -, -, hflow, hnode⟩ := Memory.shared_of_analyze hp hr hnest hs
    obtain ⟨_, flow', -, -, hflow', hnode'⟩ := Memory.shared_of_analyze hp' hr' hnest' hs'
    rw [hflow, hflow', ← hnode, ← hnode']
    exact h.nodeFlow_eq hl hl' hp hp' (hsame.standIn n k hs hs')
  | false =>
    have hroot : ∀ {t : RegionTree} {r region}, t.Valid → t.region? r = some region →
        region.isLoop = false → r = RegionTree.root := by
      intro t r region hv hr hloop
      refine (hv.region r region hr).nested.resolve_right fun hkind => hkind ?_
      cases hk : region.kind with
      | body => rfl
      | loop once => simp [Region.isLoop, hk, RegionKind.isLoop] at hloop
    have hloop' : region'.isLoop = false := by rwa [Region.isLoop, ← hsame.kind]
    obtain rfl := hroot hv hr hloop
    obtain rfl := hroot hv' hr' hloop'
    obtain ⟨x, y, hexit, hflow⟩ := Memory.regionFlow_root hp hr
    obtain ⟨x', y', hexit', hflow'⟩ := Memory.regionFlow_root hp' hr'
    have hsame := h.nodeFlow_eq hl hl' hp hp' hsame.exit
    rw [hexit, hexit'] at hsame
    rw [hflow, hflow', (Flow.mk.inj (Except.ok.inj hsame)).2]

end Analysis
end Renumbers
end Renumbering
end LoopMemory
