import LoopMemory.Proofs.Region

/-! What validation establishes about a region, a node and a whole tree. -/
namespace LoopMemory.RegionTree
variable {t : RegionTree} {region : Region} {r : RegionId}

/-- The region names its parent, the parent lists it, and a node of the parent stands for it. -/
def ParentOk (t : RegionTree) (region : Region) : Prop :=
  match region.parent with
  | none => region.id = root
  | some p => ∃ parent n node, t.region? p = some parent ∧ region.id ∈ parent.children ∧
      region.standIn = some n ∧ t.node? n = some node ∧ node.kind = .region region.id ∧
      node.region = p

theorem checkParent_eq_ok {u : Unit} : t.checkParent region = .ok u ↔ t.ParentOk region := by
  unfold checkParent ParentOk
  cases region.parent with
  | none => simp
  | some p =>
    simp only [bind_eq_ok, region_eq_ok, require_eq_ok, List.contains_iff_mem]
    cases region.standIn with
    | none => simp
    | some n => simp [bind_eq_ok, node_eq_ok]

theorem checkChildren_eq_ok {u : Unit} : t.checkChildren region = .ok u ↔
    ∀ c ∈ region.children, ∃ child, t.region? c = some child ∧ child.parent = some region.id := by
  simp only [checkChildren, forM_eq_ok, bind_eq_ok, region_eq_ok, require_eq_ok]

/-- The node belongs to the region, and so do its successors. -/
def NodeOk (t : RegionTree) (region : Region) (n : NodeId) : Prop :=
  ∃ node, t.node? n = some node ∧ node.region = region.id ∧
    ∀ s ∈ node.succs, ∃ target, t.node? s = some target ∧ target.region = region.id

theorem checkNode_eq_ok {n : NodeId} {u : Unit} :
    t.checkNode region n = .ok u ↔ t.NodeOk region n := by
  simp only [checkNode, NodeOk, bind_eq_ok, node_eq_ok, require_eq_ok, forM_eq_ok]
  constructor
  · rintro ⟨node, hn, _, hr, hs⟩
    exact ⟨node, hn, hr, hs⟩
  · rintro ⟨node, hn, hr, hs⟩
    exact ⟨node, hn, (), hr, hs⟩

structure GraphOk (t : RegionTree) (region : Region) : Prop where
  entry : ∃ node, t.node? region.entry = some node ∧ node.kind = .entry ∧ node.preds = []
  exit : ∃ node, t.node? region.exit = some node ∧ node.kind = .exit
  first : region.nodes.head? = some region.entry
  listed : region.exit ∈ region.nodes
  nodes : ∀ n ∈ region.nodes, t.NodeOk region n

theorem checkGraph_eq_ok {u : Unit} : t.checkGraph region = .ok u ↔ t.GraphOk region := by
  simp only [checkGraph, bind_eq_ok, node_eq_ok, require_eq_ok, forM_eq_ok, checkNode_eq_ok,
    List.contains_iff_mem]
  constructor
  · rintro ⟨entry, he, exit, hx, _, ⟨hke, hkx⟩, _, ⟨hf, hl⟩, _, hp, hn⟩
    exact ⟨⟨entry, he, hke, hp⟩, ⟨exit, hx, hkx⟩, hf, hl, hn⟩
  · rintro ⟨⟨entry, he, hke, hp⟩, ⟨exit, hx, hkx⟩, hf, hl, hn⟩
    exact ⟨entry, he, exit, hx, (), ⟨hke, hkx⟩, (), ⟨hf, hl⟩, (), hp, hn⟩

structure RegionOk (t : RegionTree) (r : RegionId) (region : Region) : Prop where
  id : region.id = r
  nested : r = root ∨ region.kind ≠ .body
  parent : t.ParentOk region
  children : ∀ c ∈ region.children,
    ∃ child, t.region? c = some child ∧ child.parent = some region.id
  graph : t.GraphOk region

theorem checkRegion_eq_ok {u : Unit} : t.checkRegion r region = .ok u ↔ t.RegionOk r region := by
  simp only [checkRegion, bind_eq_ok, require_eq_ok, checkParent_eq_ok, checkChildren_eq_ok,
    checkGraph_eq_ok]
  constructor
  · rintro ⟨_, hi, _, hn, _, hp, _, hc, hg⟩
    exact ⟨hi, hn, hp, hc, hg⟩
  · rintro ⟨hi, hn, hp, hc, hg⟩
    exact ⟨(), hi, (), hn, (), hp, (), hc, hg⟩

theorem checkOwner_eq_ok {n : NodeId} {node : Node} {u : Unit} : t.checkOwner n node = .ok u ↔
    node.id = n ∧ ∃ owner, t.region? node.region = some owner ∧ node.id ∈ owner.nodes := by
  simp only [checkOwner, bind_eq_ok, require_eq_ok, region_eq_ok, List.contains_iff_mem]
  constructor
  · rintro ⟨_, hi, ho⟩
    exact ⟨hi, ho⟩
  · rintro ⟨hi, ho⟩
    exact ⟨(), hi, ho⟩

structure Valid (t : RegionTree) : Prop where
  body : ∃ region, t.region? root = some region ∧ region.kind = .body ∧ region.parent = none ∧
    region.standIn = none
  region : ∀ r region, t.region? r = some region → t.RegionOk r region
  node : ∀ n node, t.node? n = some node →
    node.id = n ∧ ∃ owner, t.region? node.region = some owner ∧ node.id ∈ owner.nodes
  nesting : t.checkNesting = .ok ()

theorem forM_zipIdx_eq_ok {α : Type} {xs : Array α} {f : α × Nat → Except Breach Unit} {u : Unit} :
    xs.toList.zipIdx.forM f = .ok u ↔ ∀ (i : Nat) (a : α), xs[i]? = some a → f (a, i) = .ok () := by
  simp only [forM_eq_ok, Prod.forall, List.mem_zipIdx_iff_getElem?, Array.getElem?_toList]
  exact ⟨fun h i a hi => h a i hi, fun h a i hi => h i a hi⟩

theorem validate_eq_ok : t.validate = .ok () ↔ t.Valid := by
  unfold validate
  cases h : t.region? root with
  | none =>
    simp only [bind_eq_ok, reduceCtorEq, false_and, exists_false, false_iff]
    intro hv
    obtain ⟨region, hr, -⟩ := hv.body
    simp [h] at hr
  | some region =>
    simp only [bind_eq_ok, forM_zipIdx_eq_ok, checkRegion_eq_ok, checkOwner_eq_ok, require_eq_ok]
    constructor
    · rintro ⟨_, hroot, _, hr, _, hn, hv⟩
      exact ⟨⟨region, h, hroot⟩, hr, hn, hv⟩
    · rintro ⟨⟨region', h', hroot⟩, hr, hn, hv⟩
      rw [h] at h'
      exact ⟨(), Option.some.inj h' ▸ hroot, (), hr, (), hn, hv⟩

namespace Valid

theorem indexed (h : t.Valid) : t.Indexed := fun n node hn => (h.node n node hn).1

theorem owner (h : t.Valid) {n : NodeId} {node : Node} (hn : t.node? n = some node) :
    ∃ owner, t.region? node.region = some owner ∧ n ∈ owner.nodes := by
  obtain ⟨hid, owner, ho, hm⟩ := h.node n node hn
  exact ⟨owner, ho, hid ▸ hm⟩

variable {n : NodeId}

/-- A region lists just the nodes that it owns. -/
theorem listed (h : t.Valid) (hr : t.region? r = some region) (hn : n ∈ region.nodes) :
    ∃ node, t.node? n = some node ∧ node.region = r := by
  obtain ⟨node, hnode, hreg, -⟩ := (h.region r region hr).graph.nodes n hn
  exact ⟨node, hnode, hreg.trans (h.region r region hr).id⟩

theorem mem_nodes (h : t.Valid) (hr : t.region? r = some region) {node : Node}
    (hn : t.node? n = some node) (hreg : node.region = r) : n ∈ region.nodes := by
  obtain ⟨owner, ho, hm⟩ := h.owner hn
  rw [hreg, hr] at ho
  exact Option.some.inj ho ▸ hm

theorem succ_mem (h : t.Valid) (hr : t.region? r = some region) (hn : n ∈ region.nodes)
    {node : Node} (hnode : t.node? n = some node) {k : NodeId} (hk : k ∈ node.succs) :
    k ∈ region.nodes := by
  obtain ⟨node', hnode', -, hs⟩ := (h.region r region hr).graph.nodes n hn
  rw [hnode] at hnode'
  obtain ⟨target, ht, hreg⟩ := hs k (Option.some.inj hnode' ▸ hk)
  exact h.mem_nodes hr ht (hreg.trans (h.region r region hr).id)

theorem same_region_of_leads (h : t.Valid) {k : NodeId} (hleads : t.Leads n k) : ∃ node other,
    t.node? n = some node ∧ t.node? k = some other ∧ other.region = node.region := by
  obtain ⟨node, hn, hk⟩ := hleads
  obtain ⟨owner, hr, hmem⟩ := h.owner hn
  obtain ⟨other, hother, hregion⟩ := h.listed hr (h.succ_mem hr hmem hn hk)
  exact ⟨node, other, hn, hother, hregion⟩

theorem entry_mem (h : t.Valid) (hr : t.region? r = some region) :
    region.entry ∈ region.nodes :=
  List.mem_of_mem_head? (h.region r region hr).graph.first

theorem exit_mem (h : t.Valid) (hr : t.region? r = some region) :
    region.exit ∈ region.nodes :=
  (h.region r region hr).graph.listed

/- The ends of a region. -/

theorem entry_node (h : t.Valid) (hr : t.region? r = some region) :
    ∃ node, t.node? region.entry = some node ∧ node.kind = .entry ∧ node.region = r := by
  obtain ⟨node, hn, hk, -⟩ := (h.region r region hr).graph.entry
  obtain ⟨node', hn', hreg⟩ := h.listed hr (h.entry_mem hr)
  obtain rfl := Option.some.inj (hn.symm.trans hn')
  exact ⟨node, hn, hk, hreg⟩

theorem exit_node (h : t.Valid) (hr : t.region? r = some region) :
    ∃ node, t.node? region.exit = some node ∧ node.kind = .exit ∧ node.region = r := by
  obtain ⟨node, hn, hk⟩ := (h.region r region hr).graph.exit
  obtain ⟨node', hn', hreg⟩ := h.listed hr (h.exit_mem hr)
  obtain rfl := Option.some.inj (hn.symm.trans hn')
  exact ⟨node, hn, hk, hreg⟩

/-- No edge leads to an entry. -/
theorem not_leads_entry (h : t.Valid) (hl : t.Linked) (hr : t.region? r = some region) :
    ¬t.Leads n region.entry := by
  rintro ⟨node, hn, hmem⟩
  obtain ⟨entry, hentry, -, hpreds⟩ := (h.region r region hr).graph.entry
  have hpred := (hl _ entry hentry n).2 ⟨node, hn, hmem⟩
  simp [hpreds] at hpred

theorem eq_of_mem (h : t.Valid) {r' : RegionId} {region' : Region}
    (hr : t.region? r = some region) (hr' : t.region? r' = some region')
    (hn : n ∈ region.nodes) (hn' : n ∈ region'.nodes) : r = r' := by
  obtain ⟨node, hnode, hreg⟩ := h.listed hr hn
  obtain ⟨node', hnode', hreg'⟩ := h.listed hr' hn'
  rw [hnode] at hnode'
  rw [← hreg, ← hreg', Option.some.inj hnode']

/-- The node that stands for a loop lies in the graph around it. -/
theorem of_standIn (hv : t.Valid) {c : RegionId} {inner : Region}
    (hc : t.region? c = some inner) (hs : inner.standIn = some n) :
    ∃ node outer, t.node? n = some node ∧ node.kind = .region c ∧
      t.region? node.region = some outer ∧ c ∈ outer.children := by
  obtain ⟨body, hbody, -, -, hroot⟩ := hv.body
  have hok := hv.region c inner hc
  have hparent := hok.parent
  unfold ParentOk at hparent
  split at hparent
  · rw [hok.id] at hparent
    rw [hparent, hbody] at hc
    obtain rfl := Option.some.inj hc
    simp [hroot] at hs
  · obtain ⟨outer, n', node, ho, hmem, hs', hn, hk, hreg⟩ := hparent
    obtain rfl := Option.some.inj (hs'.symm.trans hs)
    rw [hok.id] at hk hmem
    exact ⟨node, outer, hn, hk, hreg ▸ ho, hmem⟩

/-- No node stands for the routine body. -/
theorem ne_root (hv : t.Valid) (hnest : t.Nested) {c : RegionId} {node : Node}
    (hn : t.node? n = some node) (hk : node.kind = .region c) : c ≠ root := by
  rintro rfl
  obtain ⟨body, hbody, -, -, hroot⟩ := hv.body
  obtain ⟨inner, hinner, hs⟩ := hnest n node root hn hk
  obtain rfl := Option.some.inj (hbody.symm.trans hinner)
  simp [hroot] at hs

/-- Only the body has no node that stands for it. -/
theorem exists_standIn (hv : t.Valid) (hr : t.region? r = some region)
    (hloop : region.isLoop = true) : ∃ n, region.standIn = some n := by
  have hok := hv.region r region hr
  have hparent := hok.parent
  unfold ParentOk at hparent
  split at hparent
  · obtain ⟨body, hbody, hk, -⟩ := hv.body
    rw [hok.id] at hparent
    rw [hparent, hbody] at hr
    rw [← Option.some.inj hr, Region.isLoop, hk] at hloop
    cases hloop
  · obtain ⟨_, n, _, -, -, hs, -⟩ := hparent
    exact ⟨n, hs⟩

theorem of_child (hv : t.Valid) {c : RegionId} (hr : t.region? r = some region)
    (hc : c ∈ region.children) :
    ∃ inner n node, t.region? c = some inner ∧ inner.standIn = some n ∧
      t.node? n = some node ∧ node.kind = .region c ∧ node.region = r := by
  have hok := hv.region r region hr
  obtain ⟨inner, hinner, hparent⟩ := hok.children c hc
  have hok' := hv.region c inner hinner
  have h := hok'.parent
  simp only [ParentOk, hparent, hok'.id, hok.id] at h
  obtain ⟨-, n, node, -, -, hs, hn, hk, hreg⟩ := h
  exact ⟨inner, n, node, hinner, hs, hn, hk, hreg⟩

end Valid
end LoopMemory.RegionTree
