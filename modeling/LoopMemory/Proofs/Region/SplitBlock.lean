import LoopMemory.Proofs.Region.Valid

/-! A tree in which one block is cut in two is valid again, with the edges of the block at the ends
of the two halves. -/
namespace LoopMemory.RegionTree
variable {t t' : RegionTree} {node k : Node} {before after : List Inst} {n j : NodeId}
  {r : RegionId} {region region' : Region}

/-- The block keeps its number and a prefix of its instructions, and leads to the new node alone.
That one has the next free number, the remaining instructions and the edges of the block. -/
def splitNodes (t : RegionTree) (node : Node) (before after : List Inst) : Array Node :=
  (t.nodes.modify node.id fun first =>
      { first with kind := .block before, succs := [t.nodes.size] }).push
    { node with id := t.nodes.size, kind := .block after }

/-- The region of a node gets another one, behind all others. -/
def withNode (t : RegionTree) (node : Node) (region : Region) : Region :=
  if region.id = node.region then { region with nodes := region.nodes ++ [t.nodes.size] }
  else region

def splitBlock (t : RegionTree) (node : Node) (before after : List Inst) : RegionTree :=
  .ofParts t.routine (t.regions.map (t.withNode node)) (t.splitNodes node before after)

/- The walk of validation looks at the children of the regions only. -/
theorem visit_eq_ok_of_children (hchildren : ∀ r region, t.region? r = some region →
    ∃ region', t'.region? r = some region' ∧ region'.children = region.children) (fuel : Nat)
    {met met' stack : List RegionId} (h : t.visit fuel met stack = .ok met') :
    t'.visit fuel met stack = .ok met' := by
  induction fuel generalizing met stack with
  | zero => cases stack <;> exact h
  | succ fuel ih =>
    cases stack with
    | nil => exact h
    | cons r stack =>
      simp only [visit, bind_eq_ok, require_eq_ok, region_eq_ok] at h ⊢
      obtain ⟨u, hfresh, region, hr, h⟩ := h
      obtain ⟨region', hr', hsame⟩ := hchildren r region hr
      exact ⟨u, hfresh, region', hr', hsame ▸ ih h⟩

theorem withNode_kept (t : RegionTree) (node : Node) (region : Region) :
    t.withNode node region = { region with nodes := (t.withNode node region).nodes } := by
  unfold withNode
  split <;> rfl

@[simp] theorem children_withNode : (t.withNode node region).children = region.children := by
  rw [withNode_kept]

@[simp] theorem parent_withNode : (t.withNode node region).parent = region.parent := by
  rw [withNode_kept]

@[simp] theorem kind_withNode : (t.withNode node region).kind = region.kind := by
  rw [withNode_kept]

@[simp] theorem entry_withNode : (t.withNode node region).entry = region.entry := by
  rw [withNode_kept]

@[simp] theorem exit_withNode : (t.withNode node region).exit = region.exit := by
  rw [withNode_kept]

theorem head?_withNode (h : region.nodes.head? = some n) :
    (t.withNode node region).nodes.head? = some n := by
  unfold withNode
  split
  · simp [List.head?_append, h]
  · exact h

theorem region?_splitBlock : (t.splitBlock node before after).region? r =
    (t.region? r).map (t.withNode node) :=
  Array.getElem?_map

theorem region?_splitBlock_of_some (hr : t.region? r = some region) :
    (t.splitBlock node before after).region? r = some (t.withNode node region) := by
  rw [region?_splitBlock, hr]
  rfl

/- The three kinds of nodes, apart from their predecessors. -/

theorem getElem?_splitNodes : (t.splitNodes node before after)[n]? =
    if n = t.nodes.size then some { node with id := t.nodes.size, kind := .block after }
    else if n = node.id then (t.node? n).map fun first =>
      { first with kind := .block before, succs := [t.nodes.size] }
    else t.node? n := by
  rw [splitNodes, Array.getElem?_push, Array.size_modify, Array.getElem?_modify]
  simp only [eq_comm (a := n) (b := node.id)]
  rfl

theorem node?_splitBlock : (t.splitBlock node before after).node? n =
    ((t.splitNodes node before after)[n]?).map fun k =>
      { k with preds := predsOf (t.splitNodes node before after) n } :=
  node?_ofParts n

/- The number of the new node is a free one. -/
theorem ne_size (hk : t.node? n = some k) : n ≠ t.nodes.size := by
  rintro rfl
  simp [node?] at hk

section Split
variable (hn : t.node? node.id = some node)
include hn

theorem leads_splitBlock : (t.splitBlock node before after).Leads n j ↔
    if n = node.id then j = t.nodes.size
    else t.Leads (if n = t.nodes.size then node.id else n) j := by
  unfold Leads
  rw [node?_splitBlock, getElem?_splitNodes]
  by_cases hsize : n = t.nodes.size
  · have hne : n ≠ node.id := fun he => ne_size hn (he.symm.trans hsize)
    simp [hsize, hsize ▸ hne, hn]
  · by_cases hid : n = node.id
    · simp [hid, hn, ne_size hn]
    · simp only [if_neg hsize, if_neg hid]
      constructor
      · rintro ⟨k, hk, hj⟩
        obtain ⟨old, hold, rfl⟩ := Option.map_eq_some_iff.1 hk
        exact ⟨old, hold, hj⟩
      · rintro ⟨old, hold, hj⟩
        exact ⟨_, Option.map_eq_some_iff.2 ⟨old, hold, rfl⟩, hj⟩

theorem ne_of_kind {insts : List Inst} (hkind : node.kind = .block insts)
    (hk : t.node? n = some k) (hne : k.kind ≠ .block insts) : n ≠ node.id := by
  rintro rfl
  obtain rfl := Option.some.inj (hn.symm.trans hk)
  exact hne hkind

/- The first half, the second half, and any other node. -/

variable (before after)

theorem exists_first : ∃ k, (t.splitBlock node before after).node? node.id = some k ∧
    k.region = node.region ∧ k.kind = .block before := by
  rw [node?_splitBlock, getElem?_splitNodes, if_neg (ne_size hn), if_pos rfl, hn]
  exact ⟨_, rfl, rfl, rfl⟩

omit hn in
variable (t node) in
theorem exists_second : ∃ k, (t.splitBlock node before after).node? t.nodes.size = some k ∧
    k.region = node.region ∧ k.kind = .block after := by
  rw [node?_splitBlock, getElem?_splitNodes, if_pos rfl]
  exact ⟨_, rfl, rfl, rfl⟩

omit hn in
theorem exists_other (hid : n ≠ node.id) (hk : t.node? n = some k) :
    ∃ k', (t.splitBlock node before after).node? n = some k' ∧ k'.region = k.region ∧
      k'.kind = k.kind := by
  rw [node?_splitBlock, getElem?_splitNodes, if_neg (ne_size hk), if_neg hid, hk]
  exact ⟨_, rfl, rfl, rfl⟩

/- A node stays in its region, whatever becomes of its instructions. -/
theorem exists_kept (hk : t.node? n = some k) : ∃ k',
    (t.splitBlock node before after).node? n = some k' ∧ k'.region = k.region := by
  by_cases hid : n = node.id
  · subst hid
    obtain rfl := Option.some.inj (hn.symm.trans hk)
    obtain ⟨k', hk', hregion, -⟩ := exists_first before after hn
    exact ⟨k', hk', hregion⟩
  · obtain ⟨k', hk', hregion, -⟩ := exists_other before after hid hk
    exact ⟨k', hk', hregion⟩

end Split

theorem cases_splitBlock (hk : (t.splitBlock node before after).node? n = some k) :
    (n = t.nodes.size ∧ k.id = n ∧ k.region = node.region ∧ k.kind = .block after) ∨
    ∃ old, t.node? n = some old ∧ k.id = old.id ∧ k.region = old.region ∧
      k.kind = if n = node.id then .block before else old.kind := by
  obtain ⟨raw, hraw, rfl⟩ := Option.map_eq_some_iff.1 (node?_splitBlock.symm.trans hk)
  rw [getElem?_splitNodes] at hraw
  split at hraw
  · rename_i hsize
    obtain rfl := Option.some.inj hraw
    exact .inl ⟨hsize, hsize.symm, rfl, rfl⟩
  · refine .inr ?_
    split at hraw
    · rename_i hid
      obtain ⟨old, hold, rfl⟩ := Option.map_eq_some_iff.1 hraw
      exact ⟨old, hold, rfl, rfl, (if_pos hid).symm⟩
    · rename_i hid
      exact ⟨raw, hraw, rfl, rfl, (if_neg hid).symm⟩

namespace Valid
variable (hv : t.Valid) (hn : t.node? node.id = some node)
include hv

theorem indexed_splitBlock : (t.splitBlock node before after).Indexed := by
  intro n k hk
  rcases cases_splitBlock hk with ⟨-, hid, -⟩ | ⟨old, hold, hid, -⟩
  · exact hid
  · exact hid.trans (hv.indexed n old hold)

theorem linked_splitBlock : (t.splitBlock node before after).Linked :=
  linked_ofParts hv.indexed_splitBlock

theorem mem_nodes_withNode (hr : t.region? r = some region) :
    n ∈ (t.withNode node region).nodes ↔
      n ∈ region.nodes ∨ (r = node.region ∧ n = t.nodes.size) := by
  rw [withNode, (hv.region r region hr).id]
  split
  · rename_i he
    rw [List.mem_append, List.mem_singleton, and_iff_right he]
  · rename_i he
    simp [he]

include hn

/- Edges lead from one node of a region to another one. -/
theorem inside_splitBlock (hl : (t.splitBlock node before after).Leads n j)
    (hk : (t.splitBlock node before after).node? n = some k) :
    ∃ target, (t.splitBlock node before after).node? j = some target ∧
      target.region = k.region := by
  rw [leads_splitBlock hn] at hl
  by_cases hid : n = node.id
  · subst hid
    rw [if_pos rfl] at hl
    obtain ⟨first, hfirst, hregion, -⟩ := exists_first before after hn
    obtain rfl := Option.some.inj (hk.symm.trans hfirst)
    obtain ⟨second, hsecond, hregion', -⟩ :=
      exists_second t node before after
    exact ⟨second, hl ▸ hsecond, hregion'.trans hregion.symm⟩
  rw [if_neg hid] at hl
  obtain ⟨old, other, hold, hother, hregion⟩ := hv.same_region_of_leads hl
  obtain ⟨target, htarget, hregion'⟩ := exists_kept before after hn hother
  refine ⟨target, htarget, (hregion'.trans hregion).trans ?_⟩
  rcases cases_splitBlock hk with ⟨hsize, -, hsame, -⟩ | ⟨old', hold', -, hsame, -⟩
  · rw [if_pos hsize, hn] at hold
    rw [hsame, Option.some.inj hold]
  · rw [if_neg (ne_size hold'), hold'] at hold
    rw [hsame, Option.some.inj hold]

theorem graphOk_splitBlock (hl : t.Linked) (hkind : node.kind = .block (before ++ after))
    (hr : t.region? r = some region) :
    (t.splitBlock node before after).GraphOk (t.withNode node region) := by
  have hok := hv.region r region hr
  rw [withNode_kept]
  refine ⟨?_, ?_, head?_withNode hok.graph.first, ?_, fun n hn' => ?_⟩
  · obtain ⟨entry, hentry, hk, -⟩ := hv.entry_node hr
    obtain ⟨k, hk', -, hsame⟩ := exists_other before after
      (ne_of_kind hn hkind hentry (by simp [hk])) hentry
    refine ⟨k, hk', hsame.trans hk, List.eq_nil_iff_forall_not_mem.2 fun m hm => ?_⟩
    have hlead := (hv.linked_splitBlock _ k hk' m).1 hm
    change (t.splitBlock node before after).Leads m region.entry at hlead
    rw [leads_splitBlock hn] at hlead
    split at hlead
    · exact ne_size hentry hlead
    · exact hv.not_leads_entry hl hr hlead
  · obtain ⟨exit, hexit, hk, -⟩ := hv.exit_node hr
    obtain ⟨k, hk', -, hsame⟩ := exists_other before after
      (ne_of_kind hn hkind hexit (by simp [hk])) hexit
    exact ⟨k, hk', hsame.trans hk⟩
  · exact (hv.mem_nodes_withNode hr).2 (.inl (hv.exit_mem hr))
  · have hkept : ∃ k, (t.splitBlock node before after).node? n = some k ∧ k.region = r := by
      rcases (hv.mem_nodes_withNode hr).1 hn' with hn' | ⟨rfl, rfl⟩
      · obtain ⟨old, hold, hregion⟩ := hv.listed hr hn'
        obtain ⟨k, hk, hsame⟩ := exists_kept before after hn hold
        exact ⟨k, hk, hsame.trans hregion⟩
      · obtain ⟨k, hk, hregion, -⟩ :=
          exists_second t node before after
        exact ⟨k, hk, hregion⟩
    obtain ⟨k, hk, hregion⟩ := hkept
    refine ⟨k, hk, hregion.trans hok.id.symm, fun j hj => ?_⟩
    obtain ⟨target, htarget, hsame⟩ := hv.inside_splitBlock hn ⟨k, hk, hj⟩ hk
    exact ⟨target, htarget, hsame.trans (hregion.trans hok.id.symm)⟩

/-- A valid tree stays valid. -/
theorem splitBlock (hl : t.Linked) (hkind : node.kind = .block (before ++ after)) :
    (t.splitBlock node before after).Valid where
  body := by
    obtain ⟨body, hbody, hrest⟩ := hv.body
    refine ⟨t.withNode node body, region?_splitBlock_of_some hbody, ?_⟩
    rw [withNode_kept]
    exact hrest
  region r region' hr' := by
    rw [region?_splitBlock] at hr'
    obtain ⟨region, hr, rfl⟩ := Option.map_eq_some_iff.1 hr'
    have hok := hv.region r region hr
    have hgraph := hv.graphOk_splitBlock hn hl hkind hr
    rw [withNode_kept] at hgraph ⊢
    refine ⟨hok.id, hok.nested, ?_, fun c hc => ?_, hgraph⟩
    · have hparent := hok.parent
      unfold ParentOk at hparent ⊢
      cases hp : region.parent with
      | none => simpa [hp] using hparent
      | some p =>
        simp only [hp] at hparent ⊢
        obtain ⟨parent, n, old, hparent, hmem, hs, hold, hk, hregion⟩ := hparent
        obtain ⟨k, hk', hregion', hsame⟩ := exists_other before after
          (ne_of_kind hn hkind hold (by simp [hk])) hold
        refine ⟨t.withNode node parent, n, k, region?_splitBlock_of_some hparent, ?_, hs, hk',
          hsame.trans hk, hregion'.trans hregion⟩
        rwa [children_withNode]
    · obtain ⟨child, hchild, hparent⟩ := hok.children c hc
      refine ⟨t.withNode node child, region?_splitBlock_of_some hchild, ?_⟩
      rwa [parent_withNode]
  node n k hk := by
    have howner : ∃ owner, t.region? k.region = some owner ∧
        n ∈ (t.withNode node owner).nodes := by
      rcases cases_splitBlock hk with ⟨hsize, -, hregion, -⟩ | ⟨old, hold, -, hregion, -⟩
      · obtain ⟨owner, ho, -⟩ := hv.owner hn
        exact ⟨owner, hregion ▸ ho, (hv.mem_nodes_withNode ho).2 (.inr ⟨rfl, hsize⟩)⟩
      · obtain ⟨owner, ho, hmem⟩ := hv.owner hold
        exact ⟨owner, hregion ▸ ho, (hv.mem_nodes_withNode ho).2 (.inl hmem)⟩
    obtain ⟨owner, ho, hmem⟩ := howner
    have hid : k.id = n := hv.indexed_splitBlock n k hk
    exact ⟨hid, t.withNode node owner, region?_splitBlock_of_some ho, hid ▸ hmem⟩
  nesting := by
    have hnest := hv.nesting
    simp only [checkNesting, bind_eq_ok, require_eq_ok] at hnest ⊢
    obtain ⟨met, hvisit, hlen⟩ := hnest
    have hsize : (t.splitBlock node before after).regions.size = t.regions.size :=
      Array.size_map
    rw [hsize]
    refine ⟨met, visit_eq_ok_of_children (fun r region hr => ?_) _ hvisit, hlen⟩
    exact ⟨t.withNode node region, region?_splitBlock_of_some hr, children_withNode⟩

end Valid

theorem Nested.splitBlock (h : t.Nested) : (t.splitBlock node before after).Nested := by
  intro n k c hk hkind
  rcases cases_splitBlock hk with ⟨-, -, -, hblock⟩ | ⟨old, hold, -, -, hsame⟩
  · rw [hblock] at hkind
    cases hkind
  · rw [hsame] at hkind
    split at hkind
    · cases hkind
    · obtain ⟨inner, hinner, hs⟩ := h n old c hold hkind
      refine ⟨t.withNode node inner, region?_splitBlock_of_some hinner, ?_⟩
      rwa [withNode_kept]

end LoopMemory.RegionTree
