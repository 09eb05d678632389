import LoopMemory.Proofs.Nesting
import LoopMemory.Proofs.Region.Builder
import LoopMemory.Proofs.Region.PostOrder

/-! One flat graph of a whole routine, in which every loop stands where its node was. -/
namespace LoopMemory

/-- The loop that a node stands for. -/
def NodeKind.loop? : NodeKind → Option RegionId
  | .region c => some c
  | _ => none

theorem NodeKind.loop?_eq_some {k : NodeKind} {c : RegionId} :
    k.loop? = some c ↔ k = .region c := by
  cases k <;> simp [loop?]

theorem NodeKind.loop?_of_end {k : NodeKind} (h : k = .entry ∨ k = .exit) : k.loop? = none := by
  rcases h with rfl | rfl <;> rfl

namespace RegionTree

/-- Where an edge to the node leads: into the loop that the node stands for, or just there. -/
def door (t : RegionTree) (n : NodeId) : NodeId :=
  match ((t.node? n).bind (·.kind.loop?)).bind t.region? with
  | some inner => inner.entry
  | none => n

/-- Where the node of a loop leads. -/
def after (t : RegionTree) (region : Region) : List NodeId :=
  ((region.standIn.bind t.node?).map Node.succs).getD []

/-- The edges of a node. From the exit of a loop it also goes on behind the loop, and from its entry
straight to its exit if the loop may run no iteration. -/
def onward (t : RegionTree) (settings : Settings) (node : Node) : List NodeId :=
  match t.region? node.region with
  | none => node.succs
  | some region =>
    node.succs ++ (if node.id = region.exit then t.after region else []) ++
      if node.id = region.entry ∧ region.runsOnce settings = false then [region.exit] else []

/-- A node in the flat graph; those that stand for loops lose their edges. -/
def inlinedNode (t : RegionTree) (settings : Settings) (node : Node) : Node :=
  match node.kind.loop? with
  | some _ => { node with region := root, succs := [] }
  | none => ((t.onward settings node).map t.door).foldl Node.addSucc
      { node with region := root, succs := [] }

/-- The routine body with the nodes of all regions, apart from those that stand for loops. -/
def inlinedBody (t : RegionTree) : Region :=
  { (t.region? root).getD default with
    children := []
    nodes := (t.nodes.toList.filter (·.kind.loop?.isNone)).map Node.id }

/-- All loops are inlined into the routine body, and every node keeps its id. -/
def inlined (t : RegionTree) (settings : Settings) : RegionTree :=
  .ofParts t.routine #[t.inlinedBody] (t.nodes.map (t.inlinedNode settings))

variable {t : RegionTree} {settings : Settings} {r c : RegionId} {region inner : Region}
  {n k j p : NodeId} {node : Node}

theorem door_of_plain (hn : t.node? n = some node) (hk : node.kind.loop? = none) :
    t.door n = n := by
  simp [door, hn, hk]

theorem door_of_loop (hn : t.node? n = some node) (hk : node.kind = .region c)
    (hc : t.region? c = some inner) : t.door n = inner.entry := by
  simp [door, hn, hk, NodeKind.loop?, hc]

theorem mem_after : j ∈ t.after region ↔ ∃ p, region.standIn = some p ∧ t.Leads p j := by
  unfold after Leads
  cases region.standIn with
  | none => simp
  | some p => cases h : t.node? p <;> simp [h]

theorem inlinedNode_kept (t : RegionTree) (settings : Settings) (node : Node) :
    (t.inlinedNode settings node).id = node.id ∧
      (t.inlinedNode settings node).kind = node.kind := by
  unfold inlinedNode
  split
  · exact ⟨rfl, rfl⟩
  · obtain ⟨hid, -, hkind⟩ := Node.addSucc_all_kept ((t.onward settings node).map t.door)
      { node with region := root, succs := [] }
    exact ⟨hid, hkind⟩

theorem mem_succs_inlinedNode : k ∈ (t.inlinedNode settings node).succs ↔
    node.kind.loop? = none ∧ ∃ j ∈ t.onward settings node, t.door j = k := by
  unfold inlinedNode
  split
  · rename_i c hc
    simp [hc]
  · rename_i hc
    simp [hc, Node.mem_succs_addSucc_all]

theorem node?_inlined : (t.inlined settings).node? n = (t.node? n).map fun node =>
    { t.inlinedNode settings node with
      preds := predsOf (t.nodes.map (t.inlinedNode settings)) n } := by
  rw [inlined, node?_ofParts, Array.getElem?_map, Option.map_map]
  rfl

theorem region?_inlined : (t.inlined settings).region? root = some t.inlinedBody := rfl

theorem entry_inlinedBody (hr : t.region? root = some region) :
    t.inlinedBody.entry = region.entry := by
  simp [inlinedBody, hr]

/- A node of the flat graph is one of the tree, apart from its edges. -/
theorem exists_node_inlined (settings : Settings) (hn : t.node? n = some node) : ∃ flat,
    (t.inlined settings).node? n = some flat ∧ flat.kind = node.kind := by
  rw [node?_inlined, hn]
  exact ⟨_, rfl, (inlinedNode_kept t settings node).2⟩

theorem leads_inlined : (t.inlined settings).Leads n k ↔ ∃ node, t.node? n = some node ∧
    node.kind.loop? = none ∧ ∃ j ∈ t.onward settings node, t.door j = k := by
  unfold Leads
  rw [node?_inlined]
  constructor
  · rintro ⟨flat, hflat, hk⟩
    obtain ⟨node, hn, rfl⟩ := Option.map_eq_some_iff.1 hflat
    exact ⟨node, hn, mem_succs_inlinedNode.1 hk⟩
  · rintro ⟨node, hn, hk⟩
    rw [hn]
    exact ⟨_, rfl, mem_succs_inlinedNode.2 hk⟩

namespace Valid
variable (hv : t.Valid)
include hv

theorem mem_inlinedBody : n ∈ t.inlinedBody.nodes ↔
    ∃ node, t.node? n = some node ∧ node.kind.loop? = none := by
  simp only [inlinedBody, List.mem_map, List.mem_filter, Array.mem_toList_iff,
    Option.isNone_iff_eq_none]
  constructor
  · rintro ⟨node, ⟨hmem, hk⟩, rfl⟩
    obtain ⟨i, hi⟩ := Array.getElem?_of_mem hmem
    exact ⟨node, hv.indexed i node hi ▸ hi, hk⟩
  · rintro ⟨node, hn, hk⟩
    exact ⟨node, ⟨Array.mem_of_getElem? hn, hk⟩, hv.indexed n node hn⟩

theorem entry_mem_inlinedBody : t.inlinedBody.entry ∈ t.inlinedBody.nodes := by
  obtain ⟨body, hbody, -⟩ := hv.body
  obtain ⟨entry, he, hk, -⟩ := hv.entry_node hbody
  rw [entry_inlinedBody hbody]
  exact hv.mem_inlinedBody.2 ⟨entry, he, NodeKind.loop?_of_end (.inl hk)⟩

theorem linked_inlined : (t.inlined settings).Linked := by
  refine linked_ofParts fun n flat hflat => ?_
  obtain ⟨raw, hraw, rfl⟩ := Option.map_eq_some_iff.1 (node?_inlined.symm.trans hflat)
  exact ((inlinedNode_kept t settings raw).1).trans (hv.indexed n raw hraw)

theorem mem_onward (hn : t.node? n = some node) : j ∈ t.onward settings node ↔ j ∈ node.succs ∨
    ∃ region, t.region? node.region = some region ∧
      ((n = region.exit ∧ ∃ p, region.standIn = some p ∧ t.Leads p j) ∨
        (n = region.entry ∧ region.runsOnce settings = false ∧ j = region.exit)) := by
  obtain ⟨owner, hr, -⟩ := hv.owner hn
  rw [onward, hr]
  simp only [List.mem_append, List.mem_ite_nil_right, List.mem_singleton, mem_after,
    hv.indexed n node hn, Option.some.injEq, exists_eq_left', or_assoc, and_assoc]

theorem node_of_onward (hn : t.node? n = some node) (hj : j ∈ t.onward settings node) :
    ∃ target, t.node? j = some target := by
  have hlead : ∀ {n}, t.Leads n j → ∃ target, t.node? j = some target := by
    rintro n ⟨node, hn, hj⟩
    obtain ⟨region, hr, hmem⟩ := hv.owner hn
    obtain ⟨target, htarget, -⟩ := hv.listed hr (hv.succ_mem hr hmem hn hj)
    exact ⟨target, htarget⟩
  rcases (hv.mem_onward hn).1 hj with hj | ⟨region, hr, ⟨-, p, -, hj⟩ | ⟨-, -, rfl⟩⟩
  · exact hlead ⟨node, hn, hj⟩
  · exact hlead hj
  · obtain ⟨exit, hx, -⟩ := hv.exit_node hr
    exact ⟨exit, hx⟩

/-- All edges of the flat graph stay in it. -/
theorem door_mem_inlinedBody (hnest : t.Nested) (hn : t.node? n = some node) :
    t.door n ∈ t.inlinedBody.nodes := by
  rw [hv.mem_inlinedBody]
  cases hk : node.kind.loop? with
  | none =>
    rw [door_of_plain hn hk]
    exact ⟨node, hn, hk⟩
  | some c =>
    rw [NodeKind.loop?_eq_some] at hk
    obtain ⟨inner, hc, -⟩ := hnest n node c hn hk
    obtain ⟨entry, he, hke, -⟩ := hv.entry_node hc
    rw [door_of_loop hn hk hc]
    exact ⟨entry, he, NodeKind.loop?_of_end (.inl hke)⟩

/-- No edge of the flat graph leads to its entry: only the routine body has it, and no node stands
for the body. -/
theorem not_leads_inlined_entry (hl : t.Linked) (hnest : t.Nested) :
    ¬(t.inlined settings).Leads n t.inlinedBody.entry := by
  obtain ⟨body, hbody, -⟩ := hv.body
  rw [entry_inlinedBody hbody, leads_inlined]
  rintro ⟨node, hn, -, j, hj, hdoor⟩
  obtain ⟨target, htarget⟩ := hv.node_of_onward hn hj
  cases hk : target.kind.loop? with
  | none =>
    rw [door_of_plain htarget hk] at hdoor
    rcases (hv.mem_onward hn).1 hj with hs | ⟨region, hr, ⟨-, p, -, hlead⟩ | ⟨-, -, rfl⟩⟩
    · exact hv.not_leads_entry hl hbody ⟨node, hn, hdoor ▸ hs⟩
    · exact hv.not_leads_entry hl hbody (hdoor ▸ hlead)
    · obtain ⟨exit, hx, hkx, -⟩ := hv.exit_node hr
      obtain ⟨entry, he, hke, -⟩ := hv.entry_node hbody
      obtain rfl := Option.some.inj (hx.symm.trans (hdoor ▸ he))
      simp [hkx] at hke
  | some c =>
    rw [NodeKind.loop?_eq_some] at hk
    obtain ⟨inner, hc, -⟩ := hnest j target c htarget hk
    rw [door_of_loop htarget hk hc] at hdoor
    have hroot : c = root := hv.eq_of_mem hc hbody (hv.entry_mem hc) (hdoor ▸ hv.entry_mem hbody)
    exact hv.ne_root hnest htarget hk hroot

end Valid

end RegionTree
end LoopMemory
