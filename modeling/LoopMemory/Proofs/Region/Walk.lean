import LoopMemory.Proofs.Region.PostOrder
import Mathlib.Data.List.Basic
import Mathlib.Data.List.Perm.Basic

/-! The order in which a bottom-up walk comes to the nodes of a tree, and the nodes that stand for
a region on it. -/
namespace LoopMemory.RegionTree
variable {t : RegionTree} {region : Region} {r c : RegionId} {n : NodeId} {node : Node}
  {l l' : List NodeId}

def nodesOf (t : RegionTree) (r : RegionId) : List NodeId :=
  ((t.region? r).map Region.nodes).getD []

/-- The nodes in the order in which the analysis comes to them: bottom-up, and region by region. -/
def walk (t : RegionTree) : List NodeId := t.postOrder.flatMap t.nodesOf

theorem nodesOf_eq (hr : t.region? r = some region) : t.nodesOf r = region.nodes := by
  simp [nodesOf, hr]

theorem mem_nodesOf (hn : n ∈ t.nodesOf r) : ∃ region, t.region? r = some region ∧
    n ∈ region.nodes := by
  cases hr : t.region? r with
  | none => simp [nodesOf, hr] at hn
  | some region => exact ⟨region, rfl, nodesOf_eq hr ▸ hn⟩

/- The nodes that stand for a region. -/

def standsFor (t : RegionTree) (c : RegionId) (n : NodeId) : Bool :=
  (t.node? n).any fun node => node.kind == .region c

/-- The last node in the list that stands for the region. -/
def lastFor (t : RegionTree) (c : RegionId) (l : List NodeId) : Option NodeId :=
  (l.filter (t.standsFor c)).getLast?

theorem standsFor_iff (hn : t.node? n = some node) :
    t.standsFor c n = true ↔ node.kind = .region c := by
  simp [standsFor, hn]

theorem lastFor_append : t.lastFor c (l ++ l') = (t.lastFor c l').or (t.lastFor c l) := by
  rw [lastFor, List.filter_append, List.getLast?_append]
  rfl

theorem lastFor_snoc : t.lastFor c (l ++ [n]) =
    if t.standsFor c n = true then some n else t.lastFor c l := by
  rw [lastFor_append, lastFor, List.filter_singleton]
  cases t.standsFor c n <;> simp

theorem mem_of_lastFor (h : t.lastFor c l = some n) : n ∈ l ∧ t.standsFor c n = true :=
  List.mem_filter.1 (List.mem_of_getLast? h)

theorem exists_lastFor (hn : n ∈ l) (hs : t.standsFor c n = true) : ∃ k, t.lastFor c l = some k := by
  have hne : l.filter (t.standsFor c) ≠ [] := List.ne_nil_of_mem (List.mem_filter.2 ⟨hn, hs⟩)
  exact ⟨_, List.getLast?_eq_some_getLast hne⟩

/-- Every node that stands for a region lies in one to which the walk comes later. -/
def Timely (t : RegionTree) : Prop := ∀ n node c, t.node? n = some node → node.kind = .region c →
  ∃ before after, t.postOrder = before ++ node.region :: after ∧ c ∈ before

namespace Valid
variable (hv : t.Valid)
include hv

theorem mem_walk (hn : t.node? n = some node) : n ∈ t.walk := by
  obtain ⟨owner, ho, hmem⟩ := hv.owner hn
  exact List.mem_flatMap.2 ⟨_, hv.mem_postOrder ho, by rwa [nodesOf_eq ho]⟩

theorem node_of_mem_walk (hn : n ∈ t.walk) : ∃ node, t.node? n = some node := by
  obtain ⟨r, -, hn⟩ := List.mem_flatMap.1 hn
  obtain ⟨region, hr, hn⟩ := mem_nodesOf hn
  obtain ⟨node, hnode, -⟩ := hv.listed hr hn
  exact ⟨node, hnode⟩

/-- The walk comes to a node as often as the region of the node lists it. -/
theorem count_walk (hr : t.region? r = some region) (hn : n ∈ region.nodes) :
    t.walk.count n = region.nodes.count n := by
  obtain ⟨before, after, hpo⟩ := List.append_of_mem (hv.mem_postOrder hr)
  have hnodup := hpo ▸ hv.postOrder_nodup
  have hother : ∀ l : List RegionId, r ∉ l → (l.flatMap t.nodesOf).count n = 0 := by
    intro l hl
    rw [List.count_eq_zero, List.mem_flatMap]
    rintro ⟨k, hk, hmem⟩
    obtain ⟨other, hk', hmem⟩ := mem_nodesOf hmem
    exact hl (hv.eq_of_mem hr hk' hn hmem ▸ hk)
  rw [List.nodup_append, List.nodup_cons] at hnodup
  rw [walk, hpo, List.flatMap_append, List.flatMap_cons, nodesOf_eq hr, List.count_append,
    List.count_append, hother before fun h => hnodup.2.2 r h r (.head _) rfl,
    hother after hnodup.2.1.1]
  omega

/-- The walk misses no node; what it has beyond one visit of each are further visits. -/
theorem exists_walk_perm : ∃ extra, t.walk.Perm (List.range t.nodes.size ++ extra) := by
  have hsub : List.range t.nodes.size ⊆ t.walk := by
    intro n hn
    exact hv.mem_walk (Array.getElem?_eq_getElem (List.mem_range.1 hn))
  obtain ⟨l, hl, hs⟩ := List.nodup_range.subperm hsub
  obtain ⟨extra, he⟩ := hs.exists_perm_append
  exact ⟨extra, he.trans (hl.append_right extra)⟩

/-- Where the loops are nested as their nodes are, all nodes come in time. -/
theorem timely (hnest : t.Nested) : t.Timely := by
  intro n node c hn hk
  obtain ⟨inner, hc, hs⟩ := hnest n node c hn hk
  obtain ⟨node', outer, hn', -, ho, hmem⟩ := hv.of_standIn hc hs
  obtain rfl := Option.some.inj (hn.symm.trans hn')
  obtain ⟨before, after, hpo⟩ := List.append_of_mem (hv.mem_postOrder ho)
  exact ⟨before, after, hpo, hv.postOrder_childrenFirst before _ after hpo outer ho c hmem⟩

/-- Where no other node stands for the region, the last one that does is the one that is known to
the region. -/
theorem lastFor_walk (hr : t.region? r = some region) (hs : region.standIn = some n)
    (honly : ∀ k node, t.node? k = some node → node.kind = .region r → k = n) :
    t.lastFor r t.walk = some n := by
  obtain ⟨node, _, hn, hk, -⟩ := hv.of_standIn hr hs
  obtain ⟨k, hlast⟩ := exists_lastFor (hv.mem_walk hn) ((standsFor_iff hn).2 hk)
  obtain ⟨hmem, hstands⟩ := mem_of_lastFor hlast
  obtain ⟨node', hnode'⟩ := hv.node_of_mem_walk hmem
  rw [hlast, honly k node' hnode' ((standsFor_iff hnode').1 hstands)]

end Valid

theorem Timely.mem_before (ht : t.Timely) (hv : t.Valid) (hn : t.node? n = some node)
    (hk : node.kind = .region c) {before after : List RegionId}
    (hpo : t.postOrder = before ++ node.region :: after) : c ∈ before := by
  obtain ⟨before', after', hpo', hc⟩ := ht n node c hn hk
  have hd := hpo ▸ hv.postOrder_nodup
  rw [List.nodup_append, List.nodup_cons] at hd
  have hbefore : node.region ∉ before := fun h => hd.2.2 _ h _ (.head _) rfl
  obtain ⟨rfl, -, -⟩ := (List.append_cons_inj_of_notMem hbefore hd.2.1.1).1 (hpo.symm.trans hpo')
  exact hc

end LoopMemory.RegionTree
