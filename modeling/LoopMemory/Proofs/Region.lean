import LoopMemory.Proofs.Except
import LoopMemory.Region.Validation
import Mathlib.Logic.Relation

/-! Look-ups in a region tree, and the agreement of its successors and predecessors. -/
namespace LoopMemory.RegionTree
variable {t : RegionTree}

theorem node_eq_ok {n : NodeId} {node : Node} : t.node n = .ok node ↔ t.node? n = some node := by
  cases h : t.node? n <;> simp [RegionTree.node, h]

theorem region_eq_ok {r : RegionId} {region : Region} :
    t.region r = .ok region ↔ t.region? r = some region := by
  cases h : t.region? r <;> simp [RegionTree.region, h]

/-- Every node is stored under its own id. -/
def Indexed (t : RegionTree) : Prop := ∀ n node, t.node? n = some node → node.id = n

/-- The predecessors of a node are the nodes that lead to it. -/
def Linked (t : RegionTree) : Prop :=
  ∀ n node, t.node? n = some node → ∀ m, m ∈ node.preds ↔ ∃ k, t.node? m = some k ∧ n ∈ k.succs

/-- A node that stands for a loop is the one that the loop knows of. -/
def Nested (t : RegionTree) : Prop := ∀ n node c, t.node? n = some node → node.kind = .region c →
  ∃ inner, t.region? c = some inner ∧ inner.standIn = some n

theorem Nested.unique (h : t.Nested) {n n' : NodeId} {node node' : Node} {c : RegionId}
    (hn : t.node? n = some node) (hk : node.kind = .region c) (hn' : t.node? n' = some node')
    (hk' : node'.kind = .region c) : n = n' := by
  obtain ⟨inner, hc, hs⟩ := h n node c hn hk
  obtain ⟨inner', hc', hs'⟩ := h n' node' c hn' hk'
  obtain rfl := Option.some.inj (hc.symm.trans hc')
  exact Option.some.inj (hs.symm.trans hs')

/-- An edge of some region's graph. -/
def Leads (t : RegionTree) (n k : NodeId) : Prop := ∃ node, t.node? n = some node ∧ k ∈ node.succs

instance (t : RegionTree) (n k : NodeId) : Decidable (t.Leads n k) :=
  inferInstanceAs (Decidable (∃ node ∈ t.node? n, k ∈ node.succs))

theorem mem_predsOf {nodes : Array Node}
    (h : ∀ (n : NodeId) (node : Node), nodes[n]? = some node → node.id = n) {n m : NodeId} :
    m ∈ predsOf nodes n ↔ ∃ k, nodes[m]? = some k ∧ n ∈ k.succs := by
  simp only [predsOf, List.mem_eraseDups, List.mem_map, List.mem_filter, Array.mem_toList_iff,
    List.contains_iff_mem]
  constructor
  · rintro ⟨k, ⟨hk, hn⟩, rfl⟩
    obtain ⟨i, hi⟩ := Array.getElem?_of_mem hk
    exact ⟨k, by rw [h i k hi]; exact hi, hn⟩
  · rintro ⟨k, hk, hn⟩
    exact ⟨k, ⟨Array.mem_of_getElem? hk, hn⟩, h m k hk⟩

section OfParts
variable {routine : String} {regions : Array Region} {nodes : Array Node}

@[simp] theorem region?_ofParts (r : RegionId) :
    (ofParts routine regions nodes).region? r = regions[r]? := rfl

theorem node?_ofParts (n : NodeId) : (ofParts routine regions nodes).node? n =
    nodes[n]?.map fun node => { node with preds := predsOf nodes n } := by
  simp [ofParts, node?]

theorem linked_ofParts (h : (ofParts routine regions nodes).Indexed) :
    (ofParts routine regions nodes).Linked := by
  have ids : ∀ (n : NodeId) (node : Node), nodes[n]? = some node → node.id = n := by
    intro n node hn
    exact h n { node with preds := predsOf nodes n } (by rw [node?_ofParts, hn]; rfl)
  intro n node hn m
  rw [node?_ofParts, Option.map_eq_some_iff] at hn
  obtain ⟨raw, -, rfl⟩ := hn
  rw [mem_predsOf ids]
  constructor
  · rintro ⟨k, hk, hs⟩
    exact ⟨{ k with preds := predsOf nodes m }, by rw [node?_ofParts, hk]; rfl, hs⟩
  · rintro ⟨k, hk, hs⟩
    rw [node?_ofParts, Option.map_eq_some_iff] at hk
    obtain ⟨raw, hraw, rfl⟩ := hk
    exact ⟨raw, hraw, hs⟩

end OfParts
end LoopMemory.RegionTree
