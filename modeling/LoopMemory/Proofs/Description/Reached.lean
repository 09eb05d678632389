import LoopMemory.Description.Model
import LoopMemory.Proofs.Region
import Mathlib.Algebra.BigOperators.Fin

/-! The search for nodes that no path reaches. It has fuel for every edge of the tree, so it ends with
an empty stack and has met exactly what the edges lead to. -/
namespace LoopMemory.Description
open Relation RegionTree
variable {t : RegionTree} {n k : NodeId} {reached stack : List NodeId} {fuel : Nat}

/-- Where the edges out of a node lead. -/
def nexts (t : RegionTree) (n : NodeId) : List NodeId := ((t.node? n).map Node.succs).getD []

theorem mem_nexts : k ∈ nexts t n ↔ t.Leads n k := by
  cases h : t.node? n <;> simp [nexts, Leads, h]

/-- The edges out of nodes that have not been reached yet. -/
def room (t : RegionTree) (reached : List NodeId) : Nat :=
  ∑ n ∈ (Finset.range t.nodes.size).filter (· ∉ reached), (nexts t n).length

theorem room_cons (hn : n ∉ reached) :
    room t (n :: reached) + (nexts t n).length = room t reached := by
  have herase : (Finset.range t.nodes.size).filter (· ∉ n :: reached) =
      ((Finset.range t.nodes.size).filter (· ∉ reached)).erase n := by
    ext k
    simp only [Finset.mem_filter, Finset.mem_erase, List.mem_cons, not_or]
    tauto
  unfold room
  rw [herase]
  by_cases hlt : n < t.nodes.size
  · exact Finset.sum_erase_add _ _ (by simp [hlt, hn])
  · have hnil : nexts t n = [] := by
      simp [nexts, node?, Array.getElem?_eq_none (Nat.le_of_not_lt hlt)]
    rw [Finset.erase_eq_of_notMem (by simp [hlt]), hnil]
    rfl

theorem fuel_eq : t.nodes.foldl (fun k n => k + n.succs.length) 1 = room t [] + 1 := by
  have hfold : ∀ (nodes : List Node) (k : Nat), nodes.foldl (fun k n => k + n.succs.length) k =
      (nodes.map fun n => n.succs.length).sum + k := by
    intro nodes
    induction nodes with
    | nil => simp
    | cons n nodes ih =>
      intro k
      rw [List.foldl_cons, ih, List.map_cons, List.sum_cons]
      omega
  rw [← Array.foldl_toList, hfold]
  congr 1
  have hsum : room t [] = ∑ n : Fin t.nodes.size, t.nodes[n].succs.length := by
    simp [room, Finset.sum_range, nexts, node?]
  rw [hsum, ← Fin.sum_univ_getElem]
  exact Fintype.sum_equiv (finCongr (by simp)) _ _ fun i => by simp

/- Whatever the search meets lies on a path from the stack. -/
theorem path_of_mem_reachFrom (h : n ∈ reachFrom t fuel reached stack) :
    n ∈ reached ∨ ∃ s ∈ stack, ReflTransGen t.Leads s n := by
  induction fuel generalizing reached stack with
  | zero => exact .inl h
  | succ fuel ih =>
    cases stack with
    | nil => exact .inl h
    | cons k stack =>
      rw [reachFrom] at h
      split at h
      · exact (ih h).imp_right fun ⟨s, hs, hpath⟩ => ⟨s, .tail _ hs, hpath⟩
      · rcases ih h with h | ⟨s, hs, hpath⟩
        · rcases List.mem_cons.1 h with rfl | h
          · exact .inr ⟨n, .head _, .refl⟩
          · exact .inl h
        · rcases List.mem_append.1 hs with hs | hs
          · have hlead : t.Leads k s := mem_nexts.1 (List.mem_reverse.1 hs)
            exact .inr ⟨k, .head _, .head hlead hpath⟩
          · exact .inr ⟨s, .tail _ hs, hpath⟩

/- With enough fuel the search leaves nothing on the stack, and so no edge leads out of what it has
   met. -/
theorem reachFrom_closed (fuel : Nat) (reached stack : List NodeId)
    (hfuel : stack.length + room t reached ≤ fuel)
    (hclosed : ∀ n ∈ reached, ∀ k, t.Leads n k → k ∈ reached ++ stack) :
    reached ++ stack ⊆ reachFrom t fuel reached stack ∧
      ∀ n ∈ reachFrom t fuel reached stack, ∀ k, t.Leads n k →
        k ∈ reachFrom t fuel reached stack := by
  induction fuel generalizing reached stack with
  | zero =>
    obtain rfl := List.length_eq_zero_iff.1 (Nat.add_eq_zero_iff.1 (Nat.le_zero.1 hfuel)).1
    simpa [reachFrom] using hclosed
  | succ fuel ih =>
    cases stack with
    | nil => simpa [reachFrom] using hclosed
    | cons s stack =>
      rw [List.length_cons] at hfuel
      rw [reachFrom]
      split
      · rename_i hmem
        rw [List.contains_iff_mem] at hmem
        have hdrop : ∀ k, k ∈ reached ++ s :: stack → k ∈ reached ++ stack := by
          intro k hk
          rcases List.mem_append.1 hk with hk | hk
          · exact List.mem_append_left _ hk
          · rcases List.mem_cons.1 hk with rfl | hk
            · exact List.mem_append_left _ hmem
            · exact List.mem_append_right _ hk
        obtain ⟨hsub, hrest⟩ := ih _ _ (by omega) fun n hn k hk => hdrop k (hclosed n hn k hk)
        exact ⟨fun k hk => hsub (hdrop k hk), hrest⟩
      · rename_i hmem
        rw [List.contains_iff_mem] at hmem
        have hroom := room_cons (t := t) hmem
        have hmove : ∀ k, k ∈ reached ++ s :: stack →
            k ∈ s :: reached ++ ((nexts t s).reverse ++ stack) := by
          intro k hk
          simp only [List.mem_append, List.mem_cons] at hk ⊢
          tauto
        obtain ⟨hsub, hrest⟩ := ih (s :: reached) ((nexts t s).reverse ++ stack)
          (by rw [List.length_append, List.length_reverse]; omega) fun n hn k hk => by
            rcases List.mem_cons.1 hn with rfl | hn
            · have hk := List.mem_reverse.2 (mem_nexts.2 hk)
              exact List.mem_append_right _ (List.mem_append_left _ hk)
            · exact hmove k (hclosed n hn k hk)
        exact ⟨fun k hk => hsub (hmove k hk), hrest⟩

/-- The search meets exactly the nodes that paths lead to. -/
theorem mem_reachableFrom : k ∈ reachableFrom t n ↔ ReflTransGen t.Leads n k := by
  obtain ⟨hsub, hclosed⟩ := reachFrom_closed (t := t)
    (t.nodes.foldl (fun k n => k + n.succs.length) 1) [] [n]
    (by rw [fuel_eq, List.length_singleton, Nat.add_comm]) (by simp)
  constructor
  · intro h
    rcases path_of_mem_reachFrom h with h | ⟨s, hs, hpath⟩
    · cases h
    · exact List.mem_singleton.1 hs ▸ hpath
  · intro h
    induction h with
    | refl => exact hsub (.head _)
    | tail _ hlead ih => exact hclosed _ ih _ hlead

theorem checkReached_eq_ok {nodes : List (String × NodeId)} {region : Region} {u : Unit} :
    checkReached t nodes region = .ok u ↔ ∀ e ∈ nodes, ∀ node, t.node? e.2 = some node →
      node.region = region.id → ReflTransGen t.Leads region.entry e.2 := by
  have hnone : checkReached t nodes region = .ok u ↔ nodes.find? (fun n =>
      ((t.node? n.2).any fun node => node.region == region.id) &&
        !(reachableFrom t region.entry).contains n.2) = none := by
    simp only [checkReached]
    split
    · rename_i h
      exact iff_of_false (by simp) (by rw [h]; simp)
    · rename_i h
      exact iff_of_true rfl h
  rw [hnone, List.find?_eq_none]
  refine forall₂_congr fun e _ => ?_
  cases hn : t.node? e.2 with
  | none => simp
  | some node => simp [mem_reachableFrom]

end LoopMemory.Description
