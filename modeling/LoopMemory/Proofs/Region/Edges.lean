import LoopMemory.Proofs.Region.Built

/-! The edges that are drawn on a builder, and the ones that it adds when it finishes: a node that
leads nowhere falls through, and the exit of a loop leads back to where an iteration starts. -/
namespace LoopMemory.TreeBuilder
variable {b : TreeBuilder} {n j i k : NodeId} {r p : RegionId} {region : Region} {node : Node}
  {name : String} {once : Bool} {insts : List Inst}

/-- An edge that is drawn so far. -/
def Draws (b : TreeBuilder) (n k : NodeId) : Prop := ∃ node, b.nodes[n]? = some node ∧ k ∈ node.succs

/-- No edge is drawn so far. -/
def Bare (b : TreeBuilder) : Prop :=
  ∀ (n : NodeId) (node : Node), b.nodes[n]? = some node → node.succs = []

theorem bare_new (routine : String) : (TreeBuilder.new routine).Bare := by
  have hnil : ∀ node ∈ (TreeBuilder.new routine).nodes, node.succs = [] := by
    simp [TreeBuilder.new, addRegion, TreeBuilder.addNode]
  exact fun n node hn => hnil node (Array.mem_of_getElem? hn)

theorem Bare.addBlock (h : b.Bare) : (b.addBlock r insts).2.Bare := by
  intro n node hn
  cases old_or_bare_addBlock hn with
  | inl hold => exact h n node hold
  | inr hbare => exact hbare

theorem Bare.addLoop (h : b.Bare) : (b.addLoop p name once).2.Bare := by
  intro n node hn
  cases old_or_bare_addLoop hn with
  | inl hold => exact h n node hold
  | inr hbare => exact hbare

theorem Bare.not_draws (h : b.Bare) : ¬b.Draws n k := by
  rintro ⟨node, hn, hk⟩
  simp [h n node hn] at hk

theorem draws_addEdge (hn : b.stem? n = some node) :
    (b.addEdge n j).Draws i k ↔ b.Draws i k ∨ (i = n ∧ k = j) := by
  obtain ⟨raw, hraw, -⟩ := Option.map_eq_some_iff.1 hn
  simp only [Draws, addEdge, Array.getElem?_modify]
  by_cases h : n = i
  · subst h
    simp [hraw]
  · simp [h, Ne.symm h]

theorem mem_succs_fallThrough (hn : b.nodes[n]? = some node) :
    k ∈ (b.fallThrough node).succs ↔ b.Draws n k ∨
      (node.kind ≠ .exit ∧ (∀ j, ¬b.Draws n j) ∧ k = b.exit node.region) := by
  have hdraws : ∀ j, b.Draws n j ↔ j ∈ node.succs := fun j => by simp [Draws, hn]
  simp only [hdraws, ← List.eq_nil_iff_forall_not_mem]
  unfold fallThrough
  split
  · rename_i hfall
    simp only [Bool.and_eq_true, List.isEmpty_iff, bne_iff_ne] at hfall
    simp [hfall.1, hfall.2]
  · rename_i hfall
    simp only [Bool.and_eq_true, List.isEmpty_iff, bne_iff_ne, not_and, not_not] at hfall
    constructor
    · exact .inl
    · rintro (hk | ⟨hx, hnil, -⟩)
      · exact hk
      · exact absurd (hfall hnil) hx

section Finish
variable (h : b.Sound)
include h

/- An exit knows its region. -/
theorem eq_of_exit {r' : RegionId} {region' : Region} (hr : b.regions[r]? = some region)
    (hr' : b.regions[r']? = some region') (hexit : region'.exit = region.exit) :
    region' = region := by
  have hstem := (h.region r' region' hr').exit
  rw [hexit, (h.region r region hr).exit] at hstem
  obtain rfl : r = r' := congrArg Node.region (Option.some.inj hstem)
  exact Option.some.inj (hr'.symm.trans hr)

/- Only the exit of a loop is closed, and the loop is the one that it belongs to. -/
theorem find_exit (hn : b.nodes[n]? = some node) :
    b.regions.find? (fun r => r.isLoop && r.exit == node.id) = some region ↔
      ∃ r : RegionId, b.regions[r]? = some region ∧ region.isLoop ∧ region.exit = n := by
  have hid : node.id = n := (h.node n _ (stem?_of_node hn)).1
  rw [hid]
  constructor
  · intro hfind
    have hexit := List.find?_some (Array.find?_toList ▸ hfind)
    obtain ⟨r, hr⟩ := Array.getElem?_of_mem (Array.mem_of_find?_eq_some hfind)
    rw [Bool.and_eq_true, beq_iff_eq] at hexit
    exact ⟨r, hr, hexit⟩
  · rintro ⟨r, hr, hloop, hexit⟩
    cases hfind : b.regions.find? (fun r => r.isLoop && r.exit == n) with
    | none =>
      rw [Array.find?_eq_none] at hfind
      exact absurd (by simp [hloop, hexit]) (hfind region (Array.mem_of_getElem? hr))
    | some other =>
      have hother := List.find?_some (Array.find?_toList ▸ hfind)
      obtain ⟨r', hr'⟩ := Array.getElem?_of_mem (Array.mem_of_find?_eq_some hfind)
      rw [Bool.and_eq_true, beq_iff_eq] at hother
      rw [eq_of_exit h hr hr' (hother.2.trans hexit.symm)]

theorem mem_headers (hr : b.regions[r]? = some region) :
    k ∈ b.headers region ↔ b.Draws region.entry k ∧ k ≠ region.exit := by
  have hown := h.region r region hr
  obtain ⟨entry, hentry, hstem⟩ := Option.map_eq_some_iff.1 hown.entry
  have hregion : entry.region = r := congrArg Node.region hstem
  simp only [headers, hentry, List.mem_filter, bne_iff_ne, mem_succs_fallThrough hentry,
    hregion, exit_of_region hr]
  constructor
  · rintro ⟨hd | ⟨-, -, he⟩, hne⟩
    · exact ⟨hd, hne⟩
    · exact absurd he hne
  · rintro ⟨hd, hne⟩
    exact ⟨.inl hd, hne⟩

/-- The edges of the finished tree. -/
theorem leads_finish : b.finish.Leads n k ↔ b.Draws n k ∨
    (∃ node, b.stem? n = some node ∧ node.kind ≠ .exit ∧ (∀ j, ¬b.Draws n j) ∧
      k = b.exit node.region) ∨
    ∃ (r : RegionId) (region : Region), b.regions[r]? = some region ∧ region.isLoop ∧
      region.exit = n ∧ b.Draws region.entry k ∧ k ≠ n := by
  cases hn : b.nodes[n]? with
  | none =>
    have hleads : ¬b.finish.Leads n k := by
      rintro ⟨node, hnode, -⟩
      obtain ⟨raw, _, hraw, -⟩ := node?_finish_eq_some.1 hnode
      rw [hn] at hraw
      cases hraw
    have hstem : b.stem? n = none := by simp [stem?, hn]
    refine iff_of_false hleads ?_
    rintro (⟨node, hnode, -⟩ | ⟨node, hnode, -⟩ | ⟨r, region, hr, -, rfl, -⟩)
    · rw [hn] at hnode
      cases hnode
    · rw [hstem] at hnode
      cases hnode
    · rw [(h.region r region hr).exit] at hstem
      cases hstem
  | some raw =>
    have hleads : b.finish.Leads n k ↔ k ∈ (b.closeLoop (b.fallThrough raw)).succs := by
      constructor
      · rintro ⟨node, hnode, hk⟩
        obtain ⟨raw', _, hraw, rfl, -⟩ := node?_finish_eq_some.1 hnode
        obtain rfl := Option.some.inj (hn.symm.trans hraw)
        exact hk
      · exact fun hk => ⟨_, node?_finish_eq_some.2 ⟨raw, _, hn, rfl, rfl⟩, hk⟩
    have hfall := mem_succs_fallThrough (k := k) hn
    simp only [hleads, stem?_of_node hn, Option.some.injEq, exists_eq_left', Node.stem]
    rw [← or_assoc, ← hfall, closeLoop, id_fallThrough]
    cases hfind : b.regions.find? (fun r => r.isLoop && r.exit == raw.id) with
    | none =>
      refine (or_iff_left ?_).symm
      rintro ⟨r, region, hr, hloop, hexit, -⟩
      rw [(find_exit h hn).2 ⟨r, hr, hloop, hexit⟩] at hfind
      cases hfind
    | some region =>
      obtain ⟨r, hr, hloop, hexit⟩ := (find_exit h hn).1 hfind
      simp only [Node.mem_succs_addSucc_all]
      refine or_congr_right ?_
      rw [mem_headers h hr, hexit]
      constructor
      · rintro ⟨hd, hne⟩
        exact ⟨r, region, hr, hloop, hexit, hd, hne⟩
      · rintro ⟨r', region', hr', hloop', hexit', hd, hne⟩
        have hsame := (find_exit h hn).2 ⟨r', hr', hloop', hexit'⟩
        obtain rfl := Option.some.inj (hfind.symm.trans hsame)
        exact ⟨hd, hne⟩

end Finish
end LoopMemory.TreeBuilder
