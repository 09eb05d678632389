import LoopMemory.Proofs.Solver.Solution

/-! Where every node can be reached, the solution is the meet over all paths. -/
namespace LoopMemory.Problem
variable {p : Problem} {sol : Solution} {s t : State} {n k : NodeId} {rest : List NodeId}
  {l : Location} {x v : Reaching}

/-- The values that the paths from the region's entry carry to a node. -/
inductive Path (p : Problem) : NodeId → Reaching → Prop
  | enter : Path p p.region.entry .start
  | step {n k : NodeId} {node : Node} {f : Footprint} {v : Reaching} (path : Path p n v)
      (hn : p.tree.node? n = some node) (hf : p.footprints.get? n = some f)
      (hk : k ∈ node.succs) : Path p k (v.transfer p.aliases f)

/-- A region graph that no edge leaves and no edge enters again, with paths to all its nodes. -/
structure Traversed (p : Problem) : Prop extends p.Closed where
  linked : p.tree.Linked
  entry : p.region.entry ∈ p.region.nodes
  fresh : ∀ n node, p.tree.node? n = some node → p.region.entry ∉ node.succs
  reached : ∀ n ∈ p.region.nodes, ∃ v, p.Path n v

/-- Along the edges of a region graph that no edge leaves, paths lead to all that can be reached. -/
theorem Closed.path (hc : p.Closed) (he : p.region.entry ∈ p.region.nodes)
    (h : Relation.ReflTransGen p.tree.Leads p.region.entry n) : ∃ v, p.Path n v := by
  have hall : n ∈ p.region.nodes ∧ ∃ v, p.Path n v := by
    induction h with
    | refl => exact ⟨he, .start, .enter⟩
    | tail _ hlead ih =>
      obtain ⟨hmem, v, path⟩ := ih
      obtain ⟨node, hnode, hk⟩ := hlead
      obtain ⟨f, hf⟩ := hc.footprint _ hmem
      exact ⟨hc.stays _ hmem node hnode _ hk, _, path.step hnode hf hk⟩
  exact hall.2

theorem Path.known (h : p.Path n v) : v.must.isFull = false ∧ v.may.isFull = false := by
  induction h with
  | enter => exact ⟨rfl, rfl⟩
  | step path hn hf hk ih =>
    refine ⟨?_, ?_⟩
    · rw [Bool.eq_false_iff, ne_eq, Reaching.isFull_must_transfer]
      simp [ih.1]
    · rw [Reaching.isFull_may_transfer, ih.2]

theorem Path.mem (hp : p.Traversed) (h : p.Path n v) : n ∈ p.region.nodes := by
  induction h with
  | enter => exact hp.entry
  | step path hn hf hk ih => exact hp.stays _ ih _ hn _ hk

/- What a value misses or gains behind a node, some path to the node explains. -/
structure Explained (p : Problem) (n : NodeId) (y : Reaching) : Prop where
  known : y.may.isFull = false
  must : ∀ l, l ∉ y.must → ∃ v f, p.Path n v ∧ p.footprints.get? n = some f ∧
    l ∉ (v.transfer p.aliases f).must
  may : ∀ l ∈ y.may, ∃ v f, p.Path n v ∧ p.footprints.get? n = some f ∧
    l ∈ (v.transfer p.aliases f).may

theorem explained_top : p.Explained n .top := ⟨rfl, by simp, by simp⟩

section Inputs
variable {o : NodeMap Reaching} {node : Node}

theorem not_mem_must_inputOf (hl : p.tree.Linked)
    (h : ∀ k y, o.get? k = some y → p.Explained k y) (hn : p.tree.node? n = some node)
    (hm : l ∉ (p.inputOf o n node).must) : ∃ v, p.Path n v ∧ l ∉ v.must := by
  by_cases he : n = p.region.entry
  · subst he
    exact ⟨.start, .enter, by simp⟩
  rw [mem_must_inputOf he] at hm
  push Not at hm
  obtain ⟨k, hk, y, hy, hly⟩ := hm
  obtain ⟨v, f, hv, hf, hlv⟩ := (h k y hy).must l hly
  obtain ⟨node', hnode', hs⟩ := (hl n node hn k).1 hk
  exact ⟨_, hv.step hnode' hf hs, hlv⟩

theorem mem_may_inputOf_explained (hl : p.tree.Linked)
    (h : ∀ k y, o.get? k = some y → p.Explained k y) (hn : p.tree.node? n = some node)
    (hm : l ∈ (p.inputOf o n node).may) : ∃ v, p.Path n v ∧ l ∈ v.may := by
  by_cases he : n = p.region.entry
  · subst he
    rw [inputOf_entry] at hm
    simp at hm
  rw [mem_may_inputOf he] at hm
  obtain ⟨k, hk, y, hy, hly⟩ := hm
  obtain ⟨v, f, hv, hf, hlv⟩ := (h k y hy).may l hly
  obtain ⟨node', hnode', hs⟩ := (hl n node hn k).1 hk
  exact ⟨_, hv.step hnode' hf hs, hlv⟩

theorem isFull_may_inputOf_explained (h : ∀ k y, o.get? k = some y → p.Explained k y) :
    (p.inputOf o n node).may.isFull = false := by
  by_cases he : n = p.region.entry
  · rw [he, inputOf_entry]
    rfl
  · rw [Bool.eq_false_iff, ne_eq, isFull_may_inputOf he]
    rintro ⟨k, -, y, hy, hf⟩
    simp [(h k y hy).known] at hf

/- A definition is lost behind a node because it was missing in front of it, or is lost there on
   every path. -/
theorem explained_transfer (hp : p.Traversed) {f : Footprint}
    (h : ∀ k y, o.get? k = some y → p.Explained k y) (hmem : n ∈ p.region.nodes)
    (hn : p.tree.node? n = some node) (hf : p.footprints.get? n = some f) :
    p.Explained n ((p.inputOf o n node).transfer p.aliases f) where
  known := by rw [Reaching.isFull_may_transfer, isFull_may_inputOf_explained h]
  must l hm := by
    obtain ⟨v, hv⟩ := hp.reached n hmem
    by_cases hx : l ∈ (p.inputOf o n node).must
    · refine ⟨v, f, hv, hf, fun hc => hm ?_⟩
      rw [Reaching.mem_must_transfer] at hc ⊢
      rcases hc with hd | ⟨hw, -, hfull | hkill⟩
      · exact .inl hd
      · simp [hv.known.1] at hfull
      · exact .inr ⟨hw, hx, .inr hkill⟩
    · obtain ⟨u, hu, hlu⟩ := not_mem_must_inputOf hp.linked h hn hx
      refine ⟨u, f, hu, hf, fun hc => ?_⟩
      rw [Reaching.mem_must_transfer] at hc hm
      rcases hc with hd | ⟨-, hlu', -⟩
      · exact hm (.inl hd)
      · exact hlu hlu'
  may l hm := by
    rw [Reaching.mem_may_transfer] at hm
    rcases hm with hx | hd
    · obtain ⟨v, hv, hlv⟩ := mem_may_inputOf_explained hp.linked h hn hx
      exact ⟨v, f, hv, hf, Reaching.mem_may_transfer.2 (.inl hlv)⟩
    · obtain ⟨v, hv⟩ := hp.reached n hmem
      exact ⟨v, f, hv, hf, Reaching.mem_may_transfer.2 (.inr hd)⟩

end Inputs

/- What a run keeps. -/
structure Followed (p : Problem) (s : State) : Prop where
  queue : ∀ n ∈ s.queue, n ∈ p.region.nodes
  outputs : ∀ n y, s.outputs.get? n = some y → p.Explained n y

theorem followed_begin : p.Followed p.begin where
  queue _ h := h
  outputs n y h := by
    obtain ⟨-, rfl⟩ := begin_outputs_eq_some.1 h
    exact explained_top

theorem Followed.step (hp : p.Traversed) (h : p.Followed s) (hq : s.queue = n :: rest)
    (ht : p.Steps s n rest t) : p.Followed t := by
  have hn : n ∈ p.region.nodes := h.queue n (by simp [hq])
  refine ⟨hp.queue_step h.queue hq ht, fun k y hk => ?_⟩
  cases ht with
  | same => exact h.outputs k y hk
  | change hnode hf hx hy =>
    simp only [enqueue_all_outputs, State.store, State.visit, NodeMap.get?_set] at hk
    split at hk
    · rename_i hkn
      rw [← Option.some.inj hk, hx, hkn]
      exact explained_transfer hp h.outputs hn hnode hf
    · exact h.outputs k y hk

/-- In front of a node, a location must be written if it is on every path, and may be written if
it is on some path. -/
structure Exact (p : Problem) (n : NodeId) (x : Reaching) : Prop where
  known : x.must.isFull = false ∧ x.may.isFull = false
  must : ∀ l, l ∈ x.must ↔ ∀ v, p.Path n v → l ∈ v.must
  may : ∀ l, l ∈ x.may ↔ ∃ v, p.Path n v ∧ l ∈ v.may

theorem Path.le (hp : p.Traversed) (hs : p.Solves sol) (h : p.Path n v)
    (hx : sol.inputs.get? n = some x) : x ≤ v := by
  induction h generalizing x with
  | enter =>
    obtain ⟨node, hn⟩ := hp.node _ hp.entry
    rw [hs.input _ node x hn hx, inputOf_entry]
    exact Reaching.le_refl _
  | @step n k node f v path hn hf hk ih =>
    have hmem := path.mem hp
    obtain ⟨node', f', y, hn', hf', hy, hout⟩ := hs.flow n hmem
    obtain rfl := Option.some.inj (hn.symm.trans hn')
    obtain rfl := Option.some.inj (hf.symm.trans hf')
    obtain ⟨target, hk'⟩ := hp.node k (hp.stays n hmem node hn k hk)
    have hne : k ≠ p.region.entry := by
      rintro rfl
      exact hp.fresh n node hn hk
    exact Reaching.le_trans (hs.input_le hp.linked hn hk' hk hout hx hne)
      (Reaching.transfer_mono (ih hy))

theorem exact_of_solve (hp : p.Traversed) (h : p.solve = .ok sol) (hn : n ∈ p.region.nodes)
    (hx : sol.inputs.get? n = some x) : p.Exact n x := by
  have hs := solves_of_solve hp.linked h
  obtain ⟨s, hrun, rfl⟩ := solve_eq_ok h
  have hf : p.Followed s := by
    have hinv := run_inv p.Followed (fun s n rest t h hq ht => h.step hp hq ht) p.stepBound p.begin
      followed_begin
    rwa [hrun] at hinv
  obtain ⟨node, hnode⟩ := hp.node n hn
  have hin : x = p.inputOf s.outputs n node := hs.input n node x hnode hx
  obtain ⟨u, hu⟩ := hp.reached n hn
  have hle := hu.le hp hs hx
  refine ⟨⟨?_, ?_⟩, fun l => ⟨fun hl v hv => (hv.le hp hs hx).1.1 l hl, fun hl => ?_⟩,
    fun l => ⟨fun hl => ?_, fun hl => ?_⟩⟩
  · rw [Bool.eq_false_iff]
    intro hfull
    exact absurd (hle.1.2 hfull) (by simp [hu.known.1])
  · rw [hin, isFull_may_inputOf_explained hf.outputs]
  · refine Classical.byContradiction fun hm => ?_
    rw [hin] at hm
    obtain ⟨v, hv, hlv⟩ := not_mem_must_inputOf hp.linked hf.outputs hnode hm
    exact hlv (hl v hv)
  · rw [hin] at hl
    exact mem_may_inputOf_explained hp.linked hf.outputs hnode hl
  · obtain ⟨v, hv, hl⟩ := hl
    exact (hv.le hp hs hx).2.1 l hl

end LoopMemory.Problem
