import LoopMemory.Proofs.Solver.Bound

/-! A solution satisfies the data-flow equations at every node of the region, and a region whose
edges stay inside it has one. -/
namespace LoopMemory.Problem
variable {p : Problem} {s t : Problem.State} {n m : NodeId} {rest : List NodeId}

/-- The values in front of and behind each node fit each other and those of its predecessors. -/
structure Solves (p : Problem) (sol : Solution) : Prop where
  flow : ∀ n ∈ p.region.nodes, ∃ node f x, p.tree.node? n = some node ∧
    p.footprints.get? n = some f ∧ sol.inputs.get? n = some x ∧
    sol.outputs.get? n = some (x.transfer p.aliases f)
  input : ∀ n node x, p.tree.node? n = some node → sol.inputs.get? n = some x →
    x = p.inputOf sol.outputs n node

/- What a run keeps about the worklist: a node that has a value behind it got it by transfer, and
   its input is up to date unless the node waits. -/
structure Settled (p : Problem) (s : State) : Prop where
  waits : ∀ n ∈ s.queued, n ∈ s.queue
  reached : ∀ n ∈ p.region.nodes, n ∈ s.queue ∨ ∃ x, s.inputs.get? n = some x
  flow : ∀ n x, s.inputs.get? n = some x → ∃ node f, p.tree.node? n = some node ∧
    p.footprints.get? n = some f ∧ s.outputs.get? n = some (x.transfer p.aliases f)
  fresh : ∀ n x node, s.inputs.get? n = some x → n ∉ s.queue → p.tree.node? n = some node →
    x = p.inputOf s.outputs n node

theorem settled_begin : p.Settled p.begin where
  waits _ h := h
  reached _ h := .inl h
  flow _ _ h := by simp at h
  fresh _ _ _ h := by simp at h

section Step
variable {node : Node} {f : Footprint} {x : Reaching} (h : p.Settled s) (hq : s.queue = n :: rest)
  (hn : p.tree.node? n = some node) (hf : p.footprints.get? n = some f)
  (hx : x = p.inputOf s.outputs n node)
include h hq

theorem Settled.waits_rest : ∀ k ∈ s.queued.filter (· != n), k ∈ rest := by
  intro k hk
  simp only [List.mem_filter, bne_iff_ne] at hk
  simpa [hq, hk.2] using h.waits k hk.1

include hn hf hx

theorem Settled.visit (hy : s.outputs.get? n = some (x.transfer p.aliases f)) :
    p.Settled (s.visit n rest x) := by
  refine ⟨h.waits_rest hq, fun k hk => ?_, fun k y hk => ?_, fun k y node' hk hkq hn' => ?_⟩
  · simp only [State.visit, NodeMap.get?_set]
    by_cases hkn : k = n
    · exact .inr ⟨x, by rw [if_pos hkn]⟩
    · simpa [hq, hkn] using h.reached k hk
  · simp only [State.visit, NodeMap.get?_set] at hk ⊢
    split at hk
    · rename_i hkn
      rw [← Option.some.inj hk, hkn]
      exact ⟨node, f, hn, hf, hy⟩
    · exact h.flow k y hk
  · simp only [State.visit, NodeMap.get?_set] at hk hkq ⊢
    split at hk
    · rename_i hkn
      subst hkn
      obtain rfl : node = node' := by simpa [hn] using hn'
      exact (Option.some.inj hk).symm.trans hx
    · rename_i hkn
      exact h.fresh k y node' hk (by simp [hq, hkn, hkq]) hn'

/- The successors wait afterwards, so that the changed value is no input of a node that does not. -/
theorem Settled.store (hl : p.tree.Linked) : p.Settled
    (node.succs.foldl State.enqueue ((s.visit n rest x).store n (x.transfer p.aliases f))) := by
  have hwaits := h.waits_rest hq
  refine ⟨fun k hk => ?_, fun k hk => ?_, fun k y hk => ?_, fun k y node' hk hkq hn' => ?_⟩
  · rw [mem_queued_enqueue_all] at hk
    rw [mem_queue_enqueue_all]
    simp only [State.store, State.visit] at hk ⊢
    by_cases hkr : k ∈ rest
    · exact .inl hkr
    · have hkq : k ∉ s.queued.filter (· != n) := fun h => hkr (hwaits k h)
      exact .inr ⟨hk.resolve_left hkq, hkq⟩
  · rw [mem_queue_enqueue_all]
    simp only [enqueue_all_inputs, State.store, State.visit, NodeMap.get?_set]
    by_cases hkn : k = n
    · exact .inr ⟨x, by rw [if_pos hkn]⟩
    · rcases h.reached k hk with hk | hk
      · exact .inl (.inl (by simpa [hq, hkn] using hk))
      · exact .inr (by simpa [hkn] using hk)
  · simp only [enqueue_all_inputs, enqueue_all_outputs, State.store, State.visit,
      NodeMap.get?_set] at hk ⊢
    split at hk
    · rename_i hkn
      rw [← Option.some.inj hk, if_pos hkn, hkn]
      exact ⟨node, f, hn, hf, rfl⟩
    · rename_i hkn
      rw [if_neg hkn]
      exact h.flow k y hk
  · rw [mem_queue_enqueue_all] at hkq
    simp only [enqueue_all_inputs, enqueue_all_outputs, State.store, State.visit,
      NodeMap.get?_set] at hk hkq ⊢
    have hkr : k ∉ rest := fun h => hkq (.inl h)
    have hks : k ∉ node.succs := fun h => hkq (.inr ⟨h, fun h => hkr (hwaits k h)⟩)
    have hnp : n ∉ node'.preds := by
      rw [hl k node' hn']
      rintro ⟨other, ho, hs⟩
      obtain rfl : node = other := by simpa [hn] using ho
      exact hks hs
    rw [inputOf_set hnp]
    split at hk
    · rename_i hkn
      subst hkn
      obtain rfl : node = node' := by simpa [hn] using hn'
      exact (Option.some.inj hk).symm.trans hx
    · rename_i hkn
      exact h.fresh k y node' hk (by simp [hq, hkn, hkr]) hn'

end Step

theorem Settled.step (hl : p.tree.Linked) (h : p.Settled s) (hq : s.queue = n :: rest)
    (ht : p.Steps s n rest t) : p.Settled t := by
  cases ht with
  | same hn hf hx hy => exact h.visit hq hn hf hx hy
  | change hn hf hx hy => exact h.store hq hn hf hx hl

/-- The fuel of a run lasts until the worklist is empty. -/
theorem run_queue (fuel : Nat) (s : State) (h : p.Budget s)
    (hf : p.stepBound ≤ fuel + s.transfers) (hr : p.run fuel s = (t, none)) : t.queue = [] := by
  induction fuel generalizing s with
  | zero =>
    obtain rfl : s = t := by simpa [run] using hr
    have hchanged : s.changed ≤ p.changeBound := Nat.le_trans (Nat.le_add_right _ _) h.changes
    have hmul := Nat.mul_le_mul_right p.maxSuccs hchanged
    have := h.entries
    rw [stepBound] at hf
    exact List.eq_nil_of_length_eq_zero (by omega)
  | succ fuel ih =>
    rw [run] at hr
    split at hr
    · rename_i hq
      exact (Prod.mk.inj hr).1 ▸ hq
    · rename_i n rest hq
      split at hr
      · simp at hr
      · rename_i u hu
        have hu := step_eq_ok.1 hu
        refine ih u (h.step hq hu) ?_ hr
        cases hu <;> simp only [enqueue_all_transfers, State.store, State.visit] <;> omega

theorem solve_eq_ok {sol : Solution} (h : p.solve = .ok sol) :
    ∃ s, p.run p.stepBound p.begin = (s, none) ∧ sol = s.solution p := by
  simp only [solve, solveTraced] at h
  split at h
  · rename_i s hs
    exact ⟨s, hs, (Except.ok.inj h).symm⟩
  · simp at h

theorem solves_of_solve (hl : p.tree.Linked) {sol : Solution} (h : p.solve = .ok sol) :
    p.Solves sol := by
  obtain ⟨s, hs, rfl⟩ := solve_eq_ok h
  have hset : p.Settled s := by
    have := run_inv p.Settled (fun s n rest t h hq ht => h.step hl hq ht) p.stepBound p.begin
      settled_begin
    rwa [hs] at this
  have hq : s.queue = [] := run_queue _ _ budget_begin (Nat.le_add_right _ _) hs
  refine ⟨fun n hn => ?_, fun n node x hn hx => ?_⟩
  · obtain ⟨x, hx⟩ := (hset.reached n hn).resolve_left (by simp [hq])
    obtain ⟨node, f, hnode, hf, hy⟩ := hset.flow n x hx
    exact ⟨node, f, x, hnode, hf, hx, hy⟩
  · exact hset.fresh n x node hx (by simp [hq]) hn

/-- A value behind a node that leads to another one lies above the value in front of that one. -/
theorem Solves.input_le {sol : Solution} (h : p.Solves sol) (hl : p.tree.Linked)
    {k : NodeId} {node node' : Node} {x y : Reaching}
    (hn : p.tree.node? n = some node) (hk : p.tree.node? k = some node') (hs : k ∈ node.succs)
    (hx : sol.outputs.get? n = some x) (hy : sol.inputs.get? k = some y)
    (he : k ≠ p.region.entry) : y ≤ x := by
  have hpred : n ∈ node'.preds := (hl k node' hk n).2 ⟨node, hn, hs⟩
  rw [h.input k node' y hk hy]
  exact inputOf_le he hpred hx

/-- The nodes of the region have footprints, and its edges lead to its own nodes. -/
structure Closed (p : Problem) : Prop where
  node : ∀ n ∈ p.region.nodes, ∃ node, p.tree.node? n = some node
  footprint : ∀ n ∈ p.region.nodes, ∃ f, p.footprints.get? n = some f
  stays : ∀ n ∈ p.region.nodes, ∀ node, p.tree.node? n = some node →
    ∀ k ∈ node.succs, k ∈ p.region.nodes

theorem closed_iff : p.Closed ↔ ∀ n ∈ p.region.nodes, (p.tree.node? n).isSome = true ∧
    (p.footprints.get? n).isSome = true ∧
    ∀ node ∈ p.tree.node? n, ∀ k ∈ node.succs, k ∈ p.region.nodes := by
  constructor
  · exact fun h n hn => ⟨Option.isSome_iff_exists.2 (h.node n hn),
      Option.isSome_iff_exists.2 (h.footprint n hn), h.stays n hn⟩
  · exact fun h => ⟨fun n hn => Option.isSome_iff_exists.1 (h n hn).1,
      fun n hn => Option.isSome_iff_exists.1 (h n hn).2.1, fun n hn => (h n hn).2.2⟩

instance : Decidable p.Closed := decidable_of_iff _ closed_iff.symm

/-- No node outside the region gets on the worklist. -/
theorem Closed.queue_step (hc : p.Closed) (h : ∀ k ∈ s.queue, k ∈ p.region.nodes)
    (hq : s.queue = n :: rest) (ht : p.Steps s n rest t) : ∀ k ∈ t.queue, k ∈ p.region.nodes := by
  intro k hk
  have hrest : k ∈ rest → k ∈ p.region.nodes := fun hk => h k (by simp [hq, hk])
  cases ht with
  | same => exact hrest hk
  | change hnode =>
    rw [mem_queue_enqueue_all] at hk
    rcases hk with hk | ⟨hk, -⟩
    · exact hrest hk
    · exact hc.stays n (h n (by simp [hq])) _ hnode k hk

theorem run_ok (hc : p.Closed) (fuel : Nat) (s : State) (h : ∀ n ∈ s.queue, n ∈ p.region.nodes) :
    (p.run fuel s).2 = none := by
  induction fuel generalizing s with
  | zero => rfl
  | succ fuel ih =>
    rw [run]
    split
    · rfl
    · rename_i n rest hq
      have hn : n ∈ p.region.nodes := h n (by simp [hq])
      obtain ⟨node, hnode⟩ := hc.node n hn
      obtain ⟨f, hf⟩ := hc.footprint n hn
      have hstep : ∃ t, p.Steps s n rest t := by
        by_cases hy : s.outputs.get? n =
            some ((p.inputOf s.outputs n node).transfer p.aliases f)
        · exact ⟨_, .same hnode hf rfl hy⟩
        · exact ⟨_, .change hnode hf rfl hy⟩
      obtain ⟨t, ht⟩ := hstep
      rw [step_eq_ok.2 ht]
      exact ih t (hc.queue_step h hq ht)

theorem solve_ok (hc : p.Closed) : ∃ sol, p.solve = .ok sol := by
  have h := run_ok hc p.stepBound p.begin fun n hn => hn
  cases hr : p.run p.stepBound p.begin with
  | mk s e =>
    rw [hr] at h
    obtain rfl : e = none := h
    exact ⟨s.solution p, by simp only [solve, solveTraced, hr]⟩

end LoopMemory.Problem
