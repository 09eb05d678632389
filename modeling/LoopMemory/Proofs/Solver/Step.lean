import LoopMemory.Proofs.Reaching.Meet
import LoopMemory.Proofs.Region
import LoopMemory.Solver

/-! One step of the worklist: what it changes, and what a run keeps because each step keeps it. -/
namespace LoopMemory.Problem
variable {p : Problem} {s t : Problem.State} {n m : NodeId} {rest : List NodeId} {l : Location}

/- The input of a node, seen through its predecessors. -/

theorem inputOf_entry (o : NodeMap Reaching) (node : Node) :
    p.inputOf o p.region.entry node = .start := by
  simp [inputOf]

section InputOf
variable {o o' : NodeMap Reaching} {node : Node}

theorem exists_mem_filterMap {ks : List NodeId} {P : Reaching → Prop} :
    (∃ y ∈ ks.filterMap o.get?, P y) ↔ ∃ m ∈ ks, ∃ y, o.get? m = some y ∧ P y := by
  constructor
  · intro ⟨y, hy, hP⟩
    obtain ⟨m, hm, hget⟩ := List.mem_filterMap.1 hy
    exact ⟨m, hm, y, hget, hP⟩
  · intro ⟨m, hm, y, hget, hP⟩
    exact ⟨y, List.mem_filterMap.2 ⟨m, hm, hget⟩, hP⟩

theorem mem_must_inputOf (h : n ≠ p.region.entry) : l ∈ (p.inputOf o n node).must ↔
    ∀ m ∈ node.preds, ∀ y, o.get? m = some y → l ∈ y.must := by
  rw [inputOf, if_neg h, Reaching.mem_must_meet_all, List.forall_mem_filterMap]
  exact and_iff_right rfl

theorem isFull_must_inputOf (h : n ≠ p.region.entry) :
    (p.inputOf o n node).must.isFull = true ↔
      ∀ m ∈ node.preds, ∀ y, o.get? m = some y → y.must.isFull = true := by
  rw [inputOf, if_neg h, Reaching.isFull_must_meet_all, List.forall_mem_filterMap]
  exact and_iff_right rfl

theorem mem_may_inputOf (h : n ≠ p.region.entry) : l ∈ (p.inputOf o n node).may ↔
    ∃ m ∈ node.preds, ∃ y, o.get? m = some y ∧ l ∈ y.may := by
  rw [inputOf, if_neg h, Reaching.mem_may_meet_all, exists_mem_filterMap]
  exact or_iff_right (Reach.not_mem_empty l)

theorem isFull_may_inputOf (h : n ≠ p.region.entry) :
    (p.inputOf o n node).may.isFull = true ↔
      ∃ m ∈ node.preds, ∃ y, o.get? m = some y ∧ y.may.isFull = true := by
  rw [inputOf, if_neg h, Reaching.isFull_may_meet_all, exists_mem_filterMap]
  exact or_iff_right Bool.false_ne_true

/- The input is the greatest value below those of the predecessors. -/

theorem le_inputOf_iff (h : n ≠ p.region.entry) {x : Reaching} : x ≤ p.inputOf o n node ↔
    ∀ m ∈ node.preds, ∀ y, o.get? m = some y → x ≤ y := by
  rw [inputOf, if_neg h, Reaching.le_meet_all, List.forall_mem_filterMap]
  exact and_iff_right (Reaching.le_top x)

theorem inputOf_le (h : n ≠ p.region.entry) {y : Reaching} (hm : m ∈ node.preds)
    (hy : o.get? m = some y) : p.inputOf o n node ≤ y :=
  (le_inputOf_iff h).1 (Reaching.le_refl _) m hm y hy

theorem le_inputOf (h : n ≠ p.region.entry) {x : Reaching}
    (hle : ∀ m ∈ node.preds, ∀ y, o.get? m = some y → x ≤ y) : x ≤ p.inputOf o n node :=
  (le_inputOf_iff h).2 hle

theorem inputOf_mono
    (h : ∀ m y, o.get? m = some y → ∃ z, o'.get? m = some z ∧ z ≤ y) :
    p.inputOf o' n node ≤ p.inputOf o n node := by
  by_cases hn : n = p.region.entry
  · rw [hn, inputOf_entry, inputOf_entry]
    exact Reaching.le_refl _
  refine le_inputOf hn fun m hm y hy => ?_
  obtain ⟨z, hz, hle⟩ := h m y hy
  exact Reaching.le_trans (inputOf_le hn hm hz) hle

theorem inputOf_set (h : m ∉ node.preds) (y : Reaching) :
    p.inputOf (o.set m y) n node = p.inputOf o n node := by
  have : node.preds.filterMap (o.set m y).get? = node.preds.filterMap o.get? := by
    refine List.filterMap_congr fun k hk => ?_
    rw [NodeMap.get?_set, if_neg]
    rintro rfl
    exact h hk
  unfold inputOf
  rw [this]

end InputOf

/- Filling the worklist touches nothing but the worklist. -/

theorem enqueue_all_eq (ks : List NodeId) (s : State) :
    ∃ q w, ks.foldl State.enqueue s = { s with queue := q, queued := w } := by
  induction ks generalizing s with
  | nil => exact ⟨s.queue, s.queued, rfl⟩
  | cons k ks ih =>
    obtain ⟨q, w, h⟩ := ih (s.enqueue k)
    refine ⟨q, w, h.trans ?_⟩
    unfold State.enqueue
    split <;> rfl

@[simp] theorem enqueue_all_inputs (ks : List NodeId) (s : State) :
    (ks.foldl State.enqueue s).inputs = s.inputs := by
  obtain ⟨q, w, h⟩ := enqueue_all_eq ks s
  rw [h]

@[simp] theorem enqueue_all_outputs (ks : List NodeId) (s : State) :
    (ks.foldl State.enqueue s).outputs = s.outputs := by
  obtain ⟨q, w, h⟩ := enqueue_all_eq ks s
  rw [h]

@[simp] theorem enqueue_all_transfers (ks : List NodeId) (s : State) :
    (ks.foldl State.enqueue s).transfers = s.transfers := by
  obtain ⟨q, w, h⟩ := enqueue_all_eq ks s
  rw [h]

@[simp] theorem enqueue_all_changed (ks : List NodeId) (s : State) :
    (ks.foldl State.enqueue s).changed = s.changed := by
  obtain ⟨q, w, h⟩ := enqueue_all_eq ks s
  rw [h]

@[simp] theorem enqueue_all_trace (ks : List NodeId) (s : State) :
    (ks.foldl State.enqueue s).trace = s.trace := by
  obtain ⟨q, w, h⟩ := enqueue_all_eq ks s
  rw [h]

theorem mem_queued_enqueue_all {ks : List NodeId} :
    m ∈ (ks.foldl State.enqueue s).queued ↔ m ∈ s.queued ∨ m ∈ ks := by
  induction ks generalizing s with
  | nil => simp
  | cons k ks ih =>
    rw [List.foldl_cons, ih, State.enqueue]
    split
    · rename_i h
      have hk : k ∈ s.queued := by simpa using h
      grind
    · simp only [List.mem_cons]; grind

theorem mem_queue_enqueue_all {ks : List NodeId} :
    m ∈ (ks.foldl State.enqueue s).queue ↔ m ∈ s.queue ∨ (m ∈ ks ∧ m ∉ s.queued) := by
  induction ks generalizing s with
  | nil => simp
  | cons k ks ih =>
    rw [List.foldl_cons, ih, State.enqueue]
    split
    · rename_i h
      have hk : k ∈ s.queued := by simpa using h
      grind
    · rename_i h
      have hk : k ∉ s.queued := by simpa using h
      simp only [List.mem_cons, List.mem_append, List.not_mem_nil]; grind

theorem queue_enqueue_all_length (ks : List NodeId) (s : State) :
    (ks.foldl State.enqueue s).queue.length ≤ s.queue.length + ks.length := by
  induction ks generalizing s with
  | nil => simp
  | cons k ks ih =>
    have h := ih (s.enqueue k)
    have hk : (s.enqueue k).queue.length ≤ s.queue.length + 1 := by
      unfold State.enqueue; split <;> simp
    simp only [List.foldl_cons, List.length_cons]
    omega

/-- The state once a node was taken off the worklist and its input is known. -/
def State.visit (s : State) (n : NodeId) (rest : List NodeId) (x : Reaching) : State :=
  { s with
    queue := rest
    queued := s.queued.filter (· != n)
    inputs := s.inputs.set n x
    transfers := s.transfers + 1 }

/-- What a step does: its value is the old one, or it is stored and the successors wait again. -/
inductive Steps (p : Problem) (s : State) (n : NodeId) (rest : List NodeId) : State → Prop
  | same {node : Node} {f : Footprint} {x : Reaching} (hn : p.tree.node? n = some node)
      (hf : p.footprints.get? n = some f) (hx : x = p.inputOf s.outputs n node)
      (hy : s.outputs.get? n = some (x.transfer p.aliases f)) :
      Steps p s n rest (s.visit n rest x)
  | change {node : Node} {f : Footprint} {x : Reaching} (hn : p.tree.node? n = some node)
      (hf : p.footprints.get? n = some f) (hx : x = p.inputOf s.outputs n node)
      (hy : s.outputs.get? n ≠ some (x.transfer p.aliases f)) :
      Steps p s n rest
        (node.succs.foldl State.enqueue ((s.visit n rest x).store n (x.transfer p.aliases f)))

theorem transfer_eq_ok {x y : Reaching} : p.transfer n x = .ok y ↔
    ∃ f, p.footprints.get? n = some f ∧ x.transfer p.aliases f = y := by
  cases h : p.footprints.get? n <;> simp [Problem.transfer, h]

theorem step_eq_ok : p.step s n rest = .ok t ↔ p.Steps s n rest t := by
  simp only [step, bind_eq_ok, RegionTree.node_eq_ok, transfer_eq_ok]
  constructor
  · rintro ⟨node, hn, y, ⟨f, hf, rfl⟩, h⟩
    split at h
    · rename_i hy
      rw [pure_eq_ok] at h
      exact h ▸ .same hn hf rfl hy
    · rename_i hy
      rw [pure_eq_ok] at h
      exact h ▸ .change hn hf rfl hy
  · rintro (⟨hn, hf, rfl, hy⟩ | ⟨hn, hf, rfl, hy⟩)
    · exact ⟨_, hn, _, ⟨_, hf, rfl⟩, by rw [if_pos hy]; rfl⟩
    · exact ⟨_, hn, _, ⟨_, hf, rfl⟩, by rw [if_neg hy]; rfl⟩

/-- A run keeps what every step keeps. -/
theorem run_inv (P : State → Prop)
    (step : ∀ s n rest t, P s → s.queue = n :: rest → p.Steps s n rest t → P t) :
    ∀ (fuel : Nat) (s : State), P s → P (p.run fuel s).1 := by
  intro fuel
  induction fuel with
  | zero => exact fun s hs => hs
  | succ fuel ih =>
    intro s hs
    rw [run]
    split
    · exact hs
    · rename_i n rest hq
      split
      · exact hs
      · rename_i t ht
        exact ih t (step s n rest t hs hq (step_eq_ok.1 ht))

/- The first state: the top behind every node of the region. -/

theorem get?_begin_outputs : p.begin.outputs.get? n =
    if n ∈ p.region.nodes then some .top else none := by
  suffices H : ∀ (ns : List NodeId) (o : NodeMap Reaching),
      (ns.foldl (fun o n => o.set n .top) o).get? n =
        if n ∈ ns then some .top else o.get? n by
    exact H p.region.nodes {}
  intro ns
  induction ns with
  | nil => intro o; simp
  | cons k ns ih =>
    intro o
    rw [List.foldl_cons, ih, NodeMap.get?_set]
    by_cases h : n ∈ ns <;> by_cases hk : n = k <;> simp [h, hk]

theorem begin_outputs_eq_some {x : Reaching} :
    p.begin.outputs.get? n = some x ↔ n ∈ p.region.nodes ∧ x = .top := by
  rw [get?_begin_outputs]
  by_cases h : n ∈ p.region.nodes <;> simp [h, eq_comm (a := x)]

@[simp] theorem get?_begin_inputs : p.begin.inputs.get? n = none := rfl

end LoopMemory.Problem
