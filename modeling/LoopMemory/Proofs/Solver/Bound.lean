import LoopMemory.Proofs.Solver.Step
import Mathlib.Algebra.Order.BigOperators.Group.Finset

/-! The worklist runs empty within the fuel: values only go down, and each has a finite height. -/
namespace LoopMemory.Problem
variable {p : Problem} {s t : Problem.State} {n m : NodeId} {rest : List NodeId}

theorem mem_foldl_union {α β : Type} [Keyed α] (g : β → SortedSet α) {a : α} {es : List β}
    {u : SortedSet α} : a ∈ es.foldl (fun u e => u ∪ g e) u ↔ a ∈ u ∨ ∃ e ∈ es, a ∈ g e := by
  induction es generalizing u with
  | nil => simp
  | cons e es ih => simp [ih, or_assoc]

theorem mem_entries_of_get? {α : Type} {o : NodeMap α} {a : α} (h : o.get? n = some a) :
    (n, a) ∈ o.entries := by
  obtain ⟨es⟩ := o
  change es.lookup n = some a at h
  change (n, a) ∈ es
  induction es with
  | nil => simp at h
  | cons e es ih =>
    obtain ⟨k, b⟩ := e
    rw [List.lookup_cons] at h
    by_cases hk : n = k
    · simp_all
    · rw [beq_false_of_ne hk] at h
      exact .tail _ (ih h)

theorem mem_defs {f : Footprint} (hf : p.footprints.get? n = some f) {l : Location}
    (hl : l ∈ f.defs) : l ∈ p.defs :=
  (mem_foldl_union fun e : NodeId × Footprint => e.2.defs).2
    (.inr ⟨(n, f), mem_entries_of_get? hf, hl⟩)

theorem mem_writes {f : Footprint} (hf : p.footprints.get? n = some f) {l : Location}
    (hl : l ∈ f.defs ∨ l ∈ f.mayDefs) : l ∈ p.writes := by
  have h : ∀ (es : List (NodeId × Footprint)) (u : LocationSet),
      (l ∈ u ∨ (n, f) ∈ es) → l ∈ es.foldl (fun s e => s ∪ e.2.defs ∪ e.2.mayDefs) u := by
    intro es
    induction es with
    | nil => intro u h; simpa using h
    | cons e es ih =>
      intro u h
      rw [List.foldl_cons]
      apply ih
      simp only [SortedSet.mem_union, List.mem_cons] at h ⊢
      rcases h with h | rfl | h
      · exact .inl (.inl (.inl h))
      · rcases hl with hl | hl
        · exact .inl (.inl (.inr hl))
        · exact .inl (.inr hl)
      · exact .inr h
  exact h _ _ (.inr (mem_entries_of_get? hf))

/-- The value holds only locations that some footprint writes. -/
structure Bounded (p : Problem) (x : Reaching) : Prop where
  must : x.must.isFull = false → ∀ l ∈ x.must, l ∈ p.defs
  known : x.may.isFull = false
  may : ∀ l ∈ x.may, l ∈ p.writes

theorem bounded_iff {x : Reaching} :
    p.Bounded x ↔ x.Within (· ∈ p.defs) (· ∈ p.writes) :=
  ⟨fun h => ⟨h.must, h.known, h.may⟩, fun h => ⟨h.must, h.known, h.may⟩⟩

theorem bounded_top : p.Bounded .top := bounded_iff.2 Reaching.within_top

theorem Bounded.transfer {x : Reaching} (h : p.Bounded x) {f : Footprint}
    (hf : p.footprints.get? n = some f) : p.Bounded (x.transfer p.aliases f) :=
  bounded_iff.2 ((bounded_iff.1 h).transfer (fun _ => mem_defs hf) fun _ => mem_writes hf)

theorem within_inputOf {D W : Location → Prop} {o : NodeMap Reaching}
    (h : ∀ m y, o.get? m = some y → y.Within D W) (node : Node) :
    (p.inputOf o n node).Within D W := by
  by_cases hn : n = p.region.entry
  · rw [hn, inputOf_entry]
    exact Reaching.within_start
  refine ⟨fun hy l hl => ?_, ?_, fun l hl => ?_⟩
  · rw [mem_must_inputOf hn] at hl
    rw [Bool.eq_false_iff, Ne, isFull_must_inputOf hn] at hy
    push Not at hy
    obtain ⟨m, hm, y, hy, hf⟩ := hy
    exact (h m y hy).must (by simpa using hf) l (hl m hm y hy)
  · rw [Bool.eq_false_iff, Ne, isFull_may_inputOf hn]
    rintro ⟨m, -, y, hy, hf⟩
    rw [(h m y hy).known] at hf
    exact Bool.noConfusion hf
  · rw [mem_may_inputOf hn] at hl
    obtain ⟨m, -, y, hy, hl⟩ := hl
    exact (h m y hy).may l hl

theorem Bounded.inputOf {o : NodeMap Reaching} (h : ∀ m y, o.get? m = some y → p.Bounded y)
    (node : Node) : p.Bounded (p.inputOf o n node) :=
  bounded_iff.2 (within_inputOf (fun m y hy => bounded_iff.1 (h m y hy)) node)

/-- How many more times a value can go down. -/
def height (p : Problem) (x : Reaching) : Nat :=
  (match x.must with | .full => p.defs.size + 1 | .only s => s.size) +
    (match x.may with | .full => 0 | .only s => p.writes.size - s.size)

theorem Bounded.height_le {x : Reaching} (h : p.Bounded x) :
    p.height x ≤ 1 + p.defs.size + p.writes.size := by
  obtain ⟨must, may⟩ := x
  cases may with
  | full => exact absurd h.known (by simp)
  | only v =>
    cases must with
    | full => simp only [height]; omega
    | only u =>
      have hu : u.size ≤ p.defs.size := SortedSet.size_le fun l hl => h.must rfl l (by simpa)
      simp only [height]; omega

theorem height_lt {x y : Reaching} (hx : p.Bounded x) (hy : p.Bounded y) (hle : y ≤ x)
    (hne : y ≠ x) : p.height y < p.height x := by
  obtain ⟨must, may⟩ := x
  obtain ⟨must', may'⟩ := y
  obtain ⟨hmust, hmay⟩ := hle
  cases may with
  | full => exact absurd hx.known (by simp)
  | only v =>
  cases may' with
  | full => exact absurd hy.known (by simp)
  | only v' =>
  have hv : v ⊆ v' := Reach.only_le_only.1 hmay
  have hsize : v.size ≤ v'.size := SortedSet.size_le hv
  have hbound : v'.size ≤ p.writes.size := SortedSet.size_le fun l hl => hy.may l (by simpa)
  have hsame : v'.size ≤ v.size → v = v' := SortedSet.eq_of_subset_of_size_le hv
  cases must with
  | full =>
    cases must' with
    | full =>
      have : ¬v'.size ≤ v.size := fun h => hne (by rw [hsame h])
      simp only [height]; omega
    | only u' =>
      have hu : u'.size ≤ p.defs.size := SortedSet.size_le fun l hl => hy.must rfl l (by simpa)
      simp only [height]; omega
  | only u =>
    cases must' with
    | full => exact absurd (hmust.2 rfl) (by simp)
    | only u' =>
      have hu : u' ⊆ u := Reach.only_le_only.1 hmust
      have hsizeu : u'.size ≤ u.size := SortedSet.size_le hu
      have : ¬(u.size ≤ u'.size ∧ v'.size ≤ v.size) := by
        rintro ⟨h, k⟩
        exact hne (by rw [hsame k, SortedSet.eq_of_subset_of_size_le hu h])
      simp only [height]; omega

/-- How many more times the value behind a node can be stored. -/
def potential (p : Problem) (o : NodeMap Reaching) (n : NodeId) : Nat :=
  match o.get? n with
  | none => 2 + p.defs.size + p.writes.size
  | some x => p.height x

theorem potential_of_some {o : NodeMap Reaching} {x : Reaching} (h : o.get? n = some x) :
    p.potential o n = p.height x := by
  simp [potential, h]

theorem potential_of_none {o : NodeMap Reaching} (h : o.get? n = none) :
    p.potential o n = 2 + p.defs.size + p.writes.size := by
  simp [potential, h]

/- What bounds a run: the stored values lie above what the equations give from now on, so a change
   lowers the total potential, and each entry of the worklist is paid for. -/
structure Budget (p : Problem) (s : State) : Prop where
  bounded : ∀ n x, s.outputs.get? n = some x → p.Bounded x
  lowered : ∀ n node f x, p.tree.node? n = some node → p.footprints.get? n = some f →
    s.outputs.get? n = some x → (p.inputOf s.outputs n node).transfer p.aliases f ≤ x
  changes : s.changed + ∑ n ∈ Finset.range p.tree.nodes.size, p.potential s.outputs n ≤
    p.changeBound
  entries : s.transfers + s.queue.length ≤ p.region.nodes.length + s.changed * p.maxSuccs

theorem potential_le (h : ∀ n x, s.outputs.get? n = some x → p.Bounded x) (n : NodeId) :
    p.potential s.outputs n ≤ 2 + p.defs.size + p.writes.size := by
  unfold potential
  split
  · omega
  · rename_i x hx
    have := (h n x hx).height_le
    omega

theorem budget_begin : p.Budget p.begin := by
  have hb : ∀ n x, p.begin.outputs.get? n = some x → p.Bounded x := by
    intro n x hx
    obtain ⟨-, rfl⟩ := begin_outputs_eq_some.1 hx
    exact bounded_top
  refine ⟨hb, fun n node f x _ _ hx => ?_, ?_, ?_⟩
  · obtain ⟨-, rfl⟩ := begin_outputs_eq_some.1 hx
    exact Reaching.le_top _
  · have := Finset.sum_le_card_nsmul (Finset.range p.tree.nodes.size)
      (p.potential p.begin.outputs) _ fun n _ => potential_le hb n
    simpa [begin, changeBound, Nat.add_assoc] using this
  · simp [begin]

theorem le_maxSuccs {node : Node} (h : p.tree.node? n = some node) :
    node.succs.length ≤ p.maxSuccs := by
  have hm : node ∈ p.tree.nodes.toList := by
    simpa using Array.mem_of_getElem? h
  rw [maxSuccs, ← Array.foldl_toList]
  generalize p.tree.nodes.toList = nodes at hm
  suffices H : ∀ k : Nat, node.succs.length ≤
      nodes.foldl (fun m n => max m n.succs.length) k by exact H 0
  have hk : ∀ (nodes : List Node) (k : Nat),
      k ≤ nodes.foldl (fun m n => max m n.succs.length) k := by
    intro nodes
    induction nodes with
    | nil => exact fun k => Nat.le_refl k
    | cons a nodes ih => exact fun k => Nat.le_trans (Nat.le_max_left _ _) (ih _)
  induction nodes with
  | nil => simp at hm
  | cons a nodes ih =>
    intro k
    rcases List.mem_cons.1 hm with rfl | hm
    · exact Nat.le_trans (Nat.le_max_right _ _) (hk _ _)
    · exact ih hm _

theorem node?_lt {node : Node} (h : p.tree.node? n = some node) : n < p.tree.nodes.size := by
  rw [RegionTree.node?, Array.getElem?_eq_some_iff] at h
  exact h.1

section Change
variable {node : Node} {f : Footprint} {x : Reaching} (h : p.Budget s)
  (hn : p.tree.node? n = some node) (hf : p.footprints.get? n = some f)
  (hx : x = p.inputOf s.outputs n node)
include h hf hx

theorem Budget.bounded_next : p.Bounded (x.transfer p.aliases f) := by
  rw [hx]
  exact (Bounded.inputOf h.bounded node).transfer hf

include hn

/- Storing the new value raises none. -/
theorem Budget.set_le {k : NodeId} {y : Reaching} (hk : s.outputs.get? k = some y) :
    ∃ z, (s.outputs.set n (x.transfer p.aliases f)).get? k = some z ∧ z ≤ y := by
  rw [NodeMap.get?_set]
  by_cases hkn : k = n
  · rw [if_pos hkn]
    rw [hkn] at hk
    exact ⟨_, rfl, hx ▸ h.lowered n node f y hn hf hk⟩
  · rw [if_neg hkn]
    exact ⟨y, hk, Reaching.le_refl y⟩

variable (hy : s.outputs.get? n ≠ some (x.transfer p.aliases f))
include hy

/- If it is new indeed, it lowers the potential of its node. -/
theorem Budget.potential_lt :
    p.potential (s.outputs.set n (x.transfer p.aliases f)) n < p.potential s.outputs n := by
  rw [potential_of_some (by rw [NodeMap.get?_set, if_pos rfl])]
  have hb := h.bounded_next hf hx
  cases hk : s.outputs.get? n with
  | none =>
    rw [potential_of_none hk]
    have := hb.height_le
    omega
  | some y =>
    rw [potential_of_some hk]
    refine height_lt (h.bounded n y hk) hb (hx ▸ h.lowered n node f y hn hf hk) ?_
    rintro rfl
    exact hy hk

theorem Budget.sum_potential_lt : ∑ k ∈ Finset.range p.tree.nodes.size,
    p.potential (s.outputs.set n (x.transfer p.aliases f)) k <
      ∑ k ∈ Finset.range p.tree.nodes.size, p.potential s.outputs k := by
  have hlt := h.potential_lt hn hf hx hy
  refine Finset.sum_lt_sum (fun k _ => ?_) ⟨n, by simpa using node?_lt hn, hlt⟩
  by_cases hkn : k = n
  · rw [hkn]
    exact Nat.le_of_lt hlt
  · unfold potential
    rw [NodeMap.get?_set, if_neg hkn]

end Change

theorem Budget.step (h : p.Budget s) (hq : s.queue = n :: rest) (ht : p.Steps s n rest t) :
    p.Budget t := by
  have hlen : s.queue.length = rest.length + 1 := by rw [hq]; rfl
  cases ht with
  | same hn hf hx hy =>
    refine ⟨h.bounded, h.lowered, h.changes, ?_⟩
    have := h.entries
    simp only [State.visit]
    omega
  | @change node f x hn hf hx hy =>
    refine ⟨fun k y hk => ?_, fun k node' f' y hn' hf' hk => ?_, ?_, ?_⟩
    · simp only [enqueue_all_outputs, State.store, State.visit, NodeMap.get?_set] at hk
      split at hk
      · exact Option.some.inj hk ▸ h.bounded_next hf hx
      · exact h.bounded k y hk
    · simp only [enqueue_all_outputs, State.store, State.visit] at hk ⊢
      have hmono := @Reaching.transfer_mono p.aliases f' _ _
        (@inputOf_mono p k _ _ node' fun _ _ => h.set_le hn hf hx)
      rw [NodeMap.get?_set] at hk
      split at hk
      · rename_i hkn
        subst hkn
        obtain rfl : node = node' := by simpa [hn] using hn'
        obtain rfl : f = f' := by simpa [hf] using hf'
        rw [← Option.some.inj hk, hx]
        rw [hx] at hmono
        exact hmono
      · exact Reaching.le_trans hmono (h.lowered k node' f' y hn' hf' hk)
    · have hlt := h.sum_potential_lt hn hf hx hy
      have := h.changes
      simp only [enqueue_all_outputs, enqueue_all_changed, State.store, State.visit]
      omega
    · have hq' := queue_enqueue_all_length node.succs ((s.visit n rest x).store n
        (x.transfer p.aliases f))
      have hm := le_maxSuccs hn
      have := h.entries
      simp only [enqueue_all_transfers, enqueue_all_changed, State.store, State.visit,
        Nat.add_mul, Nat.one_mul] at hq' ⊢
      omega

end LoopMemory.Problem
