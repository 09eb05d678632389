import LoopMemory.Proofs.Region.Valid
import LoopMemory.Proofs.Solver.Solution
import LoopMemory.Region.Builder
import Mathlib.Logic.Relator
import Mathlib.Tactic.Choose

/-! The solution is the greatest one of the data-flow equations, so it depends on the graph alone
and on no order in which the solver goes through it. -/
namespace LoopMemory.Problem
variable {p q : Problem} {sol sol' : Solution} {s t : State} {n k : NodeId} {rest : List NodeId}
  {inp out : NodeId → Reaching} {node : Node}

/-- Values in front of the nodes and behind them that fit each other. A predecessor outside the
region has no value. -/
structure Balanced (p : Problem) (inp out : NodeId → Reaching) : Prop where
  input : ∀ n ∈ p.region.nodes, ∀ node, p.tree.node? n = some node →
    inp n = if n = p.region.entry then .start else
      ((node.preds.filter fun k => decide (k ∈ p.region.nodes)).map out).foldl Reaching.meet .top
  output : ∀ n ∈ p.region.nodes, ∀ f, p.footprints.get? n = some f →
    out n = (inp n).transfer p.aliases f

/-- Values that promise no more than the values before them let through. -/
structure Supported (p : Problem) (inp out : NodeId → Reaching) : Prop where
  entry : ∀ n ∈ p.region.nodes, n = p.region.entry → inp n ≤ .start
  edge : ∀ n ∈ p.region.nodes, ∀ node, p.tree.node? n = some node → n ≠ p.region.entry →
    ∀ k ∈ node.preds, k ∈ p.region.nodes → inp n ≤ out k
  output : ∀ n ∈ p.region.nodes, ∀ f, p.footprints.get? n = some f →
    out n ≤ (inp n).transfer p.aliases f

/-- The solution has these values, and none outside the region. -/
structure Assigns (p : Problem) (sol : Solution) (inp out : NodeId → Reaching) : Prop where
  input : ∀ n, sol.inputs.get? n = if n ∈ p.region.nodes then some (inp n) else none
  output : ∀ n, sol.outputs.get? n = if n ∈ p.region.nodes then some (out n) else none

/- Values as the solver keeps them. -/

def stored (ns : List NodeId) (out : NodeId → Reaching) : NodeMap Reaching :=
  ⟨ns.map fun n => (n, out n)⟩

theorem get?_stored (ns : List NodeId) :
    (stored ns out).get? n = if n ∈ ns then some (out n) else none := by
  induction ns with
  | nil => rfl
  | cons k ns ih =>
    change ((k, out k) :: ns.map fun n => (n, out n)).lookup n = _
    have ih : (ns.map fun n => (n, out n)).lookup n = _ := ih
    by_cases h : n = k
    · simp [h]
    · simp [List.lookup_cons, beq_false_of_ne h, ih, h]

theorem inputOf_congr {o o' : NodeMap Reaching} (h : ∀ m, o.get? m = o'.get? m) :
    p.inputOf o n node = p.inputOf o' n node := by
  unfold inputOf
  rw [funext h]

theorem inputOf_stored : p.inputOf (stored p.region.nodes out) n node =
    if n = p.region.entry then .start else
      ((node.preds.filter fun k => decide (k ∈ p.region.nodes)).map out).foldl
        Reaching.meet .top := by
  have hpreds : ∀ ks : List NodeId, ks.filterMap (stored p.region.nodes out).get? =
      (ks.filter fun k => decide (k ∈ p.region.nodes)).map out := by
    intro ks
    induction ks with
    | nil => rfl
    | cons k ks ih =>
      rw [List.filterMap_cons, List.filter_cons, get?_stored, ih]
      by_cases h : k ∈ p.region.nodes <;> simp [h]
  rw [inputOf, hpreds]

theorem Balanced.supported (hc : p.Closed) (h : p.Balanced inp out) : p.Supported inp out where
  entry n hn he := by
    obtain ⟨node, hnode⟩ := hc.node n hn
    rw [h.input n hn node hnode, if_pos he]
    exact Reaching.le_refl _
  edge n hn node hnode he k hk hmem := by
    rw [h.input n hn node hnode, ← inputOf_stored]
    exact inputOf_le he hk (by rw [get?_stored, if_pos hmem])
  output n hn f hf := by
    rw [h.output n hn f hf]
    exact Reaching.le_refl _

/- Where no edge leaves the region, a run has values in the region only. -/
structure Within (p : Problem) (s : State) : Prop where
  queue : ∀ n ∈ s.queue, n ∈ p.region.nodes
  inputs : ∀ n x, s.inputs.get? n = some x → n ∈ p.region.nodes
  outputs : ∀ n x, s.outputs.get? n = some x → n ∈ p.region.nodes

theorem within_begin : p.Within p.begin where
  queue _ h := h
  inputs _ _ h := by simp at h
  outputs _ _ h := (begin_outputs_eq_some.1 h).1

theorem Within.step (hc : p.Closed) (h : p.Within s) (hq : s.queue = n :: rest)
    (ht : p.Steps s n rest t) : p.Within t := by
  have hn : n ∈ p.region.nodes := h.queue n (by simp [hq])
  have hset : ∀ {o : NodeMap Reaching} {x : Reaching},
      (∀ k y, o.get? k = some y → k ∈ p.region.nodes) →
      ∀ k y, (o.set n x).get? k = some y → k ∈ p.region.nodes := by
    intro o x ho k y hk
    rw [NodeMap.get?_set] at hk
    split at hk
    · rename_i hkn
      exact hkn ▸ hn
    · exact ho k y hk
  have hqueue := hc.queue_step h.queue hq ht
  cases ht with
  | same => exact ⟨hqueue, hset h.inputs, h.outputs⟩
  | change =>
    refine ⟨hqueue, ?_, ?_⟩
    · rw [enqueue_all_inputs]
      exact hset h.inputs
    · rw [enqueue_all_outputs]
      exact hset h.outputs

/- The values that a run stores never fall below supported ones. -/
def Above (out : NodeId → Reaching) (s : State) : Prop :=
  ∀ n y, s.outputs.get? n = some y → out n ≤ y

theorem above_begin : Above out p.begin := by
  intro n y h
  obtain ⟨-, rfl⟩ := begin_outputs_eq_some.1 h
  exact Reaching.le_top _

section Below
variable {o : NodeMap Reaching} (hs : p.Supported inp out)
  (hmem : ∀ n y, o.get? n = some y → n ∈ p.region.nodes)
  (hle : ∀ n y, o.get? n = some y → out n ≤ y)
  (hn : n ∈ p.region.nodes) (hnode : p.tree.node? n = some node)
include hs hmem hle hn hnode

theorem Supported.input_le : inp n ≤ p.inputOf o n node := by
  by_cases he : n = p.region.entry
  · rw [he, inputOf_entry]
    exact he ▸ hs.entry n hn he
  · exact le_inputOf he fun k hk y hy =>
      Reaching.le_trans (hs.edge n hn node hnode he k hk (hmem k y hy)) (hle k y hy)

theorem Supported.output_le {f : Footprint} (hf : p.footprints.get? n = some f) :
    out n ≤ (p.inputOf o n node).transfer p.aliases f :=
  Reaching.le_trans (hs.output n hn f hf)
    (Reaching.transfer_mono (hs.input_le hmem hle hn hnode))

end Below

theorem Above.step (hb : p.Supported inp out) (hw : p.Within s) (h : Above out s)
    (hq : s.queue = n :: rest) (ht : p.Steps s n rest t) : Above out t := by
  cases ht with
  | same => exact h
  | change hnode hf hx =>
    intro k y hk
    simp only [enqueue_all_outputs, State.store, State.visit, NodeMap.get?_set] at hk
    split at hk
    · rename_i hkn
      rw [← Option.some.inj hk, hx, hkn]
      exact hb.output_le hw.outputs h (hw.queue n (by simp [hq])) hnode hf
    · exact h k y hk

theorem within_of_solve (hc : p.Closed) (h : p.solve = .ok sol) :
    ∃ s, sol = s.solution p ∧ p.Within s ∧ ∀ inp out, p.Supported inp out → Above out s := by
  obtain ⟨s, hs, rfl⟩ := solve_eq_ok h
  have hinv : p.Within s ∧ ∀ inp out, p.Supported inp out → Above out s := by
    have hrun := run_inv (fun s => p.Within s ∧ ∀ inp out, p.Supported inp out → Above out s)
      (fun _ _ _ _ h hq ht => ⟨h.1.step hc hq ht,
        fun inp out hb => (h.2 inp out hb).step hb h.1 hq ht⟩)
      p.stepBound p.begin ⟨within_begin, fun _ _ _ => above_begin⟩
    rwa [hs] at hrun
  exact ⟨s, rfl, hinv⟩

/-- The solver's values fit each other, and no supported ones lie anywhere above them. -/
structure Greatest (p : Problem) (inp out : NodeId → Reaching) : Prop
    extends p.Balanced inp out where
  closed : p.Closed
  largest : ∀ inp' out', p.Supported inp' out' →
    ∀ n ∈ p.region.nodes, inp' n ≤ inp n ∧ out' n ≤ out n

theorem Greatest.above (h : p.Greatest inp out) (inp' out' : NodeId → Reaching)
    (hb : p.Balanced inp' out') : ∀ n ∈ p.region.nodes, inp' n ≤ inp n ∧ out' n ≤ out n :=
  h.largest inp' out' (hb.supported h.closed)

theorem Greatest.toSupported (h : p.Greatest inp out) : p.Supported inp out :=
  h.toBalanced.supported h.closed

theorem exists_greatest (hl : p.tree.Linked) (hc : p.Closed) :
    ∃ sol inp out, p.solve = .ok sol ∧ p.Assigns sol inp out ∧ p.Greatest inp out := by
  obtain ⟨sol, hsol⟩ := solve_ok hc
  have hs := solves_of_solve hl hsol
  obtain ⟨s, rfl, hw, ha⟩ := within_of_solve hc hsol
  let inp := fun n => (s.inputs.get? n).getD .top
  let out := fun n => (s.outputs.get? n).getD .top
  have hass : p.Assigns (s.solution p) inp out := by
    refine ⟨fun n => ?_, fun n => ?_⟩
    · cases hx : s.inputs.get? n with
      | none =>
        rw [if_neg]
        · exact hx
        · intro hn
          obtain ⟨_, _, _, -, -, hx', -⟩ := hs.flow n hn
          exact absurd (hx.symm.trans hx') (by simp)
      | some x => rw [if_pos (hw.inputs n x hx)]; simp [State.solution, inp, hx]
    · cases hy : s.outputs.get? n with
      | none =>
        rw [if_neg]
        · exact hy
        · intro hn
          obtain ⟨_, _, _, -, -, -, hy'⟩ := hs.flow n hn
          exact absurd (hy.symm.trans hy') (by simp)
      | some y => rw [if_pos (hw.outputs n y hy)]; simp [State.solution, out, hy]
  have hinput : ∀ n ∈ p.region.nodes, ∀ node, p.tree.node? n = some node →
      inp n = p.inputOf s.outputs n node := by
    intro n hn node hnode
    exact hs.input n node _ hnode (by rw [hass.input, if_pos hn])
  have hstored : ∀ m, s.outputs.get? m = (stored p.region.nodes out).get? m := by
    intro m
    rw [get?_stored]
    exact hass.output m
  refine ⟨_, inp, out, hsol, hass, ⟨fun n hn node hnode => ?_, fun n hn f hf => ?_⟩, hc,
    fun inp' out' hb n hn => ⟨?_, ?_⟩⟩
  · rw [hinput n hn node hnode, inputOf_congr hstored, inputOf_stored]
  · obtain ⟨_, f', x, -, hf', hx, hy⟩ := hs.flow n hn
    obtain rfl := Option.some.inj (hf.symm.trans hf')
    rw [hass.input, if_pos hn] at hx
    rw [hass.output, if_pos hn] at hy
    rw [Option.some.inj hy, Option.some.inj hx]
  · obtain ⟨node, hnode⟩ := hc.node n hn
    rw [hinput n hn node hnode]
    exact hb.input_le hw.outputs (ha inp' out' hb) hn hnode
  · exact ha inp' out' hb n (out n) ((hass.output n).trans (if_pos hn))

/-- A solution holds nothing but what the footprints of the region write. -/
theorem outputs_within {D W : Location → Prop} {x : Reaching} (hc : p.Closed)
    (hf : ∀ n ∈ p.region.nodes, ∀ f, p.footprints.get? n = some f →
      (∀ l ∈ f.defs, D l) ∧ ∀ l, l ∈ f.defs ∨ l ∈ f.mayDefs → W l)
    (h : p.solve = .ok sol) (hx : sol.outputs.get? n = some x) : x.Within D W := by
  obtain ⟨s, hrun, rfl⟩ := solve_eq_ok h
  have hinv := run_inv (p := p) (fun s => (∀ k ∈ s.queue, k ∈ p.region.nodes) ∧
      ∀ k y, s.outputs.get? k = some y → y.Within D W) ?_ p.stepBound p.begin
    ⟨fun _ hk => hk, fun k y hy => ?_⟩
  · rw [hrun] at hinv
    exact hinv.2 n x hx
  · rintro s k rest t ⟨hqueue, hout⟩ hq ht
    have hk : k ∈ p.region.nodes := hqueue k (by simp [hq])
    refine ⟨hc.queue_step hqueue hq ht, fun j y hj => ?_⟩
    cases ht with
    | same => exact hout j y hj
    | change hnode hfoot hin hy =>
      simp only [enqueue_all_outputs, State.store, State.visit, NodeMap.get?_set] at hj
      split at hj
      · obtain rfl := Option.some.inj hj
        obtain ⟨hD, hW⟩ := hf k hk _ hfoot
        rw [hin]
        exact (within_inputOf hout _).transfer hD hW
      · exact hout j y hj
  · obtain ⟨-, rfl⟩ := begin_outputs_eq_some.1 hy
    exact Reaching.within_top

theorem Greatest.unique {inp' out' : NodeId → Reaching} (hg : p.Greatest inp out)
    (hg' : p.Greatest inp' out') (hn : n ∈ p.region.nodes) : inp n = inp' n ∧ out n = out' n := by
  obtain ⟨hin, hout⟩ := hg.largest _ _ hg'.toSupported n hn
  obtain ⟨hin', hout'⟩ := hg'.largest _ _ hg.toSupported n hn
  exact ⟨Reaching.le_antisymm hin' hin, Reaching.le_antisymm hout' hout⟩

theorem Greatest.within {D W : Location → Prop} (hl : p.tree.Linked) (hg : p.Greatest inp out)
    (hf : ∀ n ∈ p.region.nodes, ∀ f, p.footprints.get? n = some f →
      (∀ l ∈ f.defs, D l) ∧ ∀ l, l ∈ f.defs ∨ l ∈ f.mayDefs → W l) (hn : n ∈ p.region.nodes) :
    (inp n).Within D W ∧ (out n).Within D W := by
  obtain ⟨sol, inp₀, out₀, hsol, hass, hg₀⟩ := exists_greatest hl hg.closed
  obtain ⟨hin, hout⟩ := hg.unique hg₀ hn
  have hwithin : ∀ k y, sol.outputs.get? k = some y → y.Within D W :=
    fun k y hy => outputs_within hg.closed hf hsol hy
  obtain ⟨node, hnode⟩ := hg.closed.node n hn
  have hinput : inp n = p.inputOf sol.outputs n node :=
    hin.trans ((solves_of_solve hl hsol).input n node _ hnode (by rw [hass.input, if_pos hn]))
  exact ⟨hinput ▸ within_inputOf hwithin node, hwithin n _ (by rw [hass.output, if_pos hn, hout])⟩

/-- One graph under two numberings: the nodes that `N` relates are the same, with the same edges and
footprints that let every value through alike. -/
structure Twin (N : NodeId → NodeId → Prop) (p q : Problem) : Prop where
  unique : Relator.BiUnique N
  entry : N p.region.entry q.region.entry
  forth : ∀ n ∈ p.region.nodes, ∃ k ∈ q.region.nodes, N n k
  back : ∀ k ∈ q.region.nodes, ∃ n ∈ p.region.nodes, N n k
  alike : ∀ n ∈ p.region.nodes, ∀ k, N n k → ∃ node node' f g,
    p.tree.node? n = some node ∧ q.tree.node? k = some node' ∧
    (∀ j l, N j l → (j ∈ node.preds ↔ l ∈ node'.preds)) ∧
    p.footprints.get? n = some f ∧ q.footprints.get? k = some g ∧
    ∀ x : Reaching, x.transfer p.aliases f = x.transfer q.aliases g

namespace Twin
variable {N : NodeId → NodeId → Prop} {number : NodeId → NodeId} (h : p.Twin N q)
include h

theorem symm : q.Twin (flip N) p where
  unique := ⟨fun _ _ _ hn hk => h.unique.2 hn hk, fun _ _ _ hn hk => h.unique.1 hn hk⟩
  entry := h.entry
  forth := h.back
  back := h.forth
  alike k hk n hnk := by
    obtain ⟨n', hn', hnk'⟩ := h.back k hk
    obtain rfl := h.unique.1 hnk hnk'
    obtain ⟨node, node', f, g, hn, hk, hpreds, hf, hg, hx⟩ := h.alike n hn' k hnk
    exact ⟨node', node, g, f, hk, hn, fun j l hjl => (hpreds l j hjl).symm, hg, hf,
      fun x => (hx x).symm⟩

/- Values for the one numbering are values for the other. -/
theorem balanced (hnumber : ∀ n ∈ p.region.nodes, number n ∈ q.region.nodes ∧ N n (number n))
    (hb : q.Balanced inp out) : p.Balanced (inp ∘ number) (out ∘ number) where
  input n hn node hnode := by
    obtain ⟨hk, hnk⟩ := hnumber n hn
    obtain ⟨node₁, node', _, _, hnode₁, hnode', hpreds, -⟩ := h.alike n hn _ hnk
    obtain rfl := Option.some.inj (hnode.symm.trans hnode₁)
    have hentry : number n = q.region.entry ↔ n = p.region.entry :=
      ⟨fun he => h.unique.1 (he ▸ hnk) h.entry, fun he => h.unique.2 hnk (he ▸ h.entry)⟩
    rw [Function.comp, hb.input _ hk node' hnode']
    simp only [hentry]
    congr 1
    refine Reaching.meet_all_congr fun y => ?_
    simp only [List.mem_map, List.mem_filter, decide_eq_true_eq, Function.comp]
    constructor
    · rintro ⟨l, ⟨hl, hlmem⟩, rfl⟩
      obtain ⟨j, hj, hjl⟩ := h.back l hlmem
      obtain rfl := h.unique.2 (hnumber j hj).2 hjl
      exact ⟨j, ⟨(hpreds j _ hjl).2 hl, hj⟩, rfl⟩
    · rintro ⟨j, ⟨hj, hjmem⟩, rfl⟩
      exact ⟨_, ⟨(hpreds j _ (hnumber j hjmem).2).1 hj, (hnumber j hjmem).1⟩, rfl⟩
  output n hn f hf := by
    obtain ⟨hk, hnk⟩ := hnumber n hn
    obtain ⟨_, _, f₁, g, -, -, -, hf₁, hg, hx⟩ := h.alike n hn _ hnk
    obtain rfl := Option.some.inj (hf.symm.trans hf₁)
    exact (hb.output _ hk g hg).trans (hx _).symm

theorem exists_number : ∃ number : NodeId → NodeId,
    ∀ n ∈ p.region.nodes, number n ∈ q.region.nodes ∧ N n (number n) := by
  choose! number hnumber using h.forth
  exact ⟨number, hnumber⟩

theorem greatest_le {inp' out' : NodeId → Reaching} (hg : p.Greatest inp out)
    (hb : q.Balanced inp' out') (hn : n ∈ p.region.nodes) (hk : N n k) :
    inp' k ≤ inp n ∧ out' k ≤ out n := by
  obtain ⟨number, hnumber⟩ := h.exists_number
  obtain rfl := h.unique.2 (hnumber n hn).2 hk
  exact hg.above _ _ (h.balanced hnumber hb) n hn

theorem greatest_eq {inp' out' : NodeId → Reaching} (hg : p.Greatest inp out)
    (hg' : q.Greatest inp' out') (hn : n ∈ p.region.nodes) (hk : N n k) :
    inp' k = inp n ∧ out' k = out n := by
  obtain ⟨k', hk', hnk⟩ := h.forth n hn
  obtain rfl := h.unique.2 hnk hk
  obtain ⟨hi, ho⟩ := h.greatest_le hg hg'.toBalanced hn hk
  obtain ⟨hi', ho'⟩ := h.symm.greatest_le hg' hg.toBalanced hk' hk
  exact ⟨Reaching.le_antisymm hi hi', Reaching.le_antisymm ho ho'⟩

/-- The solver comes to the same values at nodes that are the same. -/
theorem solve_eq {sol' : Solution} (hl : p.tree.Linked) (hl' : q.tree.Linked) (hc : p.Closed)
    (hc' : q.Closed) (hsol : p.solve = .ok sol) (hsol' : q.solve = .ok sol')
    (hn : n ∈ p.region.nodes) (hk : N n k) :
    sol'.inputs.get? k = sol.inputs.get? n ∧ sol'.outputs.get? k = sol.outputs.get? n := by
  obtain ⟨sol₁, inp, out, hsol₁, hass, hg⟩ := exists_greatest hl hc
  obtain ⟨sol₁', inp', out', hsol₁', hass', hg'⟩ := exists_greatest hl' hc'
  obtain rfl := Except.ok.inj (hsol.symm.trans hsol₁)
  obtain rfl := Except.ok.inj (hsol'.symm.trans hsol₁')
  obtain ⟨k', hk', hnk⟩ := h.forth n hn
  obtain rfl := h.unique.2 hnk hk
  obtain ⟨hin, hout⟩ := h.greatest_eq hg hg' hn hk
  rw [hass.input, hass.output, hass'.input, hass'.output]
  simp only [if_pos hn, if_pos hk', hin, hout, and_self]

end Twin

/-- The same graph with the same footprints, in whatever order its lists name the nodes and the
edges. -/
structure SameGraph (p q : Problem) : Prop where
  entry : q.region.entry = p.region.entry
  nodes : ∀ n, n ∈ q.region.nodes ↔ n ∈ p.region.nodes
  known : ∀ n, (∃ node, q.tree.node? n = some node) ↔ ∃ node, p.tree.node? n = some node
  succs : ∀ n node node', p.tree.node? n = some node → q.tree.node? n = some node' →
    ∀ k, k ∈ node'.succs ↔ k ∈ node.succs
  preds : ∀ n node node', p.tree.node? n = some node → q.tree.node? n = some node' →
    ∀ k, k ∈ node'.preds ↔ k ∈ node.preds
  footprints : ∀ n, q.footprints.get? n = p.footprints.get? n
  aliases : q.aliases = p.aliases

namespace SameGraph
variable (h : p.SameGraph q)
include h

theorem linked (hl : p.tree.Linked) : q.tree.Linked := by
  intro n node' hn' m
  obtain ⟨node, hn⟩ := (h.known n).1 ⟨node', hn'⟩
  rw [h.preds n node node' hn hn', hl n node hn m]
  constructor
  · rintro ⟨k, hk, hs⟩
    obtain ⟨k', hk'⟩ := (h.known m).2 ⟨k, hk⟩
    exact ⟨k', hk', (h.succs m k k' hk hk' n).2 hs⟩
  · rintro ⟨k', hk', hs⟩
    obtain ⟨k, hk⟩ := (h.known m).1 ⟨k', hk'⟩
    exact ⟨k, hk, (h.succs m k k' hk hk' n).1 hs⟩

theorem closed (hc : p.Closed) : q.Closed where
  node n hn := (h.known n).2 (hc.node n ((h.nodes n).1 hn))
  footprint n hn := by
    rw [h.footprints n]
    exact hc.footprint n ((h.nodes n).1 hn)
  stays n hn node' hn' k hk := by
    obtain ⟨node, hnode⟩ := (h.known n).1 ⟨node', hn'⟩
    exact (h.nodes k).2 (hc.stays n ((h.nodes n).1 hn) node hnode k
      ((h.succs n node node' hnode hn' k).1 hk))

theorem twin (hc : p.Closed) : p.Twin Eq q where
  unique := ⟨fun _ _ _ hn hk => hn.trans hk.symm, fun _ _ _ hn hk => hn.symm.trans hk⟩
  entry := h.entry.symm
  forth n hn := ⟨n, (h.nodes n).2 hn, rfl⟩
  back n hn := ⟨n, (h.nodes n).1 hn, rfl⟩
  alike := by
    rintro n hn _ rfl
    obtain ⟨node, hnode⟩ := hc.node n hn
    obtain ⟨node', hnode'⟩ := (h.known n).2 ⟨node, hnode⟩
    obtain ⟨f, hf⟩ := hc.footprint n hn
    refine ⟨node, node', f, f, hnode, hnode', ?_, hf, (h.footprints n).trans hf, fun x => ?_⟩
    · rintro j _ rfl
      exact (h.preds n node node' hnode hnode' j).symm
    · rw [h.aliases]

end SameGraph

/-- A block that leads to itself and cannot be reached. -/
def spinning : Problem where
  tree := ((TreeBuilder.new "routine").run [.block 0 [0], .edge 2 2]).finish
  region := { id := 0, name := "routine", kind := .body, entry := 0, exit := 1, nodes := [0, 1, 2] }
  footprints := ⟨[(0, {}), (1, {}), (2, {})]⟩
  aliases := ({} : AliasModel).overlap

/-- The nodes are visited the other way round. -/
def backward (p : Problem) : Problem :=
  { p with region := { p.region with nodes := p.region.nodes.reverse } }

theorem sameGraph_backward : p.SameGraph p.backward where
  entry := rfl
  nodes n := List.mem_reverse
  known n := Iff.rfl
  succs n node node' hn hn' k := by rw [Option.some.inj (hn.symm.trans hn')]
  preds n node node' hn hn' k := by rw [Option.some.inj (hn.symm.trans hn')]
  footprints n := rfl
  aliases := rfl

/-- Where the edges of a region lead to its own nodes, the solver finds values that fit each other,
and every others that do lie below. So it finds the same ones whatever the order of the region's
nodes, of the successors and of the predecessors. -/
theorem solve_greatest {routine : String} {regions : Array Region} {nodes : Array Node}
    (ht : p.tree = .ofParts routine regions nodes) (hi : p.tree.Indexed) (hc : p.Closed) :
    ∃ sol inp out, p.solve = .ok sol ∧ p.Assigns sol inp out ∧ p.Balanced inp out ∧
      (∀ inp' out', p.Balanced inp' out' →
        ∀ n ∈ p.region.nodes, inp' n ≤ inp n ∧ out' n ≤ out n) ∧
      ∀ q, p.SameGraph q → ∃ sol', q.solve = .ok sol' ∧
        ∀ n, sol'.inputs.get? n = sol.inputs.get? n ∧ sol'.outputs.get? n = sol.outputs.get? n := by
  have hl : p.tree.Linked := by
    rw [ht] at hi ⊢
    exact RegionTree.linked_ofParts hi
  obtain ⟨sol, inp, out, hsol, hass, hg⟩ := exists_greatest hl hc
  refine ⟨sol, inp, out, hsol, hass, hg.toBalanced, hg.above, fun q hq => ?_⟩
  obtain ⟨sol', inp', out', hsol', hass', hg'⟩ := exists_greatest (hq.linked hl) (hq.closed hc)
  refine ⟨sol', hsol', fun n => ?_⟩
  rw [hass.input, hass.output, hass'.input, hass'.output]
  by_cases hn : n ∈ p.region.nodes
  · obtain ⟨hin, hout⟩ := (hq.twin hc).greatest_eq hg hg' hn rfl
    have hn' : n ∈ q.region.nodes := (hq.nodes n).2 hn
    simp only [if_pos hn, if_pos hn', hin, hout, and_self]
  · have hn' : n ∉ q.region.nodes := fun h => hn ((hq.nodes n).1 h)
    simp only [if_neg hn, if_neg hn', and_self]

theorem solve_greatest_spinning : ∃ sol sol', spinning.solve = .ok sol ∧
    sol.inputs.get? 2 = some .top ∧ spinning.Balanced (fun _ => .start) (fun _ => .start) ∧
    Reaching.start ≤ Reaching.top ∧ spinning.backward.solve = .ok sol' ∧
    sol'.inputs.get? 2 = some .top := by
  have hindexed : spinning.tree.Indexed := (RegionTree.validate_eq_ok.1 (by decide +kernel)).indexed
  obtain ⟨sol, inp, out, hsol, hass, -, habove, hsame⟩ := solve_greatest rfl hindexed
    (by decide +kernel)
  have hlower : spinning.Balanced (fun _ => .start) (fun _ => .start) := by
    have hin : ∀ n ∈ spinning.region.nodes, ∀ node ∈ spinning.tree.node? n,
        Reaching.start = if n = spinning.region.entry then .start else
          ((node.preds.filter fun k => decide (k ∈ spinning.region.nodes)).map
            fun _ => Reaching.start).foldl Reaching.meet .top := by
      decide +kernel
    have hout : ∀ n ∈ spinning.region.nodes, ∀ f ∈ spinning.footprints.get? n,
        Reaching.start = Reaching.start.transfer spinning.aliases f := by
      decide +kernel
    exact ⟨hin, hout⟩
  have hvalue : (spinning.solve.toOption.bind fun sol => sol.inputs.get? 2) = some .top := by
    decide +kernel
  rw [hsol] at hvalue
  have htwo : sol.inputs.get? 2 = some .top := hvalue
  have htop : inp 2 = .top := by
    rw [hass.input, if_pos (by decide +kernel)] at htwo
    exact Option.some.inj htwo
  obtain ⟨sol', hsol', hvalues⟩ := hsame _ sameGraph_backward
  refine ⟨sol, sol', hsol, htwo, hlower, ?_, hsol', (hvalues 2).1.trans htwo⟩
  exact htop ▸ (habove _ _ hlower 2 (by decide +kernel)).1

end LoopMemory.Problem
