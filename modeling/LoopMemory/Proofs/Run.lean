import LoopMemory.Footprint.Block
import LoopMemory.Footprint.Summary
import LoopMemory.Proofs.Reaching
import LoopMemory.Region.Validation

/-! Runs of the regions of a routine, and what their instructions do to memory on the way. -/
namespace LoopMemory

/-- What happens to memory along a run. -/
inductive Event where
  | access (a : Access)
  | unknown (i : Inst) (u : UnknownAccess)
deriving DecidableEq

/-- Any location may be overwritten. -/
def Event.clobbers : Event → Bool
  | access _ => false
  | unknown _ u => u.write.isAny

namespace Memory

/-- An instruction makes its accesses in their order and then touches what is unknown. One that is
not resolved may read and write anything. -/
def instEvents (m : Memory) (i : Inst) : List Event :=
  match m.effects i with
  | none => [.unknown i .conservative]
  | some e => e.accesses.map .access ++ (e.unknown.map (.unknown i)).toList

theorem unknown_mem_instEvents {m : Memory} {i j : Inst} {u : UnknownAccess} :
    .unknown i u ∈ m.instEvents j ↔ i = j ∧ ((m.effects j = none ∧ u = .conservative) ∨
      ∃ e, m.effects j = some e ∧ e.unknown = some u) := by
  unfold instEvents
  cases m.effects j with
  | none => simp
  | some e => simp [and_comm, eq_comm (a := j)]

def blockEvents (m : Memory) (insts : List Inst) : List Event := insts.flatMap m.instEvents

/-- The runs of a region from its entry up to the arrival at a node, each with all that happened.
A node that stands for a loop runs it from its entry to some arrival at its exit, or not at all
where the loop may run no iteration. -/
inductive Run (m : Memory) (t : RegionTree) : RegionId → NodeId → List Event → Prop
  | enter {r : RegionId} {region : Region} (hr : t.region? r = some region) :
      Run m t r region.entry []
  | pass {r : RegionId} {n k : NodeId} {node : Node} {es : List Event} (run : Run m t r n es)
      (hn : t.node? n = some node) (hk : node.kind = .entry ∨ node.kind = .exit)
      (hs : k ∈ node.succs) : Run m t r k es
  | block {r : RegionId} {n k : NodeId} {node : Node} {es : List Event} {insts : List Inst}
      (run : Run m t r n es) (hn : t.node? n = some node) (hk : node.kind = .block insts)
      (hs : k ∈ node.succs) : Run m t r k (es ++ m.blockEvents insts)
  | loop {r c : RegionId} {n k : NodeId} {node : Node} {inner : Region} {es es' : List Event}
      (run : Run m t r n es) (hn : t.node? n = some node) (hk : node.kind = .region c)
      (hc : t.region? c = some inner) (within : Run m t c inner.exit es')
      (hs : k ∈ node.succs) : Run m t r k (es ++ es')
  | skip {r c : RegionId} {n k : NodeId} {node : Node} {inner : Region} {es : List Event}
      (run : Run m t r n es) (hn : t.node? n = some node) (hk : node.kind = .region c)
      (hc : t.region? c = some inner) (hz : inner.runsOnce m.settings = false)
      (hs : k ∈ node.succs) : Run m t r k es

/-- One whole way through a node. -/
inductive Across (m : Memory) (t : RegionTree) : NodeId → List Event → Prop
  | pass {n : NodeId} {node : Node} (hn : t.node? n = some node)
      (hk : node.kind = .entry ∨ node.kind = .exit) : Across m t n []
  | block {n : NodeId} {node : Node} {insts : List Inst} (hn : t.node? n = some node)
      (hk : node.kind = .block insts) : Across m t n (m.blockEvents insts)
  | loop {n : NodeId} {node : Node} {c : RegionId} {inner : Region} {es : List Event}
      (hn : t.node? n = some node) (hk : node.kind = .region c) (hc : t.region? c = some inner)
      (within : Run m t c inner.exit es) : Across m t n es
  | skip {n : NodeId} {node : Node} {c : RegionId} {inner : Region}
      (hn : t.node? n = some node) (hk : node.kind = .region c) (hc : t.region? c = some inner)
      (hz : inner.runsOnce m.settings = false) : Across m t n []

/-- The runs of a region that break off anywhere: between two nodes, in the middle of a block, or
inside a loop. -/
inductive Started (m : Memory) (t : RegionTree) : RegionId → List Event → Prop
  | arrived {r : RegionId} {n : NodeId} {es : List Event} (run : Run m t r n es) : Started m t r es
  | block {r : RegionId} {n : NodeId} {node : Node} {insts : List Inst} {es es' rest : List Event}
      (run : Run m t r n es) (hn : t.node? n = some node) (hk : node.kind = .block insts)
      (hs : es' ++ rest = m.blockEvents insts) : Started m t r (es ++ es')
  | loop {r c : RegionId} {n : NodeId} {node : Node} {es es' : List Event}
      (run : Run m t r n es) (hn : t.node? n = some node) (hk : node.kind = .region c)
      (within : Started m t c es') : Started m t r (es ++ es')

/-- Some certain write covers the location. -/
def Covered (m : Memory) (l : Location) (es : List Event) : Prop :=
  ∃ a, .access a ∈ es ∧ m.writeOf a = .must ∧ a.location.covers l = true

/-- Some certain write covers the location, and nothing unknown is written after it. -/
def Written (m : Memory) (l : Location) (es : List Event) : Prop :=
  ∃ before a after, es = before ++ .access a :: after ∧ m.writeOf a = .must ∧
    a.location.covers l = true ∧ ∀ e ∈ after, e.clobbers = false

/-- The location is read while no certain write covers it. -/
def Exposed (m : Memory) (l : Location) (es : List Event) : Prop :=
  ∃ before a after, es = before ++ .access a :: after ∧ a.read.isAny = true ∧ a.location = l ∧
    ¬m.Covered l before

variable {m : Memory} {t : RegionTree} {l k : Location} {es es' : List Event}

theorem Written.covered (h : m.Written l es) : m.Covered l es := by
  obtain ⟨before, a, after, rfl, hw, hl, -⟩ := h
  exact ⟨a, by simp, hw, hl⟩

theorem Written.covers (h : m.Written l es) (hk : l.covers k = true) : m.Written k es := by
  obtain ⟨before, a, after, he, hw, hl, hc⟩ := h
  exact ⟨before, a, after, he, hw, Location.covers_trans hl hk, hc⟩

theorem Written.prepend (h : m.Written l es') (es : List Event) : m.Written l (es ++ es') := by
  obtain ⟨before, a, after, rfl, hw, hl, hc⟩ := h
  exact ⟨es ++ before, a, after, by simp, hw, hl, hc⟩

theorem Written.append (h : m.Written l es) (hc : ∀ e ∈ es', e.clobbers = false) :
    m.Written l (es ++ es') := by
  obtain ⟨before, a, after, rfl, hw, hl, ha⟩ := h
  refine ⟨before, a, after ++ es', by simp, hw, hl, fun e he => ?_⟩
  rcases List.mem_append.1 he with he | he
  · exact ha e he
  · exact hc e he

theorem Covered.mono (h : m.Covered l es) (hs : es ⊆ es') : m.Covered l es' := by
  obtain ⟨a, ha, hw, hl⟩ := h
  exact ⟨a, hs ha, hw, hl⟩

theorem split_append {α : Type} {es es' before after : List α} {a : α}
    (h : es ++ es' = before ++ a :: after) :
    (∃ mid, es = before ++ a :: mid) ∨ ∃ mid, before = es ++ mid ∧ es' = mid ++ a :: after := by
  rcases List.append_eq_append_iff.1 h with ⟨mid, hb, he⟩ | ⟨mid, hes, ha⟩
  · exact .inr ⟨mid, hb, he⟩
  · cases mid with
    | nil => exact .inr ⟨[], by simpa using hes.symm, by simpa using ha.symm⟩
    | cons b mid =>
      obtain ⟨rfl, -⟩ := List.cons.inj ha
      exact .inl ⟨mid, hes⟩

theorem Exposed.of_append (h : m.Exposed l (es ++ es')) :
    m.Exposed l es ∨ (¬m.Covered l es ∧ m.Exposed l es') := by
  obtain ⟨before, a, after, he, hr, hl, hn⟩ := h
  rcases split_append he with ⟨mid, hes⟩ | ⟨mid, rfl, hes⟩
  · exact .inl ⟨before, a, mid, hes, hr, hl, hn⟩
  · refine .inr ⟨fun hc => hn (hc.mono (by simp)), mid, a, after, hes, hr, hl, fun hc => ?_⟩
    exact hn (hc.mono (by simp))

theorem Exposed.append (h : m.Exposed l es) (es' : List Event) : m.Exposed l (es ++ es') := by
  obtain ⟨before, a, after, rfl, hr, hl, hn⟩ := h
  exact ⟨before, a, after ++ es', by simp, hr, hl, hn⟩

theorem not_exposed_nil : ¬m.Exposed l [] := by
  rintro ⟨before, a, after, he, -⟩
  simp at he

theorem exposed_singleton {e : Event} (h : m.Exposed l [e]) :
    ∃ a, e = .access a ∧ a.read.isAny = true ∧ a.location = l := by
  obtain ⟨before, a, after, he, hr, hl, -⟩ := h
  rcases List.singleton_eq_append_iff.1 he with ⟨-, he⟩ | ⟨-, he⟩
  · obtain ⟨rfl, -⟩ := List.cons.inj he
    exact ⟨a, rfl, hr, hl⟩
  · simp at he

/- A way through a node is one that its kind allows. -/

section Across
variable {n : NodeId} {node : Node}

theorem across_end (hn : t.node? n = some node) (hk : node.kind = .entry ∨ node.kind = .exit) :
    m.Across t n es ↔ es = [] := by
  constructor
  · intro ha
    cases ha with
    | pass => rfl
    | skip => rfl
    | block hn' hk' | loop hn' hk' =>
      obtain rfl := Option.some.inj (hn.symm.trans hn')
      simp [hk'] at hk
  · rintro rfl
    exact .pass hn hk

theorem across_block {insts : List Inst} (hn : t.node? n = some node)
    (hk : node.kind = .block insts) : m.Across t n es ↔ es = m.blockEvents insts := by
  constructor
  · intro ha
    cases ha with
    | block hn' hk' =>
      obtain rfl := Option.some.inj (hn.symm.trans hn')
      rw [hk] at hk'
      rw [NodeKind.block.inj hk']
    | pass hn' hk' | skip hn' hk' | loop hn' hk' =>
      obtain rfl := Option.some.inj (hn.symm.trans hn')
      simp [hk] at hk'
  · rintro rfl
    exact .block hn hk

theorem across_region {c : RegionId} {inner : Region} (hn : t.node? n = some node)
    (hk : node.kind = .region c) (hc : t.region? c = some inner) : m.Across t n es ↔
      m.Run t c inner.exit es ∨ (inner.runsOnce m.settings = false ∧ es = []) := by
  constructor
  · intro ha
    cases ha with
    | pass hn' hk' | block hn' hk' =>
      obtain rfl := Option.some.inj (hn.symm.trans hn')
      simp [hk] at hk'
    | loop hn' hk' hc' within =>
      obtain rfl := Option.some.inj (hn.symm.trans hn')
      obtain rfl := NodeKind.region.inj (hk.symm.trans hk')
      obtain rfl := Option.some.inj (hc.symm.trans hc')
      exact .inl within
    | skip hn' hk' hc' hz =>
      obtain rfl := Option.some.inj (hn.symm.trans hn')
      obtain rfl := NodeKind.region.inj (hk.symm.trans hk')
      obtain rfl := Option.some.inj (hc.symm.trans hc')
      exact .inr ⟨hz, rfl⟩
  · rintro (within | ⟨hz, rfl⟩)
    · exact .loop hn hk hc within
    · exact .skip hn hk hc hz

end Across

theorem Run.step {r : RegionId} {n j : NodeId} {node : Node} (h : m.Run t r n es)
    (ha : m.Across t n es') (hn : t.node? n = some node) (hj : j ∈ node.succs) :
    m.Run t r j (es ++ es') := by
  cases ha with
  | pass hn' hk =>
    rw [hn] at hn'
    obtain rfl := Option.some.inj hn'
    simpa using h.pass hn hk hj
  | block hn' hk =>
    rw [hn] at hn'
    obtain rfl := Option.some.inj hn'
    exact h.block hn hk hj
  | loop hn' hk hc within =>
    rw [hn] at hn'
    obtain rfl := Option.some.inj hn'
    exact h.loop hn hk hc within hj
  | skip hn' hk hc hz =>
    rw [hn] at hn'
    obtain rfl := Option.some.inj hn'
    simpa using h.skip hn hk hc hz hj

/-- What holds where a run enters, and passes with the run through each node, holds in the end. -/
theorem Run.along {r : RegionId} {n : NodeId} {P : NodeId → List Event → Prop}
    (run : m.Run t r n es) (enter : ∀ region, t.region? r = some region → P region.entry [])
    (step : ∀ n k node es es', m.Run t r n es → P n es → t.node? n = some node →
      k ∈ node.succs → m.Across t n es' → P k (es ++ es')) : P n es := by
  induction run with
  | enter hr => exact enter _ hr
  | pass run hn hk hs ih =>
    have hnext := step _ _ _ _ _ run (ih enter step) hn hs (.pass hn hk)
    rwa [List.append_nil] at hnext
  | block run hn hk hs ih => exact step _ _ _ _ _ run (ih enter step) hn hs (.block hn hk)
  | loop run hn hk hc within hs ih =>
    exact step _ _ _ _ _ run (ih enter step) hn hs (.loop hn hk hc within)
  | skip run hn hk hc hz hs ih =>
    have hnext := step _ _ _ _ _ run (ih enter step) hn hs (.skip hn hk hc hz)
    rwa [List.append_nil] at hnext

end Memory
end LoopMemory
