import LoopMemory.Proofs.Analysis.Facts
import LoopMemory.Proofs.Footprint.Block
import LoopMemory.Proofs.Solver.Paths
import Mathlib.Logic.Relation

/-! Where every instruction is known and no two locations overlap, the values of the analysis say
just what the runs of a region do. -/
namespace LoopMemory.Memory
variable {m : Memory} {t : RegionTree} {region : Region} {r : RegionId} {n k : NodeId}
  {node : Node} {f g : Footprint} {x v : Reaching} {l : Location} {es es' : List Event}
  {insts : List Inst} {fps : NodeMap Footprint}

/-- A certain write of just this location. -/
def Assigned (m : Memory) (l : Location) (es : List Event) : Prop :=
  ∃ a, .access a ∈ es ∧ m.writeOf a = .must ∧ a.location = l

/-- Any write of just this location. -/
def Wrote (l : Location) (es : List Event) : Prop :=
  ∃ a, .access a ∈ es ∧ a.write.isAny = true ∧ a.location = l

@[simp] theorem not_assigned_nil : ¬m.Assigned l [] := by
  rintro ⟨a, ha, -⟩
  simp at ha

@[simp] theorem not_wrote_nil : ¬Wrote l [] := by
  rintro ⟨a, ha, -⟩
  simp at ha

@[simp] theorem assigned_append :
    m.Assigned l (es ++ es') ↔ m.Assigned l es ∨ m.Assigned l es' := by
  simp [Assigned, or_and_right, exists_or]

@[simp] theorem wrote_append : Wrote l (es ++ es') ↔ Wrote l es ∨ Wrote l es' := by
  simp [Wrote, or_and_right, exists_or]

/-- Some block of the tree reads or writes the location. -/
def Accessed (m : Memory) (t : RegionTree) (l : Location) : Prop :=
  ∃ n node insts i e a, t.node? n = some node ∧ node.kind = .block insts ∧ i ∈ insts ∧
    m.effects i = some e ∧ a ∈ e.accesses ∧ a.isAddressOnly = false ∧ a.location = l

/-- Every instruction is known, and no accessed location overlaps or covers another one. -/
structure Plain (m : Memory) (t : RegionTree) : Prop where
  resolved : ∀ n node insts i, t.node? n = some node → node.kind = .block insts → i ∈ insts →
    ∃ e, m.effects i = some e ∧ e.unknown = none
  apart : ∀ l k, m.Accessed t l → m.Accessed t k → l ≠ k →
    m.aliases l k = .none ∧ l.covers k = false

/-- Every instruction of every block is known. -/
def Resolved (m : Memory) (t : RegionTree) : Prop :=
  ∀ n node insts i, t.node? n = some node → node.kind = .block insts → i ∈ insts →
    ∃ e, m.effects i = some e ∧ e.unknown = none

theorem plain_of_locations {ls : List Location} (hknown : ∀ i, ∃ e, m.effects i = some e ∧
      e.unknown = none ∧ ∀ a ∈ e.accesses, a.location ∈ ls)
    (hapart : ∀ l ∈ ls, ∀ k ∈ ls, l ≠ k → m.aliases l k = .none ∧ l.covers k = false) :
    m.Plain t := by
  have hmem : ∀ l, m.Accessed t l → l ∈ ls := by
    rintro l ⟨n, node, insts, i, e, a, -, -, -, he, ha, -, rfl⟩
    obtain ⟨e', he', -, hall⟩ := hknown i
    obtain rfl := Option.some.inj (he.symm.trans he')
    exact hall a ha
  refine ⟨fun n node insts i _ _ _ => ?_, fun l k hl hk => hapart l (hmem l hl) k (hmem k hk)⟩
  obtain ⟨e, he, hu, -⟩ := hknown i
  exact ⟨e, he, hu⟩

/- The events of a block whose instructions are known are accesses of the tree. -/
theorem Resolved.accesses (h : m.Resolved t) (hn : t.node? n = some node)
    (hk : node.kind = .block insts) {e : Event} (he : e ∈ m.blockEvents insts) :
    ∃ a, e = .access a ∧ (a.isAddressOnly = false → m.Accessed t a.location) := by
  obtain ⟨i, hi, he⟩ := List.mem_flatMap.1 he
  obtain ⟨eff, heff, hu⟩ := h n node insts i hn hk hi
  simp only [instEvents, heff, hu, Option.map_none, Option.toList_none, List.append_nil,
    List.mem_map] at he
  obtain ⟨a, ha, rfl⟩ := he
  exact ⟨a, rfl, fun hao => ⟨n, node, insts, i, eff, a, hn, hk, hi, heff, ha, hao, rfl⟩⟩

/- The footprint of accesses alone. -/
structure Plainly (m : Memory) (es : List Event) (f : Footprint) : Prop where
  known : f.unknown = []
  defs : ∀ l, l ∈ f.defs ↔ m.Assigned l es
  writes : ∀ l, l ∈ f.defs ∨ l ∈ f.mayDefs ↔ Wrote l es

theorem plainly_nil : m.Plainly [] {} := ⟨rfl, by simp, by simp⟩

theorem wrote_singleton {a : Access} : Wrote l [.access a] ↔
    (m.writeOf a = .must ∧ l = a.location) ∨ (m.writeOf a = .may ∧ l = a.location) := by
  have hw : a.write.isAny = true ↔ m.writeOf a = .must ∨ m.writeOf a = .may := by
    rw [← writeOf_isAny (m := m)]
    cases m.writeOf a <;> simp [Assurance.isAny]
  simp only [Wrote, List.mem_singleton, Event.access.injEq, exists_eq_left, hw, or_and_right,
    eq_comm (a := l)]

theorem Plainly.access (h : m.Plainly es f) (a : Access) :
    m.Plainly (es ++ [.access a]) (m.recordAccess f a) where
  known := by rw [unknown_recordAccess, h.known]
  defs l := by
    rw [mem_defs_recordAccess, h.defs, assigned_append]
    simp [Assigned, eq_comm (a := l)]
  writes l := by
    rw [wrote_append, wrote_singleton (m := m), ← h.writes, mem_defs_recordAccess,
      mem_mayDefs_recordAccess]
    tauto

theorem plainly_of_blockFootprint (h : m.Resolved t) (hn : t.node? n = some node)
    (hk : node.kind = .block insts) (hf : m.blockFootprint insts = .ok f) :
    m.Plainly (m.blockEvents insts) f := by
  rw [blockFootprint_eq] at hf
  refine foldlM_inv m.Plainly hf plainly_nil ?_
  rintro before e after s u hes ih hu
  obtain ⟨a, rfl, -⟩ := h.accesses hn hk (e := e) (by simp [hes])
  obtain rfl : m.recordAccess s a = u := Except.ok.inj hu
  exact ih.access a

/-- A block whose instructions are known has a footprint. -/
theorem Resolved.blockFootprint_ok (h : m.Resolved t) (hn : t.node? n = some node)
    (hk : node.kind = .block insts) : ∃ f, m.blockFootprint insts = .ok f := by
  refine Memory.blockFootprint_ok fun i u hu => ?_
  obtain ⟨a, ha, -⟩ := h.accesses hn hk hu
  cases ha

/-- A footprint says just what the ways through its node do. -/
structure Faithful (m : Memory) (t : RegionTree) (n : NodeId) (f : Footprint) : Prop where
  known : f.hasUnknown = false
  way : ∃ es, m.Across t n es
  defs : ∀ l, l ∈ f.defs ↔ ∀ es, m.Across t n es → m.Assigned l es
  writes : ∀ l, l ∈ f.defs ∨ l ∈ f.mayDefs ↔ ∃ es, m.Across t n es ∧ Wrote l es
  accessed : ∀ l, l ∈ f.defs ∨ l ∈ f.mayDefs → m.Accessed t l

/- Where there is one way only, it decides. -/
theorem Plainly.faithful (h : m.Plainly es f) (ha : ∀ es', m.Across t n es' ↔ es' = es)
    (hacc : ∀ l, Wrote l es → m.Accessed t l) : m.Faithful t n f where
  known := by simp [Footprint.hasUnknown, h.known]
  way := ⟨es, (ha es).2 rfl⟩
  defs l := by simp [h.defs, ha]
  writes l := by simp [h.writes, ha]
  accessed l hl := hacc l ((h.writes l).1 hl)

theorem faithful_end (hn : t.node? n = some node)
    (hk : node.kind = .entry ∨ node.kind = .exit) : m.Faithful t n {} :=
  plainly_nil.faithful (fun _ => across_end hn hk) (by simp)

theorem faithful_block (h : m.Plain t) (hn : t.node? n = some node)
    (hk : node.kind = .block insts) (hf : m.blockFootprint insts = .ok f) : m.Faithful t n f := by
  refine (plainly_of_blockFootprint h.resolved hn hk hf).faithful (fun _ => across_block hn hk) ?_
  rintro l ⟨a, ha, hw, rfl⟩
  obtain ⟨b, hb, hacc⟩ := Resolved.accesses h.resolved hn hk ha
  cases hb
  exact hacc (by simp [Access.isAddressOnly, hw])

/- The paths of a solved region against its runs. -/

section Runs
variable (hr : t.region? r = some region)
  (hp : (Problem.mk t region fps m.aliases).Traversed) (hap : m.Plain t)
  (hf : ∀ n ∈ region.nodes, ∀ f, fps.get? n = some f → m.Faithful t n f)
include hp

/-- A definition that a path carries comes from a node of the region. -/
theorem defs_of_path (path : (Problem.mk t region fps m.aliases).Path n v) (hl : l ∈ v.must) :
    ∃ k ∈ region.nodes, ∃ f, fps.get? k = some f ∧ l ∈ f.defs := by
  induction path with
  | enter => simp at hl
  | @step n k node f v path hn hf hk ih =>
    rcases Reaching.mem_must_transfer.1 hl with hd | ⟨-, hl, -⟩
    · exact ⟨n, path.mem hp, f, hf, hd⟩
    · exact ih hl

theorem writes_of_path (path : (Problem.mk t region fps m.aliases).Path n v) (hl : l ∈ v.may) :
    ∃ k ∈ region.nodes, ∃ f, fps.get? k = some f ∧ (l ∈ f.defs ∨ l ∈ f.mayDefs) := by
  induction path with
  | enter => simp at hl
  | @step n k node f v path hn hf hk ih =>
    rcases Reaching.mem_may_transfer.1 hl with hl | hd
    · exact ih hl
    · exact ⟨n, path.mem hp, f, hf, hd⟩

include hf

theorem accessed_of_path (path : (Problem.mk t region fps m.aliases).Path n v) (hl : l ∈ v.must) :
    m.Accessed t l := by
  obtain ⟨k, hk, f, hfk, hd⟩ := defs_of_path hp path hl
  exact (hf k hk f hfk).accessed l (.inl hd)

include hr

theorem run_of_path (path : (Problem.mk t region fps m.aliases).Path n v) :
    ∃ es, m.Run t r n es := by
  induction path with
  | enter => exact ⟨[], .enter hr⟩
  | @step n k node f v path hn hfn hk ih =>
    obtain ⟨es, run⟩ := ih
    obtain ⟨es', ha⟩ := (hf n (path.mem hp) f hfn).way
    exact ⟨es ++ es', run.step ha hn hk⟩

theorem wrote_of_path (path : (Problem.mk t region fps m.aliases).Path n v) (hl : l ∈ v.may) :
    ∃ es, m.Run t r n es ∧ Wrote l es := by
  induction path with
  | enter => simp at hl
  | @step n k node f v path hn hfn hk ih =>
    have hff := hf n (path.mem hp) f hfn
    rcases Reaching.mem_may_transfer.1 hl with hl | hd
    · obtain ⟨es, run, hw⟩ := ih hl
      obtain ⟨es', ha⟩ := hff.way
      exact ⟨es ++ es', run.step ha hn hk, wrote_append.2 (.inl hw)⟩
    · obtain ⟨es, run⟩ := run_of_path hr hp hf path
      obtain ⟨es', ha, hw⟩ := (hff.writes l).1 hd
      exact ⟨es ++ es', run.step ha hn hk, wrote_append.2 (.inr hw)⟩

include hap

/-- What a path does not carry, some run along it does not write. -/
theorem unassigned_of_path (path : (Problem.mk t region fps m.aliases).Path n v)
    (hl : l ∉ v.must) : ∃ es, m.Run t r n es ∧ ¬m.Assigned l es := by
  induction path with
  | enter => exact ⟨[], .enter hr, not_assigned_nil⟩
  | @step n k node f v path hn hfn hk ih =>
    have hff := hf n (path.mem hp) f hfn
    rw [Reaching.mem_must_transfer, not_or] at hl
    obtain ⟨hd, hx⟩ := hl
    have hw : f.hasUnknownWrites = false := by
      rw [Bool.eq_false_iff]
      intro hw
      simpa [hff.known] using Footprint.hasUnknown_of_hasUnknownWrites hw
    have hlv : l ∉ v.must := by
      intro hlv
      refine hx ⟨hw, hlv, .inr (Bool.eq_false_iff.2 fun hmeet => ?_)⟩
      obtain ⟨d, hdf, hmeet⟩ := SortedSet.meets_iff.1 hmeet
      have hne : d ≠ l := by
        rintro rfl
        exact hd hdf
      have hap := (hap.apart d l (hff.accessed d (.inl hdf)) (accessed_of_path hp hf path hlv)
        hne).1
      simp [Aliasing.meets, hap, Overlap.meets] at hmeet
    obtain ⟨es, run, hes⟩ := ih hlv
    rw [hff.defs] at hd
    push Not at hd
    obtain ⟨es', ha, hes'⟩ := hd
    exact ⟨es ++ es', run.step ha hn hk, by simp [hes, hes']⟩

omit hap in
theorem path_of_run (run : m.Run t r n es) :
    ∃ v, (Problem.mk t region fps m.aliases).Path n v ∧ (∀ l ∈ v.must, m.Assigned l es) ∧
      ∀ l, Wrote l es → l ∈ v.may := by
  refine run.along (P := fun n es => ∃ v, (Problem.mk t region fps m.aliases).Path n v ∧
    (∀ l ∈ v.must, m.Assigned l es) ∧ ∀ l, Wrote l es → l ∈ v.may) (fun region' hr' => ?_) ?_
  · obtain rfl := Option.some.inj (hr.symm.trans hr')
    exact ⟨.start, .enter, by simp, by simp⟩
  · rintro n k node es es' - ⟨v, path, hmust, hmay⟩ hn hk ha
    have hmem := path.mem hp
    obtain ⟨f, hfn⟩ := hp.footprint n hmem
    have hff := hf n hmem f hfn
    refine ⟨_, path.step hn hfn hk, fun l hl => ?_, fun l hl => ?_⟩
    · rw [assigned_append]
      rcases Reaching.mem_must_transfer.1 hl with hd | ⟨-, hl, -⟩
      · exact .inr ((hff.defs l).1 hd es' ha)
      · exact .inl (hmust l hl)
    · rw [Reaching.mem_may_transfer]
      rcases wrote_append.1 hl with hl | hl
      · exact .inl (hmay l hl)
      · exact .inr ((hff.writes l).2 ⟨es', ha, hl⟩)

/-- In front of a node, just what all runs assign must be written, and just what some run writes
may be. -/
theorem mem_must_iff_runs (hx : (Problem.mk t region fps m.aliases).Exact n x) :
    l ∈ x.must ↔ ∀ es, m.Run t r n es → m.Assigned l es := by
  rw [hx.must]
  constructor
  · intro h es run
    obtain ⟨v, path, hmust, -⟩ := path_of_run hr hp hf run
    exact hmust l (h v path)
  · intro h v path
    refine Classical.byContradiction fun hl => ?_
    obtain ⟨es, run, hes⟩ := unassigned_of_path hr hp hap hf path hl
    exact hes (h es run)

omit hap in
theorem mem_may_iff_runs (hx : (Problem.mk t region fps m.aliases).Exact n x) :
    l ∈ x.may ↔ ∃ es, m.Run t r n es ∧ Wrote l es := by
  rw [hx.may]
  constructor
  · rintro ⟨v, path, hl⟩
    exact wrote_of_path hr hp hf path hl
  · rintro ⟨es, run, hl⟩
    obtain ⟨v, path, -, hmay⟩ := path_of_run hr hp hf run
    exact ⟨v, path, hmay l hl⟩

end Runs

end LoopMemory.Memory
