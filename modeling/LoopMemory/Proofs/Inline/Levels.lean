import LoopMemory.Proofs.Inline.Runs

/-! What a run of the flat graph has or has not written, the runs of the loops around its last node
have or have not written either. -/
namespace LoopMemory
namespace RegionTree
variable {t : RegionTree} {P : NodeId → Prop} {r : RegionId} {region : Region}
  {n j p : NodeId}

/-- The node that stands for the loop around a node. -/
def outer? (t : RegionTree) (n : NodeId) : Option NodeId :=
  ((t.node? n).bind fun node => t.region? node.region).bind (·.standIn)

/-- From a node outwards, over the nodes of all loops around it. -/
def Within (t : RegionTree) : NodeId → NodeId → Prop :=
  Relation.ReflTransGen fun n p => t.outer? n = some p

def Throughout (t : RegionTree) (P : NodeId → Prop) (n : NodeId) : Prop := ∀ p, t.Within n p → P p

def Somewhere (t : RegionTree) (P : NodeId → Prop) (n : NodeId) : Prop := ∃ p, t.Within n p ∧ P p

theorem within_iff : t.Within n p ↔ n = p ∨ ∃ q, t.outer? n = some q ∧ t.Within q p :=
  Relation.ReflTransGen.cases_head_iff

theorem throughout_iff : t.Throughout P n ↔ P n ∧ ∀ q, t.outer? n = some q → t.Throughout P q := by
  constructor
  · exact fun h => ⟨h n (within_iff.2 (.inl rfl)),
      fun q hq p hp => h p (within_iff.2 (.inr ⟨q, hq, hp⟩))⟩
  · rintro ⟨hn, h⟩ p hp
    rcases within_iff.1 hp with rfl | ⟨q, hq, hp⟩
    · exact hn
    · exact h q hq p hp

theorem somewhere_iff : t.Somewhere P n ↔ P n ∨ ∃ q, t.outer? n = some q ∧ t.Somewhere P q := by
  constructor
  · rintro ⟨p, hp, h⟩
    rcases within_iff.1 hp with rfl | ⟨q, hq, hp⟩
    · exact .inl h
    · exact .inr ⟨q, hq, p, hp, h⟩
  · rintro (h | ⟨q, hq, p, hp, h⟩)
    · exact ⟨n, within_iff.2 (.inl rfl), h⟩
    · exact ⟨p, within_iff.2 (.inr ⟨q, hq, hp⟩), h⟩

theorem Valid.outer?_eq (hv : t.Valid) (hr : t.region? r = some region) (hn : n ∈ region.nodes) :
    t.outer? n = region.standIn := by
  obtain ⟨node, hnode, rfl⟩ := hv.listed hr hn
  simp [outer?, hnode, hr]

/-- An edge stays in its region. -/
theorem Valid.of_leads (hv : t.Valid) (h : t.Leads n j) : ∃ r region,
    t.region? r = some region ∧ n ∈ region.nodes ∧ j ∈ region.nodes := by
  obtain ⟨node, hn, hj⟩ := h
  obtain ⟨region, hr, hmem⟩ := hv.owner hn
  exact ⟨_, region, hr, hmem, hv.succ_mem hr hmem hn hj⟩

theorem Valid.outer?_of_leads (hv : t.Valid) (h : t.Leads n j) : t.outer? j = t.outer? n := by
  obtain ⟨r, region, hr, hn, hj⟩ := hv.of_leads h
  rw [hv.outer?_eq hr hn, hv.outer?_eq hr hj]

end RegionTree

namespace Memory
variable {m : Memory} {t : RegionTree} {r c : RegionId} {region inner : Region} {n j p : NodeId}
  {node : Node} {es es' : List Event} {l : Location}

/- A run of the flat graph that goes past a loop may come back into it from the loop's exit, and then
   it follows no run of that loop. What it misses is passed over there, too. -/

/-- Some run of the node's region up to the node does not write the location, or no run of it has
to take place. -/
def Missed (m : Memory) (t : RegionTree) (l : Location) (n : NodeId) : Prop :=
  ∃ node region, t.node? n = some node ∧ t.region? node.region = some region ∧
    (region.runsOnce m.settings = false ∨ ∃ es, m.Run t node.region n es ∧ ¬m.Assigned l es)

/-- Some run of the node's region up to the node may write the location. -/
def Hit (m : Memory) (t : RegionTree) (l : Location) (n : NodeId) : Prop :=
  ∃ node, t.node? n = some node ∧ ∃ es, m.Run t node.region n es ∧ Wrote l es

/-- Some run gets to every node of every region. -/
def Visited (m : Memory) (t : RegionTree) : Prop :=
  ∀ r region, t.region? r = some region → ∀ n ∈ region.nodes, ∃ es, m.Run t r n es

section Levels
variable (hv : t.Valid)
include hv

theorem missed_iff (hr : t.region? r = some region) (hn : n ∈ region.nodes) : m.Missed t l n ↔
    region.runsOnce m.settings = false ∨ ∃ es, m.Run t r n es ∧ ¬m.Assigned l es := by
  obtain ⟨node, hnode, rfl⟩ := hv.listed hr hn
  simp only [Missed, hnode, Option.some.injEq, exists_and_left, exists_eq_left', hr]

theorem hit_iff (hr : t.region? r = some region) (hn : n ∈ region.nodes) :
    m.Hit t l n ↔ ∃ es, m.Run t r n es ∧ Wrote l es := by
  obtain ⟨node, hnode, rfl⟩ := hv.listed hr hn
  simp only [Hit, hnode, Option.some.injEq, exists_eq_left']

theorem missed_entry (hr : t.region? r = some region) : m.Missed t l region.entry :=
  (missed_iff hv hr (hv.entry_mem hr)).2 (.inr ⟨[], .enter hr, not_assigned_nil⟩)

theorem Missed.step (h : m.Missed t l n) (hj : t.Leads n j) (ha : m.Across t n es)
    (hes : ¬m.Assigned l es) : m.Missed t l j := by
  obtain ⟨r, region, hr, hn, hjmem⟩ := hv.of_leads hj
  obtain ⟨node, hnode, hs⟩ := hj
  rw [missed_iff hv hr hjmem]
  rcases (missed_iff hv hr hn).1 h with hz | ⟨es', run, hes'⟩
  · exact .inl hz
  · exact .inr ⟨_, run.step ha hnode hs, by simp [hes, hes']⟩

theorem Hit.step (h : m.Hit t l n) (hj : t.Leads n j) (ha : m.Across t n es) : m.Hit t l j := by
  obtain ⟨r, region, hr, hn, hjmem⟩ := hv.of_leads hj
  obtain ⟨node, hnode, hs⟩ := hj
  obtain ⟨es', run, hw⟩ := (hit_iff hv hr hn).1 h
  exact (hit_iff hv hr hjmem).2 ⟨_, run.step ha hnode hs, by simp [hw]⟩

theorem Visited.hit (hvis : m.Visited t) (hj : t.Leads n j) (ha : m.Across t n es)
    (hw : Wrote l es) : m.Hit t l j := by
  obtain ⟨r, region, hr, hn, hjmem⟩ := hv.of_leads hj
  obtain ⟨node, hnode, hs⟩ := hj
  obtain ⟨es', run⟩ := hvis r region hr n hn
  exact (hit_iff hv hr hjmem).2 ⟨_, run.step ha hnode hs, by simp [hw]⟩

/- A way through the node of a loop does what a run of the loop does. -/

theorem Missed.across (hc : t.region? c = some inner) (hn : t.node? p = some node)
    (hk : node.kind = .region c) (h : m.Missed t l inner.exit) :
    ∃ es, m.Across t p es ∧ ¬m.Assigned l es := by
  rcases (missed_iff hv hc (hv.exit_mem hc)).1 h with hz | ⟨es, run, hes⟩
  · exact ⟨[], .skip hn hk hc hz, not_assigned_nil⟩
  · exact ⟨es, .loop hn hk hc run, hes⟩

theorem Hit.across (hc : t.region? c = some inner) (hn : t.node? p = some node)
    (hk : node.kind = .region c) (h : m.Hit t l inner.exit) :
    ∃ es, m.Across t p es ∧ Wrote l es := by
  obtain ⟨es, run, hw⟩ := (hit_iff hv hc (hv.exit_mem hc)).1 h
  exact ⟨es, .loop hn hk hc run, hw⟩

variable (hnest : t.Nested)
include hnest

theorem Visited.way (hvis : m.Visited t) (hn : t.node? n = some node) :
    ∃ es, m.Across t n es := by
  cases hk : node.kind with
  | entry => exact ⟨[], .pass hn (.inl hk)⟩
  | exit => exact ⟨[], .pass hn (.inr hk)⟩
  | block insts => exact ⟨_, .block hn hk⟩
  | region c =>
    obtain ⟨inner, hc, -⟩ := hnest n node c hn hk
    obtain ⟨es, run⟩ := hvis c inner hc _ (hv.exit_mem hc)
    exact ⟨es, .loop hn hk hc run⟩

/-- A run of the flat graph that does not write the location has a counterpart in each of the
regions that it is in. -/
theorem missed_of_inlined (run : m.Run (t.inlined m.settings) RegionTree.root n es) :
    ¬m.Assigned l es → t.Throughout (m.Missed t l) n := by
  refine run.along_inlined hv (P := fun n es => ¬m.Assigned l es → t.Throughout (m.Missed t l) n)
    ?start ?edge ?into ?leave ?past
  case start =>
    intro region hr _
    obtain ⟨body, hbody, -, -, hs⟩ := hv.body
    obtain rfl := Option.some.inj (hr.symm.trans hbody)
    rw [RegionTree.throughout_iff, hv.outer?_eq hr (hv.entry_mem hr), hs]
    exact ⟨missed_entry hv hr, by simp⟩
  case edge =>
    intro n j node es es' hn _ hs ha ih hes
    rw [assigned_append, not_or] at hes
    have hlead : t.Leads n j := ⟨node, hn, hs⟩
    obtain ⟨hmiss, habove⟩ := RegionTree.throughout_iff.1 (ih hes.1)
    rw [RegionTree.throughout_iff, hv.outer?_of_leads hlead]
    exact ⟨hmiss.step hv hlead ha hes.2, habove⟩
  case into =>
    intro n node c inner es hn hk hc ih hes
    obtain ⟨inner', hc', hs⟩ := hnest n node c hn hk
    obtain rfl := Option.some.inj (hc.symm.trans hc')
    rw [RegionTree.throughout_iff, hv.outer?_eq hc (hv.entry_mem hc), hs]
    exact ⟨missed_entry hv hc, fun q hq => Option.some.inj hq ▸ ih hes⟩
  case leave =>
    intro c inner p j es hc hs hlead ih hes
    obtain ⟨node, _, hn, hk, -⟩ := hv.of_standIn hc hs
    obtain ⟨hmiss, habove⟩ := RegionTree.throughout_iff.1 (ih hes)
    rw [hv.outer?_eq hc (hv.exit_mem hc), hs] at habove
    obtain ⟨hmiss', habove'⟩ := RegionTree.throughout_iff.1 (habove p rfl)
    obtain ⟨es', ha, hes'⟩ := hmiss.across hv hc hn hk
    rw [RegionTree.throughout_iff, hv.outer?_of_leads hlead]
    exact ⟨hmiss'.step hv hlead ha hes', habove'⟩
  case past =>
    intro c inner es hc hz ih hes
    have habove := (RegionTree.throughout_iff.1 (ih hes)).2
    rw [hv.outer?_eq hc (hv.entry_mem hc)] at habove
    rw [RegionTree.throughout_iff, hv.outer?_eq hc (hv.exit_mem hc)]
    exact ⟨(missed_iff hv hc (hv.exit_mem hc)).2 (.inl hz), habove⟩

/-- What a run of the flat graph may write, some run of one of the regions that it is in may write
as well. -/
theorem hit_of_inlined (hvis : m.Visited t) (hconn : t.Connected)
    (run : m.Run (t.inlined m.settings) RegionTree.root n es) :
    Wrote l es → t.Somewhere (m.Hit t l) n := by
  refine run.along_inlined hv (P := fun n es => Wrote l es → t.Somewhere (m.Hit t l) n)
    ?start ?edge ?into ?leave ?past
  case start =>
    exact fun region hr hw => absurd hw not_wrote_nil
  case edge =>
    intro n j node es es' hn _ hs ha ih hes
    have hlead : t.Leads n j := ⟨node, hn, hs⟩
    rw [RegionTree.somewhere_iff, hv.outer?_of_leads hlead]
    rcases wrote_append.1 hes with hes | hes
    · exact (RegionTree.somewhere_iff.1 (ih hes)).imp_left fun h => h.step hv hlead ha
    · exact .inl (hvis.hit hv hlead ha hes)
  case into =>
    intro n node c inner es hn hk hc ih hes
    obtain ⟨inner', hc', hs⟩ := hnest n node c hn hk
    obtain rfl := Option.some.inj (hc.symm.trans hc')
    rw [RegionTree.somewhere_iff, hv.outer?_eq hc (hv.entry_mem hc)]
    exact .inr ⟨n, hs, ih hes⟩
  case leave =>
    intro c inner p j es hc hs hlead ih hes
    obtain ⟨node, _, hn, hk, -⟩ := hv.of_standIn hc hs
    rw [RegionTree.somewhere_iff, hv.outer?_of_leads hlead]
    rcases RegionTree.somewhere_iff.1 (ih hes) with hhit | ⟨q, hq, hsome⟩
    · obtain ⟨es', ha, hw⟩ := hhit.across hv hc hn hk
      exact .inl (hvis.hit hv hlead ha hw)
    · rw [hv.outer?_eq hc (hv.exit_mem hc), hs] at hq
      obtain rfl := Option.some.inj hq
      obtain ⟨es', ha⟩ := hvis.way hv hnest hn
      exact (RegionTree.somewhere_iff.1 hsome).imp_left fun h => h.step hv hlead ha
  case past =>
    intro c inner es hc _ ih hes
    rw [RegionTree.somewhere_iff, hv.outer?_eq hc (hv.exit_mem hc)]
    have hsome := RegionTree.somewhere_iff.1 (ih hes)
    rw [hv.outer?_eq hc (hv.entry_mem hc)] at hsome
    refine hsome.imp_left fun hhit => ?_
    have hway : ∀ n ∈ inner.nodes, ∃ es, m.Across t n es := fun n hn => by
      obtain ⟨node, hnode, -⟩ := hv.listed hc hn
      exact hvis.way hv hnest hnode
    obtain ⟨es', run, hw⟩ := (hit_iff hv hc (hv.entry_mem hc)).1 hhit
    obtain ⟨es'', run'⟩ := run.extend hv hc hway (hv.entry_mem hc)
      (hconn c inner hc _ (hv.entry_mem hc)).2
    exact (hit_iff hv hc (hv.exit_mem hc)).2 ⟨_, run', by simp [hw]⟩

end Levels
end Memory
end LoopMemory
