import LoopMemory.Proofs.Run
import LoopMemory.Proofs.Region.Valid

/-! Runs of a loop, cut into iterations. -/
namespace LoopMemory

/-- The edges out of an exit lead to where the entry of its region leads. -/
def RegionTree.Rewinds (t : RegionTree) : Prop :=
  ∀ r region entry exit, t.region? r = some region → t.node? region.entry = some entry →
    t.node? region.exit = some exit → exit.succs ⊆ entry.succs

namespace Memory

/-- The runs of a region up to the arrival at a node: the iterations that were finished, and the
part of the current one. An iteration is over where it arrives at the exit, and the next one starts
with an edge that leads back from there. -/
inductive Laps (m : Memory) (t : RegionTree) (r : RegionId) :
    List (List Event) → NodeId → List Event → Prop
  | enter {region : Region} (hr : t.region? r = some region) : Laps m t r [] region.entry []
  | step {region : Region} {n k : NodeId} {node : Node} {its : List (List Event)}
      {es es' : List Event} (laps : Laps m t r its n es) (hr : t.region? r = some region)
      (hx : n ≠ region.exit) (ha : m.Across t n es') (hn : t.node? n = some node)
      (hk : k ∈ node.succs) : Laps m t r its k (es ++ es')
  | again {region : Region} {k : NodeId} {exit : Node} {its : List (List Event)}
      {es : List Event} (laps : Laps m t r its region.exit es) (hr : t.region? r = some region)
      (hn : t.node? region.exit = some exit) (hk : k ∈ exit.succs) :
      Laps m t r (its ++ [es]) k []

/-- The same runs, broken off anywhere. -/
inductive Lapping (m : Memory) (t : RegionTree) (r : RegionId) :
    List (List Event) → List Event → Prop
  | arrived {n : NodeId} {its : List (List Event)} {es : List Event}
      (laps : Laps m t r its n es) : Lapping m t r its es
  | block {n : NodeId} {node : Node} {insts : List Inst} {its : List (List Event)}
      {es es' rest : List Event} (laps : Laps m t r its n es) (hn : t.node? n = some node)
      (hk : node.kind = .block insts) (hs : es' ++ rest = m.blockEvents insts) :
      Lapping m t r its (es ++ es')
  | loop {n : NodeId} {node : Node} {c : RegionId} {its : List (List Event)}
      {es es' : List Event} (laps : Laps m t r its n es) (hn : t.node? n = some node)
      (hk : node.kind = .region c) (within : Started m t c es') : Lapping m t r its (es ++ es')

variable {m : Memory} {t : RegionTree} {r : RegionId} {n k : NodeId} {node : Node}
  {its : List (List Event)} {es es' : List Event}

/- Nothing happens at an exit. -/
theorem across_exit {region : Region} (hv : t.Valid) (hr : t.region? r = some region)
    (ha : m.Across t region.exit es) : es = [] := by
  obtain ⟨exit, hx, hkind, -⟩ := hv.exit_node hr
  exact (across_end hx (.inr hkind)).1 ha

theorem Laps.next (hv : t.Valid) (laps : m.Laps t r its n es) (ha : m.Across t n es')
    (hn : t.node? n = some node) (hk : k ∈ node.succs) :
    ∃ its' cur, m.Laps t r its' k cur ∧ its.flatten ++ (es ++ es') = its'.flatten ++ cur := by
  have hregion : ∃ region, t.region? r = some region := by
    cases laps with
    | enter hr | step _ hr | again _ hr => exact ⟨_, hr⟩
  obtain ⟨region, hr⟩ := hregion
  by_cases hx : n = region.exit
  · subst hx
    obtain rfl := across_exit hv hr ha
    exact ⟨its ++ [es], [], laps.again hr hn hk, by simp⟩
  · exact ⟨its, es ++ es', laps.step hr hx ha hn hk, rfl⟩

/-- Every run of a region is a number of iterations. -/
theorem Run.laps (hv : t.Valid) (run : m.Run t r n es) :
    ∃ its cur, m.Laps t r its n cur ∧ es = its.flatten ++ cur := by
  refine run.along (P := fun n es => ∃ its cur, m.Laps t r its n cur ∧ es = its.flatten ++ cur)
    (fun region hr => ⟨[], [], .enter hr, rfl⟩) ?_
  rintro n k node es es' - ⟨its, cur, laps, rfl⟩ hn hk ha
  rw [List.append_assoc]
  exact laps.next hv ha hn hk

/-- So is every run that breaks off, up to a part of an iteration. -/
theorem Started.laps (hv : t.Valid) (run : m.Started t r es) :
    ∃ its cur, m.Lapping t r its cur ∧ es = its.flatten ++ cur := by
  cases run with
  | arrived run =>
    obtain ⟨its, cur, laps, he⟩ := run.laps hv
    exact ⟨its, cur, .arrived laps, he⟩
  | block run hn hk hs =>
    obtain ⟨its, cur, laps, rfl⟩ := run.laps hv
    exact ⟨its, _, .block laps hn hk hs, List.append_assoc ..⟩
  | loop run hn hk within =>
    obtain ⟨its, cur, laps, rfl⟩ := run.laps hv
    exact ⟨its, _, .loop laps hn hk within, List.append_assoc ..⟩

/-- Each iteration on its own is a run of the region. -/
theorem Laps.run (hv : t.Valid) (hb : t.Rewinds) (laps : m.Laps t r its n es) :
    m.Run t r n es ∧ ∀ it ∈ its, ∃ region, t.region? r = some region ∧
      m.Run t r region.exit it := by
  induction laps with
  | enter hr => exact ⟨.enter hr, by simp⟩
  | step laps hr hx ha hn hk ih => exact ⟨ih.1.step ha hn hk, ih.2⟩
  | @again region k exit its es laps hr hn hk ih =>
    obtain ⟨entry, he, hkind, -⟩ := (hv.region r region hr).graph.entry
    have hback := hb r region entry exit hr he hn hk
    refine ⟨(Run.enter hr).pass he (.inl hkind) hback, fun it hit => ?_⟩
    rcases List.mem_append.1 hit with hit | hit
    · exact ih.2 it hit
    · exact ⟨region, hr, List.mem_singleton.1 hit ▸ ih.1⟩

theorem Lapping.started (hv : t.Valid) (hb : t.Rewinds) (laps : m.Lapping t r its es) :
    ∀ it ∈ its ++ [es], m.Started t r it := by
  have whole : ∀ {n es}, m.Laps t r its n es → ∀ it ∈ its, m.Started t r it := by
    intro n es laps it hit
    obtain ⟨region, -, run⟩ := (laps.run hv hb).2 it hit
    exact .arrived run
  intro it hit
  rw [List.mem_append, List.mem_singleton] at hit
  cases laps with
  | arrived laps =>
    rcases hit with hit | rfl
    · exact whole laps it hit
    · exact .arrived (laps.run hv hb).1
  | block laps hn hk hs =>
    rcases hit with hit | rfl
    · exact whole laps it hit
    · exact .block (laps.run hv hb).1 hn hk hs
  | loop laps hn hk within =>
    rcases hit with hit | rfl
    · exact whole laps it hit
    · exact .loop (laps.run hv hb).1 hn hk within

end Memory
end LoopMemory
