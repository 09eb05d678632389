import LoopMemory.Proofs.Analysis.Origins
import LoopMemory.Proofs.Analysis.Total
import LoopMemory.Proofs.Exactness
import LoopMemory.Proofs.Solver.Sharper

/-! The analysis with every loop taken to run, against the one that leaves it open. Where locations
lie apart, the assumption promises more about the same accesses. -/
namespace LoopMemory.Memory
variable {m : Memory} {t : RegionTree} {region : Region} {r : RegionId} {n : NodeId} {node : Node}
  {progress progress' : Progress} {results results' : Results} {f g : Footprint} {l : Location}
  {a : Access} {i : Inst} {insts : List Inst} {runs : Bool}

/-- With the choice made whether every loop is taken to run. -/
def assuming (m : Memory) (runs : Bool) : Memory :=
  { m with settings := { m.settings with assumeLoopsExecute := runs } }

/- No block depends on the choice. -/
theorem blockFootprint_assuming :
    (m.assuming runs).blockFootprint insts = m.blockFootprint insts := rfl

/- Only blocks of the tree access locations. -/

theorem accessed_of_holds (hi : t.Holds r i) (ha : .access a ∈ m.instEvents i)
    (hao : a.isAddressOnly = false) : m.Accessed t a.location := by
  induction hi with
  | @block _ _ n node insts i _ _ hn hk hi =>
    cases he : m.effects i with
    | none => simp [instEvents, he] at ha
    | some e =>
      have hmem : a ∈ e.accesses := by
        cases hu : e.unknown <;> simpa [instEvents, he, hu] using ha
      exact ⟨n, node, insts, i, e, a, hn, hk, hi, he, hmem, hao, rfl⟩
  | loop _ _ _ _ _ ih => exact ih ha

theorem accessed_of_footprint (h : m.analyze t = .ok progress) (hr : t.region? r = some region)
    (hn : n ∈ region.nodes) (hnode : t.node? n = some node)
    (hf : m.IsFootprint progress.results node.kind f) : ∀ l, f.Writes l → m.Accessed t l := by
  intro l hl
  have htally := tallies_of_node h hr hn hnode hf
  obtain ⟨a, ha, hao, rfl⟩ := (htally.explicit l).1 (htally.touched l hl)
  have hevent : .access a ∈ m.eventsIn t r := (mem_eventsIn hr).2 ⟨n, hn, node, hnode, ha⟩
  obtain ⟨i, hi, ha⟩ := hevent
  exact accessed_of_holds hi ha hao

theorem analyze_assuming_ok (hl : t.Linked) (h : m.analyze t = .ok progress) (runs : Bool) :
    ∃ q, (m.assuming runs).analyze t = .ok q := by
  have hv := valid_of_analyze h
  refine analyze_ok hv hl (timely_of_analyze h) fun n node insts hnode hk => ?_
  obtain ⟨region, hr, hn⟩ := hv.owner hnode
  obtain ⟨s⟩ := solved_of_analyze h hr
  obtain ⟨node', f, hnode', -, hf⟩ := s.surveyed n hn
  obtain rfl := Option.some.inj (hnode.symm.trans hnode')
  exact ⟨f, blockFootprint_assuming.trans (hf.of_block hk)⟩

section Runs
variable (hl : t.Linked) (hap : m.aliases.Apart (m.Accessed t)) (h : m.analyze t = .ok progress)
  (h' : (m.assuming true).analyze t = .ok progress')
include hl hap h h'

/- One region, once the loops in it have sharper summaries. -/
section Region
variable (hr : t.region? r = some region) (s : Solved m t progress.results r region)
  (s' : Solved (m.assuming true) t progress'.results r region)
  (hloops : ∀ n ∈ region.nodes, ∀ node c, t.node? n = some node → node.kind = .region c →
    ∀ f g, progress.results.summary? c = some f → progress'.results.summary? c = some g →
      f.Sharper g)
include hr hloops

omit hl hap h' in
theorem sharpened_of_loops : s.problem.Sharpened s'.fps (m.Accessed t) := by
  intro n hn
  obtain ⟨node, f, hnode, hf, hfoot⟩ := s.surveyed n hn
  obtain ⟨node', g, hnode', hg, hfoot'⟩ := s'.surveyed n hn
  obtain rfl := Option.some.inj (hnode.symm.trans hnode')
  refine ⟨f, g, hf, hg, ?_, accessed_of_footprint h hr hn hnode hfoot⟩
  cases hk : node.kind with
  | entry =>
    rw [hfoot.of_end (.inl hk), hfoot'.of_end (.inl hk)]
    exact .refl _
  | exit =>
    rw [hfoot.of_end (.inr hk), hfoot'.of_end (.inr hk)]
    exact .refl _
  | block insts =>
    have hsame := (hfoot.of_block hk).symm.trans (blockFootprint_assuming.symm.trans
      (hfoot'.of_block hk))
    rw [Except.ok.inj hsame]
    exact .refl _
  | region c => exact hloops n hn node c hnode hk f g (hfoot.of_region hk) (hfoot'.of_region hk)

omit h' in
theorem values_sharper (hn : n ∈ region.nodes) : ∃ x x' y y',
    s.sol.inputs.get? n = some x ∧ s'.sol.inputs.get? n = some x' ∧
    s.sol.outputs.get? n = some y ∧ s'.sol.outputs.get? n = some y' ∧ x.Sharper x' ∧
    y.Sharper y' :=
  Problem.solve_sharper (sharpened_of_loops h hr s s' hloops) hl
    (s.surveyed.closed (valid_of_analyze h) hr) ((valid_of_analyze h).entry_mem hr) hap s.solves
    s'.solves hn

omit h' in
theorem summary_sharper_of_region : s.summary.Sharper s'.summary := by
  refine Problem.collapse_sharper (sharpened_of_loops h hr s s' hloops) (fun n hn x x' hx hx' => ?_)
    (fun y y' hy hy' => ?_) ?_ s.collapses s'.collapses
  · obtain ⟨_, _, _, _, hx₁, hx₁', -, -, hin, -⟩ :=
      values_sharper hl hap h hr s s' hloops hn
    obtain rfl := Option.some.inj (hx.symm.trans hx₁)
    obtain rfl := Option.some.inj (hx'.symm.trans hx₁')
    exact hin
  · obtain ⟨_, _, _, _, -, -, hy₁, hy₁', -, hout⟩ :=
      values_sharper hl hap h hr s s' hloops ((valid_of_analyze h).exit_mem hr)
    obtain rfl := Option.some.inj (hy.symm.trans hy₁)
    obtain rfl := Option.some.inj (hy'.symm.trans hy₁')
    exact hout
  · cases hk : region.kind with
    | body => simp [Solved.problem, Region.runsOnce, hk]
    | loop once => simp [Solved.problem, Region.runsOnce, hk, assuming]

end Region

theorem summary_sharper (hr : t.region? r = some region) : ∀ f g,
    progress.results.summary? r = some f → progress'.results.summary? r = some g →
      f.Sharper g := by
  refine analyze_induction h (fun r => ∀ f g, progress.results.summary? r = some f →
    progress'.results.summary? r = some g → f.Sharper g) ?_ hr
  intro r region hr ih f g hf hg
  obtain ⟨s⟩ := solved_of_analyze h hr
  obtain ⟨s'⟩ := solved_of_analyze h' hr
  obtain rfl := Option.some.inj (hf.symm.trans s.onFile)
  obtain rfl := Option.some.inj (hg.symm.trans s'.onFile)
  exact summary_sharper_of_region hl hap h hr s s' fun n hn node c hnode hk =>
    (ih n hn node c hnode hk).2

theorem nodeFlow_sharper (hnode : t.node? n = some node) : ∃ flow flow',
    progress.results.nodeFlow n = .ok flow ∧ progress'.results.nodeFlow n = .ok flow' ∧
    flow.input.Sharper flow'.input ∧ flow.output.Sharper flow'.output := by
  obtain ⟨region, hr, hn⟩ := (valid_of_analyze h).owner hnode
  obtain ⟨s⟩ := solved_of_analyze h hr
  obtain ⟨s'⟩ := solved_of_analyze h' hr
  obtain ⟨x, x', y, y', hx, hx', hy, hy', hin, hout⟩ := values_sharper hl hap h hr s s'
    (fun n hn node c hnode hk => by
      obtain ⟨inner, hc, -⟩ := loop_of_analyze h hr hn hnode hk
      exact summary_sharper hl hap h h' hc) hn
  obtain ⟨x₁, y₁, hx₁, hy₁, hfile⟩ := s.filed n hn
  obtain ⟨x₁', y₁', hx₁', hy₁', hfile'⟩ := s'.filed n hn
  obtain rfl := Option.some.inj (hx.symm.trans hx₁)
  obtain rfl := Option.some.inj (hy.symm.trans hy₁)
  obtain rfl := Option.some.inj (hx'.symm.trans hx₁')
  obtain rfl := Option.some.inj (hy'.symm.trans hy₁')
  exact ⟨⟨x, y⟩, ⟨x', y'⟩, Results.nodeFlow_eq_ok.2 (by rw [hfile]; rfl),
    Results.nodeFlow_eq_ok.2 (by rw [hfile']; rfl), hin, hout⟩

end Runs

/-- A loop that fills a variable, a read of it behind the loop, and a call of something unknown. -/
def refilled : TreeBuilder :=
  (TreeBuilder.new "routine").run [.loop 0 "fill" false, .block 0 [1], .block 1 [0],
    .block 0 [2], .path 1 [6], .path 0 [4, 5, 7]]

def filling : Memory where
  effects i :=
    if i = 0 then some { accesses := [⟨target, 0, .no, .must⟩] }
    else if i = 1 then some { accesses := [⟨target, 0, .must, .no⟩, ⟨source, 1, .no, .may⟩] }
    else none
  aliases := ({} : AliasModel).overlap
  escapes _ := false
  settings := {}

/-- Where accessed locations neither overlap nor cover each other, taking every loop to run only
makes the analysis promise more. It comes to an end either way. In front of every node and behind it
at least the same definitions must reach and just the same may; every region defines at least as
much, uses at most as much, and may write, accesses, evaluates and calls the same. -/
theorem assuming_sharpens (h : m.analyze t = .ok progress) (hl : t.Linked)
    (hap : m.aliases.Apart (m.Accessed t)) :
    ∃ p q, (m.assuming false).analyze t = .ok p ∧ (m.assuming true).analyze t = .ok q ∧
      (∀ n node, t.node? n = some node → ∃ flow flow', p.results.nodeFlow n = .ok flow ∧
        q.results.nodeFlow n = .ok flow' ∧ flow.input.must ≤ flow'.input.must ∧
        flow.output.must ≤ flow'.output.must ∧ flow'.input.may = flow.input.may ∧
        flow'.output.may = flow.output.may) ∧
      ∀ r region, t.region? r = some region → ∃ f g, p.results.regionFootprint r = .ok f ∧
        q.results.regionFootprint r = .ok g ∧ f.defs ⊆ g.defs ∧ g.uses ⊆ f.uses ∧
        g.defs ∪ g.mayDefs = f.defs ∪ f.mayDefs ∧ g.explicit = f.explicit ∧
        g.addresses = f.addresses ∧ g.unknown = f.unknown := by
  obtain ⟨p, hp⟩ := analyze_assuming_ok hl h false
  obtain ⟨q, hq⟩ := analyze_assuming_ok hl h true
  refine ⟨p, q, hp, hq, fun n node hnode => ?_, fun r region hr => ?_⟩
  · obtain ⟨flow, flow', hflow, hflow', hin, hout⟩ :=
      nodeFlow_sharper (m := m.assuming false) hl hap hp hq hnode
    exact ⟨flow, flow', hflow, hflow', hin.must, hout.must, hin.may, hout.may⟩
  · obtain ⟨f, hf⟩ := exists_summary hp hr
    obtain ⟨g, hg⟩ := exists_summary hq hr
    have hsharp := summary_sharper (m := m.assuming false) hl hap hp hq hr f g hf hg
    refine ⟨f, g, Results.regionFootprint_eq_ok.2 hf, Results.regionFootprint_eq_ok.2 hg,
      hsharp.defs, hsharp.uses, SortedSet.ext fun l => ?_, hsharp.explicit, hsharp.addresses,
      hsharp.unknown⟩
    rw [SortedSet.mem_union, SortedSet.mem_union]
    exact hsharp.writes l

theorem apart_filling (t : RegionTree) : filling.aliases.Apart (filling.Accessed t) := by
  have hall : ∀ {l}, filling.Accessed t l → l ∈ [source, target] := by
    rintro l ⟨n, node, insts, i, e, a, -, -, -, he, ha, -, rfl⟩
    simp only [filling] at he
    split at he
    · obtain rfl := Option.some.inj he
      obtain rfl := List.mem_singleton.1 ha
      simp
    · split at he
      · obtain rfl := Option.some.inj he
        rcases List.mem_pair.1 ha with rfl | rfl <;> simp
      · cases he
  have hpairs : ∀ l ∈ [source, target], ∀ k ∈ [source, target], l ≠ k →
      filling.aliases l k = .none ∧ l.covers k = false := by
    decide +kernel
  exact fun l k hl hk => hpairs l (hall hl) k (hall hk)

theorem assuming_sharpens_refilled : ∃ p q f g,
    (filling.assuming false).analyze refilled.finish = .ok p ∧
    (filling.assuming true).analyze refilled.finish = .ok q ∧
    p.results.regionFootprint 0 = .ok f ∧ q.results.regionFootprint 0 = .ok g ∧
    f.defs ⊆ g.defs ∧ g.uses ⊆ f.uses ∧ g.unknown = f.unknown ∧
    f.uses = .ofList [target] ∧ g.uses = ∅ := by
  have hlinked : refilled.finish.Linked :=
    RegionTree.linked_ofParts (RegionTree.validate_eq_ok.1 (by decide +kernel)).indexed
  have hsolved : ((filling.assuming false).analyze refilled.finish >>= fun p =>
      (·.uses) <$> p.results.regionFootprint 0) = .ok (.ofList [target]) := by
    decide +kernel
  have hassumed : ((filling.assuming true).analyze refilled.finish >>= fun p =>
      (·.uses) <$> p.results.regionFootprint 0) = .ok ∅ := by
    decide +kernel
  obtain ⟨p₁, hp₁, hsolved⟩ := bind_eq_ok.1 hsolved
  obtain ⟨q₁, hq₁, hassumed⟩ := bind_eq_ok.1 hassumed
  obtain ⟨p, q, hp, hq, -, hall⟩ :=
    assuming_sharpens (m := filling) hp₁ hlinked (apart_filling _)
  obtain rfl := Except.ok.inj (hp₁.symm.trans hp)
  obtain rfl := Except.ok.inj (hq₁.symm.trans hq)
  obtain ⟨f, g, hf, hg, hdefs, huses, -, -, -, hunknown⟩ :=
    hall 0 refilled.finish.regions[0]! (by decide +kernel)
  obtain ⟨f₁, hf₁, hsolved⟩ := map_eq_ok.1 hsolved
  obtain ⟨g₁, hg₁, hassumed⟩ := map_eq_ok.1 hassumed
  obtain rfl := Except.ok.inj (hf.symm.trans hf₁)
  obtain rfl := Except.ok.inj (hg.symm.trans hg₁)
  exact ⟨_, _, f, g, hp, hq, hf, hg, hdefs, huses, hunknown, hsolved, hassumed⟩

end LoopMemory.Memory
