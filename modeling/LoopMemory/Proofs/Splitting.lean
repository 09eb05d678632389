import LoopMemory.Proofs.Analysis.Complete
import LoopMemory.Proofs.Collapse
import LoopMemory.Proofs.Region.SplitBlock
import LoopMemory.Proofs.Renumbering.Privatization
import LoopMemory.Proofs.Solver.Halved

/-! The analysis of a tree in which one block is cut in two. Where locations lie apart, it comes to
the same as that of the whole tree. -/
namespace LoopMemory

namespace LoopFacts
variable {x y : LoopFacts} {aliases : Aliasing} {A : Location → Prop}

theorem candidates_of_scattered (h : x.footprint.explicit.Scattered aliases A) :
    x.candidates = x.footprint.explicit.locations.map fun l => x.candidate [l] l := by
  rw [candidates, h.classes_eq, List.flatMap_map, List.map_eq_flatMap]
  simp

/-- The order of the alias classes does not show in the verdicts. -/
theorem sorted_candidates_of_matches (h : x.footprint.Matches aliases A y.footprint)
    (hend : x.iterationEnd = y.iterationEnd) (hlive : x.liveOut = y.liveOut)
    (ha : x.aliases = y.aliases) :
    (y.candidates.mergeSort fun a b => decide (¬b.location.key < a.location.key)) =
      x.candidates.mergeSort fun a b => decide (¬b.location.key < a.location.key) := by
  have hperm := List.perm_iff_count.2 h.count
  have hunknown : x.footprint.unknown.Alike Eq y.footprint.unknown := by
    rw [h.left.known, h.right.known]
    exact UnknownInsts.alike_nil
  have halike : x.Alike Eq y :=
    ⟨⟨h.defs.symm, h.mayDefs.symm, h.uses.symm, h.addresses.symm, fun l => hperm.mem_iff.symm,
      hunknown⟩, hend, hlive, ha⟩
  have hcandidate : (fun l => y.candidate [l] l) = fun l => x.candidate [l] l := by
    funext l
    exact (halike.candidate_eq fun k => Iff.rfl).symm
  rw [candidates_of_scattered h.left.explicit, candidates_of_scattered h.right.explicit, hcandidate]
  refine mergeSort_eq_of_perm (hperm.map _) fun a ha b hb hl => ?_
  obtain ⟨k, -, rfl⟩ := List.mem_map.1 ha
  obtain ⟨l, -, rfl⟩ := List.mem_map.1 hb
  obtain rfl : k = l := hl
  rfl

end LoopFacts

namespace Memory
open Relation RegionTree

variable {m : Memory} {t : RegionTree} {node k : Node} {before after : List Inst} {n : NodeId}
  {r : RegionId} {region : Region} {progress progress' : Progress} {f g : Footprint}

/-- A block that is reached, in a tree of known accesses to locations that lie apart. -/
structure Splittable (m : Memory) (t : RegionTree) (node : Node) (before after : List Inst) :
    Prop where
  valid : t.Valid
  linked : t.Linked
  nested : t.Nested
  listed : ∀ r region, t.region? r = some region → region.nodes.Nodup
  plain : m.Plain t
  lookup : t.node? node.id = some node
  kind : node.kind = .block (before ++ after)
  reached : ∀ region, t.region? node.region = some region →
    ReflTransGen t.Leads region.entry node.id

namespace Splittable
variable (hs : m.Splittable t node before after)
include hs

theorem valid_split : (t.splitBlock node before after).Valid :=
  hs.valid.splitBlock hs.lookup hs.linked hs.kind

theorem linked_split : (t.splitBlock node before after).Linked := hs.valid.linked_splitBlock

/- The halves have no instructions but those of the block. -/
theorem resolved_split : m.Resolved (t.splitBlock node before after) := by
  intro n k insts i hk hkind hi
  have hblock := hs.plain.resolved node.id node (before ++ after) i hs.lookup hs.kind
  rcases cases_splitBlock hk with ⟨-, -, -, hsecond⟩ | ⟨old, hold, -, -, hsame⟩
  · obtain rfl := NodeKind.block.inj (hkind.symm.trans hsecond)
    exact hblock (List.mem_append_right _ hi)
  · rw [hsame] at hkind
    split at hkind
    · obtain rfl := NodeKind.block.inj hkind
      exact hblock (List.mem_append_left _ hi)
    · exact hs.plain.resolved n old insts i hold hkind hi

theorem exists_analyses : ∃ p q, m.analyze t = .ok p ∧
    m.analyze (t.splitBlock node before after) = .ok q := by
  obtain ⟨p, hp⟩ := analyze_ok_of_resolved hs.valid hs.linked hs.nested hs.plain.resolved
  obtain ⟨q, hq⟩ := analyze_ok_of_resolved hs.valid_split hs.linked_split hs.nested.splitBlock
    hs.resolved_split
  exact ⟨p, q, hp, hq⟩

section Region
variable (hr : t.region? r = some region) (S : Solved m t progress.results r region)
  (S' : Solved m (t.splitBlock node before after) progress'.results r (t.withNode node region))
  (hloops : ∀ n ∈ region.nodes, ∀ k c, t.node? n = some k → k.kind = .region c →
    ∀ f g, progress.results.summary? c = some f → progress'.results.summary? c = some g →
      f.Matches m.aliases (m.Accessed t) g)
include hr hloops

omit hloops in
theorem closed_split : S'.problem.Closed :=
  S'.surveyed.closed hs.valid_split (region?_splitBlock_of_some hr)

theorem others_match (hn : n ∈ region.nodes) (hne : n ≠ node.id) : ∃ f g, S.fps.get? n = some f ∧
    S'.fps.get? n = some g ∧ f.Matches m.aliases (m.Accessed t) g := by
  obtain ⟨old, f, hold, hf, hfoot⟩ := S.surveyed n hn
  obtain ⟨new, g, hnew, hg, hfoot'⟩ :=
    S'.surveyed n ((hs.valid.mem_nodes_withNode hr).2 (.inl hn))
  obtain ⟨new', hnew', -, hsame⟩ := exists_other before after hne hold
  obtain rfl := Option.some.inj (hnew.symm.trans hnew')
  refine ⟨f, g, hf, hg, ?_⟩
  cases hk : old.kind with
  | entry =>
    rw [hfoot.of_end (.inl hk), hfoot'.of_end (.inl (hsame.trans hk))]
    exact Footprint.flat_empty.matches_self
  | exit =>
    rw [hfoot.of_end (.inr hk), hfoot'.of_end (.inr (hsame.trans hk))]
    exact Footprint.flat_empty.matches_self
  | block insts =>
    have hblock := hfoot.of_block hk
    obtain rfl := Except.ok.inj (hblock.symm.trans (hfoot'.of_block (hsame.trans hk)))
    exact (flat_of_blockFootprint hs.plain.resolved hs.plain.apart hold hk hblock).matches_self
  | region c =>
    exact hloops n hn old c hold hk f g (hfoot.of_region hk) (hfoot'.of_region (hsame.trans hk))

omit hloops in
theorem halves_composed (he : r = node.region) : ∃ f g h, S.fps.get? node.id = some f ∧
    S'.fps.get? node.id = some g ∧ S'.fps.get? t.nodes.size = some h ∧
    f.Composed m.aliases (m.Accessed t) g h := by
  have hmem : node.id ∈ region.nodes := hs.valid.mem_nodes hr hs.lookup he.symm
  obtain ⟨whole, f, hwhole, hf, hfoot⟩ := S.surveyed node.id hmem
  obtain ⟨first, g, hfirst, hg, hfoot'⟩ :=
    S'.surveyed node.id ((hs.valid.mem_nodes_withNode hr).2 (.inl hmem))
  obtain ⟨second, h, hsecond, hh, hfoot''⟩ :=
    S'.surveyed t.nodes.size ((hs.valid.mem_nodes_withNode hr).2 (.inr ⟨he, rfl⟩))
  obtain ⟨first', hfirst', -, hbefore⟩ := exists_first before after hs.lookup
  obtain ⟨second', hsecond', -, hafter⟩ := exists_second t node before after
  obtain rfl := Option.some.inj (hs.lookup.symm.trans hwhole)
  obtain rfl := Option.some.inj (hfirst.symm.trans hfirst')
  obtain rfl := Option.some.inj (hsecond.symm.trans hsecond')
  exact ⟨f, g, h, hf, hg, hh, composed_of_blockFootprint hs.plain.resolved hs.plain.apart hs.lookup
    hs.kind (hfoot.of_block hs.kind) (hfoot'.of_block hbefore) (hfoot''.of_block hafter)⟩

/- The region of the block. -/
section Home
variable (he : r = node.region)
include he

theorem halved : S.problem.Halved (m.Accessed t) node.id t.nodes.size S'.problem where
  aliases := rfl
  kind := kind_withNode
  entry := entry_withNode
  exit := exit_withNode
  nodes := by
    have hid : region.id = node.region := (hs.valid.region r region hr).id.trans he
    simp only [Solved.problem, withNode, if_pos hid]
  once := hs.listed r region hr
  begins := hs.valid.entry_mem hr
  ends := hs.valid.exit_mem hr
  block := hs.valid.mem_nodes hr hs.lookup he.symm
  inner := by
    obtain ⟨exit, hexit, hk, -⟩ := hs.valid.exit_node hr
    exact (ne_of_kind hs.lookup hs.kind hexit (by simp [hk])).symm
  fresh hmem := by
    obtain ⟨k, hk, -⟩ := hs.valid.listed hr hmem
    exact ne_size hk rfl
  leads n k := leads_splitBlock hs.lookup
  others n hn hne := hs.others_match hr S S' hloops hn hne
  halves := hs.halves_composed hr S S' he

theorem values_home : (∀ n ∈ region.nodes, S'.sol.inputs.get? n = S.sol.inputs.get? n ∧
      (n ≠ node.id → S'.sol.outputs.get? n = S.sol.outputs.get? n)) ∧
    S'.sol.inputs.get? t.nodes.size = S'.sol.outputs.get? node.id ∧
    S'.sol.outputs.get? t.nodes.size = S.sol.outputs.get? node.id :=
  (hs.halved hr S S' hloops he).solve_eq hs.linked hs.linked_split hs.plain.apart
    (S.surveyed.closed hs.valid hr) (hs.closed_split hr S') S.solves S'.solves

theorem summary_home : S.summary.Matches m.aliases (m.Accessed t) S'.summary := by
  have hbefore : S.problem.FedBefore node.id := by
    rcases (hs.reached region (he ▸ hr)).cases_tail with hentry | ⟨k, hpath, hlead⟩
    · exact .inl hentry
    · exact .inr ⟨k, ⟨_, .inl rfl, hpath⟩, hlead⟩
  exact (hs.halved hr S S' hloops he).collapse_matches hs.linked hs.plain.apart
    (S.surveyed.closed hs.valid hr) S.solves hbefore hs.linked_split
    (hs.closed_split hr S') S'.solves S.collapses S'.collapses

end Home

/- Any other region has the nodes and the edges it had. -/
section Elsewhere
variable (he : r ≠ node.region)
include he

omit hloops S S' in
theorem ne_of_elsewhere (hn : n ∈ region.nodes) : n ≠ node.id := by
  rintro rfl
  obtain ⟨k, hk, hregion⟩ := hs.valid.listed hr hn
  obtain rfl := Option.some.inj (hs.lookup.symm.trans hk)
  exact he hregion.symm

omit hloops S S' in
theorem leads_elsewhere (hn : n ∈ region.nodes) {j : NodeId} :
    (t.splitBlock node before after).Leads j n ↔ t.Leads j n := by
  obtain ⟨k, hk, hregion⟩ := hs.valid.listed hr hn
  have hblock : ¬t.Leads node.id n := by
    intro hlead
    obtain ⟨old, other, hold, hother, hsame⟩ := hs.valid.same_region_of_leads hlead
    obtain rfl := Option.some.inj (hs.lookup.symm.trans hold)
    obtain rfl := Option.some.inj (hk.symm.trans hother)
    exact he (hregion.symm.trans hsame)
  have hold : ¬t.Leads t.nodes.size n := fun ⟨old, hold, _⟩ => ne_size hold rfl
  rw [leads_splitBlock hs.lookup]
  by_cases hid : j = node.id
  · simp [hid, ne_size hk, hblock]
  rw [if_neg hid]
  split
  · rename_i hsize
    simp [hsize, hblock, hold]
  · rfl

theorem twin : S.problem.Twin Eq S'.problem where
  unique := ⟨fun _ _ _ h h' => h.trans h'.symm, fun _ _ _ h h' => h.symm.trans h'⟩
  entry := entry_withNode.symm
  forth n hn := ⟨n, (hs.valid.mem_nodes_withNode hr).2 (.inl hn), rfl⟩
  back n hn := ⟨n, ((hs.valid.mem_nodes_withNode hr).1 hn).resolve_right fun h => he h.1, rfl⟩
  alike := by
    rintro n hn _ rfl
    obtain ⟨old, hold, -⟩ := hs.valid.listed hr hn
    have hne := hs.ne_of_elsewhere hr he hn
    obtain ⟨new, hnew, -⟩ := exists_other before after hne hold
    obtain ⟨f, g, hf, hg, hfg⟩ := hs.others_match hr S S' hloops hn hne
    refine ⟨old, new, f, g, hold, hnew, ?_, hf, hg, fun x => hfg.transfer.symm⟩
    rintro j _ rfl
    exact (hs.linked n old hold j).trans ((hs.leads_elsewhere hr he hn).symm.trans
      (hs.linked_split n new hnew j).symm)

theorem values_elsewhere (hn : n ∈ region.nodes) :
    S'.sol.inputs.get? n = S.sol.inputs.get? n ∧ S'.sol.outputs.get? n = S.sol.outputs.get? n :=
  (hs.twin hr S S' hloops he).solve_eq hs.linked hs.linked_split
    (S.surveyed.closed hs.valid hr) (hs.closed_split hr S') S.solves S'.solves hn rfl

theorem summary_elsewhere : S.summary.Matches m.aliases (m.Accessed t) S'.summary := by
  have hsame : t.withNode node region = region :=
    if_neg fun hid => he ((hs.valid.region r region hr).id.symm.trans hid)
  have hagree : ∀ n ∈ region.nodes,
      S.problem.Agree (m.Accessed t) S.sol S'.problem S'.sol n := by
    intro n hn
    obtain ⟨f, g, hf, hg, hfg⟩ :=
      hs.others_match hr S S' hloops hn (hs.ne_of_elsewhere hr he hn)
    obtain ⟨x, -, hx, -⟩ := S.filed n hn
    exact ⟨f, g, x, ⟨hf, hx⟩,
      ⟨hg, (hs.values_elsewhere hr S S' hloops he hn).1.trans hx⟩, hfg⟩
  have hexit : S'.sol.outputs.get? (t.withNode node region).exit =
      S.sol.outputs.get? region.exit := by
    rw [exit_withNode]
    exact (hs.values_elsewhere hr S S' hloops he (hs.valid.exit_mem hr)).2
  refine Problem.collapse_of_sums kind_withNode hexit (fun exiting s s' hsum hsum' => ?_)
    S.collapses S'.collapses
  have hnodes : (t.withNode node region).nodes = region.nodes := congrArg Region.nodes hsame
  rw [hnodes] at hsum'
  exact Problem.absorb_agreeing (p := S.problem) (q := S'.problem) hs.plain.apart rfl hagree hsum
    hsum' Footprint.flat_empty.matches_self

end Elsewhere

/-- The values in front of all nodes of a region stay, and those behind all nodes but the block. -/
theorem values_kept (hn : n ∈ region.nodes) : S'.sol.inputs.get? n = S.sol.inputs.get? n ∧
    (n ≠ node.id → S'.sol.outputs.get? n = S.sol.outputs.get? n) := by
  by_cases he : r = node.region
  · exact (hs.values_home hr S S' hloops he).1 n hn
  · obtain ⟨hin, hout⟩ := hs.values_elsewhere hr S S' hloops he hn
    exact ⟨hin, fun _ => hout⟩

theorem summary_kept : S.summary.Matches m.aliases (m.Accessed t) S'.summary := by
  by_cases he : r = node.region
  · exact hs.summary_home hr S S' hloops he
  · exact hs.summary_elsewhere hr S S' hloops he

end Region

/- The whole routine. -/
section Analysis
variable (hp : m.analyze t = .ok progress)
  (hp' : m.analyze (t.splitBlock node before after) = .ok progress')
include hp hp'

/-- A region has the same summary, up to the order of its alias classes. -/
theorem summary_matches (hr : t.region? r = some region)
    (hf : progress.results.summary? r = some f) (hg : progress'.results.summary? r = some g) :
    f.Matches m.aliases (m.Accessed t) g := by
  refine analyze_induction hp (fun r => ∀ f g, progress.results.summary? r = some f →
    progress'.results.summary? r = some g → f.Matches m.aliases (m.Accessed t) g) ?_ hr f g hf hg
  intro r region hr ih f g hf hg
  obtain ⟨S⟩ := solved_of_analyze hp hr
  obtain ⟨S'⟩ := solved_of_analyze hp' (region?_splitBlock_of_some hr)
  obtain rfl := Option.some.inj (hf.symm.trans S.onFile)
  obtain rfl := Option.some.inj (hg.symm.trans S'.onFile)
  exact hs.summary_kept hr S S' fun n hn k c hk hkind => (ih n hn k c hk hkind).2

theorem loops_match {c : RegionId} (hk : t.node? n = some k) (hkind : k.kind = .region c)
    (hf : progress.results.summary? c = some f) (hg : progress'.results.summary? c = some g) :
    f.Matches m.aliases (m.Accessed t) g := by
  obtain ⟨inner, hinner, -⟩ := hs.nested n k c hk hkind
  exact hs.summary_matches hp hp' hinner hf hg

theorem footprints_match (hr : t.region? r = some region) : ∃ f g,
    progress.results.regionFootprint r = .ok f ∧ progress'.results.regionFootprint r = .ok g ∧
    f.Matches m.aliases (m.Accessed t) g := by
  obtain ⟨S⟩ := solved_of_analyze hp hr
  obtain ⟨S'⟩ := solved_of_analyze hp' (region?_splitBlock_of_some hr)
  exact ⟨_, _, Results.regionFootprint_eq_ok.2 S.onFile, Results.regionFootprint_eq_ok.2 S'.onFile,
    hs.summary_matches hp hp' hr S.onFile S'.onFile⟩

/-- All nodes but the block have the values they had. -/
theorem nodeFlow_eq (hk : t.node? n = some k) (hne : n ≠ node.id) :
    progress'.results.nodeFlow n = progress.results.nodeFlow n := by
  obtain ⟨region, hr, hn⟩ := hs.valid.owner hk
  obtain ⟨S⟩ := solved_of_analyze hp hr
  obtain ⟨S'⟩ := solved_of_analyze hp' (region?_splitBlock_of_some hr)
  obtain ⟨x, y, hx, hy, hfile⟩ := S.filed n hn
  obtain ⟨x', y', hx', hy', hfile'⟩ := S'.filed n ((hs.valid.mem_nodes_withNode hr).2 (.inl hn))
  obtain ⟨hin, hout⟩ := hs.values_kept hr S S'
    (fun _ _ _ _ hk hkind _ _ => hs.loops_match hp hp' hk hkind) hn
  obtain rfl := Option.some.inj (hx'.symm.trans (hin.trans hx))
  obtain rfl := Option.some.inj (hy'.symm.trans ((hout hne).trans hy))
  have hflow := Results.nodeFlow_eq_ok.2 (congrArg (·.bind NodeFacts.flow) hfile)
  exact (Results.nodeFlow_eq_ok.2 (congrArg (·.bind NodeFacts.flow) hfile')).trans hflow.symm

/-- The first half has the value that was in front of the block, and the second half the one behind
it. -/
theorem nodeFlow_halves : ∃ x between y, progress.results.nodeFlow node.id = .ok ⟨x, y⟩ ∧
    progress'.results.nodeFlow node.id = .ok ⟨x, between⟩ ∧
    progress'.results.nodeFlow t.nodes.size = .ok ⟨between, y⟩ := by
  obtain ⟨region, hr, hn⟩ := hs.valid.owner hs.lookup
  obtain ⟨S⟩ := solved_of_analyze hp hr
  obtain ⟨S'⟩ := solved_of_analyze hp' (region?_splitBlock_of_some hr)
  obtain ⟨x, y, hx, hy, hfile⟩ := S.filed node.id hn
  obtain ⟨x', z, hx', hz, hfirst⟩ :=
    S'.filed node.id ((hs.valid.mem_nodes_withNode hr).2 (.inl hn))
  obtain ⟨z', y', hz', hy', hsecond⟩ :=
    S'.filed t.nodes.size ((hs.valid.mem_nodes_withNode hr).2 (.inr ⟨rfl, rfl⟩))
  obtain ⟨hin, hbetween, hbehind⟩ := hs.values_home hr S S'
    (fun _ _ _ _ hk hkind _ _ => hs.loops_match hp hp' hk hkind) rfl
  obtain rfl := Option.some.inj (hx'.symm.trans ((hin _ hn).1.trans hx))
  obtain rfl := Option.some.inj (hz'.symm.trans (hbetween.trans hz))
  obtain rfl := Option.some.inj (hy'.symm.trans (hbehind.trans hy))
  exact ⟨x', z', y', Results.nodeFlow_eq_ok.2 (congrArg (·.bind NodeFacts.flow) hfile),
    Results.nodeFlow_eq_ok.2 (congrArg (·.bind NodeFacts.flow) hfirst),
    Results.nodeFlow_eq_ok.2 (congrArg (·.bind NodeFacts.flow) hsecond)⟩

/-- A loop has the same verdicts. -/
theorem classifyLoop_eq (r : RegionId) (liveOut : LocationSet) (aliases : Aliasing) :
    classifyLoop (t.splitBlock node before after) progress'.results r liveOut aliases =
      classifyLoop t progress.results r liveOut aliases := by
  cases hr : t.region? r with
  | none =>
    have hr' : (t.splitBlock node before after).region? r = none := by
      rw [region?_splitBlock, hr]
      rfl
    simp only [classifyLoop, RegionTree.region, hr, hr']
    rfl
  | some region =>
    have hr' : (t.splitBlock node before after).region? r = some (t.withNode node region) :=
      region?_splitBlock_of_some hr
    obtain ⟨f, g, hf, hg, hfg⟩ := hs.footprints_match hp hp' hr
    obtain ⟨exit, hexit, hk, -⟩ := hs.valid.exit_node hr
    have hflow := hs.nodeFlow_eq hp hp' hexit
      (ne_of_kind hs.lookup hs.kind hexit (by simp [hk]))
    have hsorted := fun y => LoopFacts.sorted_candidates_of_matches
      (x := ⟨f, y, liveOut, aliases⟩) (y := ⟨g, y, liveOut, aliases⟩) hfg rfl rfl rfl
    rw [withNode_kept] at hr'
    simp only [classifyLoop, RegionTree.region, hr, hr', hf, hg, Region.isLoop, bind, Except.bind,
      hflow, hsorted]
    rfl

end Analysis
end Splittable

/-- The first instruction writes what the others read. -/
def inTurn : Memory :=
  { copying with effects := fun i => some { accesses :=
      if i = 0 then [⟨source, 0, .no, .must⟩]
      else [⟨source, 0, .must, .no⟩, ⟨target, 1, .no, .must⟩] } }

/-- A block in a loop in a loop. -/
def oneBlock : TreeBuilder :=
  (TreeBuilder.new "routine").run [.loop 0 "outer" true, .loop 1 "inner" false, .block 2 [0, 1],
    .path 2 [8], .path 1 [7], .path 0 [4]]

/-- The same routine, built with a block for each of the two instructions. -/
def twoBlocks : TreeBuilder :=
  (TreeBuilder.new "routine").run [.loop 0 "outer" true, .loop 1 "inner" false, .block 2 [0],
    .block 2 [1], .path 2 [8, 9], .path 1 [7], .path 0 [4]]

/-- A block cut in two. Where no two locations overlap and nothing is unknown, the place of the cut
does not show: every region has the same footprint, up to the order of its alias classes, the first
half has the value in front of the block and the second half the one behind it, all other nodes have
the values they had, and all loops have the same verdicts. -/
theorem analyze_splitBlock (routine : String) (steps : List TreeBuilder.Step) (m : Memory)
    {b : NodeId} {node : Node} {before after : List Inst}
    (hv : ((TreeBuilder.new routine).run steps).finish.validate = .ok ())
    (hap : m.Plain ((TreeBuilder.new routine).run steps).finish)
    (hn : ((TreeBuilder.new routine).run steps).finish.node? b = some node)
    (hkind : node.kind = .block (before ++ after))
    (hreach : ∀ region,
      ((TreeBuilder.new routine).run steps).finish.region? node.region = some region →
        ReflTransGen ((TreeBuilder.new routine).run steps).finish.Leads region.entry b) :
    let t := ((TreeBuilder.new routine).run steps).finish
    let cut := t.splitBlock node before after
    ∃ p q, m.analyze t = .ok p ∧ m.analyze cut = .ok q ∧
      (∀ r region, t.region? r = some region → ∃ f g, p.results.regionFootprint r = .ok f ∧
        q.results.regionFootprint r = .ok g ∧ g.defs = f.defs ∧ g.mayDefs = f.mayDefs ∧
        g.uses = f.uses ∧ g.explicit.classes.Perm f.explicit.classes ∧
        g.addresses = f.addresses ∧ g.unknown = f.unknown) ∧
      (∃ x between y, p.results.nodeFlow b = .ok ⟨x, y⟩ ∧ q.results.nodeFlow b = .ok ⟨x, between⟩ ∧
        q.results.nodeFlow t.nodes.size = .ok ⟨between, y⟩) ∧
      (∀ n k, t.node? n = some k → n ≠ b →
        ∃ flow, p.results.nodeFlow n = .ok flow ∧ q.results.nodeFlow n = .ok flow) ∧
      ∀ r liveOut aliases, classifyLoop cut q.results r liveOut aliases =
        classifyLoop t p.results r liveOut aliases := by
  intro t cut
  have hvalid : t.Valid := validate_eq_ok.1 hv
  obtain rfl : node.id = b := hvalid.indexed b node hn
  have hs : m.Splittable t node before after :=
    { valid := hvalid
      linked := linked_ofParts hvalid.indexed
      nested := ((TreeBuilder.formed_new routine).run steps).nested_finish
      listed r region hr := (((TreeBuilder.listed_new routine).run steps) r region hr).1
      plain := hap
      lookup := hn
      kind := hkind
      reached := hreach }
  obtain ⟨p, q, hp, hq⟩ := hs.exists_analyses
  refine ⟨p, q, hp, hq, fun r region hr => ?_, hs.nodeFlow_halves hp hq, fun n k hk hne => ?_,
    hs.classifyLoop_eq hp hq⟩
  · obtain ⟨f, g, hf, hg, hfg⟩ := hs.footprints_match hp hq hr
    exact ⟨f, g, hf, hg, hfg.defs, hfg.mayDefs, hfg.uses, hfg.perm_classes, hfg.addresses,
      hfg.right.known.trans hfg.left.known.symm⟩
  · obtain ⟨_, flow, -, -, hflow⟩ := exists_node_facts hp hk
    exact ⟨flow, hflow, (hs.nodeFlow_eq hp hq hk hne).trans hflow⟩

theorem plain_inTurn (t : RegionTree) : inTurn.Plain t := by
  refine plain_of_locations (fun i => ⟨_, rfl, rfl, ?_⟩) apart_source_target
  by_cases hi : i = 0 <;> simp [hi]

/-- By itself the second half reads a location that the loop does not. -/
theorem analyze_splitBlock_oneBlock : ∃ p q f g h, inTurn.analyze oneBlock.finish = .ok p ∧
    inTurn.analyze twoBlocks.finish = .ok q ∧ p.results.regionFootprint 2 = .ok f ∧
    q.results.regionFootprint 2 = .ok g ∧ q.results.nodeFootprint 9 = .ok h ∧
    g.uses = f.uses ∧ f.uses = ∅ ∧ h.uses = .ofList [source] ∧
    classifyLoop twoBlocks.finish q.results 2 ∅ inTurn.aliases =
      classifyLoop oneBlock.finish p.results 2 ∅ inTurn.aliases := by
  have hblock : oneBlock.finish.node? 8 = some ⟨8, 2, .block ([0] ++ [1]), [6], [5, 6]⟩ := by
    decide +kernel
  have hcut : twoBlocks.finish =
      oneBlock.finish.splitBlock ⟨8, 2, .block ([0] ++ [1]), [6], [5, 6]⟩ [0] [1] := by
    decide +kernel
  have hreach : ∀ region, oneBlock.finish.region? 2 = some region →
      ReflTransGen oneBlock.finish.Leads region.entry 8 := by
    intro region hr
    have hentry : region.entry = 5 := by
      have hentries : (oneBlock.finish.region? 2).map Region.entry = some 5 := by decide +kernel
      rw [hr] at hentries
      exact Option.some.inj hentries
    have hnode : oneBlock.finish.node? 5 = some ⟨5, 2, .entry, [8], []⟩ := by decide +kernel
    exact hentry ▸ .single ⟨_, hnode, .head _⟩
  obtain ⟨p, q, hp, hq, hsame, -, -, hverdicts⟩ := analyze_splitBlock "routine" _ inTurn
    (by decide +kernel) (plain_inTurn oneBlock.finish) hblock rfl hreach
  change inTurn.analyze oneBlock.finish = .ok p at hp
  change inTurn.analyze (oneBlock.finish.splitBlock _ _ _) = .ok q at hq
  have hinner : oneBlock.finish.region? 2 = some oneBlock.finish.regions[2]! := by decide +kernel
  obtain ⟨f, g, hf, hg, -, -, huses, -⟩ := hsame 2 _ hinner
  have hwhole : ((inTurn.analyze oneBlock.finish).toOption.bind fun p =>
      (p.results.regionFootprint 2).toOption.map Footprint.uses) = some ∅ := by
    decide +kernel
  have hsecond : ((inTurn.analyze twoBlocks.finish).toOption.bind fun p =>
      (p.results.nodeFootprint 9).toOption.map Footprint.uses) = some (.ofList [source]) := by
    decide +kernel
  rw [hp] at hwhole
  rw [hcut, hq] at hsecond
  obtain ⟨h, hh, hread⟩ := Option.map_eq_some_iff.1 hsecond
  obtain ⟨f', hf', hunread⟩ := Option.map_eq_some_iff.1 hwhole
  obtain rfl := Except.ok.inj (hf.symm.trans (eq_ok_of_toOption hf'))
  rw [hcut]
  exact ⟨p, q, f, g, h, hp, hq, hf, hg, eq_ok_of_toOption hh, huses, hunread, hread,
    hverdicts 2 ∅ inTurn.aliases⟩

end Memory
end LoopMemory
