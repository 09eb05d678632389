import LoopMemory.Proofs.Analysis.Complete
import LoopMemory.Proofs.Collapse

/-! Where locations overlap, analysing loops one by one may promise more than solving the flat
graph, but only what a loop took away without saying so in its summary. -/
namespace LoopMemory

/-- The second node stands for a loop around the first one, however far out. -/
def RegionTree.Around (t : RegionTree) (n p : NodeId) : Prop :=
  ∃ q, t.outer? n = some q ∧ t.Within q p

namespace Memory
variable {m : Memory} {t : RegionTree} {region inner body : Region} {r c : RegionId}
  {n k j p : NodeId} {node : Node} {f g : Footprint} {x v : Reaching} {l : Location}
  {progress : Progress} {results : Results} {flow : Flow} {fps : NodeMap Footprint}

/-- What a footprint defines may overlap the location. -/
def Touched (m : Memory) (l : Location) (f : Footprint) : Prop := f.defs.meets m.aliases l = true

/-- In the flat graph, the location gets lost in a loop and is not defined again on the way to the
node, but the loop's summary does not show the loss. Either the loop overwrites the location in
some block, however deep, and the summary has no definition that may overlap it. Or the summary
defines the location, but at the end of the loop the analysis lacks it, and so does some path. -/
inductive Slips (m : Memory) (t : RegionTree) (results : Results) (fps : NodeMap Footprint)
    (l : Location) : NodeId → Prop
  | overwritten {k p j : NodeId} {f g : Footprint} (hf : results.nodeFootprint k = .ok f)
      (ht : m.Touched l f) (hd : l ∉ f.defs) (hp : t.Around k p)
      (hg : results.nodeFootprint p = .ok g) (hs : ¬m.Touched l g)
      (hj : (t.inlined m.settings).Leads k j) : Slips m t results fps l j
  | covered {c : RegionId} {inner : Region} {g : Footprint} {flow : Flow} {v : Reaching}
      {j : NodeId} (hc : t.region? c = some inner) (hg : results.regionFootprint c = .ok g)
      (hd : l ∈ g.defs) (hx : results.nodeFlow inner.exit = .ok flow) (hl : l ∉ flow.output.must)
      (path : (Problem.mk (t.inlined m.settings) t.inlinedBody fps m.aliases).Path inner.exit v)
      (hv : l ∉ v.must) (hj : (t.inlined m.settings).Leads inner.exit j) :
      Slips m t results fps l j
  | on {n j : NodeId} {f : Footprint} (h : Slips m t results fps l n)
      (hf : results.nodeFootprint n = .ok f) (hd : l ∉ f.defs)
      (hj : (t.inlined m.settings).Leads n j) : Slips m t results fps l j

/- A path of the flat graph without the location, seen from each region that it is in. -/

/-- The analysis does not promise the location in front of the node, or the region may be passed
over. -/
def Lacks (m : Memory) (t : RegionTree) (results : Results) (l : Location) (n : NodeId) : Prop :=
  ∃ node region, t.node? n = some node ∧ t.region? node.region = some region ∧
    (region.runsOnce m.settings = false ∨
      ∃ flow, results.nodeFlow n = .ok flow ∧ l ∉ flow.input.must)

/-- The analysis lacks the location in front of the loop, or the loop takes it away. -/
def Loses (m : Memory) (t : RegionTree) (results : Results) (l : Location) (p : NodeId) : Prop :=
  m.Lacks t results l p ∨ ∃ g, results.nodeFootprint p = .ok g ∧ m.Touched l g

/-- What a path without the location keeps up. -/
def Follows (m : Memory) (t : RegionTree) (results : Results) (l : Location) (n : NodeId) : Prop :=
  m.Lacks t results l n ∧ ∀ p, t.Around n p → m.Loses t results l p

/-- A node that does not define the location lets it through only if it was there and is not
touched. -/
theorem not_mem_transfer (hknown : x.must.isFull = false) (hd : l ∉ f.defs)
    (hx : l ∉ x.must ∨ m.Touched l f) : l ∉ (x.transfer m.aliases f).must := by
  intro hout
  rcases Reaching.mem_must_transfer.1 hout with hdef | ⟨-, hin, hfull | hmeet⟩
  · exact hd hdef
  · simp [hknown] at hfull
  · rcases hx with hlx | ht
    · exact hlx hin
    · rw [Touched, hmeet] at ht
      cases ht

theorem lacks_iff (hv : t.Valid) (hr : t.region? r = some region) (hn : n ∈ region.nodes) :
    m.Lacks t results l n ↔ region.runsOnce m.settings = false ∨
      ∃ flow, results.nodeFlow n = .ok flow ∧ l ∉ flow.input.must := by
  obtain ⟨node, hnode, rfl⟩ := hv.listed hr hn
  simp only [Lacks, hnode, Option.some.injEq, exists_and_left, exists_eq_left', hr]

/- The loops around a node. -/

theorem around_of_leads (hv : t.Valid) (h : t.Leads n j) : t.Around j p ↔ t.Around n p := by
  rw [RegionTree.Around, hv.outer?_of_leads h, RegionTree.Around]

theorem around_of_mem (hv : t.Valid) (hr : t.region? r = some region) (hn : n ∈ region.nodes)
    (hk : k ∈ region.nodes) : t.Around n p ↔ t.Around k p := by
  rw [RegionTree.Around, hv.outer?_eq hr hn, RegionTree.Around, hv.outer?_eq hr hk]

theorem around_inner (hv : t.Valid) (hc : t.region? c = some inner) (hs : inner.standIn = some p)
    (hn : n ∈ inner.nodes) {q : NodeId} : t.Around n q ↔ p = q ∨ t.Around p q := by
  rw [RegionTree.Around, hv.outer?_eq hc hn, hs]
  simp only [Option.some.injEq, exists_eq_left', RegionTree.within_iff (n := p)]
  rfl

section Analysed
variable (hl : t.Linked) (hnest : t.Nested) (hc : t.Connected) (h : m.analyze t = .ok progress)
include hl hc h

/-- Every node has its footprint and its values on file, and is reached. -/
theorem exists_known (hn : t.node? n = some node) : ∃ f x,
    m.OnFile t progress.results n node f x ∧ progress.results.nodeFootprint n = .ok f ∧
      x.must.isFull = false := by
  have hv := valid_of_analyze h
  obtain ⟨region, hr, hmem⟩ := hv.owner hn
  obtain ⟨s⟩ := solved_of_analyze h hr
  have hp := traversed_of_connected (m := m) hv hl hc hr s.surveyed.footprint
  obtain ⟨node', f, x, hx⟩ := s.exists_onFile hl hmem
  obtain rfl := Option.some.inj (hn.symm.trans hx.lookup)
  have hex := Problem.exact_of_solve hp s.solves hmem ((s.onFile_iff hl hmem).1 hx).2.1.2
  obtain ⟨g, flow, hg, hfoot, -⟩ := exists_node_facts h hn
  exact ⟨f, x, hx, hx.footprint.unique hfoot ▸ hg, hex.known.1⟩

/-- What a node lacks in front or takes away, and does not define, is lacking behind it. -/
theorem Loses.step (hlose : m.Loses t progress.results l n) (hj : t.Leads n j)
    (hf : progress.results.nodeFootprint n = .ok f) (hd : l ∉ f.defs) :
    m.Lacks t progress.results l j := by
  have hv := valid_of_analyze h
  obtain ⟨r, region, hr, hn, hjmem⟩ := hv.of_leads hj
  obtain ⟨node, hnode, hs⟩ := hj
  obtain ⟨target, htarget, -⟩ := hv.listed hr hjmem
  obtain ⟨f', x, hx, hf', hknown⟩ := exists_known hl hc h hnode
  obtain rfl := Except.ok.inj (hf.symm.trans hf')
  obtain ⟨g, y, hy, -⟩ := exists_known hl hc h htarget
  have hle := OnFile.edge h hl hr hn hx hy hs
  rw [lacks_iff hv hr hjmem]
  suffices hout : region.runsOnce m.settings = false ∨ l ∉ (x.transfer m.aliases f).must by
    refine hout.imp_right fun hout => ⟨_, Results.nodeFlow_eq_ok.2 hy.flow, fun hly => ?_⟩
    exact hout (hle.1.1 l hly)
  rcases hlose with hlack | ⟨g', hg', htouch⟩
  · rcases (lacks_iff hv hr hn).1 hlack with hz | ⟨flow, hflow, hlx⟩
    · exact .inl hz
    · have hxf := Option.some.inj ((Results.nodeFlow_eq_ok.1 hflow).symm.trans hx.flow)
      rw [hxf] at hlx
      exact .inr (not_mem_transfer hknown hd (.inl hlx))
  · obtain rfl := Except.ok.inj (hf.symm.trans hg')
    exact .inr (not_mem_transfer hknown hd (.inr htouch))

/-- Nothing reaches the entry of a region. -/
theorem lacks_entry (hr : t.region? r = some region) :
    m.Lacks t progress.results l region.entry := by
  have hv := valid_of_analyze h
  obtain ⟨entry, he, -⟩ := hv.entry_node hr
  obtain ⟨f, x, hx, -⟩ := exists_known hl hc h he
  refine (lacks_iff hv hr (hv.entry_mem hr)).2 (.inr ⟨_, Results.nodeFlow_eq_ok.2 hx.flow, ?_⟩)
  rw [OnFile.entry h hl hr hx]
  simp

/-- At the end of a region, nothing happens any more. -/
theorem not_mem_of_lacks_exit (hr : t.region? r = some region)
    (hone : region.runsOnce m.settings = true)
    (hlack : m.Lacks t progress.results l region.exit) :
    ∃ flow, progress.results.nodeFlow region.exit = .ok flow ∧ l ∉ flow.output.must := by
  have hv := valid_of_analyze h
  obtain ⟨exit, hexit, hk, -⟩ := hv.exit_node hr
  obtain ⟨f, x, hx, -⟩ := exists_known hl hc h hexit
  obtain rfl : f = {} := hx.footprint.of_end (.inr hk)
  rcases (lacks_iff hv hr (hv.exit_mem hr)).1 hlack with hz | ⟨flow, hflow, hlx⟩
  · simp [hone] at hz
  · have hxf := Option.some.inj ((Results.nodeFlow_eq_ok.1 hflow).symm.trans hx.flow)
    refine ⟨flow, hflow, ?_⟩
    rw [hxf] at hlx ⊢
    rwa [Reaching.transfer_empty]

/- The steps of a path in the flat graph. -/

theorem follows_start (hr : t.region? RegionTree.root = some region) :
    m.Follows t progress.results l region.entry := by
  have hv := valid_of_analyze h
  obtain ⟨body, hbody, -, -, hs⟩ := hv.body
  obtain rfl := Option.some.inj (hr.symm.trans hbody)
  refine ⟨lacks_entry hl hc h hr, fun p hp => ?_⟩
  obtain ⟨q, hq, -⟩ := hp
  rw [hv.outer?_eq hr (hv.entry_mem hr), hs] at hq
  cases hq

/-- Along an edge of the tree, unless a loop around it hides what is lost here. -/
theorem Loses.edge (hlose : m.Loses t progress.results l n) (hj : t.Leads n j)
    (hf : progress.results.nodeFootprint n = .ok f) (hd : l ∉ f.defs)
    (habove : ∀ p, t.Around n p → m.Loses t progress.results l p) :
    m.Follows t progress.results l j :=
  ⟨hlose.step hl hc h hj hf hd, fun p hp =>
    habove p ((around_of_leads (valid_of_analyze h) hj).1 hp)⟩

omit hl hc in
/-- Past a loop that may run no iteration. -/
theorem Follows.past (hfol : m.Follows t progress.results l inner.entry)
    (hinner : t.region? c = some inner) (hz : inner.runsOnce m.settings = false) :
    m.Follows t progress.results l inner.exit := by
  have hv := valid_of_analyze h
  refine ⟨(lacks_iff hv hinner (hv.exit_mem hinner)).2 (.inl hz), fun p hp => hfol.2 p ?_⟩
  exact (around_of_mem hv hinner (hv.exit_mem hinner) (hv.entry_mem hinner)).1 hp

include hnest

/-- Into a loop. -/
theorem Follows.into (hfol : m.Follows t progress.results l n) (hn : t.node? n = some node)
    (hk : node.kind = .region c) (hinner : t.region? c = some inner) :
    m.Follows t progress.results l inner.entry := by
  have hv := valid_of_analyze h
  obtain ⟨inner', hinner', hs⟩ := hnest n node c hn hk
  obtain rfl := Option.some.inj (hinner.symm.trans hinner')
  refine ⟨lacks_entry hl hc h hinner, fun p hp => ?_⟩
  rcases (around_inner hv hinner hs (hv.entry_mem hinner)).1 hp with rfl | hp
  · exact .inl hfol.1
  · exact hfol.2 p hp

/-- Out of a loop, unless the loop's summary defines what does not reach its end. -/
theorem Follows.leave (hfol : m.Follows t progress.results l inner.exit)
    (hinner : t.region? c = some inner) (hs : inner.standIn = some p) (hj : t.Leads p j) :
    m.Follows t progress.results l j ∨ ∃ g flow, progress.results.regionFootprint c = .ok g ∧
      l ∈ g.defs ∧ progress.results.nodeFlow inner.exit = .ok flow ∧ l ∉ flow.output.must := by
  have hv := valid_of_analyze h
  obtain ⟨g, _, hg, hgp, -⟩ := shared_of_analyze h hinner hnest hs
  by_cases hd : l ∈ g.defs
  · obtain ⟨s⟩ := solved_of_analyze h hinner
    obtain rfl := Option.some.inj (s.onFile.symm.trans (Results.regionFootprint_eq_ok.1 hg))
    obtain ⟨hone, -⟩ := (Problem.mem_defs_collapse s.collapses).1 hd
    obtain ⟨flow, hflow, hlx⟩ := not_mem_of_lacks_exit hl hc h hinner hone hfol.1
    exact .inr ⟨_, flow, hg, hd, hflow, hlx⟩
  · have hat := fun q => @around_inner t inner c inner.exit p hv hinner hs (hv.exit_mem hinner) q
    have hp := hfol.2 p ((hat p).2 (.inl rfl))
    exact .inl (hp.edge hl hc h hj hgp hd fun q hq => hfol.2 q ((hat q).2 (.inr hq)))

omit hl hc hnest in
/-- A loop around a node has a footprint. -/
theorem exists_footprint_around (hp : t.Around n p) :
    ∃ g, progress.results.nodeFootprint p = .ok g := by
  have hv := valid_of_analyze h
  have hstand : ∀ n p, t.outer? n = some p → ∃ node, t.node? p = some node := by
    intro n p hout
    obtain ⟨region, hregion, hs⟩ := Option.bind_eq_some_iff.1 hout
    obtain ⟨node, -, hr⟩ := Option.bind_eq_some_iff.1 hregion
    obtain ⟨node, _, hn, -⟩ := hv.of_standIn hr hs
    exact ⟨node, hn⟩
  obtain ⟨q, hq, hp⟩ := hp
  have hnode : ∃ node, t.node? p = some node := by
    rcases hp.cases_tail with rfl | ⟨k, -, hk⟩
    · exact hstand n p hq
    · exact hstand k p hk
  obtain ⟨node, hn⟩ := hnode
  obtain ⟨g, _, hg, -⟩ := exists_node_facts h hn
  exact ⟨g, hg⟩

/-- One edge of the flat graph, from a node that does not define the location. -/
theorem follows_or_slips (hf : progress.results.nodeFootprint n = .ok f) (hd : l ∉ f.defs)
    (path : (Problem.mk (t.inlined m.settings) t.inlinedBody fps m.aliases).Path n v)
    (hat : (l ∉ v.must ∧ m.Follows t progress.results l n) ∨ m.Touched l f)
    (hflat : (t.inlined m.settings).Leads n k) :
    m.Follows t progress.results l k ∨ m.Slips t progress.results fps l k := by
  have hv := valid_of_analyze h
  obtain ⟨node, hn, -, j, hj, hdoor⟩ := RegionTree.leads_inlined.1 hflat
  subst hdoor
  have hend : node.kind = .entry ∨ node.kind = .exit →
      l ∉ v.must ∧ m.Follows t progress.results l n := by
    intro hkind
    obtain ⟨f', _, hx, hf', -⟩ := exists_known hl hc h hn
    obtain rfl := Except.ok.inj (hf.symm.trans hf')
    obtain rfl := hx.footprint.of_end hkind
    exact hat.resolve_right fun ht => by cases ht
  have hnext : m.Follows t progress.results l j ∨ m.Slips t progress.results fps l (t.door j) := by
    rcases (hv.mem_onward hn).1 hj with hs | ⟨region, hr, ⟨rfl, p, hp, hlead⟩ | ⟨rfl, hz, rfl⟩⟩
    · by_cases habove : ∀ p, t.Around n p → m.Loses t progress.results l p
      · have hlose : m.Loses t progress.results l n :=
          hat.imp (fun hfol => hfol.2.1) fun ht => ⟨f, hf, ht⟩
        exact .inl (hlose.edge hl hc h ⟨node, hn, hs⟩ hf hd habove)
      · push Not at habove
        obtain ⟨p, hp, hno⟩ := habove
        obtain ⟨g, hg⟩ := exists_footprint_around h hp
        have ht : m.Touched l f := hat.resolve_left fun hfol => hno (hfol.2.2 p hp)
        exact .inr (.overwritten hf ht hd hp hg (fun htouch => hno (.inr ⟨g, hg, htouch⟩)) hflat)
    · obtain ⟨exit, hx, hkx, -⟩ := hv.exit_node hr
      obtain rfl := Option.some.inj (hn.symm.trans hx)
      obtain ⟨hlv, hfol⟩ := hend (.inr hkx)
      refine (hfol.leave hl hnest hc h hr hp hlead).imp_right ?_
      rintro ⟨g, flow, hg, hdg, hflow, hlx⟩
      exact .covered hr hg hdg hflow hlx path hlv hflat
    · obtain ⟨entry, he, hke, -⟩ := hv.entry_node hr
      obtain rfl := Option.some.inj (hn.symm.trans he)
      exact .inl ((hend (.inl hke)).2.past h hr hz)
  refine hnext.imp_left fun hfol => ?_
  unfold RegionTree.door
  split
  · rename_i inner hinner
    obtain ⟨c, hkc, hinner⟩ := Option.bind_eq_some_iff.1 hinner
    obtain ⟨jnode, hjn, hkc⟩ := Option.bind_eq_some_iff.1 hkc
    exact hfol.into hl hnest hc h hjn (NodeKind.loop?_eq_some.1 hkc) hinner
  · exact hfol

section Path
variable (hs : m.Surveyed (t.inlined m.settings) results t.inlinedBody fps)
  (hres : m.Resolved t)
include hs hres

omit hl hnest hc in
/-- Both analyses have the same footprints for blocks and ends, and nothing unknown in them. -/
theorem footprint_inlined (hn : t.node? n = some node) (hk : node.kind.loop? = none)
    (hf : fps.get? n = some f) :
    progress.results.nodeFootprint n = .ok f ∧ f.hasUnknownWrites = false := by
  have hv := valid_of_analyze h
  obtain ⟨flat, f', hflat, hf', hfoot⟩ := hs n (hv.mem_inlinedBody.2 ⟨node, hn, hk⟩)
  obtain rfl := Option.some.inj (hf.symm.trans hf')
  obtain ⟨flat', hflat', hkind⟩ := RegionTree.exists_node_inlined m.settings hn
  obtain rfl := Option.some.inj (hflat.symm.trans hflat')
  rw [hkind] at hfoot
  obtain ⟨g, _, hg, hfoot', -⟩ := exists_node_facts h hn
  refine ⟨hfoot.agree hk hfoot' ▸ hg, ?_⟩
  cases hkind' : node.kind with
  | entry => rw [hfoot.of_end (.inl hkind')]; rfl
  | exit => rw [hfoot.of_end (.inr hkind')]; rfl
  | block insts =>
    have hknown := (plainly_of_blockFootprint hres hn hkind' (hfoot.of_block hkind')).known
    simp [Footprint.hasUnknownWrites, hknown]
  | region c => simp [hkind', NodeKind.loop?] at hk

/-- A path of the flat graph that does not carry the location is followed by the analysis, or the
location slips. -/
theorem follows_of_path
    (path : (Problem.mk (t.inlined m.settings) t.inlinedBody fps m.aliases).Path n v) :
    l ∉ v.must → m.Follows t progress.results l n ∨ m.Slips t progress.results fps l n := by
  have hv := valid_of_analyze h
  induction path with
  | enter =>
    intro _
    obtain ⟨body, hbody, -⟩ := hv.body
    rw [RegionTree.entry_inlinedBody hbody]
    exact .inl (follows_start hl hc h hbody)
  | @step n k flat f v path hflat hf hk ih =>
    intro hout
    have hlead : (t.inlined m.settings).Leads n k := ⟨flat, hflat, hk⟩
    obtain ⟨node, hn, hplain, -⟩ := RegionTree.leads_inlined.1 hlead
    obtain ⟨hfile, hknown⟩ := footprint_inlined h hs hres hn hplain hf
    rw [Reaching.mem_must_transfer, not_or] at hout
    obtain ⟨hd, hlost⟩ := hout
    by_cases hin : l ∈ v.must
    · have ht : m.Touched l f := by
        rw [Touched, ← Bool.not_eq_false]
        exact fun hno => hlost ⟨hknown, hin, .inr hno⟩
      exact follows_or_slips hl hnest hc h hfile hd path (.inr ht) hlead
    · rcases ih hin with hfol | hslip
      · exact follows_or_slips hl hnest hc h hfile hd path (.inl ⟨hin, hfol⟩) hlead
      · exact .inr (hslip.on hfile hd hlead)

omit hl hnest hc in
/-- A path goes on without a location that it lacks or that the node takes away. -/
theorem path_without
    (path : (Problem.mk (t.inlined m.settings) t.inlinedBody fps m.aliases).Path n v)
    (hf : progress.results.nodeFootprint n = .ok f) (hd : l ∉ f.defs)
    (hlack : l ∉ v.must ∨ m.Touched l f) (hj : (t.inlined m.settings).Leads n j) :
    ∃ v, (Problem.mk (t.inlined m.settings) t.inlinedBody fps m.aliases).Path j v ∧
      l ∉ v.must := by
  have hv := valid_of_analyze h
  obtain ⟨node, hn, hplain, -⟩ := RegionTree.leads_inlined.1 hj
  obtain ⟨_, f', -, hf', -⟩ := hs n (hv.mem_inlinedBody.2 ⟨node, hn, hplain⟩)
  obtain ⟨hfile, -⟩ := footprint_inlined h hs hres hn hplain hf'
  obtain rfl := Except.ok.inj (hf.symm.trans hfile)
  obtain ⟨flat, hflat, hk⟩ := hj
  exact ⟨_, path.step hflat hf' hk, not_mem_transfer path.known.1 hd hlack⟩

omit hnest in
/-- What slips is lost on some path. -/
theorem path_of_slips
    (hp : (Problem.mk (t.inlined m.settings) t.inlinedBody fps m.aliases).Traversed)
    (hslip : m.Slips t progress.results fps l n) :
    ∃ v, (Problem.mk (t.inlined m.settings) t.inlinedBody fps m.aliases).Path n v ∧
      l ∉ v.must := by
  have hv := valid_of_analyze h
  induction hslip with
  | @overwritten k p j f g hf ht hd hp' hg hs' hj =>
    obtain ⟨node, hn, hplain, -⟩ := RegionTree.leads_inlined.1 hj
    obtain ⟨v, path⟩ := hp.reached k (hv.mem_inlinedBody.2 ⟨node, hn, hplain⟩)
    exact path_without h hs hres path hf hd (.inr ht) hj
  | @covered c inner g flow v j hr hg hd hx hlx path hlv hj =>
    obtain ⟨exit, hexit, hkind, -⟩ := hv.exit_node hr
    obtain ⟨f, x, hon, hf, -⟩ := exists_known hl hc h hexit
    obtain rfl : f = {} := hon.footprint.of_end (.inr hkind)
    exact path_without h hs hres path hf (by simp) (.inl hlv) hj
  | on _ hf hd hj ih =>
    obtain ⟨v, path, hlv⟩ := ih
    exact path_without h hs hres path hf hd (.inl hlv) hj

end Path
end Analysed

/- Stores to parts of two variables. A loop that may run no iteration overwrites a part of what is
   stored before it; another one stores a whole variable behind a part of it. -/

def front : Location := { base := 1, offset := 0, size := .bytes 4 }

def middle : Location := { base := 1, offset := 2, size := .bytes 4 }

def partBefore : Location := { base := 2, offset := 0, size := .bytes 4 }

def wholeAfter : Location := { base := 2, offset := 0, size := .bytes 8 }

def storing : Memory where
  effects i := some { accesses := [⟨[front, middle, partBefore].getD i wholeAfter, 0, .no, .must⟩] }
  aliases := ({} : AliasModel).overlap
  escapes _ := false
  settings := {}

def overlapping : TreeBuilder :=
  (TreeBuilder.new "routine").run [.block 0 [0], .loop 0 "maybe" false, .block 1 [1],
    .loop 0 "surely" true, .block 2 [2], .block 2 [3], .path 0 [2, 5, 9], .path 1 [6],
    .path 2 [10, 11]]

theorem connected_overlapping : overlapping.finish.Connected :=
  RegionTree.connected_of_chains (·.nodes.drop 2) (by decide +kernel)

theorem resolved_storing (t : RegionTree) : storing.Resolved t := fun _ _ _ _ _ _ _ => ⟨_, rfl, rfl⟩

theorem analyze_overlapping : ∃ progress flow,
    storing.analyze overlapping.finish = .ok progress ∧
    progress.results.regionFlow RegionTree.root = .ok flow ∧
    flow.output.must = .only (.ofList [front, partBefore, wholeAfter]) := by
  have hsolved : (storing.analyze overlapping.finish >>= fun p =>
      (·.output.must) <$> p.results.regionFlow RegionTree.root) =
        .ok (.only (.ofList [front, partBefore, wholeAfter])) := by
    decide +kernel
  obtain ⟨progress, h, hp⟩ := bind_eq_ok.1 hsolved
  obtain ⟨flow, hflow, hvalue⟩ := map_eq_ok.1 hp
  exact ⟨progress, flow, h, hflow, hvalue⟩

theorem solve_overlapping : ∃ survey sol y,
    storing.surveyRegion (overlapping.finish.inlined {}) overlapping.finish.inlinedBody
      (.empty (overlapping.finish.inlined {})) = .ok survey ∧
    (Problem.mk (overlapping.finish.inlined {}) overlapping.finish.inlinedBody survey.footprints
      storing.aliases).solve = .ok sol ∧
    sol.outputs.get? 1 = some y ∧ y.must = .only (.ofList [wholeAfter]) := by
  have hsolved : (storing.surveyRegion (overlapping.finish.inlined {})
      overlapping.finish.inlinedBody (.empty (overlapping.finish.inlined {})) >>= fun survey =>
      (fun sol => (sol.outputs.get? 1).map (·.must)) <$> (Problem.mk (overlapping.finish.inlined {})
        overlapping.finish.inlinedBody survey.footprints storing.aliases).solve) =
        .ok (some (.only (.ofList [wholeAfter]))) := by
    decide +kernel
  obtain ⟨survey, hs, hsolved⟩ := bind_eq_ok.1 hsolved
  obtain ⟨sol, hsol, hout⟩ := map_eq_ok.1 hsolved
  obtain ⟨y, hy, hvalue⟩ := Option.map_eq_some_iff.1 hout
  exact ⟨survey, sol, y, hs, hsol, hy, hvalue⟩

/-- However locations overlap, what the analysis promises at the exit of the routine, the flat graph
promises there as well, apart from just those locations that slip: some loop takes them away without
showing that in its summary, and nothing on the way to the exit defines them again. -/
theorem must_reach_inlined (routine : String) (steps : List TreeBuilder.Step) (m : Memory)
    (hv : ((TreeBuilder.new routine).run steps).finish.validate = .ok ())
    (hc : ((TreeBuilder.new routine).run steps).finish.Connected)
    (hres : m.Resolved ((TreeBuilder.new routine).run steps).finish) :
    let t := ((TreeBuilder.new routine).run steps).finish
    let flat := t.inlined m.settings
    ∃ progress survey sol body flow y, m.analyze t = .ok progress ∧
      m.surveyRegion flat t.inlinedBody (.empty flat) = .ok survey ∧
      (Problem.mk flat t.inlinedBody survey.footprints m.aliases).solve = .ok sol ∧
      t.region? RegionTree.root = some body ∧
      progress.results.regionFlow RegionTree.root = .ok flow ∧
      sol.outputs.get? body.exit = some y ∧
      (flow.output.must.isFull = false ∧ y.must.isFull = false) ∧
      ∀ l ∈ flow.output.must,
        l ∈ y.must ↔ ¬m.Slips t progress.results survey.footprints l body.exit := by
  intro t flat
  have hvalid : t.Valid := RegionTree.validate_eq_ok.1 hv
  have hl : t.Linked := RegionTree.linked_ofParts hvalid.indexed
  have hnest : t.Nested := ((TreeBuilder.formed_new routine).run steps).nested_finish
  obtain ⟨progress, h⟩ := analyze_ok_of_resolved hvalid hl hnest hres
  obtain ⟨survey, hsurvey⟩ := surveyRegion_inlined_ok hvalid hres (.empty flat)
  have hs := surveyed_of_surveyRegion hsurvey
  have hp := traversed_inlined (m := m) hvalid hl hnest (visited_of_analyze hc h) hs.footprint
  obtain ⟨sol, hsol⟩ := Problem.solve_ok hp.toClosed
  obtain ⟨body, hbody, hkind, -⟩ := hvalid.body
  obtain ⟨exit, hx, hkx, -⟩ := hvalid.exit_node hbody
  have hplain := NodeKind.loop?_of_end (.inr hkx)
  have hmem : body.exit ∈ t.inlinedBody.nodes := hvalid.mem_inlinedBody.2 ⟨exit, hx, hplain⟩
  obtain ⟨_, f, y, -, hf, hy, hout⟩ := (Problem.solves_of_solve hp.linked hsol).flow body.exit hmem
  obtain ⟨hfile, -⟩ := footprint_inlined h hs hres hx hplain hf
  obtain ⟨f', x, hon, hfile', hknown⟩ := exists_known hl hc h hx
  obtain rfl := Except.ok.inj (hfile.symm.trans hfile')
  obtain rfl : f = {} := hon.footprint.of_end (.inr hkx)
  rw [Reaching.transfer_empty] at hout
  have hex := Problem.exact_of_solve hp hsol hmem hy
  obtain ⟨x', z, hexit, hroot⟩ := regionFlow_root h hbody
  have hvalue := Option.some.inj ((Results.nodeFlow_eq_ok.1 hexit).symm.trans hon.flow)
  rw [Reaching.transfer_empty] at hvalue
  obtain ⟨rfl, rfl⟩ := Flow.mk.inj hvalue
  refine ⟨progress, survey, sol, body, _, y, h, hsurvey, hsol, hbody, hroot, hout,
    ⟨hknown, hex.known.1⟩, fun l hmust => ⟨fun hin hslip => ?_, fun hslip => ?_⟩⟩
  · obtain ⟨v, path, hlv⟩ := path_of_slips hl hc h hs hres hp hslip
    exact hlv ((hex.must l).1 hin v path)
  rw [hex.must]
  intro v path
  refine Classical.byContradiction fun hlv => ?_
  have hfol := (follows_of_path hl hnest hc h hs hres path hlv).resolve_right hslip
  have hone : body.runsOnce m.settings = true := by rw [Region.runsOnce, hkind]
  obtain ⟨flow, hflow, hlost⟩ := not_mem_of_lacks_exit hl hc h hbody hone hfol.1
  obtain rfl := Except.ok.inj (hexit.symm.trans hflow)
  exact hlost hmust

theorem must_reach_inlined_overlapping : ∃ progress survey,
    storing.analyze overlapping.finish = .ok progress ∧
    storing.surveyRegion (overlapping.finish.inlined {}) overlapping.finish.inlinedBody
      (.empty (overlapping.finish.inlined {})) = .ok survey ∧
    storing.Slips overlapping.finish progress.results survey.footprints front 1 ∧
    storing.Slips overlapping.finish progress.results survey.footprints partBefore 1 ∧
    ¬storing.Slips overlapping.finish progress.results survey.footprints wholeAfter 1 := by
  obtain ⟨progress, survey, sol, body, flow, y, h, hs, hsol, hr, hflow, hout, -, hall⟩ :=
    must_reach_inlined "routine" _ storing (by decide +kernel) connected_overlapping
      (resolved_storing _)
  have hexit : body.exit = 1 := by
    have hone : (overlapping.finish.region? RegionTree.root).map Region.exit = some 1 := by
      decide +kernel
    exact Option.some.inj ((congrArg (Option.map Region.exit) hr).symm.trans hone)
  rw [hexit] at hout hall
  obtain ⟨progress', flow', h', hflow', hmust⟩ := analyze_overlapping
  obtain rfl := Except.ok.inj (h.symm.trans h')
  obtain rfl := Except.ok.inj (hflow.symm.trans hflow')
  obtain ⟨survey', sol', y', hs', hsol', hout', hmust'⟩ := solve_overlapping
  obtain rfl := Except.ok.inj (hs.symm.trans hs')
  obtain rfl := Except.ok.inj (hsol.symm.trans hsol')
  obtain rfl := Option.some.inj (hout.symm.trans hout')
  rw [hmust, hmust'] at hall
  refine ⟨progress, survey, h, hs, ?_, ?_,
    (hall wholeAfter (by decide +kernel)).1 (by decide +kernel)⟩
  · exact Classical.byContradiction fun hno =>
      absurd ((hall front (by decide +kernel)).2 hno) (by decide +kernel)
  · exact Classical.byContradiction fun hno =>
      absurd ((hall partBefore (by decide +kernel)).2 hno) (by decide +kernel)

/-- Two locations that the flat graph does not promise: one is overwritten in part by a loop that
may run no iteration, the other one is covered by a later store to the whole variable. -/
theorem must_reach_exceeds_inlined :
    overlapping.finish.validate = .ok () ∧ overlapping.finish.Connected ∧
    storing.Resolved overlapping.finish ∧ ∃ progress flow survey sol y,
      storing.analyze overlapping.finish = .ok progress ∧
      progress.results.regionFlow RegionTree.root = .ok flow ∧
      storing.surveyRegion (overlapping.finish.inlined {}) overlapping.finish.inlinedBody
        (.empty (overlapping.finish.inlined {})) = .ok survey ∧
      (Problem.mk (overlapping.finish.inlined {}) overlapping.finish.inlinedBody
        survey.footprints storing.aliases).solve = .ok sol ∧
      sol.outputs.get? 1 = some y ∧
      (front ∈ flow.output.must ∧ front ∉ y.must) ∧
      partBefore ∈ flow.output.must ∧ partBefore ∉ y.must := by
  obtain ⟨progress, flow, h, hflow, hmust⟩ := analyze_overlapping
  obtain ⟨survey, sol, y, hs, hsol, hout, hmust'⟩ := solve_overlapping
  refine ⟨by decide +kernel, connected_overlapping, resolved_storing _, progress, flow, survey,
    sol, y, h, hflow, hs, hsol, hout, ?_⟩
  rw [hmust, hmust']
  decide +kernel

end Memory
end LoopMemory
