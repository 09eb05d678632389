import LoopMemory.Proofs.Analysis.Facts
import LoopMemory.Proofs.Footprint.Block
import LoopMemory.Region.Builder

/-! The values of the analysis against the runs of the routine: what must reach a node was written
on every run that arrives there. -/
namespace LoopMemory.Memory
variable {m : Memory} {t : RegionTree} {region : Region} {r : RegionId} {n k : NodeId}
  {node : Node} {results : Results} {progress : Progress} {f g : Footprint}
  {x y : Reaching} {l : Location} {es es' : List Event}

/-- What a footprint promises about the events that it stands for. -/
structure Vouches (m : Memory) (f : Footprint) (es : List Event) : Prop where
  defs : ∀ l ∈ f.defs, m.Written l es
  clobbered : ∀ e ∈ es, e.clobbers = true → f.hasUnknownWrites = true

theorem vouches_nil (h : f.defs = ∅) : m.Vouches f [] where
  defs l hl := by simp [h] at hl
  clobbered e he := by simp at he

theorem Recorded.vouches (h : m.Recorded es f) : m.Vouches f es := ⟨h.defs, h.clobbered⟩

/-- All that must reach a point was written by the events before it. -/
structure Reached (m : Memory) (x : Reaching) (es : List Event) : Prop where
  known : x.must.isFull = false
  written : ∀ l ∈ x.must, m.Written l es

theorem reached_start : m.Reached .start [] := ⟨rfl, by simp⟩

theorem Reached.mono (h : m.Reached x es) (hy : y ≤ x) : m.Reached y es where
  known := by
    cases hf : y.must.isFull with
    | false => rfl
    | true => exact (hy.1.2 hf).symm.trans h.known
  written l hl := h.written l (hy.1.1 l hl)

/- Behind a node: its own definitions were written there, the others were not overwritten. -/
theorem Reached.transfer (h : m.Reached x es) (hv : m.Vouches f es') :
    m.Reached (x.transfer m.aliases f) (es ++ es') where
  known := by
    rw [Bool.eq_false_iff, ne_eq, Reaching.isFull_must_transfer]
    simp [h.known]
  written l hl := by
    rcases Reaching.mem_must_transfer.1 hl with hd | ⟨hw, hx, -⟩
    · exact (hv.defs l hd).prepend es
    · refine (h.written l hx).append fun e he => Bool.eq_false_iff.2 fun hc => ?_
      simp [hv.clobbered e he hc] at hw

/-- A run that arrives at a node finds what is on file there. -/
structure Arrives (m : Memory) (t : RegionTree) (results : Results) (r : RegionId) (n : NodeId)
    (es : List Event) : Prop where
  reached : ∃ region node f x, t.region? r = some region ∧ n ∈ region.nodes ∧
    m.OnFile t results n node f x ∧ m.Reached x es
  clobbered : ∀ g, results.summary? r = some g → ∀ e ∈ es, e.clobbers = true →
    g.hasUnknownWrites = true

section Sound
variable (h : m.analyze t = .ok progress) (hl : t.Linked)
include h hl

theorem Arrives.step (ha : m.Arrives t progress.results r n es)
    (hx : m.OnFile t progress.results n node f x) (hv : m.Vouches f es') (hk : k ∈ node.succs) :
    m.Arrives t progress.results r k (es ++ es') := by
  obtain ⟨⟨region, _, _, x', hr, hn, hx', hreach⟩, hclob⟩ := ha
  obtain ⟨rfl, rfl, rfl⟩ := hx.unique hx'
  refine ⟨?_, fun g hg e he hc => ?_⟩
  · have hk' := (valid_of_analyze h).succ_mem hr hn hx.lookup hk
    obtain ⟨node', f', y, hy⟩ := exists_onFile h hl hr hk'
    exact ⟨region, node', f', y, hr, hk', hy,
      (hreach.transfer hv).mono (OnFile.edge h hl hr hn hx hy hk)⟩
  · rcases List.mem_append.1 he with he | he
    · exact hclob g hg e he hc
    · exact OnFile.unknownWrites_summary h hl hr hg hn hx (hv.clobbered e he hc)

/- A whole run of a region, up to its exit, is what its summary stands for. -/
theorem Arrives.vouches (hr : t.region? r = some region)
    (ha : m.Arrives t progress.results r region.exit es)
    (hg : progress.results.summary? r = some g) : m.Vouches g es := by
  obtain ⟨⟨region', node, f, x, hr', -, hx, hreach⟩, hclob⟩ := ha
  obtain rfl := Option.some.inj (hr.symm.trans hr')
  obtain ⟨exit, hexit, hkind⟩ := ((valid_of_analyze h).region r region hr).graph.exit
  obtain rfl := Option.some.inj (hexit.symm.trans hx.lookup)
  have hf : f = {} := by simpa [IsFootprint, hkind] using hx.footprint
  have hbehind : m.Reached (x.transfer m.aliases f) es := by
    simpa using hreach.transfer (vouches_nil (f := f) (by rw [hf]))
  refine ⟨fun l hd => ?_, hclob g hg⟩
  obtain ⟨-, hc, -⟩ := (mem_defs_summary h hl hr hg hx).1 hd
  obtain ⟨-, d, hd, hdl⟩ := Reach.covers_iff.1 hc
  exact (hbehind.written d hd).covers hdl

/- A loop that may run no iteration has no definitions, so doing nothing keeps its promise. -/
theorem vouches_skip {c : RegionId} {inner : Region} (hc : t.region? c = some inner)
    (hz : inner.runsOnce m.settings = false) (hg : progress.results.summary? c = some g) :
    m.Vouches g [] := by
  obtain ⟨node, f, x, hx⟩ := exists_onFile h hl hc ((valid_of_analyze h).exit_mem hc)
  refine vouches_nil (SortedSet.ext fun l => ⟨fun hd => ?_, fun hd => ?_⟩)
  · obtain ⟨hr, -⟩ := (mem_defs_summary h hl hc hg hx).1 hd
    simp [hz] at hr
  · simp at hd

/- Each step of the run needs only the footprint of the node that it leaves. -/
theorem arrives_of_run (run : m.Run t r n es) : m.Arrives t progress.results r n es := by
  have hv := valid_of_analyze h
  have step : ∀ {r n k node es es'}, m.Arrives t progress.results r n es →
      t.node? n = some node → k ∈ node.succs →
      (∀ f, m.IsFootprint progress.results node.kind f → m.Vouches f es') →
      m.Arrives t progress.results r k (es ++ es') := by
    intro r n k node es es' ha hn hk hf
    obtain ⟨region, node', f, x, -, -, hx, -⟩ := ha.reached
    obtain rfl := Option.some.inj (hn.symm.trans hx.lookup)
    exact ha.step h hl hx (hf f hx.footprint) hk
  induction run with
  | @enter r region hr =>
    obtain ⟨node, f, x, hx⟩ := exists_onFile h hl hr (hv.entry_mem hr)
    have hstart := OnFile.entry h hl hr hx
    exact ⟨⟨region, node, f, x, hr, hv.entry_mem hr, hx, hstart ▸ reached_start⟩, by simp⟩
  | pass run hn hk hs ih =>
    have hnext := step ih hn hs fun f hf => vouches_nil (by rw [hf.of_end hk])
    simpa using hnext
  | block run hn hk hs ih =>
    exact step ih hn hs fun f hf => (recorded_of_blockFootprint (hf.of_block hk)).vouches
  | loop run hn hk hc within hs ih ihw =>
    exact step ih hn hs fun f hf => ihw.vouches h hl hc (hf.of_region hk)
  | skip run hn hk hc hz hs ih =>
    have hnext := step ih hn hs fun f hf => vouches_skip h hl hc hz (hf.of_region hk)
    simpa using hnext

theorem vouches_of_across (ha : m.Across t n es) (hx : m.OnFile t progress.results n node f x) :
    m.Vouches f es := by
  cases ha with
  | pass hn hk =>
    obtain rfl := Option.some.inj (hn.symm.trans hx.lookup)
    exact vouches_nil (by rw [hx.footprint.of_end hk])
  | block hn hk =>
    obtain rfl := Option.some.inj (hn.symm.trans hx.lookup)
    exact (recorded_of_blockFootprint (hx.footprint.of_block hk)).vouches
  | loop hn hk hc within =>
    obtain rfl := Option.some.inj (hn.symm.trans hx.lookup)
    exact (arrives_of_run h hl within).vouches h hl hc (hx.footprint.of_region hk)
  | skip hn hk hc hz =>
    obtain rfl := Option.some.inj (hn.symm.trans hx.lookup)
    exact vouches_skip h hl hc hz (hx.footprint.of_region hk)

end Sound

/-- A loop that reads a location and then writes another one. -/
def copyLoop : TreeBuilder :=
  (TreeBuilder.new "routine").run [.loop 0 "loop" true, .block 1 [0], .path 1 [5], .path 0 [4]]

def source : Location := { base := 1, offset := 0, size := .bytes 8 }

def target : Location := { base := 2, offset := 0, size := .bytes 8 }

def copying : Memory where
  effects _ := some { accesses := [⟨source, 0, .must, .no⟩, ⟨target, 1, .no, .must⟩] }
  aliases := ({} : AliasModel).overlap
  escapes _ := false
  settings := {}

theorem run_copyLoop : copying.Run copyLoop.finish 0 1 (copying.blockEvents [0]) := by
  have hr : copyLoop.finish.region? 0 = some copyLoop.finish.regions[0]! := by decide +kernel
  have hc : copyLoop.finish.region? 1 = some copyLoop.finish.regions[1]! := by decide +kernel
  have h0 : copyLoop.finish.node? 0 = some ⟨0, 0, .entry, [4], []⟩ := by decide +kernel
  have h2 : copyLoop.finish.node? 2 = some ⟨2, 1, .entry, [5], []⟩ := by decide +kernel
  have h4 : copyLoop.finish.node? 4 = some ⟨4, 0, .region 1, [1], [0]⟩ := by decide +kernel
  have h5 : copyLoop.finish.node? 5 = some ⟨5, 1, .block [0], [3], [2, 3]⟩ := by decide +kernel
  have within : copying.Run copyLoop.finish 1 3 (copying.blockEvents [0]) :=
    ((Run.enter hc).pass h2 (.inl rfl) (.head _)).block h5 rfl (.head _)
  exact ((Run.enter hr).pass h0 (.inl rfl) (.head _)).loop h4 rfl hc within (.head _)

/-- What must reach a node was written on every run that arrives there, and no unknown write came
after it; the same holds behind the node, and for the definitions of a region at its exit. -/
theorem must_reach_written (routine : String) (regions : Array Region) (nodes : Array Node)
    (h : m.analyze (.ofParts routine regions nodes) = .ok progress) :
    (∀ r n es, m.Run (.ofParts routine regions nodes) r n es →
      ∃ flow, progress.results.nodeFlow n = .ok flow ∧
        flow.input.must.isFull = false ∧ (∀ l ∈ flow.input.must, m.Written l es) ∧
        ∀ es', m.Across (.ofParts routine regions nodes) n es' →
          flow.output.must.isFull = false ∧ ∀ l ∈ flow.output.must, m.Written l (es ++ es')) ∧
    ∀ r region es, regions[r]? = some region →
      m.Run (.ofParts routine regions nodes) r region.exit es →
      ∃ defs, progress.results.defs r = .ok defs ∧ ∀ l ∈ defs, m.Written l es := by
  have hl := RegionTree.linked_ofParts (valid_of_analyze h).indexed
  constructor
  · intro r n es run
    obtain ⟨region, node, f, x, hr, hn, hx, hreach⟩ := (arrives_of_run h hl run).reached
    refine ⟨⟨x, x.transfer m.aliases f⟩, Results.nodeFlow_eq_ok.2 hx.flow, hreach.known,
      hreach.written, fun es' ha => ?_⟩
    have hbehind := hreach.transfer (vouches_of_across h hl ha hx)
    exact ⟨hbehind.known, hbehind.written⟩
  · intro r region es hr run
    obtain ⟨g, hg⟩ := exists_summary h hr
    refine ⟨g.defs, map_eq_ok.2 ⟨g, Results.regionFootprint_eq_ok.2 hg, rfl⟩, ?_⟩
    exact ((arrives_of_run h hl run).vouches h hl hr hg).defs

theorem must_reach_written_copyLoop : ∃ progress flow,
    copying.analyze copyLoop.finish = .ok progress ∧ progress.results.nodeFlow 1 = .ok flow ∧
    flow.input.must = .only (.ofList [target]) ∧
    copying.Written target (copying.blockEvents [0]) := by
  have hsolved : (copying.analyze copyLoop.finish >>= fun p =>
      (·.input.must) <$> p.results.nodeFlow 1) = .ok (.only (.ofList [target])) := by
    decide +kernel
  obtain ⟨progress, h, hp⟩ := bind_eq_ok.1 hsolved
  obtain ⟨flow, hf, hm⟩ := map_eq_ok.1 hp
  obtain ⟨flow', hf', -, hw, -⟩ := (must_reach_written _ _ _ h).1 0 1 _ run_copyLoop
  obtain rfl := Except.ok.inj (hf.symm.trans hf')
  exact ⟨progress, flow, h, hf, hm, hw target (by simp [hm])⟩

end LoopMemory.Memory
