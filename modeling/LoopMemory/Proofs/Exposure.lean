import LoopMemory.Proofs.Soundness

/-! Reads of a run that no certain write of the run covers are uses of the region. -/
namespace LoopMemory.Memory
variable {m : Memory} {t : RegionTree} {r : RegionId} {n : NodeId} {node : Node}
  {progress : Progress} {f g : Footprint} {l : Location} {es es' : List Event}

section Exposes
variable (h : m.analyze t = .ok progress) (hl : t.Linked)
include h hl

/- A use of the node is dropped from the summary only where something that covers it must reach the
   node, and was then written. -/
theorem uses_carried (run : m.Run t r n es) (hn : t.node? n = some node)
    (hf : ∀ f, m.IsFootprint progress.results node.kind f → l ∈ f.uses)
    (hg : progress.results.summary? r = some g) (hc : ¬m.Covered l es) : l ∈ g.uses := by
  obtain ⟨region, node', f, x, hr, hmem, hx, hreach⟩ := (arrives_of_run h hl run).reached
  obtain rfl := Option.some.inj (hn.symm.trans hx.lookup)
  refine OnFile.uses_summary h hl hr hg hmem hx (hf f hx.footprint) (Bool.eq_false_iff.2 ?_)
  intro hcov
  obtain ⟨-, d, hd, hdl⟩ := Reach.covers_iff.1 hcov
  exact hc ((hreach.written d hd).covers hdl).covered

theorem exposed_step (run : m.Run t r n es) (hn : t.node? n = some node)
    (hes : ∀ g, progress.results.summary? r = some g → ∀ l, m.Exposed l es → l ∈ g.uses)
    (hes' : ∀ f, m.IsFootprint progress.results node.kind f → ∀ l, m.Exposed l es' → l ∈ f.uses)
    (hg : progress.results.summary? r = some g) (he : m.Exposed l (es ++ es')) : l ∈ g.uses := by
  rcases he.of_append with he | ⟨hc, he⟩
  · exact hes g hg l he
  · exact uses_carried h hl run hn (fun f hf => hes' f hf l he) hg hc

theorem uses_of_run (run : m.Run t r n es) :
    ∀ g, progress.results.summary? r = some g → ∀ l, m.Exposed l es → l ∈ g.uses := by
  induction run with
  | enter hr => exact fun g hg l he => absurd he not_exposed_nil
  | pass run hn hk hs ih => exact ih
  | skip run hn hk hc hz hs ih => exact ih
  | block run hn hk hs ih =>
    exact fun g hg l he => exposed_step h hl run hn ih
      (fun f hf l he => (recorded_of_blockFootprint (hf.of_block hk)).exposed l he) hg he
  | loop run hn hk hc within hs ih ihw =>
    exact fun g hg l he => exposed_step h hl run hn ih
      (fun f hf l he => ihw f (hf.of_region hk) l he) hg he

theorem uses_of_started (run : m.Started t r es) :
    ∀ g, progress.results.summary? r = some g → ∀ l, m.Exposed l es → l ∈ g.uses := by
  induction run with
  | arrived run => exact uses_of_run h hl run
  | @block r n node insts es es' rest run hn hk hs =>
    refine fun g hg l he => exposed_step h hl run hn (uses_of_run h hl run)
      (fun f hf l he => (recorded_of_blockFootprint (hf.of_block hk)).exposed l ?_) hg he
    rw [← hs]
    exact he.append rest
  | loop run hn hk within ihw =>
    exact fun g hg l he => exposed_step h hl run hn (uses_of_run h hl run)
      (fun f hf l he => ihw f (hf.of_region hk) l he) hg he

end Exposes

/-- No read is lost: wherever a run of a region breaks off, at whatever depth, a location that it
read while no certain write of the run covered it is a use of the region. -/
theorem uses_of_exposed (routine : String) (regions : Array Region) (nodes : Array Node)
    (h : m.analyze (.ofParts routine regions nodes) = .ok progress)
    (run : m.Started (.ofParts routine regions nodes) r es) (he : m.Exposed l es) :
    ∃ uses, progress.results.uses r = .ok uses ∧ l ∈ uses := by
  have hl := RegionTree.linked_ofParts (valid_of_analyze h).indexed
  have hregion : ∃ region, (RegionTree.ofParts routine regions nodes).region? r = some region := by
    cases run with
    | arrived run | block run | loop run =>
      obtain ⟨region, _, _, _, hr, -⟩ := (arrives_of_run h hl run).reached
      exact ⟨region, hr⟩
  obtain ⟨region, hr⟩ := hregion
  obtain ⟨g, hg⟩ := exists_summary h hr
  exact ⟨g.uses, map_eq_ok.2 ⟨g, Results.regionFootprint_eq_ok.2 hg, rfl⟩,
    uses_of_started h hl run g hg l he⟩

theorem uses_of_exposed_copyLoop : ∃ progress uses,
    copying.analyze copyLoop.finish = .ok progress ∧ progress.results.uses 0 = .ok uses ∧
    source ∈ uses := by
  have hsolved : (copying.analyze copyLoop.finish).isOk = true := by decide +kernel
  cases h : copying.analyze copyLoop.finish with
  | error e =>
    rw [h] at hsolved
    cases hsolved
  | ok progress =>
    obtain ⟨uses, hu, hs⟩ := uses_of_exposed (l := source) _ _ _ h (.arrived run_copyLoop)
      ⟨[], _, _, rfl, rfl, rfl, by rintro ⟨a, ha, -⟩; simp at ha⟩
    exact ⟨progress, uses, rfl, hu, hs⟩

end LoopMemory.Memory
