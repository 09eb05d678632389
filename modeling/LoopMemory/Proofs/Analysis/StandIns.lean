import LoopMemory.Proofs.Analysis.Complete
import LoopMemory.Proofs.Analysis.Total
import LoopMemory.Proofs.Footprint.Block
import LoopMemory.Region.Builder

/-! Validation asks that a node stands for every loop, and does not ask that a loop knows of each
node that stands for it. So the analysis of a valid tree may meet a node before the loop that it
stands for, or leave with a loop the values of another node than the one that the loop knows. -/
namespace LoopMemory

/-- The tree with a node of another kind. -/
def RegionTree.retype (t : RegionTree) (n : NodeId) (k : NodeKind) : RegionTree :=
  .ofParts t.routine t.regions (t.nodes.modify n fun node => { node with kind := k })

namespace Memory
variable {m : Memory} {t : RegionTree} {region : Region} {r : RegionId} {n : NodeId}
  {progress : Progress}

theorem blockFootprint_ok_of_busy (h : ∀ i e u, m.effects i = some e → e.unknown = some u →
    u.isIdle = false) (insts : List Inst) : ∃ f, m.blockFootprint insts = .ok f := by
  refine blockFootprint_ok fun i u hevent => ?_
  obtain ⟨j, -, hevent⟩ := List.mem_flatMap.1 hevent
  obtain ⟨-, ⟨-, rfl⟩ | ⟨e, he, hu⟩⟩ := unknown_mem_instEvents.1 hevent
  · rfl
  · exact h j e u he hu

theorem exists_standIn_facts (h : m.analyze t = .ok progress) (hr : t.region? r = some region)
    (hroot : r ≠ RegionTree.root) : ∃ n k f flow, region.standIn = some n ∧
      progress.results.regionFootprint r = .ok f ∧ progress.results.nodeFootprint n = .ok f ∧
      t.lastFor r t.walk = some k ∧ progress.results.regionFlow r = .ok flow ∧
      progress.results.nodeFlow k = .ok flow ∧
      ((∀ j node, t.node? j = some node → node.kind = .region r → j = n) → k = n) := by
  have hv := valid_of_analyze h
  obtain ⟨n, hs⟩ : ∃ n, region.standIn = some n := by
    have hparent := (hv.region r region hr).parent
    rw [RegionTree.ParentOk, (hv.region r region hr).id] at hparent
    split at hparent
    · exact absurd hparent hroot
    · obtain ⟨_, n, _, -, -, hs, -⟩ := hparent
      exact ⟨n, hs⟩
  obtain ⟨f, k, flow, hf, hf', hlast, hflow, hflow'⟩ := region_facts_of_standIn h hr hs
  refine ⟨n, k, f, flow, hs, hf, hf', hlast, hflow, hflow', fun honly => ?_⟩
  exact Option.some.inj (hlast.symm.trans (hv.lastFor_walk hr hs honly))

/-- Every instruction surely writes the same location. -/
def marking : Memory where
  effects _ := some { accesses := [⟨{ base := 1, offset := 0, size := .bytes 4 }, 0, .no, .must⟩] }
  aliases := ({} : AliasModel).overlap
  escapes _ := false
  settings := {}

/-- Two loops in a row, a block in the first of them, and a block in the body behind both. -/
def twins : RegionTree := ((TreeBuilder.new "routine").run [.loop 0 "first" true,
  .loop 0 "second" true, .block 1 [0], .block 0 [], .path 1 [8], .path 0 [4, 7, 9]]).finish

/-- The block of the first loop stands for the second one instead, which is analysed later. -/
def hasty : RegionTree := twins.retype 8 (.region 2)

/-- The last block stands for the first loop, too. -/
def doubled : RegionTree := twins.retype 9 (.region 1)

/-- Validation leaves open one thing that the analysis needs: that what stands for a region lies in
one to which the walk comes later. Apart from that it can only fail for an unknown access that
neither reads nor writes. When it ends, no node and no region lacks an answer, and each loop has the
footprint of its node. It has the values of the last node in the walk that stands for it, and so the
ones of its own node where no other node does. -/
theorem analyze_ok_iff_timely {routine : String} {regions : Array Region} {nodes : Array Node}
    (ht : t = .ofParts routine regions nodes) (hv : t.validate = .ok ())
    (hu : ∀ i e u, m.effects i = some e → e.unknown = some u → u.isIdle = false) :
    ((∃ progress, m.analyze t = .ok progress) ↔ t.Timely) ∧
      ∀ progress, m.analyze t = .ok progress →
        (∀ n node, t.node? n = some node → ∃ f flow, progress.results.nodeFootprint n = .ok f ∧
          progress.results.nodeFlow n = .ok flow) ∧
        (∀ r region, t.region? r = some region → ∃ f flow,
          progress.results.regionFootprint r = .ok f ∧ progress.results.regionFlow r = .ok flow) ∧
        ∀ r region, t.region? r = some region → r ≠ RegionTree.root → ∃ n k,
          region.standIn = some n ∧ t.lastFor r t.walk = some k ∧
          progress.results.regionFootprint r = progress.results.nodeFootprint n ∧
          progress.results.regionFlow r = progress.results.nodeFlow k ∧
          ((∀ j node, t.node? j = some node → node.kind = .region r → j = n) → k = n) := by
  have hvalid := RegionTree.validate_eq_ok.1 hv
  have hl : t.Linked := by
    subst ht
    exact RegionTree.linked_ofParts hvalid.indexed
  refine ⟨⟨fun ⟨progress, h⟩ => timely_of_analyze h, fun ht => ?_⟩, fun progress h => ⟨?_, ?_, ?_⟩⟩
  · exact analyze_ok hvalid hl ht fun _ _ insts _ _ => blockFootprint_ok_of_busy hu insts
  · intro n node hn
    obtain ⟨f, flow, hf, -, hflow⟩ := exists_node_facts h hn
    exact ⟨f, flow, hf, hflow⟩
  · intro r region hr
    obtain ⟨f, flow, _, hf, hflow, -⟩ := exists_region_facts h hr
    exact ⟨f, flow, hf, hflow⟩
  · intro r region hr hroot
    obtain ⟨n, k, f, flow, hs, hf, hf', hlast, hflow, hflow', honly⟩ :=
      exists_standIn_facts h hr hroot
    exact ⟨n, k, hs, hlast, hf.trans hf'.symm, hflow.trans hflow'.symm, honly⟩

theorem analyze_ok_iff_timely_doubled : ∃ progress, marking.analyze doubled = .ok progress ∧
    doubled.Timely ∧ progress.results.regionFlow 1 = progress.results.nodeFlow 9 ∧
    progress.results.regionFootprint 1 = progress.results.nodeFootprint 4 ∧
    progress.results.regionFlow 2 = progress.results.nodeFlow 7 := by
  obtain ⟨hiff, hfacts⟩ := analyze_ok_iff_timely (t := doubled) (m := marking) rfl
    (by decide +kernel)
    (by simp only [marking]; rintro i _ u ⟨⟩ ⟨⟩)
  have hok : (marking.analyze doubled).isOk = true := by decide +kernel
  have hone : doubled.region? 1 = some doubled.regions[1]! := by decide +kernel
  have htwo : doubled.region? 2 = some doubled.regions[2]! := by decide +kernel
  cases h : marking.analyze doubled with
  | error e =>
    rw [h] at hok
    cases hok
  | ok progress =>
    obtain ⟨-, -, hloops⟩ := hfacts progress h
    obtain ⟨n, k, hs, hk, hfoot, hflow, -⟩ := hloops 1 _ hone (by decide)
    obtain ⟨n', k', -, hk', -, hflow', -⟩ := hloops 2 _ htwo (by decide)
    have hn : doubled.regions[1]!.standIn = some 4 := by decide +kernel
    have hlast : doubled.lastFor 1 doubled.walk = some 9 := by decide +kernel
    have hlast' : doubled.lastFor 2 doubled.walk = some 7 := by decide +kernel
    obtain rfl := Option.some.inj (hs.symm.trans hn)
    obtain rfl := Option.some.inj (hk.symm.trans hlast)
    obtain rfl := Option.some.inj (hk'.symm.trans hlast')
    exact ⟨progress, rfl, hiff.1 ⟨progress, h⟩, hflow, hfoot, hflow'⟩

/-- The analysis breaks off in one valid tree, and in another one it leaves with a loop other values
than those of its node. -/
theorem valid_standIns_astray :
    (hasty.validate = .ok () ∧ marking.analyze hasty = .error (.notCollapsed 2)) ∧
    doubled.validate = .ok () ∧ ∃ region progress, doubled.region? 1 = some region ∧
      region.standIn = some 4 ∧ marking.analyze doubled = .ok progress ∧
      progress.results.regionFlow 1 ≠ progress.results.nodeFlow 4 := by
  have hbreach : (match marking.analyze hasty with
      | .ok _ => none
      | .error e => some e) = some (.notCollapsed 2) := by
    decide +kernel
  have hflows : ((marking.analyze doubled).toOption.map fun progress =>
      decide ((progress.results.regionFlow 1).toOption = (progress.results.nodeFlow 4).toOption)) =
      some false := by
    decide +kernel
  refine ⟨⟨by decide +kernel, ?_⟩, by decide +kernel, doubled.regions[1]!, ?_⟩
  · cases h : marking.analyze hasty with
    | ok progress =>
      rw [h] at hbreach
      cases hbreach
    | error e =>
      rw [h] at hbreach
      exact congrArg _ (Option.some.inj hbreach)
  · obtain ⟨progress, h, hflows⟩ := Option.map_eq_some_iff.1 hflows
    refine ⟨progress, by decide +kernel, by decide +kernel, eq_ok_of_toOption h, fun he => ?_⟩
    exact of_decide_eq_false hflows (congrArg Except.toOption he)

end Memory
end LoopMemory
