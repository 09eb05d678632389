import LoopMemory.Footprint.Block
import LoopMemory.Footprint.Summary
import LoopMemory.Results

/-!
The analysis of a whole routine, children before their parents: footprints of a region's nodes,
the solution of its equations, and its summary, which is the footprint of its node in the parent.
-/
namespace LoopMemory

/-- What was found so far, and every instruction whose effect was looked up, in order. -/
structure Progress where
  results : Results
  asked : List Inst := []

namespace Memory

/-- The footprints of a region's nodes, as far as they were built. -/
structure NodeSurvey where
  footprints : NodeMap Footprint := {}
  asked : List Inst := []

def surveyNode (m : Memory) (t : RegionTree) (results : Results) (s : NodeSurvey) (n : NodeId) :
    Except Breach NodeSurvey := do
  let node ← t.node n
  let block ← match node.kind with
    | .entry | .exit => pure {}
    | .block insts => m.surveyBlock insts
    | .region r => (fun f => { footprint := f }) <$> results.regionFootprint r
  return { footprints := s.footprints.set n block.footprint, asked := s.asked ++ block.asked }

def surveyRegion (m : Memory) (t : RegionTree) (region : Region) (results : Results) :
    Except Breach NodeSurvey :=
  region.nodes.foldlM (m.surveyNode t results) {}

/-- Files the values around a node and its footprint; a loop shares the values of its node. -/
def fileNode (t : RegionTree) (region : Region) (footprints : NodeMap Footprint) (sol : Solution)
    (results : Results) (n : NodeId) : Except Breach Results := do
  let some input := sol.inputs.get? n | .error (.neverSolved n region.name)
  let some output := sol.outputs.get? n | .error (.neverSolved n region.name)
  let flow : Flow := ⟨input, output⟩
  let results := match (← t.node n).kind with
    | .region child => results.setRegion child fun facts => { facts with flow := some flow }
    | _ => results
  return results.setNode n fun _ => { footprint := footprints.get? n, flow := some flow }

def fileBody (region : Region) (sol : Solution) (results : Results) : Except Breach Results := do
  match region.parent with
  | some _ => return results
  | none =>
    let some exiting := sol.outputs.get? region.exit | .error (.bodyExitUnsolved region.name)
    return results.setRegion region.id fun facts =>
      { facts with flow := some ⟨.start, exiting⟩ }

def analyzeRegion (m : Memory) (t : RegionTree) (progress : Progress) (r : RegionId) :
    Except Breach Progress := do
  let region ← t.region r
  let survey ← m.surveyRegion t region progress.results
  let problem : Problem :=
    { tree := t, region, footprints := survey.footprints, aliases := m.aliases }
  let sol ← problem.solve
  let summary ← problem.collapse sol m.settings
  let results ← region.nodes.foldlM (fileNode t region survey.footprints sol) progress.results
  let results ← fileBody region sol results
  return {
    results := results.setRegion r fun facts =>
      { facts with summary := some summary, stats := some sol.stats }
    asked := progress.asked ++ survey.asked }

/-- Validates the tree and analyses its regions bottom-up. -/
def analyze (m : Memory) (t : RegionTree) : Except Breach Progress := do
  t.validate
  t.postOrder.foldlM (m.analyzeRegion t) { results := .empty t }

end Memory
end LoopMemory
