import LoopMemory.Fault
import LoopMemory.Region

/-!
Broken preconditions: a malformed region tree, an effect that is none, or a question about
something that was never computed.
-/
namespace LoopMemory

inductive Breach where
  /- Look-ups in a tree. -/
  | noRegion (routine : String) (r : RegionId)
  | noNode (routine : String) (n : NodeId)
  /- The shape of a tree. -/
  | noRoot (routine : String)
  | rootNotBody (root : String)
  | regionMisplaced (region : String) (index : Nat) (r : RegionId)
  | nestedBody (region : String)
  | orphan (region : String)
  | unlistedChild (region parent : String)
  | noStandIn (region : String)
  | wrongStandIn (n : NodeId) (region parent : String)
  | foreignChild (region child : String)
  | badEnds (region : String)
  | endsUnlisted (region : String)
  | entryEntered (region : String)
  | foreignNode (n : NodeId) (region : String) (owner : RegionId)
  | strayEdge (source target : NodeId) (region : String)
  | nodeMisplaced (index : Nat) (n : NodeId)
  | unlistedNode (n : NodeId) (region : String)
  | reachedTwice (r : RegionId) (routine : String)
  | detached (routine : String)
  /- The stages of the analysis. -/
  | idleUnknown (i : Inst)
  | noFootprint (n : NodeId)
  | exitUnsolved (region : String)
  | summaryIncomplete (n : NodeId) (region : String)
  | neverSolved (n : NodeId) (region : String)
  | bodyExitUnsolved (region : String)
  /- Questions to the results. -/
  | nodeNotOurs (n : NodeId) (routine : String)
  | regionNotOurs (r : RegionId) (routine : String)
  | footprintMissing (n : NodeId)
  | nodeUnsolved (n : NodeId)
  | notCollapsed (r : RegionId)
  | regionUnsolved (r : RegionId)
  | notALoop (region : String)
deriving DecidableEq

namespace Breach

def message : Breach → String
  | noRegion routine r => s!"Region tree of '{routine}' has no region {regionText r}"
  | noNode routine n => s!"Region tree of '{routine}' has no node {nodeText n}"
  | noRoot routine => s!"Region tree of '{routine}' has no root region"
  | rootNotBody root => s!"Root region '{root}' must be the routine body with no parent"
  | regionMisplaced region index r =>
    s!"Region '{region}' is stored at index {index} but claims id {regionText r}"
  | nestedBody region => s!"Region '{region}' is a nested routine body"
  | orphan region => s!"Region '{region}' has no parent"
  | unlistedChild region parent =>
    s!"Region '{region}' names '{parent}' as parent, but the parent doesn't list it"
  | noStandIn region => s!"Region '{region}' has no node in its parent's graph"
  | wrongStandIn n region parent =>
    s!"{nodeText n} doesn't stand for region '{region}' inside '{parent}'"
  | foreignChild region child =>
    s!"Region '{region}' lists '{child}' as a child with a different parent"
  | badEnds region => s!"Region '{region}' has a malformed entry or exit node"
  | endsUnlisted region => s!"Region '{region}' must list its entry first and include its exit"
  | entryEntered region => s!"Entry of region '{region}' has predecessors"
  | foreignNode n region owner =>
    s!"{nodeText n} is listed by region '{region}' but owned by {regionText owner}"
  | strayEdge source target region =>
    s!"Edge {nodeText source} -> {nodeText target} leaves region '{region}'"
  | nodeMisplaced index n => s!"Node stored at index {index} claims id {nodeText n}"
  | unlistedNode n region => s!"{nodeText n} claims region '{region}' but isn't part of its graph"
  | reachedTwice r routine =>
    s!"Region {regionText r} is reachable twice in the region tree of '{routine}'"
  | detached routine =>
    s!"Region tree of '{routine}' has regions unreachable from the routine body"
  | idleUnknown i =>
    s!"{instText i} was reported as an unknown access that neither reads nor writes"
  | noFootprint n => s!"{nodeText n} has no footprint to solve with"
  | exitUnsolved region => s!"Region '{region}' was collapsed before its exit was solved"
  | summaryIncomplete n region =>
    s!"{nodeText n} of region '{region}' has no footprint or solved input"
  | neverSolved n region => s!"{nodeText n} of region '{region}' was never solved"
  | bodyExitUnsolved region => s!"Exit of routine body '{region}' was never solved"
  | nodeNotOurs n routine => s!"{nodeText n} doesn't belong to routine '{routine}'"
  | regionNotOurs r routine => s!"{regionText r} doesn't belong to routine '{routine}'"
  | footprintMissing n => s!"{nodeText n} has no footprint yet"
  | nodeUnsolved n => s!"{nodeText n} hasn't been solved"
  | notCollapsed r => s!"{regionText r} hasn't been collapsed"
  | regionUnsolved r => s!"{regionText r} hasn't been solved in its parent"
  | notALoop region => s!"Only loops can be privatized, '{region}' is the routine body"

/-- The stage of the analysis that found the breach. -/
def stage : Breach → Option String
  | noRegion .. | noNode .. => some "Region Lookup"
  | noRoot .. | rootNotBody .. | regionMisplaced .. | nestedBody .. | orphan ..
  | unlistedChild .. | noStandIn .. | wrongStandIn .. | foreignChild .. | badEnds ..
  | endsUnlisted .. | entryEntered .. | foreignNode .. | strayEdge .. | nodeMisplaced ..
  | unlistedNode .. | reachedTwice .. | detached .. => some "Region Validation"
  | idleUnknown .. => some "Footprint"
  | noFootprint .. | neverSolved .. => some "Reaching Definitions"
  | exitUnsolved .. | summaryIncomplete .. => some "Collapse"
  | bodyExitUnsolved .. => none
  | nodeNotOurs .. | regionNotOurs .. | footprintMissing .. | nodeUnsolved .. | notCollapsed ..
  | regionUnsolved .. => some "Result Lookup"
  | notALoop .. => some "Privatization"

def advice : Breach → Notes
  | orphan .. =>
    [(.suggestion, "Every loop region must be nested in the routine body or another loop")]
  | foreignNode .. => [(.node, "graph membership")]
  | strayEdge .. => [(.suggestion, "Route edges out of a loop through its exit node")]
  | idleUnknown .. =>
    [(.suggestion, "Report instructions without memory effects as having no accesses")]
  | noFootprint .. =>
    [(.suggestion, "Build footprints for every node of a region before solving it")]
  | summaryIncomplete .. =>
    [(.suggestion, "Solve a region completely before collapsing it")]
  | nodeUnsolved .. | regionUnsolved .. =>
    [(.suggestion, "Query results only after the routine has been analysed")]
  | notALoop .. => [(.region, "routine body")]
  | _ => []

def notes (b : Breach) : Notes := (b.stage.map fun s => (NoteKey.stage, s)).toList ++ b.advice

end Breach

/-- The computation goes on only if the condition holds. -/
def require {ε : Type} (p : Prop) [Decidable p] (e : ε) : Except ε Unit :=
  if p then .ok () else .error e

end LoopMemory
