import LoopMemory.Solver

/-!
What the analysis found out about a routine, by node and by region, and the questions that may be
asked about it. A question about what was never computed is a breach.
-/
namespace LoopMemory

structure NodeFacts where
  footprint : Option Footprint := none
  flow : Option Flow := none
deriving DecidableEq, Inhabited

structure RegionFacts where
  /-- The whole region as one footprint. -/
  summary : Option Footprint := none
  /-- The values around the region in its parent's graph; for the routine body, the start and the
  value at its exit. -/
  flow : Option Flow := none
  stats : Option SolverStats := none
deriving DecidableEq, Inhabited

structure Results where
  routine : String
  nodes : Array NodeFacts
  regions : Array RegionFacts
deriving DecidableEq, Inhabited

namespace Results

def empty (t : RegionTree) : Results :=
  { routine := t.routine
    nodes := .replicate t.nodes.size {}
    regions := .replicate t.regions.size {} }

def nodeFacts (r : Results) (n : NodeId) : Except Breach NodeFacts :=
  match r.nodes[n]? with
  | some facts => .ok facts
  | none => .error (.nodeNotOurs n r.routine)

def regionFacts (r : Results) (i : RegionId) : Except Breach RegionFacts :=
  match r.regions[i]? with
  | some facts => .ok facts
  | none => .error (.regionNotOurs i r.routine)

def orElse {α : Type} (b : Breach) : Option α → Except Breach α
  | some a => .ok a
  | none => .error b

def nodeFootprint (r : Results) (n : NodeId) : Except Breach Footprint := do
  orElse (.footprintMissing n) (← r.nodeFacts n).footprint

def nodeFlow (r : Results) (n : NodeId) : Except Breach Flow := do
  orElse (.nodeUnsolved n) (← r.nodeFacts n).flow

def regionFootprint (r : Results) (i : RegionId) : Except Breach Footprint := do
  orElse (.notCollapsed i) (← r.regionFacts i).summary

def regionFlow (r : Results) (i : RegionId) : Except Breach Flow := do
  orElse (.regionUnsolved i) (← r.regionFacts i).flow

def regionStats? (r : Results) (i : RegionId) : Option SolverStats := r.regions[i]?.bind (·.stats)

def defs (r : Results) (i : RegionId) : Except Breach LocationSet :=
  Footprint.defs <$> r.regionFootprint i

def mayDefs (r : Results) (i : RegionId) : Except Breach LocationSet :=
  Footprint.mayDefs <$> r.regionFootprint i

def uses (r : Results) (i : RegionId) : Except Breach LocationSet :=
  Footprint.uses <$> r.regionFootprint i

def hasExplicitAccess (r : Results) (aliases : Aliasing) (i : RegionId) (l : Location) :
    Except Breach Bool :=
  (fun f => f.explicit.touches aliases l) <$> r.regionFootprint i

def hasAddressAccess (r : Results) (i : RegionId) (b : Base) : Except Breach Bool :=
  (fun f => decide (b ∈ f.addresses)) <$> r.regionFootprint i

def hasUnknownInst (r : Results) (i : RegionId) (inst : Inst) : Except Breach Bool :=
  (fun f => f.hasUnknownInst inst) <$> r.regionFootprint i

/- Facts about a node or region that the routine does not have are dropped. -/

def setNode (r : Results) (n : NodeId) (f : NodeFacts → NodeFacts) : Results :=
  { r with nodes := r.nodes.modify n f }

def setRegion (r : Results) (i : RegionId) (f : RegionFacts → RegionFacts) : Results :=
  { r with regions := r.regions.modify i f }

end Results
end LoopMemory
