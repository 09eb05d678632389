import LoopMemory.Solver

/-!
A solved region as one footprint, which is all that its parent sees of it. A definition of a part
of a variable stays one of that part.
-/
namespace LoopMemory

/-- A loop that may run no iteration promises no definition. -/
def Region.runsOnce (r : Region) (settings : Settings) : Bool :=
  match r.kind with
  | .body => true
  | .loop once => once || settings.assumeLoopsExecute

namespace Footprint

/-- Uses that no definition reaching the node covers. -/
def absorbUses (input : Reaching) (f : Footprint) (sum : Footprint) : Footprint :=
  { sum with uses := sum.uses.insertMany (f.uses.toList.filter fun l => !input.must.covers l) }

/-- Definitions that still reach the exit stay definitions, all other writes are possible ones. -/
def absorbDefs (exiting : Reaching) (f : Footprint) (sum : Footprint) : Footprint :=
  { sum with
    defs := sum.defs.insertMany (f.defs.toList.filter fun l => exiting.must.covers l)
    mayDefs := (sum.mayDefs.insertMany (f.defs.toList.filter fun l => !exiting.must.covers l)) ∪
      f.mayDefs }

def absorb (aliases : Aliasing) (exiting input : Reaching) (sum f : Footprint) : Footprint :=
  mergeAccesses aliases (absorbDefs exiting f (absorbUses input f sum)) f

end Footprint

namespace Problem

def absorbNode (p : Problem) (sol : Solution) (exiting : Reaching) (sum : Footprint) (n : NodeId) :
    Except Breach Footprint :=
  match p.footprints.get? n, sol.inputs.get? n with
  | some f, some input => .ok (sum.absorb p.aliases exiting input f)
  | _, _ => .error (.summaryIncomplete n p.region.name)

def collapse (p : Problem) (sol : Solution) (settings : Settings) : Except Breach Footprint := do
  let some exiting := sol.outputs.get? p.region.exit | .error (.exitUnsolved p.region.name)
  let sum ← p.region.nodes.foldlM (p.absorbNode sol exiting) {}
  let sum := if p.region.runsOnce settings then sum else sum.downgrade
  return sum.widen p.region.isLoop

end Problem
end LoopMemory
