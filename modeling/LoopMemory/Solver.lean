import LoopMemory.NodeMap
import LoopMemory.Reaching
import LoopMemory.Region.Validation

/-!
Solves the data-flow equations of one region with a worklist. Every value behind a node starts at
the top and is recomputed while the worklist lasts; a change puts the successors back on it.
-/
namespace LoopMemory

structure SolverStats where
  nodes : Nat
  transfers : Nat
  changed : Nat
deriving DecidableEq, Inhabited

structure Solution where
  inputs : NodeMap Reaching
  outputs : NodeMap Reaching
  stats : SolverStats
deriving DecidableEq, Inhabited

/-- The region to solve, within its tree, and the footprints of its nodes. -/
structure Problem where
  tree : RegionTree
  region : Region
  footprints : NodeMap Footprint
  aliases : Aliasing

namespace Problem

structure State where
  inputs : NodeMap Reaching := {}
  outputs : NodeMap Reaching := {}
  queue : List NodeId
  /-- The nodes that are not to be put on the worklist again. -/
  queued : List NodeId
  transfers : Nat := 0
  changed : Nat := 0
  /-- Every value stored behind a node, in order. -/
  trace : List (NodeId × Reaching) := []

def begin (p : Problem) : State :=
  { outputs := p.region.nodes.foldl (fun m n => m.set n .top) {}
    queue := p.region.nodes
    queued := p.region.nodes
    trace := p.region.nodes.map fun n => (n, .top) }

/-- The meet over all predecessors that have a value; the region's entry takes the start. -/
def inputOf (p : Problem) (outputs : NodeMap Reaching) (n : NodeId) (node : Node) : Reaching :=
  if n = p.region.entry then .start
  else (node.preds.filterMap outputs.get?).foldl Reaching.meet .top

def transfer (p : Problem) (n : NodeId) (x : Reaching) : Except Breach Reaching :=
  match p.footprints.get? n with
  | none => .error (.noFootprint n)
  | some f => .ok (x.transfer p.aliases f)

/-- Puts a node on the worklist, unless it waits there. -/
def State.enqueue (s : State) (n : NodeId) : State :=
  if s.queued.contains n then s else { s with queue := s.queue ++ [n], queued := n :: s.queued }

def State.store (s : State) (n : NodeId) (x : Reaching) : State :=
  { s with
    outputs := s.outputs.set n x
    changed := s.changed + 1
    trace := s.trace ++ [(n, x)] }

/-- Recomputes the node that was taken off the worklist. -/
def step (p : Problem) (s : State) (n : NodeId) (rest : List NodeId) : Except Breach State := do
  let s := { s with queue := rest, queued := s.queued.filter (· != n) }
  let node ← p.tree.node n
  let input := p.inputOf s.outputs n node
  let output ← p.transfer n input
  let s := { s with inputs := s.inputs.set n input, transfers := s.transfers + 1 }
  if s.outputs.get? n = some output then return s
  return node.succs.foldl State.enqueue (s.store n output)

/-- Runs until the worklist is empty or a step fails, whose state is then the last one. -/
def run (p : Problem) : Nat → State → State × Option Breach
  | 0, s => (s, none)
  | fuel + 1, s =>
    match s.queue with
    | [] => (s, none)
    | n :: rest =>
      match p.step s n rest with
      | .error e => (s, some e)
      | .ok s => p.run fuel s

/-- The locations that some footprint defines. -/
def defs (p : Problem) : LocationSet := p.footprints.entries.foldl (fun s e => s ∪ e.2.defs) ∅

/-- The locations that some footprint defines or may define. -/
def writes (p : Problem) : LocationSet :=
  p.footprints.entries.foldl (fun s e => s ∪ e.2.defs ∪ e.2.mayDefs) ∅

/-- How often values may change: behind each node a value is stored, leaves the top, and then loses
definitions that must reach and gains ones that may. -/
def changeBound (p : Problem) : Nat := p.tree.nodes.size * (2 + p.defs.size + p.writes.size)

def maxSuccs (p : Problem) : Nat := p.tree.nodes.foldl (fun m n => max m n.succs.length) 0

/-- Each step takes a first entry off the worklist or one that a change put there. -/
def stepBound (p : Problem) : Nat := p.region.nodes.length + p.changeBound * p.maxSuccs

def State.solution (p : Problem) (s : State) : Solution :=
  { inputs := s.inputs
    outputs := s.outputs
    stats := ⟨p.region.nodes.length, s.transfers, s.changed⟩ }

/-- The solution, and every value that was stored on the way to it. -/
def solveTraced (p : Problem) : List (NodeId × Reaching) × Except Breach Solution :=
  match p.run p.stepBound p.begin with
  | (s, none) => (s.trace, .ok (s.solution p))
  | (s, some e) => (s.trace, .error e)

def solve (p : Problem) : Except Breach Solution := p.solveTraced.2

end Problem
end LoopMemory
