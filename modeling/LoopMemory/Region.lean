import LoopMemory.Effect

/-!
Regions are the routine body and the loops inside it. Each has a graph of its own, with an entry,
an exit, blocks, and one node for every loop nested directly in it.
-/
namespace LoopMemory

abbrev RegionId := Nat
abbrev NodeId := Nat

def instText (i : Inst) : String := s!"inst{i}"
def regionText (r : RegionId) : String := s!"region{r}"
def nodeText (n : NodeId) : String := s!"node{n}"

inductive RegionKind where
  | body
  | loop (executesAtLeastOnce : Bool)
deriving DecidableEq, Inhabited

def RegionKind.isLoop : RegionKind → Bool
  | body => false
  | loop _ => true

inductive NodeKind where
  | entry
  | exit
  | block (insts : List Inst)
  /-- Stands for a whole nested loop. -/
  | region (r : RegionId)
deriving DecidableEq, Inhabited

structure Node where
  id : NodeId
  region : RegionId
  kind : NodeKind
  succs : List NodeId := []
  preds : List NodeId := []
deriving DecidableEq, Inhabited

/-- Repeats no edge. -/
def Node.addSucc (node : Node) (n : NodeId) : Node :=
  if node.succs.contains n then node else { node with succs := node.succs ++ [n] }

structure Region where
  id : RegionId
  name : String
  kind : RegionKind
  parent : Option RegionId := none
  children : List RegionId := []
  entry : NodeId := 0
  exit : NodeId := 0
  /-- Every node of the region's graph, the entry first. -/
  nodes : List NodeId := []
  /-- The node that stands for the region in its parent's graph. -/
  standIn : Option NodeId := none
deriving DecidableEq, Inhabited

def Region.isLoop (r : Region) : Bool := r.kind.isLoop

/-- Regions and nodes by index; the routine body is region 0. -/
structure RegionTree where
  routine : String
  regions : Array Region
  nodes : Array Node
deriving DecidableEq, Inhabited

namespace RegionTree

def root : RegionId := 0

def region? (t : RegionTree) (r : RegionId) : Option Region := t.regions[r]?

def node? (t : RegionTree) (n : NodeId) : Option Node := t.nodes[n]?

def regionNamed? (t : RegionTree) (name : String) : Option Region :=
  t.regions.find? fun r => r.name == name

/-- The nodes that claim `n` as a successor, each once. -/
def predsOf (nodes : Array Node) (n : NodeId) : List NodeId :=
  ((nodes.toList.filter fun m => m.succs.contains n).map Node.id).eraseDups

/-- Takes both arenas as they are, apart from the predecessors, which follow the successors. -/
def ofParts (routine : String) (regions : Array Region) (nodes : Array Node) : RegionTree :=
  { routine, regions, nodes := nodes.mapIdx fun n node => { node with preds := predsOf nodes n } }

end RegionTree
end LoopMemory
