import LoopMemory.Region

/-!
Builds region trees. Ids are handed out in order: a region makes its entry and its exit, and a
loop then its node in the parent's graph.
-/
namespace LoopMemory

structure TreeBuilder where
  routine : String
  regions : Array Region
  nodes : Array Node
deriving Inhabited

namespace TreeBuilder

def addNode (b : TreeBuilder) (r : RegionId) (kind : NodeKind) : NodeId × TreeBuilder :=
  let n := b.nodes.size
  (n, { b with
    nodes := b.nodes.push { id := n, region := r, kind }
    regions := b.regions.modify r fun region => { region with nodes := region.nodes ++ [n] } })

def addRegion (b : TreeBuilder) (name : String) (kind : RegionKind) (parent : Option RegionId) :
    RegionId × TreeBuilder :=
  let r := b.regions.size
  let b := { b with regions := b.regions.push { id := r, name, kind, parent } }
  let (entry, b) := b.addNode r .entry
  let (exit, b) := b.addNode r .exit
  (r, { b with regions := b.regions.modify r fun region => { region with entry, exit } })

def new (routine : String) : TreeBuilder :=
  (({ routine, regions := #[], nodes := #[] } : TreeBuilder).addRegion routine .body none).2

def entry (b : TreeBuilder) (r : RegionId) : NodeId := b.regions[r]!.entry

def exit (b : TreeBuilder) (r : RegionId) : NodeId := b.regions[r]!.exit

def standIn? (b : TreeBuilder) (r : RegionId) : Option NodeId := b.regions[r]!.standIn

def regionOf (b : TreeBuilder) (n : NodeId) : RegionId := b.nodes[n]!.region

def addLoop (b : TreeBuilder) (parent : RegionId) (name : String) (executesAtLeastOnce : Bool) :
    RegionId × TreeBuilder :=
  let (r, b) := b.addRegion name (.loop executesAtLeastOnce) (some parent)
  let (n, b) := b.addNode parent (.region r)
  let regions := b.regions.modify r fun region => { region with standIn := some n }
  (r, { b with regions := regions.modify parent fun p => { p with children := p.children ++ [r] } })

def addBlock (b : TreeBuilder) (r : RegionId) (insts : List Inst) : NodeId × TreeBuilder :=
  b.addNode r (.block insts)

def addEdge (b : TreeBuilder) (source target : NodeId) : TreeBuilder :=
  { b with nodes := b.nodes.modify source fun n => n.addSucc target }

/-- Chains the nodes from the region's entry to its exit. -/
def addPath (b : TreeBuilder) (r : RegionId) (path : List NodeId) : TreeBuilder :=
  ((b.entry r :: path).zip (path ++ [b.exit r])).foldl (fun b e => b.addEdge e.1 e.2) b

/-- A node that leads nowhere falls through to its region's exit. -/
def fallThrough (b : TreeBuilder) (n : Node) : Node :=
  if n.succs.isEmpty && n.kind != .exit then { n with succs := [b.exit n.region] } else n

/-- The nodes that an iteration of the region starts with. -/
def headers (b : TreeBuilder) (r : Region) : List NodeId :=
  match b.nodes[r.entry]? with
  | none => []
  | some entry => (b.fallThrough entry).succs.filter (· != r.exit)

/-- The exit of a loop leads back to where an iteration starts. -/
def closeLoop (b : TreeBuilder) (n : Node) : Node :=
  match b.regions.find? fun r => r.isLoop && r.exit == n.id with
  | none => n
  | some r => (b.headers r).foldl Node.addSucc n

def finish (b : TreeBuilder) : RegionTree :=
  .ofParts b.routine b.regions (b.nodes.map fun n => b.closeLoop (b.fallThrough n))

/-- One call on a builder. -/
inductive Step where
  | loop (parent : RegionId) (name : String) (executesAtLeastOnce : Bool)
  | block (r : RegionId) (insts : List Inst)
  | edge (source target : NodeId)
  | path (r : RegionId) (nodes : List NodeId)
deriving DecidableEq

def apply (b : TreeBuilder) : Step → TreeBuilder
  | .loop p name once => (b.addLoop p name once).2
  | .block r insts => (b.addBlock r insts).2
  | .edge source target => b.addEdge source target
  | .path r nodes => b.addPath r nodes

def run (b : TreeBuilder) (steps : List Step) : TreeBuilder := steps.foldl apply b

end TreeBuilder
end LoopMemory
