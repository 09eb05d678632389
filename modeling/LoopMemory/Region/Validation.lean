import LoopMemory.Breach

/-!
The structure that the solver relies on, checked in a fixed order, and the bottom-up walk over
the regions of a tree that has it.
-/
namespace LoopMemory
namespace RegionTree

def region (t : RegionTree) (r : RegionId) : Except Breach Region :=
  match t.region? r with
  | some region => .ok region
  | none => .error (.noRegion t.routine r)

def node (t : RegionTree) (n : NodeId) : Except Breach Node :=
  match t.node? n with
  | some node => .ok node
  | none => .error (.noNode t.routine n)

/-- Parent and child name each other, and a node of the parent's graph stands for the child. -/
def checkParent (t : RegionTree) (region : Region) : Except Breach Unit :=
  match region.parent with
  | none => require (region.id = root) (.orphan region.name)
  | some p => do
    let parent ← t.region p
    require (parent.children.contains region.id) (.unlistedChild region.name parent.name)
    match region.standIn with
    | none => .error (.noStandIn region.name)
    | some n =>
      let node ← t.node n
      require (node.kind = .region region.id ∧ node.region = p)
        (.wrongStandIn n region.name parent.name)

def checkChildren (t : RegionTree) (region : Region) : Except Breach Unit :=
  region.children.forM fun c => do
    let child ← t.region c
    require (child.parent = some region.id) (.foreignChild region.name child.name)

def checkNode (t : RegionTree) (region : Region) (n : NodeId) : Except Breach Unit := do
  let node ← t.node n
  require (node.region = region.id) (.foreignNode node.id region.name node.region)
  node.succs.forM fun s => do
    let target ← t.node s
    require (target.region = region.id) (.strayEdge node.id s region.name)

def checkGraph (t : RegionTree) (region : Region) : Except Breach Unit := do
  let entry ← t.node region.entry
  let exit ← t.node region.exit
  require (entry.kind = .entry ∧ exit.kind = .exit) (.badEnds region.name)
  require (region.nodes.head? = some region.entry ∧ region.nodes.contains region.exit)
    (.endsUnlisted region.name)
  require (entry.preds = []) (.entryEntered region.name)
  region.nodes.forM (t.checkNode region)

def checkRegion (t : RegionTree) (index : Nat) (region : Region) : Except Breach Unit := do
  require (region.id = index) (.regionMisplaced region.name index region.id)
  require (index = root ∨ region.kind ≠ .body) (.nestedBody region.name)
  t.checkParent region
  t.checkChildren region
  t.checkGraph region

def checkOwner (t : RegionTree) (index : Nat) (node : Node) : Except Breach Unit := do
  require (node.id = index) (.nodeMisplaced index node.id)
  let owner ← t.region node.region
  require (owner.nodes.contains node.id) (.unlistedNode node.id owner.name)

/-- Follows the children from the regions on the stack, the last one first, and meets none twice.
Every step but the last meets a region that was not met before, which bounds their number. -/
def visit (t : RegionTree) : Nat → List RegionId → List RegionId → Except Breach (List RegionId)
  | _, met, [] => .ok met
  | 0, met, _ :: _ => .ok met
  | fuel + 1, met, r :: stack => do
    require (r ∉ met) (.reachedTwice r t.routine)
    let region ← t.region r
    t.visit fuel (r :: met) (region.children.reverse ++ stack)

def checkNesting (t : RegionTree) : Except Breach Unit := do
  let met ← t.visit (t.regions.size + 1) [] [root]
  require (met.length = t.regions.size) (.detached t.routine)

def validate (t : RegionTree) : Except Breach Unit := do
  match t.region? root with
  | none => .error (.noRoot t.routine)
  | some r =>
    require (r.kind = .body ∧ r.parent = none ∧ r.standIn = none) (.rootNotBody r.name)
  t.regions.toList.zipIdx.forM fun (region, index) => t.checkRegion index region
  t.nodes.toList.zipIdx.forM fun (node, index) => t.checkOwner index node
  t.checkNesting

/-- The regions under one, children first; the depth of a valid tree is at most its size. -/
def bottomUp (t : RegionTree) : Nat → RegionId → List RegionId
  | 0, r => [r]
  | depth + 1, r =>
    match t.region? r with
    | none => [r]
    | some region => region.children.flatMap (t.bottomUp depth) ++ [r]

/-- Every region after its children, the routine body last. -/
def postOrder (t : RegionTree) : List RegionId := t.bottomUp t.regions.size root

end RegionTree
end LoopMemory
