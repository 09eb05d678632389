import LoopMemory.Breach
import LoopMemory.Description.Defect
import LoopMemory.Description.Names
import LoopMemory.Region.Builder

/-!
The routine that a description stands for: its region tree, and tables for everything that is
asked about its memory.
-/
namespace LoopMemory.Description

structure Model where
  name : String
  tree : RegionTree
  effects : Array (Option Effect)
  aliases : AliasModel
  /-- The bases that may be reached from outside. -/
  escaped : List Base
  names : Names
  /-- What is read after each loop. -/
  liveOut : List (RegionId × LocationSet)
  expect : List (String × Expectation)

namespace Model

def effectOf (m : Model) : Effects := fun i => (m.effects[i]?).join

def mayEscape (m : Model) : Escapes := fun l => m.escaped.contains l.base

def liveAfter (m : Model) (r : RegionId) : LocationSet := (m.liveOut.lookup r).getD ∅

end Model

/- Variables. -/

def declareVariable (names : Names) (v : VariableEntry) : Except Defect Names := do
  require (v.name ≠ exitName ∧ names.baseOf? v.name = none) (.variableTaken v.name)
  return names.declare v.name v.size

def Routine.names (r : Routine) : Except Defect Names := r.vars.foldlM declareVariable {}

/-- The bases of the variables with a property; bases count from 1. -/
def Routine.basesWhere (r : Routine) (p : VariableEntry → Bool) : List Base :=
  ((r.vars.zipIdx 1).filter fun v => p v.1).map (·.2)

def baseOf (names : Names) (name : String) : Except Defect Base :=
  match names.baseOf? name with
  | some b => .ok b
  | none => .error (.unknownVariable name)

def addAlias (names : Names) (m : AliasModel) (a : AliasEntry) : Except Defect AliasModel := do
  let b ← baseOf names a.pair.1
  let c ← baseOf names a.pair.2
  return m.addPair b c

def Routine.aliasModel (r : Routine) (names : Names) : Except Defect AliasModel :=
  r.aliases.foldlM (addAlias names) { wild := r.basesWhere (·.wild) }

/- Instructions. -/

/-- A location in a variable; without a size it has all that is left behind the offset. -/
def locate (names : Names) (name : String) (offset : Int64) (size : Option UInt64) :
    Except Defect Location := do
  let b ← baseOf names name
  require (0 ≤ offset.toInt) (.negativeOffset name)
  let left := (names.sizeOf? b).map fun n => UInt64.ofNat (n.toNat - offset.toInt.toNat)
  return { base := b, offset, size := Names.extent (size.orElse fun _ => left) }

def wholes (names : Names) (l : List String) : Except Defect (List Location) :=
  l.mapM fun name => locate names name 0 none

/-- How sure an operation reads its target and writes it. -/
def Operation.assurances : Operation → Assurance × Assurance
  | load => (.must, .no)
  | store => (.no, .must)
  | update => (.must, .must)
  | mayLoad => (.may, .no)
  | mayStore => (.no, .may)
  | address | call | unresolved => (.no, .no)

def callEffect (names : Names) (i : InstructionEntry) : Except Defect Effect := do
  let reads ← wholes names i.reads
  let writes ← wholes names i.writes
  let args := reads.map (·, Assurance.may, Assurance.no) ++ writes.map (·, Assurance.no, Assurance.may)
  return {
    accesses := args.zipIdx.map fun ((l, r, w), operand) => ⟨l, operand, r, w⟩
    unknown := if i.wild then some .conservative else none }

/-- The effect of an instruction; `none` where it stays unresolved. -/
def effect (names : Names) (i : InstructionEntry) : Except Defect (Option Effect) :=
  match i.operation with
  | .unresolved => .ok none
  | .call => some <$> callEffect names i
  | op =>
    match i.target with
    | none => .error (.noTarget op)
    | some target => do
      let l ← locate names target i.offset i.size
      return some { accesses := [⟨l, 0, op.assurances.1, op.assurances.2⟩] }

/-- A routine while it is built, with what its names stand for. -/
structure Draft where
  builder : TreeBuilder
  /-- The routine's own name stands for its body. -/
  regions : List (String × RegionId)
  /-- Blocks and loops, each as a node of its enclosing region. -/
  nodes : List (String × NodeId) := []
  effects : Array (Option Effect) := #[]

namespace Draft

def start (r : Routine) : Draft :=
  { builder := .new r.name, regions := [(r.name, RegionTree.root)] }

def region? (d : Draft) : Option String → Option RegionId
  | none => some RegionTree.root
  | some name => d.regions.lookup name

def region (d : Draft) : Option String → Except Defect RegionId
  | none => .ok RegionTree.root
  | some name =>
    match d.regions.lookup name with
    | some r => .ok r
    | none => .error (.unknownRegion name)

/- Loops. -/

def addLoop (d : Draft) (parent : RegionId) (l : LoopEntry) : Except Defect Draft := do
  require (d.regions.lookup l.name = none ∧ l.name ≠ exitName) (.loopTaken l.name)
  let (r, builder) := d.builder.addLoop parent l.name l.executesAtLeastOnce
  return { d with
    builder
    regions := d.regions ++ [(l.name, r)]
    nodes := d.nodes ++ ((builder.standIn? r).map fun n => (l.name, n)).toList }

/-- Adds a loop whose parent is known by now; another one has to wait. -/
def tryLoop (s : Draft × List LoopEntry) (l : LoopEntry) : Except Defect (Draft × List LoopEntry) :=
  match s.1.region? l.parent with
  | none => .ok (s.1, s.2 ++ [l])
  | some p => do return (← s.1.addLoop p l, s.2)

/-- Goes over the loops until each has found its parent. Every round adds a loop or is the last. -/
def addLoops : Nat → Draft → List LoopEntry → Except Defect Draft
  | _, d, [] => .ok d
  | 0, d, _ :: _ => .ok d
  | fuel + 1, d, pending => do
    let (d, waiting) ← pending.foldlM tryLoop (d, [])
    require (waiting.length ≠ pending.length) (.unrootedLoops (waiting.map (·.name)))
    addLoops fuel d waiting

/- Blocks. -/

def addBlock (names : Names) (d : Draft) (b : BlockEntry) : Except Defect Draft := do
  require (d.nodes.lookup b.name = none ∧ b.name ≠ exitName) (.nodeTaken b.name)
  let r ← d.region b.region
  let effects ← b.instructions.mapM (effect names)
  let insts := (List.range effects.length).map (d.effects.size + ·)
  let (n, builder) := d.builder.addBlock r insts
  return { d with
    builder
    nodes := d.nodes ++ [(b.name, n)]
    effects := d.effects ++ effects.toArray }

/- Edges. -/

/-- The node of a region that a successor or an entry names. -/
def node (d : Draft) (name : String) (r : RegionId) : Except Defect NodeId := do
  if name = exitName then return d.builder.exit r
  match d.nodes.lookup name with
  | none => .error (.unknownNode name)
  | some n =>
    require (d.builder.regionOf n = r) (.otherRegion name)
    return n

/-- The first block that is declared in a region, or else the first loop. -/
def firstNode? (routine : Routine) (d : Draft) (r : RegionId) : Option NodeId :=
  let block := (routine.blocks.find? fun b => d.region? b.region == some r).map (·.name)
  let loop := (routine.loops.find? fun l => d.region? l.parent == some r).map (·.name)
  (block.orElse fun _ => loop).bind fun name => d.nodes.lookup name

def connectEntry (routine : Routine) (d : Draft) (r : RegionId) (entry : Option String) :
    Except Defect Draft := do
  let first ← match entry with
    | some name => some <$> d.node name r
    | none => pure (d.firstNode? routine r)
  let target := first.getD (d.builder.exit r)
  return { d with builder := d.builder.addEdge (d.builder.entry r) target }

def connectTo (r : RegionId) (source : NodeId) (d : Draft) (name : String) : Except Defect Draft := do
  let target ← d.node name r
  return { d with builder := d.builder.addEdge source target }

def connectLoop (routine : Routine) (d : Draft) (l : LoopEntry) : Except Defect Draft := do
  let r ← d.region (some l.name)
  let d ← d.connectEntry routine r l.entry
  let parent ← d.region l.parent
  match d.builder.standIn? r with
  | none => return d
  | some n => l.successors.foldlM (connectTo parent n) d

def connectBlock (d : Draft) (b : BlockEntry) : Except Defect Draft := do
  let r ← d.region b.region
  match d.nodes.lookup b.name with
  | none => return d
  | some n => b.successors.foldlM (connectTo r n) d

def connect (routine : Routine) (d : Draft) : Except Defect Draft := do
  let d ← d.connectEntry routine RegionTree.root routine.entry
  let d ← routine.loops.foldlM (connectLoop routine) d
  routine.blocks.foldlM connectBlock d

def liveOut (names : Names) (d : Draft) (l : LoopEntry) :
    Except Defect (RegionId × LocationSet) := do
  let r ← d.region (some l.name)
  return (r, .ofList (← wholes names l.liveOut))

end Draft

/- Reachability. -/

/-- All nodes on paths from the ones on the stack. Each step takes one off, and a node puts its
successors on the stack only once. -/
def reachFrom (t : RegionTree) : Nat → List NodeId → List NodeId → List NodeId
  | 0, reached, _ => reached
  | _, reached, [] => reached
  | fuel + 1, reached, n :: stack =>
    if reached.contains n then reachFrom t fuel reached stack
    else
      let next := ((t.node? n).map Node.succs).getD []
      reachFrom t fuel (n :: reached) (next.reverse ++ stack)

def reachableFrom (t : RegionTree) (n : NodeId) : List NodeId :=
  reachFrom t (t.nodes.foldl (fun k n => k + n.succs.length) 1) [] [n]

/-- Every named node is on a path from its region's entry. -/
def checkReached (t : RegionTree) (nodes : List (String × NodeId)) (r : Region) :
    Except Defect Unit :=
  let reached := reachableFrom t r.entry
  let missed := nodes.find? fun n =>
    ((t.node? n.2).any fun node => node.region == r.id) && !reached.contains n.2
  match missed with
  | some n => .error (.unreached n.1 r.name)
  | none => .ok ()

/-- The routine that a description stands for, or the first defect of the description. -/
def Routine.model (r : Routine) : Except Defect Model := do
  let names ← r.names
  let aliases ← r.aliasModel names
  let d ← Draft.addLoops r.loops.length (.start r) r.loops
  let d ← r.blocks.foldlM (Draft.addBlock names) d
  let d ← d.connect r
  let liveOut ← r.loops.mapM (d.liveOut names)
  let tree := d.builder.finish
  tree.regions.toList.forM (checkReached tree d.nodes)
  return {
    name := r.name
    tree
    effects := d.effects
    aliases
    escaped := r.basesWhere (·.escapes)
    names
    liveOut
    expect := r.expect }

end LoopMemory.Description
