import LoopMemory.Description
import Mathlib.Logic.Relation

/-! What a description has to be for a routine to stand behind it, said by its names alone: where
each block and loop lies, and which of them follow one another. -/
namespace LoopMemory.Description

/-- A place in the graphs of a routine. The regions are the body, `none`, and the loops by name; a
block or a loop is named in the region around it. -/
inductive Spot where
  | entry (region : Option String)
  | exit (region : Option String)
  | named (name : String)
deriving DecidableEq

/-- What a name stands for where it is an entry or a successor in the region. -/
def Spot.of (region : Option String) (name : String) : Spot :=
  if name = exitName then .exit region else .named name

/-- A block or a loop, as a node of the region around it. -/
structure Place where
  name : String
  region : Option String
  successors : List String
deriving DecidableEq

namespace Routine
variable (r : Routine)

/-- The routine's own name stands for its body. -/
def home (parent : Option String) : Option String := parent.filter (· ≠ r.name)

def blockPlace (b : BlockEntry) : Place := ⟨b.name, r.home b.region, b.successors⟩

def loopPlace (l : LoopEntry) : Place := ⟨l.name, r.home l.parent, l.successors⟩

def places : List Place := r.blocks.map r.blockPlace ++ r.loops.map r.loopPlace

/-- Every region with the entry that is written for it. -/
def outlines : List (Option String × Option String) :=
  (none, r.entry) :: r.loops.map fun l => (some l.name, l.entry)

def Declares (name : String) : Prop := name ∈ r.vars.map (·.name)

/-- The name may stand as an entry or a successor in the region. -/
def Knows (region : Option String) (name : String) : Prop :=
  name = exitName ∨ ∃ p ∈ r.places, p.name = name ∧ p.region = region

/-- Where the entry of a region leads: to what is written, or else to the first place. -/
def header (region : Option String) : Option String → Spot
  | some name => .of region name
  | none =>
    match r.places.find? (·.region = region) with
    | some p => .named p.name
    | none => .exit region

/-- The edges that are written down. -/
inductive Writes : Spot → Spot → Prop
  | enter {region entry} (h : (region, entry) ∈ r.outlines) :
    Writes (.entry region) (r.header region entry)
  | next {p name} (hp : p ∈ r.places) (hs : name ∈ p.successors) :
    Writes (.named p.name) (.of p.region name)

/-- The edges of all graphs: a place without successors also falls through to the exit of its region,
and the exit of a loop leads back to where an iteration starts. -/
inductive Leads : Spot → Spot → Prop
  | written {s t} (h : r.Writes s t) : Leads s t
  | fall {p} (hp : p ∈ r.places) (hs : p.successors = []) : Leads (.named p.name) (.exit p.region)
  | again {l} (hl : l ∈ r.loops) (he : r.header (some l.name) l.entry ≠ .exit (some l.name)) :
    Leads (.exit (some l.name)) (r.header (some l.name) l.entry)

/-- The parents of the region lead to the body. -/
inductive Rooted : Option String → Prop
  | body : Rooted none
  | loop {l} (hl : l ∈ r.loops) (h : Rooted (r.home l.parent)) : Rooted (some l.name)

/-- All variables that the instruction needs are there. -/
def Resolves (i : InstructionEntry) : Prop :=
  match i.operation with
  | .unresolved => True
  | .call => ∀ name ∈ i.reads ++ i.writes, r.Declares name
  | _ => ∃ name, i.target = some name ∧ r.Declares name ∧ 0 ≤ i.offset.toInt

structure WellFormed : Prop where
  vars : (r.vars.map (·.name)).Nodup ∧ ¬r.Declares exitName
  aliases : ∀ a ∈ r.aliases, r.Declares a.pair.1 ∧ r.Declares a.pair.2
  loops : (r.loops.map (·.name)).Nodup
  loop : ∀ l ∈ r.loops, l.name ≠ exitName ∧ l.name ≠ r.name ∧ r.Rooted (some l.name)
  blocks : (r.blocks.map (·.name)).Nodup
  block : ∀ b ∈ r.blocks, b.name ≠ exitName ∧ b.name ∉ r.loops.map (·.name) ∧
    ∀ name, r.home b.region = some name → name ∈ r.loops.map (·.name)
  instructions : ∀ b ∈ r.blocks, ∀ i ∈ b.instructions, r.Resolves i
  liveOut : ∀ l ∈ r.loops, ∀ name ∈ l.liveOut, r.Declares name
  entries : ∀ o ∈ r.outlines, ∀ name, o.2 = some name → r.Knows o.1 name
  successors : ∀ p ∈ r.places, ∀ name ∈ p.successors, r.Knows p.region name
  reached : ∀ p ∈ r.places, Relation.ReflTransGen r.Leads (.entry p.region) (.named p.name)

end Routine
end LoopMemory.Description
