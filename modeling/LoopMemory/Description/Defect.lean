import LoopMemory.Description
import LoopMemory.Fault

/-!
What can be wrong with a description of a routine.
-/
namespace LoopMemory.Description

inductive Defect where
  | variableTaken (name : String)
  | unknownVariable (name : String)
  | loopTaken (name : String)
  | unrootedLoops (names : List String)
  | nodeTaken (name : String)
  | unknownRegion (name : String)
  | noTarget (operation : Operation)
  | negativeOffset (variableName : String)
  | unknownNode (name : String)
  | otherRegion (node : String)
  | unreached (node region : String)
deriving DecidableEq

namespace Defect

def message : Defect → String
  | variableTaken name => s!"Variable '{name}' is declared twice or uses a reserved name"
  | unknownVariable name => s!"Unknown variable '{name}'"
  | loopTaken name => s!"Loop '{name}' is declared twice or uses a reserved name"
  | unrootedLoops names =>
    "Loops with an unknown or cyclic parent: " ++ ", ".intercalate names
  | nodeTaken name => s!"Node '{name}' is declared twice or uses a reserved name"
  | unknownRegion name => s!"Unknown region '{name}'"
  | noTarget operation => s!"{operation.title} instruction has no target"
  | negativeOffset name => s!"Access to '{name}' has a negative offset"
  | unknownNode name => s!"Unknown node '{name}'"
  | otherRegion node => s!"Node '{node}' isn't in the same region as its predecessor"
  | unreached node region => s!"Node '{node}' can't be reached from the entry of '{region}'"

/-- The kind of entry that the defect is in. -/
def stage : Defect → String
  | variableTaken _ | unknownVariable _ => "Variables"
  | loopTaken _ | unrootedLoops _ => "Loops"
  | nodeTaken _ | unknownRegion _ => "Blocks"
  | noTarget _ | negativeOffset _ => "Instructions"
  | unknownNode _ | otherRegion _ | unreached _ _ => "Edges"

def advice : Defect → Notes
  | unknownVariable _ => [(.suggestion, "Declare the variable in a [[routine.variable]] table")]
  | unrootedLoops _ =>
    [(.suggestion,
      "A loop's parent must be another declared loop, or omitted for the routine body")]
  | unknownRegion _ => [(.suggestion, "Declare the loop in a [[routine.loop]] table")]
  | noTarget _ => [(.suggestion, "Add target = \"<variable>\" to the instruction")]
  | negativeOffset _ => [(.var, "offset")]
  | unknownNode _ => [(.suggestion, "Successors must name a block, a loop, or \"exit\"")]
  | otherRegion _ =>
    [(.suggestion, "Leave a loop through its exit, by listing successors on the loop itself")]
  | unreached _ _ =>
    [(.suggestion, "List the node as a successor of another node in its region")]
  | variableTaken _ | loopTaken _ | nodeTaken _ => []

def notes (d : Defect) : Notes := (.stage, d.stage) :: d.advice

end Defect
end LoopMemory.Description
