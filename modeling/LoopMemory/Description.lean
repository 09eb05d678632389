import LoopMemory.Effect

/-!
Written descriptions of routines: variables, loops, blocks of memory operations, and what the
analysis is expected to find.
-/
namespace LoopMemory.Description

/-- The name by which successors and entries refer to the exit of their region. -/
def exitName : String := "exit"

structure VariableEntry where
  name : String
  /-- In bytes; left out where it is unknown. -/
  size : Option UInt64 := none
  escapes : Bool := false
  /-- Points anywhere, so that it may alias every other variable. -/
  wild : Bool := false
deriving DecidableEq, Inhabited

structure AliasEntry where
  pair : String × String := ("", "")
deriving DecidableEq, Inhabited

structure LoopEntry where
  name : String
  /-- The enclosing loop; left out for a loop in the routine body. -/
  parent : Option String := none
  executesAtLeastOnce : Bool := false
  /-- Where an iteration starts; by default at the first node that is declared in the loop. -/
  entry : Option String := none
  /-- The nodes of the parent region that follow the loop. -/
  successors : List String := []
  /-- The variables that are read after the loop. -/
  liveOut : List String := []
deriving DecidableEq, Inhabited

inductive Operation where
  | load | store | update | mayLoad | mayStore | address | call
  /-- Its effect is not resolved. -/
  | unresolved
deriving DecidableEq, Inhabited

def Operation.title : Operation → String
  | load => "Load"
  | store => "Store"
  | update => "Update"
  | mayLoad => "MayLoad"
  | mayStore => "MayStore"
  | address => "Address"
  | call => "Call"
  | unresolved => "Opaque"

structure InstructionEntry where
  operation : Operation
  target : Option String := none
  offset : Int64 := 0
  /-- By default all that is left of the target behind the offset. -/
  size : Option UInt64 := none
  /-- Pointers through which a call may read. -/
  reads : List String := []
  /-- Pointers through which a call may write. -/
  writes : List String := []
  /-- A call may touch any memory. -/
  wild : Bool := false
deriving DecidableEq, Inhabited

structure BlockEntry where
  name : String
  /-- The enclosing loop; left out for a block in the routine body. -/
  region : Option String := none
  successors : List String := []
  instructions : List InstructionEntry := []
deriving DecidableEq, Inhabited

/-- What the analysis should find for a region; a list that is left out is not compared. -/
structure Expectation where
  defs : Option (List String) := none
  mayDefs : Option (List String) := none
  uses : Option (List String) := none
  mustReachOut : Option (List String) := none
  mayReachOut : Option (List String) := none
  priv : Option (List String) := none
  shared : Option (List String) := none
deriving DecidableEq, Inhabited

structure Routine where
  name : String
  /-- The first node of the body; by default the first one that is declared in it. -/
  entry : Option String := none
  vars : List VariableEntry := []
  aliases : List AliasEntry := []
  loops : List LoopEntry := []
  blocks : List BlockEntry := []
  /-- By the name of the region, ascending; the body has the name of the routine. -/
  expect : List (String × Expectation) := []
deriving DecidableEq, Inhabited

end Description

structure Description where
  routines : List Description.Routine := []
deriving DecidableEq, Inhabited

end LoopMemory
