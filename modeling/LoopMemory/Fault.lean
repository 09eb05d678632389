/-!
What a fault report is made of: its kind, its place, and notes under fixed keys.
-/
namespace LoopMemory

inductive FaultKind where
  | contract | config | file | description
deriving DecidableEq, Inhabited

def FaultKind.title : FaultKind → String
  | contract => "Analysis Contract Violation"
  | config => "Malformed Config"
  | file => "File Error"
  | description => "Malformed Routine Description"

/-- The routine, and the file if there is one, that a fault belongs to. -/
structure Place where
  routine : String := ""
  file : Option String := none
deriving DecidableEq, Inhabited

def Place.text (p : Place) : String :=
  match p.file with
  | none => p.routine
  | some f => if p.routine.isEmpty then f else s!"{f} ({p.routine})"

/-- Keys of the notes on a fault, in the order in which notes are shown. -/
inductive NoteKey where
  | stage | region | node | instruction | var | suggestion | alternative
deriving DecidableEq

def NoteKey.label : NoteKey → String
  | stage => "stage"
  | region => "region"
  | node => "node"
  | instruction => "instruction"
  | var => "variable"
  | suggestion => "suggestion"
  | alternative => "alternative"

abbrev Notes := List (NoteKey × String)

/-- The one-line form of a fault. -/
def FaultKind.line (k : FaultKind) (message : String) (p : Place) : String :=
  s!"{k.title}: {message} [{p.text}]"

end LoopMemory
