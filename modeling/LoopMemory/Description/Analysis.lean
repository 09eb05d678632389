import LoopMemory.Description.Report
import LoopMemory.Description.Toml

/-!
The analysis of a whole description, and every fault that it or its files may have.
-/
namespace LoopMemory

inductive Cause where
  | breach (b : Breach)
  | defect (d : Description.Defect)
  /-- The text is no description. -/
  | description (text : String) (u : Toml.Unreadable)
  /-- The text holds no settings. -/
  | settings (u : Toml.Unreadable)
  | settingsFile (trouble : String)
  | descriptionFile (trouble : String)
  | caseDirectory (trouble : String)
deriving DecidableEq

structure Fault where
  cause : Cause
  place : Place
deriving DecidableEq

namespace Cause

def kind : Cause → FaultKind
  | breach _ => .contract
  | defect _ | description _ _ => .description
  | settings _ => .config
  | settingsFile _ | descriptionFile _ | caseDirectory _ => .file

def message : Cause → String
  | breach b => b.message
  | defect d => d.message
  | description text u => u.text text
  | settings u => "Couldn't parse analysis config: " ++ u.message
  | settingsFile trouble => "Couldn't read config file: " ++ trouble
  | descriptionFile trouble | caseDirectory trouble => trouble

def notes : Cause → Notes
  | breach b => b.notes
  | defect d => d.notes
  | descriptionFile _ =>
    [(.suggestion, "Check the path points to a readable .toml description")]
  | description _ _ | settings _ | settingsFile _ | caseDirectory _ => []

end Cause

namespace Fault

def kind (f : Fault) : FaultKind := f.cause.kind

def message (f : Fault) : String := f.cause.message

def notes (f : Fault) : Notes := f.cause.notes

def inFile (f : Fault) (path : String) : Fault :=
  { f with place := { f.place with file := some path } }

end Fault

namespace Description

structure Analysed where
  reports : List RoutineReport
  warnings : List String
deriving DecidableEq

def Analysed.passed (a : Analysed) : Bool := a.reports.all RoutineReport.passed

structure Failure where
  faults : List Fault
  warnings : List String
deriving DecidableEq

/-- The successes and the failures of a list, each in order. -/
def partition {ε α : Type} : List (Except ε α) → List α × List ε
  | [] => ([], [])
  | .ok a :: r => let (as, es) := partition r; (a :: as, es)
  | .error e :: r => let (as, es) := partition r; (as, e :: es)

def Routine.modelOrFault (r : Routine) : Except Fault Model :=
  r.model.mapError fun d => { cause := .defect d, place := { routine := r.name } }

/-- The report on a routine or its fault, unless the program ends. -/
def Model.reportOrFault (m : Model) (arith : Arithmetic) (settings : Settings) :
    Except Overflow (Except Fault RoutineReport) :=
  match m.analyze arith settings with
  | .ok report => .ok (.ok report)
  | .error (.breach b) => .ok (.error { cause := .breach b, place := { routine := m.name } })
  | .error (.overflow o) => .error o

/-- Analyses all routines. Those that cannot be are faults: first all with a defect, then all whose
analysis broke off. -/
def analyze (d : Description) (arith : Arithmetic) (settings : Settings) :
    Except Overflow (Except Failure Analysed) := do
  let warnings :=
    if d.routines.isEmpty then ["Description contains no [[routine]] tables"] else []
  let (models, defects) := partition (d.routines.map Routine.modelOrFault)
  let outcomes ← models.mapM fun m => m.reportOrFault arith settings
  let (reports, breaches) := partition outcomes
  let faults := defects ++ breaches
  return if faults.isEmpty then .ok { reports, warnings } else .error { faults, warnings }

def analyzeText (text : String) (arith : Arithmetic) (settings : Settings) :
    Except Overflow (Except Failure Analysed) :=
  match parse text with
  | .ok d => d.analyze arith settings
  | .error u =>
    .ok (.error { faults := [{ cause := .description text u, place := {} }], warnings := [] })

end Description

namespace Settings

def ofText (text : String) : Except Fault Settings :=
  (parse text).mapError fun u => { cause := .settings u, place := {} }

end Settings
end LoopMemory
