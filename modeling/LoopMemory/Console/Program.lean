import LoopMemory.Console.Command
import LoopMemory.Console.Display
import LoopMemory.Console.Files

/-!
The program behind the command line: what it prints and how it ends, from the files of a world.
-/
namespace LoopMemory.Console
open Description

/-- How the program ended. -/
inductive Status where
  | success
  | failure
  /-- At a number that does not fit. -/
  | broken
deriving DecidableEq

def Status.ofBool (success : Bool) : Status := if success then .success else .failure

def Status.code : Status → UInt32
  | success => 0
  | failure => 1
  | broken => 101

/-- Lines to print, in order, and how the program ended. -/
structure Outcome where
  lines : List String
  status : Status
deriving DecidableEq

variable {m : Type → Type} [Monad m] (w : World m)

def settingsFileName : String := "privatize.toml"

def loadSettings (path : String) : m (Except Fault Settings) := do
  match ← w.read path with
  | .error t => return .error { cause := .settingsFile t.text, place := { file := some path } }
  | .ok text => return (Settings.ofText text).mapError (·.inFile path)

/-- The settings in the given file, or else in the directory, or else the default ones. -/
def findSettings (path : Option String) (dir : String) : m (Except Fault Settings) := do
  match path with
  | some path => loadSettings w path
  | none =>
    let path := Path.join dir settingsFileName
    if ← w.isFile path then loadSettings w path else return .ok {}

def analyzeFile (path : String) (settings : Settings) :
    m (Except Overflow (Except Failure Analysed)) := do
  match ← w.read path with
  | .error t =>
    let fault : Fault := { cause := .descriptionFile t.text, place := { file := some path } }
    return .ok (.error { faults := [fault], warnings := [] })
  | .ok text =>
    return (analyzeText text w.arith settings).map fun outcome => outcome.mapError fun f =>
      { f with faults := f.faults.map (·.inFile path) }

def runAnalyze (path : String) (options : AnalyzeOptions) : m Outcome := do
  match ← findSettings w options.config ((Path.parent? path).getD ".") with
  | .error f => return { lines := faultLines f, status := .failure }
  | .ok settings =>
    let settings := if options.sequential then { settings with parallelRoutines := false }
      else settings
    match ← analyzeFile w path settings with
    | .error _ => return { lines := [], status := .broken }
    | .ok (.error f) => return { lines := failureLines f, status := .failure }
    | .ok (.ok a) =>
      let lines := if options.json then [(Json.array (a.reports.map RoutineReport.json)).text]
        else analysedLines a
      return { lines, status := .ofBool a.passed }

/- Cases: descriptions that should be analysed and meet their expectations, and such that should be
refused. -/

structure Tally where
  lines : List String := []
  total : Nat := 0
  passed : Nat := 0
  /-- The files that did not behave as expected. -/
  failed : List String := []

namespace Tally

/-- Counts one more case. -/
def count (t : Tally) (name : String) (passes : Bool) (lines : List String) : Tally :=
  { lines := t.lines ++ ("  " ++ name) :: lines
    total := t.total + 1
    passed := if passes then t.passed + 1 else t.passed
    failed := if passes then t.failed else t.failed ++ [name] }

def say (t : Tally) (lines : List String) : Tally := { t with lines := t.lines ++ lines }

/-- The program ends in the middle of a case. -/
def broken (t : Tally) (name : String) : Outcome :=
  { lines := t.lines ++ ["  " ++ name], status := .broken }

end Tally

def passLine : String := say [styled [.green] "✓ PASS"]

def failLine : String := say [styled [.red] "✗ FAIL"]

def separator : String := String.ofList (List.replicate 37 '-')

def descriptionExtension : String := "toml"

/-- The description files of a directory, in the order of their names. -/
def caseNames (dir : String) : m (Except Fault (List String)) := do
  match ← w.names dir with
  | none => return .ok []
  | some (.error t) =>
    return .error { cause := .caseDirectory t.text, place := { file := some dir } }
  | some (.ok names) =>
    return .ok (Text.sort (names.filter fun n => Path.extension? n == some descriptionExtension))

def successCase (settings : Settings) (verbose : Bool) (dir : String) (t : Tally) (name : String) :
    ExceptT Outcome m Tally := do
  match ← ExceptT.lift (analyzeFile w (Path.join dir name) settings) with
  | .error _ => throw (t.broken name)
  | .ok (.error f) => return t.count name false (failLine :: f.faults.flatMap faultLines)
  | .ok (.ok a) =>
    if a.passed then
      return t.count name true
        (passLine :: if verbose then a.reports.flatMap reportLines else [])
    else
      let failing := a.reports.filter fun r => !r.passed
      return t.count name false (failLine :: failing.flatMap reportLines)

def failureCase (settings : Settings) (dir : String) (t : Tally) (name : String) :
    ExceptT Outcome m Tally := do
  match ← ExceptT.lift (analyzeFile w (Path.join dir name) settings) with
  | .error _ => throw (t.broken name)
  | .ok (.error f) =>
    let first := f.faults.head?.map fun f =>
      say [styled [.brightBlack] "  ", plain f.kind.title]
    return t.count name true (passLine :: first.toList)
  | .ok (.ok _) => return t.count name false [say [styled [.red] "✗ FAIL (analysis succeeded)"]]

def headline (title : String) (names : List String) : List String :=
  if names.isEmpty then [] else [say [styled [.cyan] title], separator]

def Tally.summaryLines (t : Tally) (nanoseconds : Nat) : List String := [
  separator,
  Console.say [styled [.bold] "Passed ", plain (toString t.passed), plain " of ",
    plain (toString t.total), styled [.brightBlack] " in ", plain (elapsedText nanoseconds)]]

def Tally.outcome (t : Tally) (nanoseconds : Nat) : Outcome :=
  let failed := if t.failed.isEmpty then []
    else [Console.say [styled [.red] "Failed cases: ", plain (join t.failed)]]
  { lines := t.lines ++ t.summaryLines nanoseconds ++ failed, status := .ofBool t.failed.isEmpty }

def Tally.faulty (t : Tally) (f : Fault) : Outcome :=
  { lines := t.lines ++ faultLines f, status := .failure }

/-- The tally of all cases, unless the program ends before. -/
def runCases (settings : Settings) (dir : String) (verbose : Bool) : ExceptT Outcome m Tally := do
  let successDir := Path.join dir "success"
  let failureDir := Path.join dir "failure"
  match ← ExceptT.lift (caseNames w successDir) with
  | .error f => throw (Tally.faulty {} f)
  | .ok names =>
    let t : Tally := { lines := headline "Cases that should succeed:" names }
    let t ← names.foldlM (successCase w settings verbose successDir) t
    match ← ExceptT.lift (caseNames w failureDir) with
    | .error f => throw (t.faulty f)
    | .ok names =>
      let t := t.say (headline "\nCases that should fail:" names)
      names.foldlM (failureCase w settings failureDir) t

def runTests (dir : String) (verbose : Bool) : m Outcome := do
  match ← findSettings w none dir with
  | .error f => return { lines := faultLines f, status := .failure }
  | .ok settings =>
    let start ← w.clock
    match ← ExceptT.run (runCases w settings dir verbose) with
    | .error outcome => return outcome
    | .ok t => return t.outcome ((← w.clock) - start)

def run (args : List String) : m Outcome :=
  match Command.parse args with
  | .error e =>
    pure { lines := say [styled [.red] e.message] :: commandLines, status := .failure }
  | .ok .help => pure { lines := titleLines ++ commandLines, status := .success }
  | .ok (.analyze path options) => runAnalyze w path options
  | .ok (.tests dir verbose) => runTests w dir verbose

end LoopMemory.Console
