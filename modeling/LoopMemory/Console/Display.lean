import LoopMemory.Description.Analysis

/-!
Reports, faults and the help as they are shown on a terminal, line by line.
-/
namespace LoopMemory.Console
open Description

/- Styled text. A style lasts from the segment that sets it to the end of the text. -/

inductive Style where
  | red | green | yellow | cyan | magenta | brightBlack
  | bold | dark | italic
deriving DecidableEq

def Style.code : Style → Nat
  | red => 31
  | green => 32
  | yellow => 33
  | magenta => 35
  | cyan => 36
  | brightBlack => 90
  | bold => 1
  | dark => 2
  | italic => 3

def escape (code : Nat) : String := s!"\x1b[{code}m"

structure Segment where
  styles : List Style
  text : String

def plain (text : String) : Segment := ⟨[], text⟩

def styled (styles : List Style) (text : String) : Segment := ⟨styles, text⟩

def Segment.render (s : Segment) : String :=
  String.join (s.styles.map fun style => escape style.code) ++ s.text

/-- The segments one after another; all styles end with them. -/
def say (segments : List Segment) : String :=
  String.join (segments.map Segment.render) ++ escape 0

/- Spans of time, in the largest unit that fits, with as many digits as are needed. -/

/-- `n` thousandths, millionths or so of a unit, without zeros at the end. -/
def decimalText (n places : Nat) : String :=
  let unit := Nat.pow 10 places
  let digits := (toString (n % unit)).toList
  let padded := List.replicate (places - digits.length) '0' ++ digits
  let fraction := (padded.reverse.dropWhile (· == '0')).reverse
  if fraction.isEmpty then toString (n / unit)
  else toString (n / unit) ++ "." ++ String.ofList fraction

def elapsedText (nanoseconds : Nat) : String :=
  if 1000000000 ≤ nanoseconds then decimalText nanoseconds 9 ++ "s"
  else if 1000000 ≤ nanoseconds then decimalText nanoseconds 6 ++ "ms"
  else if 1000 ≤ nanoseconds then decimalText nanoseconds 3 ++ "µs"
  else toString nanoseconds ++ "ns"

/- Reports. -/

def join (l : List String) : String := ", ".intercalate l

def reachText : Option (List String) → String
  | some names => join names
  | none => everything

def candidateLine (c : CandidateReport) : String :=
  let first := if c.firstPrivate then " (first private)" else ""
  say [plain "  ", plain c.location, plain " → ", styled [.bold] c.verdict.text, plain first]

def regionLines (r : RegionReport) : List String :=
  let kind := if r.isLoop then "loop" else "body"
  [say [styled [.cyan] s!"{r.name} ({kind}, {r.transfers} transfers)"],
    say [plain "  defs:     ", plain (join r.defs)],
    say [plain "  may defs: ", plain (join r.mayDefs)],
    say [plain "  uses:     ", plain (join r.uses)],
    say [plain "  must out: ", plain (reachText r.mustReachOut)],
    say [plain "  may out:  ", plain (reachText r.mayReachOut)]] ++
  (if r.addressTaken.isEmpty then []
    else [say [styled [.yellow] "  address taken: ", plain (join r.addressTaken)]]) ++
  (if r.unknownInstructions = 0 then []
    else [say [styled [.yellow] "  unknown instructions: ",
      plain (toString r.unknownInstructions)]]) ++
  r.privatization.map candidateLine

def reportLines (r : RoutineReport) : List String :=
  say [styled [.green, .bold] "\nRoutine ", plain r.routine] ::
    r.regions.flatMap regionLines ++
    r.mismatches.map fun m => say [styled [.red] "✗ ", plain m]

def noteLine (n : NoteKey × String) : String :=
  say [styled [.brightBlack] n.1.label, plain ": ", plain n.2]

def faultHead (f : Fault) : List String :=
  let place := f.place.text
  match f.kind with
  | .contract => [
    say [plain "\nヽ༼☉ ‿ ⚆༽ﾉ  🔥🔥 ", styled [.dark, .magenta] place, plain " 🔥🔥  ╰(° _ o╰) "],
    say [styled [.yellow] "ANALYSIS CONTRACT VIOLATION - "],
    say [styled [.dark, .yellow] "the caller handed the engine a malformed routine"]]
  | .config => [
    say [plain "\n (-_-)  🔥 ", styled [.dark, .magenta] place, plain " 🔥  <(^~^)/ "],
    say [styled [.yellow] "CONFIG FILE ISSUE - "]]
  | .file => [
    say [styled [.yellow] "🏚 Can't find/read file or directory: ", plain place]]
  | .description => [
    say [plain "\n(ಠ_ಠ) ", styled [.dark, .magenta] place],
    say [styled [.red] "Routine description"]]

def faultLines (f : Fault) : List String :=
  faultHead f ++ say [styled [.red] f.message] :: f.notes.map noteLine

def warningLine (warning : String) : String := say [styled [.yellow] "Warning: ", plain warning]

def failureLines (f : Failure) : List String :=
  f.faults.flatMap faultLines ++ f.warnings.map warningLine

def analysedLines (a : Analysed) : List String :=
  a.reports.flatMap reportLines ++ a.warnings.map warningLine

def titleLines : List String := [
  say [styled [.brightBlack] "------------------------------------"],
  say [styled [.green, .bold] "privatize - defined memory analysis for loop privatization"],
  say [plain "Usage: ", styled [.bold] "<command>", styled [.italic] " <args>"]]

def commandLines : List String := [
  say [styled [.green, .bold] "\nCommands:"],
  say [plain "  analyze <file>    - Analyses every routine in a description file"],
  say [plain "  tests [dir]       - Runs the description cases (default: tests/cases)"],
  say [plain "  help              - Shows this message"],
  say [styled [.green, .bold] "\nAnalyze flags:"],
  say [plain "  --config <file>   (default: privatize.toml next to the description)"],
  say [plain "  --json            Prints reports as JSON"],
  say [plain "  --sequential      Analyses routines one at a time"],
  say [styled [.green, .bold] "\nTests flags:"],
  say [plain "  --verbose         Prints the report of every passing case"]]

end LoopMemory.Console
