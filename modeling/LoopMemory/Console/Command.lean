/-!
The command line: what is asked for, and what is wrong with it.
-/
namespace LoopMemory.Console

structure AnalyzeOptions where
  config : Option String := none
  json : Bool := false
  sequential : Bool := false
deriving DecidableEq, Inhabited

inductive Command where
  /-- Analyses a description file. -/
  | analyze (path : String) (options : AnalyzeOptions)
  /-- Runs the descriptions under a directory of cases. -/
  | tests (dir : String) (verbose : Bool)
  | help
deriving DecidableEq

inductive UsageError where
  | invalidCommand (name : String)
  | missingConfig
  | unknownAnalyzeFlag (flag : String)
  | unknownTestsFlag (flag : String)
  | secondDescription
  | noDescription
deriving DecidableEq

def UsageError.message : UsageError → String
  | invalidCommand name => s!"Invalid command: '{name}'"
  | missingConfig => "Missing value for --config"
  | unknownAnalyzeFlag flag =>
    s!"Unknown analyze flag: '{flag}'. Supported flags are --config, --json, --sequential."
  | unknownTestsFlag flag =>
    s!"Unknown tests flag: '{flag}'. The only tests flag is --verbose."
  | secondDescription => "Analyze accepts exactly one description file."
  | noDescription => "Analyze needs a description file: analyze <file.toml>"

namespace Command

def isFlag (arg : String) : Bool := ['-', '-'].isPrefixOf arg.toList

/-- The directory of cases that is run when none is given. -/
def casesDir : String := "tests/cases"

def parseAnalyze (path : Option String) (options : AnalyzeOptions) :
    List String → Except UsageError Command
  | [] =>
    match path with
    | some path => .ok (.analyze path options)
    | none => .error .noDescription
  | "--config" :: file :: rest =>
    if isFlag file then .error .missingConfig
    else parseAnalyze path { options with config := some file } rest
  | ["--config"] => .error .missingConfig
  | "--json" :: rest => parseAnalyze path { options with json := true } rest
  | "--sequential" :: rest => parseAnalyze path { options with sequential := true } rest
  | arg :: rest =>
    if isFlag arg then .error (.unknownAnalyzeFlag arg)
    else if path.isSome then .error .secondDescription
    else parseAnalyze (some arg) options rest

def parseTests (dir : String) (verbose : Bool) : List String → Except UsageError Command
  | [] => .ok (.tests dir verbose)
  | "--verbose" :: rest => parseTests dir true rest
  | arg :: rest =>
    if isFlag arg then .error (.unknownTestsFlag arg) else parseTests arg verbose rest

/-- Without any argument the help is shown. -/
def parse : List String → Except UsageError Command
  | [] | "help" :: _ | "--help" :: _ | "-h" :: _ => .ok .help
  | "analyze" :: rest => parseAnalyze none {} rest
  | "tests" :: rest => parseTests casesDir false rest
  | other :: _ => .error (.invalidCommand other)

end Command
end LoopMemory.Console
