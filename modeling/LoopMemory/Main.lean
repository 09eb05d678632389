import LoopMemory.Console.Program

/-!
The command line over the files of the machine.
-/
namespace LoopMemory.Console

def troubleOf : IO.Error → Trouble
  | .noFileOrDirectory .. => .missing
  | .inappropriateType _ code _ => if code = 21 then .isDirectory else .notDirectory
  | e@(.invalidArgument _ code _) =>
    if code = 36 ∨ -code = 36 then .nameTooLong else .other (toString e)
  | .permissionDenied _ code details => .other s!"{details} (os error {code})"
  | e => .other (toString e)

def readFile (path : String) : IO (Except Trouble String) := do
  try
    let content ← IO.FS.readBinFile path
    match String.fromUTF8? content with
    | some text => return .ok text
    | none => return .error .notText
  catch e => return .error (troubleOf e)

def isFile (path : String) : IO Bool := do
  try
    let info ← (← IO.FS.realPath path).metadata
    match info.type with
    | .file => return true
    | _ => return false
  catch _ => return false

def entryNames (path : String) : IO (Except Trouble (List String)) := do
  try
    let entries ← (← IO.FS.realPath path).readDir
    return .ok (entries.toList.map (·.fileName))
  catch e => return .error (troubleOf e)

def namesIn (path : String) : IO (Option (Except Trouble (List String))) := do
  try
    if ← (← IO.FS.realPath path).pathExists then return some (← entryNames path)
    else return none
  catch _ => return none

def machine : World IO :=
  { read := readFile, isFile, names := namesIn, clock := IO.monoNanosNow }

end LoopMemory.Console

def main (args : List String) : IO UInt32 := do
  let outcome ← LoopMemory.Console.run LoopMemory.Console.machine args
  for line in outcome.lines do
    IO.println line
  return outcome.status.code
