import LoopMemory.Analysis
import LoopMemory.Description.Model
import LoopMemory.Json
import LoopMemory.Privatization

/-!
What the analysis found for a described routine, with locations by name, also as JSON, and how that
differs from what the description expects.
-/
namespace LoopMemory.Description

structure CandidateReport where
  location : String
  verdict : Verdict
  firstPrivate : Bool
deriving DecidableEq

structure RegionReport where
  name : String
  isLoop : Bool
  defs : List String
  mayDefs : List String
  uses : List String
  /-- `none` where every location reaches the end, since no path does. -/
  mustReachOut : Option (List String)
  mayReachOut : Option (List String)
  addressTaken : List String
  unknownInstructions : Nat
  transfers : Nat
  privatization : List CandidateReport
deriving DecidableEq

structure RoutineReport where
  routine : String
  regions : List RegionReport
  /-- One line for every difference from the expectations. -/
  mismatches : List String
deriving DecidableEq

/-- Why there is no report. -/
inductive Halt where
  | breach (b : Breach)
  | overflow (o : Overflow)
deriving DecidableEq

def RoutineReport.passed (r : RoutineReport) : Bool := r.mismatches.isEmpty

def CandidateReport.ofCandidate (names : Names) (c : Candidate) : CandidateReport :=
  { location := names.name c.location, verdict := c.verdict, firstPrivate := c.firstPrivate }

namespace RegionReport

def ofResults (m : Model) (results : Results) (region : Region) : Except Breach RegionReport := do
  let footprint ← results.regionFootprint region.id
  let flow ← results.regionFlow region.id
  let candidates ←
    if region.isLoop then
      classifyLoop m.tree results region.id (m.liveAfter region.id) m.aliases.overlap
    else pure []
  return {
    name := region.name
    isLoop := region.isLoop
    defs := m.names.list footprint.defs
    mayDefs := m.names.list footprint.mayDefs
    uses := m.names.list footprint.uses
    mustReachOut := m.names.listReach? flow.output.must
    mayReachOut := m.names.listReach? flow.output.may
    addressTaken := Text.sort (footprint.addresses.toList.map m.names.baseName)
    unknownInstructions := footprint.unknown.length
    transfers := ((results.regionStats? region.id).map (·.transfers)).getD 0
    privatization := candidates.map (.ofCandidate m.names) }

/-- The candidates with certain verdicts, by name. -/
def locationsWhere (r : RegionReport) (p : Verdict → Bool) : List String :=
  Text.sort ((r.privatization.filter fun c => p c.verdict).map (·.location))

end RegionReport

/- Expectations. -/

/-- The text that stands for every location. -/
def everything : String := "*"

/-- Why an expected text is not compared. -/
inductive Unread where
  | undeclared (text : String)
  | overflow (o : Overflow)
deriving DecidableEq

/-- An expected location as it would be reported. -/
def normal (arith : Arithmetic) (names : Names) (text : String) : Except Unread String :=
  if text = everything then .ok text
  else match names.parse arith text with
    | .error o => .error (.overflow o)
    | .ok none => .error (.undeclared text)
    | .ok (some l) => .ok (names.name l)

/-- Drops repetitions from a sorted list. -/
def dedup : List String → List String
  | [] => []
  | a :: r => if r.head? = some a then dedup r else a :: dedup r

/-- The difference between an expected list and the one that was found, if there is one. -/
def compare (arith : Arithmetic) (names : Names) (region field : String) (expected : List String)
    (found : Option (List String)) : Except Overflow (Option String) :=
  match expected.mapM (normal arith names) with
  | .error (.overflow o) => .error o
  | .error (.undeclared text) =>
    .ok (some s!"{region}.{field}: '{text}' doesn't name a declared variable")
  | .ok texts =>
    let expected := dedup (Text.sort texts)
    let found := found.getD [everything]
    .ok <| if expected = found then none
      else some <| s!"{region}.{field}: expected [" ++ ", ".intercalate expected ++ "], found [" ++
        ", ".intercalate found ++ "]"

/-- A list that may be expected, and the one that was found instead. -/
structure Comparison where
  field : String
  expected : Option (List String)
  found : Option (List String)

namespace Expectation

def compareField (arith : Arithmetic) (names : Names) (region : String) (c : Comparison) :
    Except Overflow (List String) :=
  match c.expected with
  | none => .ok []
  | some expected => Option.toList <$> compare arith names region c.field expected c.found

/-- The lists that any region has. -/
def flow (e : Expectation) (r : RegionReport) : List Comparison := [
  ⟨"defs", e.defs, some r.defs⟩,
  ⟨"may_defs", e.mayDefs, some r.mayDefs⟩,
  ⟨"uses", e.uses, some r.uses⟩,
  ⟨"must_reach_out", e.mustReachOut, r.mustReachOut⟩,
  ⟨"may_reach_out", e.mayReachOut, r.mayReachOut⟩]

/-- The lists that only a loop has. -/
def verdicts (e : Expectation) (r : RegionReport) : List Comparison := [
  ⟨"private", e.priv, some (r.locationsWhere Verdict.isPrivate)⟩,
  ⟨"shared", e.shared, some (r.locationsWhere (· == .shared))⟩]

def asksVerdicts (e : Expectation) : Bool := e.priv.isSome || e.shared.isSome

/-- The lists that are compared, in order. -/
def comparisons (e : Expectation) (r : RegionReport) : List Comparison :=
  e.flow r ++ if r.isLoop then e.verdicts r else []

def mismatches (arith : Arithmetic) (names : Names) (e : Expectation) (r : RegionReport) :
    Except Overflow (List String) := do
  let differences ← (e.comparisons r).mapM (compareField arith names r.name)
  let misplaced := e.asksVerdicts && !r.isLoop
  return differences.flatten ++
    if misplaced then [s!"'{r.name}' is the routine body, only loops are privatized"] else []

end Expectation

/-- The differences for one expected region; a name stands for the first region that has it. -/
def mismatchesOf (arith : Arithmetic) (names : Names) (regions : List RegionReport)
    (e : String × Expectation) : Except Overflow (List String) :=
  match regions.find? fun r => r.name == e.1 with
  | none => .ok [s!"expected results for unknown region '{e.1}'"]
  | some r => e.2.mismatches arith names r

/- Reports as JSON. -/

def CandidateReport.json (c : CandidateReport) : Json := .object [
  ("location", .string c.location),
  ("kind", .string c.verdict.text),
  ("first_private", .bool c.firstPrivate)]

def RegionReport.json (r : RegionReport) : Json := .object [
  ("name", .string r.name),
  ("is_loop", .bool r.isLoop),
  ("defs", .strings r.defs),
  ("may_defs", .strings r.mayDefs),
  ("uses", .strings r.uses),
  ("must_reach_out", .ofOption .strings r.mustReachOut),
  ("may_reach_out", .ofOption .strings r.mayReachOut),
  ("address_taken", .strings r.addressTaken),
  ("unknown_instructions", .number r.unknownInstructions),
  ("solver_transfers", .number r.transfers),
  ("privatization", .array (r.privatization.map CandidateReport.json))]

def RoutineReport.json (r : RoutineReport) : Json := .object [
  ("routine", .string r.routine),
  ("regions", .array (r.regions.map RegionReport.json)),
  ("mismatches", .strings r.mismatches)]

namespace Model

def memory (m : Model) (settings : Settings) : Memory :=
  { effects := m.effectOf, aliases := m.aliases.overlap, escapes := m.mayEscape, settings }

def report (m : Model) (arith : Arithmetic) (results : Results) : Except Halt RoutineReport := do
  let regions ← (m.tree.regions.toList.mapM (RegionReport.ofResults m results)).mapError .breach
  let mismatches ← (m.expect.mapM (mismatchesOf arith m.names regions)).mapError .overflow
  return { routine := m.name, regions, mismatches := mismatches.flatten }

/-- Analyses the routine and reports on each of its regions. -/
def analyze (m : Model) (arith : Arithmetic) (settings : Settings) : Except Halt RoutineReport := do
  let progress ← ((m.memory settings).analyze m.tree).mapError .breach
  m.report arith progress.results

end Model
end LoopMemory.Description
