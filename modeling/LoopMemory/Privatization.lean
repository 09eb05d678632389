import LoopMemory.Results

/-!
Whether each iteration of a loop could work on a copy of its own of a location, and what has to be
copied in and out.
-/
namespace LoopMemory

inductive Verdict where
  /-- Written in every iteration, dead after the loop. -/
  | priv
  /-- Written in every iteration, and its last value is read later. -/
  | lastPrivate
  /-- Written in some iterations, and the value of the last of them is read later. -/
  | secondToLastPrivate
  /-- Written in some iterations, dead after the loop. -/
  | dynamicPrivate
  | readOnly
  /-- A value crosses from one iteration to another. -/
  | dependency
  | shared
deriving DecidableEq, Inhabited

namespace Verdict

def isPrivate : Verdict → Bool
  | priv | lastPrivate | secondToLastPrivate | dynamicPrivate => true
  | readOnly | dependency | shared => false

def text : Verdict → String
  | priv => "private"
  | lastPrivate => "last_private"
  | secondToLastPrivate => "second_to_last_private"
  | dynamicPrivate => "dynamic_private"
  | readOnly => "read_only"
  | dependency => "dependency"
  | shared => "shared"

end Verdict

structure Candidate where
  location : Location
  verdict : Verdict
  /-- Only a part of a larger accessed object is written, so the copy starts from the old value. -/
  firstPrivate : Bool
deriving DecidableEq

/-- A loop as its privatization sees it. -/
structure LoopFacts where
  footprint : Footprint
  /-- What is written at the end of one iteration, whether or not the loop runs at all. -/
  iterationEnd : Reach
  /-- What may be read after the loop. -/
  liveOut : LocationSet
  aliases : Aliasing

namespace LoopFacts

/-- The verdict on a location that is taken for itself. -/
def own (x : LoopFacts) (l : Location) : Verdict :=
  if x.footprint.hasUnknown || decide (l.base ∈ x.footprint.addresses) then .shared
  else if !x.footprint.defs.meets x.aliases l && !x.footprint.mayDefs.meets x.aliases l then
    .readOnly
  else if x.footprint.uses.meets x.aliases l then .dependency
  else match x.iterationEnd.covers l, x.liveOut.meets x.aliases l with
    | true, true => .lastPrivate
    | true, false => .priv
    | false, true => .secondToLastPrivate
    | false, false => .dynamicPrivate

/-- The verdict that keeps a whole alias class from private copies. -/
def blocking? (x : LoopFacts) (cls : List Location) : Option Verdict :=
  if cls.any fun l => x.own l == .shared then some .shared
  else if cls.any fun l => x.own l == .dependency then some .dependency
  else none

def verdict (x : LoopFacts) (cls : List Location) (l : Location) : Verdict :=
  match x.blocking? cls with
  | some b => if (x.own l).isPrivate then b else x.own l
  | none => x.own l

def candidate (x : LoopFacts) (cls : List Location) (l : Location) : Candidate :=
  let v := x.verdict cls l
  { location := l
    verdict := v
    firstPrivate := v.isPrivate &&
      x.footprint.explicit.locations.any fun m => m != l && m.covers l }

def candidates (x : LoopFacts) : List Candidate :=
  x.footprint.explicit.classes.flatMap fun cls => cls.map (x.candidate cls)

end LoopFacts

/-- The verdicts on all explicitly accessed locations of a loop, in the order of the locations. -/
def classifyLoop (t : RegionTree) (results : Results) (r : RegionId) (liveOut : LocationSet)
    (aliases : Aliasing) : Except Breach (List Candidate) := do
  let region ← t.region r
  require (region.isLoop = true) (.notALoop region.name)
  let footprint ← results.regionFootprint r
  let flow ← results.nodeFlow region.exit
  let x : LoopFacts := { footprint, iterationEnd := flow.output.must, liveOut, aliases }
  return x.candidates.mergeSort fun a b => decide (¬b.location.key < a.location.key)

end LoopMemory
