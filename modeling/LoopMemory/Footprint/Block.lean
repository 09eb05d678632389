import LoopMemory.Footprint

/-!
The footprint of straight-line code. A read is a use unless an earlier definition of the block
covers it, and an instruction reads before it writes.
-/
namespace LoopMemory

/-- All that is asked about a routine's memory. -/
structure Memory where
  effects : Effects
  aliases : Aliasing
  escapes : Escapes
  settings : Settings

namespace Memory

/-- How sure a write is, once its location may have escaped. -/
def writeOf (m : Memory) (a : Access) : Assurance :=
  if m.escapes a.location && m.settings.downgradeEscapedWrites then a.write.atMostMay else a.write

def recordWrite (w : Assurance) (l : Location) (f : Footprint) : Footprint :=
  match w with
  | .must => f.addDef l
  | .may => f.addMayDef l
  | .no => f

def recordAccess (m : Memory) (f : Footprint) (a : Access) : Footprint :=
  let l := a.location
  if a.isAddressOnly then f.addAddress l.base
  else
    let f := f.addExplicit m.aliases l
    let f := if m.escapes l then f.addAddress l.base else f
    let f := if a.read.isAny && !f.defs.covers l then f.addUse l else f
    recordWrite (m.writeOf a) l f

def recordUnknown (f : Footprint) (i : Inst) (u : UnknownAccess) : Except Breach Footprint := do
  let f ← f.addUnknown i u
  return f.applyUnknown u

/-- An instruction that could not be resolved may read and may write anything. -/
def recordEffect (m : Memory) (f : Footprint) (i : Inst) : Option Effect → Except Breach Footprint
  | none => recordUnknown f i .conservative
  | some e =>
    let f := e.accesses.foldl m.recordAccess f
    match e.unknown with
    | none => .ok f
    | some u => recordUnknown f i u

/-- A footprint together with the instructions whose effect was looked up for it, in order. -/
structure Survey where
  footprint : Footprint := {}
  asked : List Inst := []

def surveyInst (m : Memory) (s : Survey) (i : Inst) : Except Breach Survey := do
  let effect := m.effects i
  let footprint ← m.recordEffect s.footprint i effect
  return { footprint, asked := s.asked ++ [i] }

def surveyBlock (m : Memory) (insts : List Inst) : Except Breach Survey :=
  insts.foldlM m.surveyInst {}

def blockFootprint (m : Memory) (insts : List Inst) : Except Breach Footprint :=
  Survey.footprint <$> m.surveyBlock insts

end Memory
end LoopMemory
