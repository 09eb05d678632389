import LoopMemory.AliasClasses
import LoopMemory.Breach

/-!
The memory footprint of a block or of a whole region: what it defines, what it uses from outside,
and what it touches in ways that no location describes.
-/
namespace LoopMemory

/-- What instructions of unknown effect may do, in ascending order of the instructions. -/
abbrev UnknownInsts := List (Inst × UnknownAccess)

/-- An instruction met twice keeps the stronger assurance on either side. -/
def UnknownInsts.record (i : Inst) (u : UnknownAccess) : UnknownInsts → UnknownInsts
  | [] => [(i, u)]
  | (j, v) :: l =>
    if i < j then (i, u) :: (j, v) :: l
    else if i = j then (j, v.max u) :: l
    else (j, v) :: UnknownInsts.record i u l

structure Footprint where
  /-- Written on every way through. -/
  defs : LocationSet := ∅
  /-- Written on some way through. -/
  mayDefs : LocationSet := ∅
  /-- Read where no earlier definition covers the location. -/
  uses : LocationSet := ∅
  /-- Every location that was read or written, in alias classes. -/
  explicit : AliasClasses := {}
  /-- Bases whose address was evaluated or had escaped. -/
  addresses : SortedSet Base := ∅
  unknown : UnknownInsts := []
deriving DecidableEq, Inhabited

namespace Footprint

def hasUnknown (f : Footprint) : Bool := !f.unknown.isEmpty

def hasUnknownReads (f : Footprint) : Bool := f.unknown.any fun u => u.2.read.isAny

def hasUnknownWrites (f : Footprint) : Bool := f.unknown.any fun u => u.2.write.isAny

def hasUnknownInst (f : Footprint) (i : Inst) : Bool := f.unknown.any fun u => u.1 == i

def addDef (f : Footprint) (l : Location) : Footprint := { f with defs := f.defs.insert l }

def addMayDef (f : Footprint) (l : Location) : Footprint := { f with mayDefs := f.mayDefs.insert l }

def addUse (f : Footprint) (l : Location) : Footprint := { f with uses := f.uses.insert l }

def addExplicit (aliases : Aliasing) (f : Footprint) (l : Location) : Footprint :=
  { f with explicit := f.explicit.add aliases l }

def addAddress (f : Footprint) (b : Base) : Footprint :=
  { f with addresses := f.addresses.insert b }

/-- An unknown access has to read or to write. -/
def addUnknown (f : Footprint) (i : Inst) (u : UnknownAccess) : Except Breach Footprint := do
  require (u.isIdle = false) (.idleUnknown i)
  return { f with unknown := UnknownInsts.record i u f.unknown }

/-- Every definition becomes a possible one. -/
def downgrade (f : Footprint) : Footprint := { f with defs := ∅, mayDefs := f.mayDefs ∪ f.defs }

/-- Every location that the footprint has seen. -/
def tracked (f : Footprint) : List Location :=
  f.explicit.locations ++ f.defs.toList ++ f.mayDefs.toList

/-- An unknown read may see each tracked location that no definition so far covers. -/
def exposeTracked (f : Footprint) : Footprint :=
  { f with uses := f.uses.insertMany (f.tracked.filter fun l => !f.defs.covers l) }

/-- An unknown write may overwrite each tracked location. -/
def clobberTracked (f : Footprint) : Footprint :=
  let g := f.downgrade
  { g with mayDefs := g.mayDefs.insertMany f.tracked }

/-- Applies an unknown access at its place in program order: it sees and spoils what came before
it, and nothing that comes later. -/
def applyUnknown (f : Footprint) (u : UnknownAccess) : Footprint :=
  let g := if u.read.isAny then f.exposeTracked else f
  if u.write.isAny then g.clobberTracked else g

/-- Widens a whole region for the unknown instructions inside it. Definitions stay, since each had
to survive up to the exit. Where the region repeats, an unknown read also precedes every access of
the next iteration. -/
def widen (f : Footprint) (repeats : Bool) : Footprint :=
  let g :=
    if f.hasUnknownWrites then
      { f with mayDefs := f.mayDefs.insertMany (f.tracked.filter fun l => decide (l ∉ f.defs)) }
    else f
  if f.hasUnknownReads && repeats then { g with uses := g.uses.insertMany f.tracked } else g

/-- Takes over what the other one touched, but none of its definitions and uses. -/
def mergeAccesses (aliases : Aliasing) (f g : Footprint) : Footprint :=
  { f with
    explicit := f.explicit.addAll aliases g.explicit
    addresses := f.addresses ∪ g.addresses
    unknown := g.unknown.foldl (fun us u => UnknownInsts.record u.1 u.2 us) f.unknown }

end Footprint
end LoopMemory
