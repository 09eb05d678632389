import LoopMemory.Aliasing

/-!
Locations grouped by "may share a byte", closed under chains: a write to one member is a
possible write to every other.
-/
namespace LoopMemory

structure AliasClasses where
  classes : List (List Location) := []
deriving DecidableEq, Inhabited

namespace AliasClasses

def classMeets (aliases : Aliasing) (l : Location) (c : List Location) : Bool :=
  c.any fun m => aliases.meets m l

def locations (c : AliasClasses) : List Location := c.classes.flatten

def isEmpty (c : AliasClasses) : Bool := c.classes.isEmpty

/-- A class takes in the later ones, the last of them first, and then the location itself. -/
def fuse (l : Location) (first : List Location) (later : List (List Location)) : List Location :=
  let merged := first ++ later.reverse.flatten
  if l ∈ merged then merged else merged ++ [l]

/-- All classes that may meet the location become one, at the place of the first of them. -/
def add (aliases : Aliasing) (l : Location) (c : AliasClasses) : AliasClasses :=
  let hit := classMeets aliases l
  match c.classes.filter hit with
  | [] => ⟨c.classes ++ [[l]]⟩
  | first :: later =>
    let before := c.classes.takeWhile (!hit ·)
    let after := (c.classes.drop before.length).filter (!hit ·)
    ⟨before ++ fuse l first later :: after⟩

/-- Whether `add` opens a class of its own for the location. -/
def isNew (aliases : Aliasing) (l : Location) (c : AliasClasses) : Bool :=
  !c.classes.any (classMeets aliases l)

def addAll (aliases : Aliasing) (c d : AliasClasses) : AliasClasses :=
  d.locations.foldl (fun c l => c.add aliases l) c

/-- The class that the location would join. -/
def classOf? (aliases : Aliasing) (l : Location) (c : AliasClasses) : Option (List Location) :=
  c.classes.find? (classMeets aliases l)

/-- A tracked access through the same base touches the location. -/
def touches (aliases : Aliasing) (c : AliasClasses) (l : Location) : Bool :=
  c.locations.any fun m => m.base == l.base && aliases.meets m l

end AliasClasses
end LoopMemory
