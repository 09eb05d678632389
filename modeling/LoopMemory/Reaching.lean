import LoopMemory.Footprint
import LoopMemory.Reach

/-!
The values of the data-flow problem: which locations are written on every path to a point, and
which on some path.
-/
namespace LoopMemory

structure Reaching where
  must : Reach
  may : Reach
deriving DecidableEq, Inhabited

namespace Reaching

/-- The identity of the meet. -/
def top : Reaching := ⟨.full, .empty⟩

/-- Nothing is written yet where a region is entered. -/
def start : Reaching := ⟨.empty, .empty⟩

def meet (x y : Reaching) : Reaching := ⟨x.must.inter y.must, x.may.union y.may⟩

def meetChanges (x y : Reaching) : Bool := x.must.interChanges y.must || x.may.unionChanges y.may

/-- The value behind a node, from the value in front of it. -/
def transfer (aliases : Aliasing) (f : Footprint) (x : Reaching) : Reaching :=
  let must := if f.hasUnknownWrites then .empty else x.must
  { must := (must.kill aliases f.defs).insertAll f.defs
    may := (x.may.insertAll f.defs).insertAll f.mayDefs }

def text (x : Reaching) : String := s!"must {x.must.text} / may {x.may.text}"

end Reaching

/-- The values in front of a node and behind it. -/
structure Flow where
  input : Reaching
  output : Reaching
deriving DecidableEq, Inhabited

end LoopMemory
