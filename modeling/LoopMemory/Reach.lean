import LoopMemory.Aliasing

/-!
A location set that can also be everything. `full` is the identity of `inter` and so the top of
the must side of the analysis; it stays only where no path arrives.
-/
namespace LoopMemory

namespace SortedSet
variable {α : Type} [Keyed α] [DecidableEq α]

/- Membership only ever shrinks under `inter` and grows under `∪`, so a change shows in the size. -/

def interChanges (s t : SortedSet α) : Bool := (s ∩ t).size != s.size

def unionChanges (s t : SortedSet α) : Bool := (s ∪ t).size != s.size

end SortedSet

inductive Reach where
  | full
  | only (s : LocationSet)
deriving DecidableEq

namespace Reach

def empty : Reach := .only ∅

instance : Inhabited Reach := ⟨empty⟩

def isFull : Reach → Bool
  | full => true
  | only _ => false

def known? : Reach → Option LocationSet
  | full => none
  | only s => some s

def contains (r : Reach) (l : Location) : Bool :=
  match r with
  | full => true
  | only s => decide (l ∈ s)

/-- Membership where `full` says nothing: a value read off an unreached point is not trusted. -/
def surelyContains (r : Reach) (l : Location) : Bool :=
  match r with
  | full => false
  | only s => decide (l ∈ s)

/-- Some member alone covers the location; `full` covers nothing. -/
def covers (r : Reach) (l : Location) : Bool :=
  match r with
  | full => false
  | only s => s.covers l

def insert (r : Reach) (l : Location) : Reach :=
  match r with
  | full => full
  | only s => only (s.insert l)

def insertChanges (r : Reach) (l : Location) : Bool :=
  match r with
  | full => false
  | only s => decide (l ∉ s)

def insertAll (r : Reach) (t : LocationSet) : Reach :=
  match r with
  | full => full
  | only s => only (s ∪ t)

def insertAllChanges (r : Reach) (t : LocationSet) : Bool :=
  match r with
  | full => false
  | only s => s.unionChanges t

/-- The meet of the must side. -/
def inter : Reach → Reach → Reach
  | r, full => r
  | full, only t => only t
  | only s, only t => only (s ∩ t)

def interChanges : Reach → Reach → Bool
  | _, full => false
  | full, only _ => true
  | only s, only t => s.interChanges t

/-- The meet of the may side. -/
def union : Reach → Reach → Reach
  | full, _ => full
  | only _, full => full
  | only s, only t => only (s ∪ t)

def unionChanges : Reach → Reach → Bool
  | full, _ => false
  | only _, full => true
  | only s, only t => s.unionChanges t

/-- Drops each member that some definition may overlap without naming it. -/
def kill (r : Reach) (aliases : Aliasing) (defs : LocationSet) : Reach :=
  match r with
  | full => full
  | only s => only (s.filter fun m => decide (m ∈ defs) || !defs.meets aliases m)

def text : Reach → String
  | full => "\x7b*\x7d"
  | only s => "\x7b" ++ ", ".intercalate (s.toList.map Location.text) ++ "\x7d"

end Reach
end LoopMemory
