import LoopMemory.Location

/-!
When two locations may share a byte. The analyses ask any `Aliasing`; `AliasModel` is the one
that decides from bases and byte ranges.
-/
namespace LoopMemory

inductive Overlap where
  | none | may | partly | must
deriving DecidableEq

/-- All but a proof of disjointness counts as meeting. -/
def Overlap.meets (o : Overlap) : Bool := o != .none

abbrev Aliasing := Location → Location → Overlap

def Aliasing.meets (aliases : Aliasing) (a b : Location) : Bool := (aliases a b).meets

structure AliasModel where
  /-- Bases that may point at the same memory, the smaller first. -/
  pairs : List (Base × Base) := []
  /-- Bases that may point anywhere. -/
  wild : List Base := []

namespace AliasModel

def addPair (m : AliasModel) (a b : Base) : AliasModel :=
  { m with pairs := (min a b, max a b) :: m.pairs }

def addWild (m : AliasModel) (b : Base) : AliasModel := { m with wild := b :: m.wild }

def basesMeet (m : AliasModel) (a b : Base) : Bool :=
  m.pairs.contains (min a b, max a b) || m.wild.contains a || m.wild.contains b

def tagsDiffer (a b : Location) : Bool :=
  match a.tag, b.tag with
  | some s, some t => s != t
  | _, _ => false

/-- The first range ends before the second begins. -/
def endsBefore (a b : Location) : Bool :=
  match a.stop with
  | some e => decide (e ≤ b.offset.toInt)
  | none => false

def overlap (m : AliasModel) : Aliasing := fun a b =>
  if tagsDiffer a b then .none
  else if a.base ≠ b.base then if m.basesMeet a.base b.base then .may else .none
  else if a.offset = b.offset ∧ a.size = b.size then .must
  else if endsBefore a b || endsBefore b a then .none
  else .partly

end AliasModel

/-- Some member may share a byte with the location. -/
def SortedSet.meets (s : LocationSet) (aliases : Aliasing) (l : Location) : Bool :=
  s.toList.any fun m => aliases.meets m l

end LoopMemory
