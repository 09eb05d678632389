import LoopMemory.SortedSet

/-!
Memory locations: byte ranges that hang off a base pointer, their order, and coverage.
-/
namespace LoopMemory

/-- A base pointer: a stack slot, a global or a pointer argument. -/
abbrev Base := Nat

inductive Extent where
  | bytes (n : UInt64)
  | unknown
deriving DecidableEq, Inhabited

structure Location where
  base : Base
  offset : Int64
  size : Extent
  /-- Two tagged locations with different tags never overlap. -/
  tag : Option Nat := none
deriving DecidableEq, Inhabited

namespace Location

/-- A known size sorts before the unknown one, no tag before any tag. -/
def key (l : Location) : List Int :=
  [l.base, l.offset.toInt,
    match l.size with | .bytes n => (n.toNat : Int) | .unknown => UInt64.size,
    match l.tag with | none => -1 | some t => (t : Int)]

theorem key_inj {a b : Location} (h : a.key = b.key) : a = b := by
  obtain ⟨ab, ao, as, at'⟩ := a
  obtain ⟨bb, bo, bs, bt⟩ := b
  simp only [key, List.cons.injEq, and_true] at h
  obtain ⟨h1, h2, h3, h4⟩ := h
  have e1 : ab = bb := Int.ofNat.inj h1
  have e2 : ao = bo := Int64.toInt_inj.1 h2
  have e3 : as = bs := by
    cases as <;> cases bs <;> simp only at h3 ⊢
    · rename_i n m
      exact congrArg _ (UInt64.toNat_inj.1 (Int.ofNat.inj h3))
    · rename_i n
      have := n.toNat_lt_size; omega
    · rename_i n
      have := n.toNat_lt_size; omega
  have e4 : at' = bt := by
    cases at' <;> cases bt <;> simp only at h4 ⊢
    · omega
    · omega
    · exact congrArg _ (Int.ofNat.inj h4)
  rw [e1, e2, e3, e4]

instance : Keyed Location := ⟨key, key_inj⟩

instance : Ord Location := ⟨fun a b => compare a.key b.key⟩

/-- One past the last byte. An end that is unknown or passes the last offset is `none`, and so is
the end of a size that is itself no offset: such a location reaches past every other one. -/
def stop (l : Location) : Option Int :=
  match l.size with
  | .unknown => none
  | .bytes n =>
    if (n.toNat : Int) ≤ Int64.maxValue.toInt ∧ l.offset.toInt + n.toNat ≤ Int64.maxValue.toInt
    then some (l.offset.toInt + n.toNat)
    else none

/-- One location alone reaches over every byte of the other. -/
def covers (a b : Location) : Bool :=
  a.base == b.base && decide (a.offset ≤ b.offset) &&
    match a.stop, b.stop with
    | none, _ => true
    | some _, none => false
    | some s, some t => decide (t ≤ s)

def baseText (b : Base) : String := s!"%{b}"

def text (l : Location) : String :=
  let size := match l.size with | .bytes n => toString n.toNat | .unknown => "?"
  s!"<{baseText l.base}, {l.offset.toInt}, {size}>"

end Location

abbrev LocationSet := SortedSet Location

/-- Some member alone covers the location. -/
def SortedSet.covers (s : LocationSet) (l : Location) : Bool := s.toList.any fun m => m.covers l

end LoopMemory
