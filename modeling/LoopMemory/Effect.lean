import LoopMemory.Location

/-!
What one instruction does to memory, and the choices that the analysis leaves open.
-/
namespace LoopMemory

abbrev Inst := Nat

/-- How sure an access is to happen. -/
inductive Assurance where
  | no | may | must
deriving DecidableEq, Inhabited

namespace Assurance

def isAny (a : Assurance) : Bool := a != no

def atMostMay : Assurance → Assurance
  | must => may
  | a => a

def max : Assurance → Assurance → Assurance
  | must, _ => must
  | _, must => must
  | may, _ => may
  | _, may => may
  | no, no => no

end Assurance

structure Access where
  location : Location
  operand : Nat
  read : Assurance
  write : Assurance
deriving DecidableEq

/-- The address was evaluated, but nothing was read or written through it. -/
def Access.isAddressOnly (a : Access) : Bool := !a.read.isAny && !a.write.isAny

/-- Access to memory that no location pins down. -/
structure UnknownAccess where
  read : Assurance
  write : Assurance
deriving DecidableEq

namespace UnknownAccess

def conservative : UnknownAccess := ⟨.may, .may⟩

def isIdle (u : UnknownAccess) : Bool := !u.read.isAny && !u.write.isAny

def max (u v : UnknownAccess) : UnknownAccess := ⟨u.read.max v.read, u.write.max v.write⟩

end UnknownAccess

structure Effect where
  accesses : List Access := []
  unknown : Option UnknownAccess := none
deriving DecidableEq, Inhabited

/-- The effect of every instruction; `none` where it could not be resolved at all. -/
abbrev Effects := Inst → Option Effect

/-- Whether a location may be reached from outside the analysed control flow. -/
abbrev Escapes := Location → Bool

structure Settings where
  /-- Every loop is taken to run at least once. -/
  assumeLoopsExecute : Bool := false
  /-- A write to a location that may have escaped is never a certain one. -/
  downgradeEscapedWrites : Bool := true
  /-- Independent routines may be solved at the same time; the answer is the same. -/
  parallelRoutines : Bool := true
deriving DecidableEq, Inhabited

end LoopMemory
