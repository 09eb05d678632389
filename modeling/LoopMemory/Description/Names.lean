import LoopMemory.Reach
import LoopMemory.Text

/-!
Names of variables and of locations in them. A whole variable is written as its name, a part of it
with a byte range `x[0..2]`, and a range without a known end as `x[4..]`.
-/
namespace LoopMemory

/-- How a program was built to compute with numbers of 64 bits. -/
inductive Arithmetic where
  /-- A result that does not fit loses its upper bits. -/
  | wrapping
  /-- A result that does not fit ends the program. -/
  | checked
deriving DecidableEq, Inhabited

/-- The program ended at a result that does not fit. -/
structure Overflow where
deriving DecidableEq

def Arithmetic.sub (arith : Arithmetic) (a b : Int64) : Except Overflow Int64 :=
  let fits := Int64.minValue.toInt ≤ a.toInt - b.toInt ∧ a.toInt - b.toInt ≤ Int64.maxValue.toInt
  if arith = .checked ∧ ¬fits then .error {} else .ok (a - b)

/-- A variable and its size in bytes, where that is known. -/
abbrev Variable := String × Option UInt64

/-- The variables in the order of their declaration; the first of them has base 1. -/
structure Names where
  vars : List Variable := []
deriving DecidableEq, Inhabited

namespace Names

def declare (names : Names) (name : String) (size : Option UInt64) : Names :=
  ⟨names.vars ++ [(name, size)]⟩

/-- The base that the next declaration takes. -/
def nextBase (names : Names) : Base := names.vars.length + 1

/-- A name stands for its last declaration. -/
def baseOf? (names : Names) (name : String) : Option Base :=
  ((names.vars.zipIdx 1).reverse.find? fun v => v.1.1 == name).map (·.2)

def entry? (names : Names) (b : Base) : Option Variable :=
  match b with
  | 0 => none
  | i + 1 => names.vars[i]?

def nameOf? (names : Names) (b : Base) : Option String := (names.entry? b).map (·.1)

def baseName (names : Names) (b : Base) : String := (names.nameOf? b).getD (Location.baseText b)

def sizeOf? (names : Names) (b : Base) : Option UInt64 := (names.entry? b).bind (·.2)

def extent : Option UInt64 → Extent
  | some n => .bytes n
  | none => .unknown

def whole? (names : Names) (name : String) : Option Location :=
  (names.baseOf? name).map fun b => { base := b, offset := 0, size := extent (names.sizeOf? b) }

def name (names : Names) (l : Location) : String :=
  match names.entry? l.base with
  | none => l.text
  | some (name, size) =>
    if l.offset = 0 ∧ l.size = extent size then name
    else match l.stop with
      | some e => s!"{name}[{l.offset.toInt}..{e}]"
      | none => s!"{name}[{l.offset.toInt}..]"

/-- The names of all members, sorted; two members of one name give it twice. -/
def list (names : Names) (s : LocationSet) : List String := Text.sort (s.toList.map names.name)

def listReach? (names : Names) (r : Reach) : Option (List String) := r.known?.map names.list

/-- The ends of a byte range that is written behind the name, the second one if it is there. -/
def bounds? (range : List Char) : Option (Int64 × Option Int64) := do
  let inner ← if range.getLast? = some ']' then some range.dropLast else none
  let (first, last) ← Text.splitAt? ['.', '.'] inner
  let start ← Text.int64? (Text.trim first)
  if (Text.trim last).isEmpty then return (start, none)
  let stop ← Text.int64? (Text.trim last)
  return (start, some stop)

def parseRange (arith : Arithmetic) (b : Base) (range : List Char) :
    Except Overflow (Option Location) :=
  match bounds? range with
  | none => .ok none
  | some (start, none) => .ok (some { base := b, offset := start, size := .unknown })
  | some (start, some stop) =>
    if stop < start then .ok none
    else do
      let length ← arith.sub stop start
      return some { base := b, offset := start, size := .bytes length.toUInt64 }

/-- The location that a text names, if there is one. -/
def parse (names : Names) (arith : Arithmetic) (text : String) :
    Except Overflow (Option Location) :=
  let text := Text.trim text.toList
  match Text.splitAt? ['['] text with
  | none => .ok (names.whole? (.ofList text))
  | some (name, range) =>
    match names.baseOf? (.ofList (Text.trim name)) with
    | none => .ok none
    | some b => parseRange arith b range

end Names
end LoopMemory
