import LoopMemory.Toml.Value

/-!
Reading a TOML text from left to right: the characters that are left, and how far they are from
the start.
-/
namespace LoopMemory.Toml

structure Cursor where
  rest : List Char
  /-- Bytes before the rest. -/
  pos : Nat := 0
  /-- More than the number of characters that are left, so that it bounds every loop over them. -/
  bound : Nat := rest.length + 1

/-- The text is no TOML, which shows at the given byte. -/
structure Malformed where
  pos : Nat
deriving DecidableEq, Inhabited

abbrev Scan := StateT Cursor (Except Malformed)

namespace Scan

def fail {α : Type} : Scan α := fun c => .error ⟨c.pos⟩

def orFail {α : Type} : Option α → Scan α
  | some a => pure a
  | none => fail

def rest : Scan (List Char) := Cursor.rest <$> get

def pos : Scan Nat := Cursor.pos <$> get

def bound : Scan Nat := Cursor.bound <$> get

def peek? : Scan (Option Char) := List.head? <$> rest

def width (s : List Char) : Nat := s.foldl (fun n c => n + c.utf8Size) 0

/-- Goes on behind the first `n` characters. -/
def skip (n : Nat) : Scan Unit :=
  modify fun c => { c with rest := c.rest.drop n, pos := c.pos + width (c.rest.take n) }

/-- The next character; there has to be one. -/
def next : Scan Char := fun c =>
  match c.rest with
  | [] => .error ⟨c.pos⟩
  | x :: rest => .ok (x, { c with rest, pos := c.pos + x.utf8Size })

def takeWhile (p : Char → Bool) : Scan (List Char) := do
  let s := (← rest).takeWhile p
  skip s.length
  return s

/-- Skips the mark, if it comes next. -/
def accept (mark : List Char) : Scan Bool := do
  if mark.isPrefixOf (← rest) then
    skip mark.length
    return true
  else return false

def expect (mark : List Char) : Scan Unit := do
  if !(← accept mark) then fail

/-- A result with the stretch of text that was read for it. -/
def spanned {α : Type} (scan : Scan α) : Scan (Span × α) := do
  let start ← pos
  let a ← scan
  return (⟨start, ← pos⟩, a)

def newline : Scan Bool := do
  if ← accept ['\n'] then return true
  accept ['\r', '\n']

def isSpace (c : Char) : Bool := c == ' ' || c == '\t'

/-- Control characters may stand nowhere but for tabs and line ends. -/
def isControl (c : Char) : Bool := (c.toNat < 0x20 && c != '\t') || c.toNat == 0x7f

def spaces : Scan Unit := do let _ ← takeWhile isSpace

def comment : Scan Unit := do
  if ← accept ['#'] then
    let _ ← takeWhile fun c => !isControl c

/-- Only a comment may be left on the line. -/
def lineEnd : Scan Unit := do
  spaces
  comment
  if (← rest).isEmpty then return
  if !(← newline) then fail

def blankLines : Nat → Scan Unit
  | 0 => pure ()
  | fuel + 1 => do
    spaces
    comment
    if ← newline then blankLines fuel

/-- Spaces, comments and line ends. -/
def blanks : Scan Unit := do blankLines (← bound)

end Scan
end LoopMemory.Toml
