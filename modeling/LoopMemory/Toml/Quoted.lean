import LoopMemory.Toml.Scan

/-!
The four forms of a TOML string. A basic string has escapes and a literal one has none; either may
run over several lines.
-/
namespace LoopMemory.Toml.Quoted
open Scan

abbrev Text := List Char

def hexDigit? (c : Char) : Option Nat :=
  let n := c.toNat
  if 0x30 ≤ n ∧ n ≤ 0x39 then some (n - 0x30)
  else if 0x41 ≤ n ∧ n ≤ 0x46 then some (n - 0x37)
  else if 0x61 ≤ n ∧ n ≤ 0x66 then some (n - 0x57)
  else none

def hexNumber : Nat → Nat → Scan Nat
  | 0, n => return n
  | count + 1, n => do hexNumber count (16 * n + (← orFail (hexDigit? (← next))))

/-- A character by its code in `count` hexadecimal digits. -/
def codePoint (count : Nat) : Scan Char := do
  let n ← hexNumber count 0
  if n.isValidChar then return Char.ofNat n else fail

/-- What the characters after a backslash stand for. -/
def escape : Scan Char := do
  match ← next with
  | 'b' => return '\x08'
  | 't' => return '\t'
  | 'n' => return '\n'
  | 'f' => return '\x0c'
  | 'r' => return '\r'
  | 'e' => return '\x1b'
  | '"' => return '"'
  | '\\' => return '\\'
  | 'x' => codePoint 2
  | 'u' => codePoint 4
  | 'U' => codePoint 8
  | _ => fail

/-- A string on one line, from behind its opening quote. -/
def line (quote : Char) (escapes : Bool) : Nat → Scan Text
  | 0 => fail
  | fuel + 1 => do
    let c ← next
    if c = quote then return []
    else if escapes && c == '\\' then
      let x ← escape
      return x :: (← line quote escapes fuel)
    else if isControl c then fail
    else return c :: (← line quote escapes fuel)

/-- Skips spaces and line ends behind a backslash that is the last character of its line. -/
def continued : Scan Bool := do
  let blank := (← rest).takeWhile isSpace
  match (← rest).drop blank.length with
  | '\n' :: _ | '\r' :: '\n' :: _ =>
    skipBlank (← bound)
    return true
  | _ => return false
where
  skipBlank : Nat → Scan Unit
    | 0 => return
    | fuel + 1 => do
      spaces
      if ← newline then skipBlank fuel

/-- A string over several lines, from behind its opening quotes. Up to two quotes may stand before
the three that close it. -/
def lines (quote : Char) (escapes : Bool) : Nat → Scan Text
  | 0 => fail
  | fuel + 1 => do
    let quotes := ((← rest).takeWhile (· == quote)).length
    if 3 ≤ quotes then
      let inside := min (quotes - 3) 2
      skip (inside + 3)
      return List.replicate inside quote
    else if ← accept ['\r', '\n'] then return '\r' :: '\n' :: (← lines quote escapes fuel)
    else
      let c ← next
      if escapes && c == '\\' then
        if ← continued then lines quote escapes fuel
        else
          let x ← escape
          return x :: (← lines quote escapes fuel)
      else if isControl c && c != '\n' then fail
      else return c :: (← lines quote escapes fuel)

/-- A string on one line, at its opening quote. -/
def single : Scan Text := do
  match ← next with
  | '"' => line '"' true (← bound)
  | '\'' => line '\'' false (← bound)
  | _ => fail

/-- A string of any form, at its opening quote. A line end right behind three quotes is dropped. -/
def any : Scan Text := do
  if ← accept ['"', '"', '"'] then
    let _ ← newline
    lines '"' true (← bound)
  else if ← accept ['\'', '\'', '\''] then
    let _ ← newline
    lines '\'' false (← bound)
  else single

end LoopMemory.Toml.Quoted
