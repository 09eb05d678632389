import LoopMemory.Text.Invisible

/-!
Texts: their order, white space around them, the place where they are cut in two, the numbers that
they give, and how they are quoted.
-/
namespace LoopMemory.Text

/-- The texts in the order of their code points, which is the order of their UTF-8 bytes. -/
def sort (l : List String) : List String := l.mergeSort fun a b => decide (a ≤ b)

/-- The characters with the property White_Space. -/
def isBlank (c : Char) : Bool :=
  let n := c.toNat
  (0x9 ≤ n && n ≤ 0xd) || n == 0x20 || n == 0x85 || n == 0xa0 || n == 0x1680 ||
    (0x2000 ≤ n && n ≤ 0x200a) || n == 0x2028 || n == 0x2029 || n == 0x202f || n == 0x205f ||
    n == 0x3000

def trim (s : List Char) : List Char :=
  ((s.dropWhile isBlank).reverse.dropWhile isBlank).reverse

/-- The text before a mark and the text after it, at its first occurrence. -/
def splitAt? (mark : List Char) : List Char → Option (List Char × List Char)
  | [] => if mark.isEmpty then some ([], []) else none
  | c :: r =>
    if mark.isPrefixOf (c :: r) then some ([], (c :: r).drop mark.length)
    else (splitAt? mark r).map fun (a, b) => (c :: a, b)

/- Decimal integers of 64 bits. -/

/-- The value of a non-empty run of decimal digits. -/
def digits? : List Char → Option Nat
  | [] => none
  | cs => cs.foldlM (fun n c => if c.isDigit then some (10 * n + (c.toNat - 48)) else none) 0

/-- A decimal number with at most one sign that fits 64 bits. -/
def int64? (s : List Char) : Option Int64 := do
  let n ← match s with
    | '-' :: r => (fun n : Nat => -(n : Int)) <$> digits? r
    | '+' :: r => (fun n : Nat => (n : Int)) <$> digits? r
    | r => (fun n : Nat => (n : Int)) <$> digits? r
  if Int64.minValue.toInt ≤ n ∧ n ≤ Int64.maxValue.toInt then some (.ofInt n) else none

/- A text in double quotes, with escapes for all that would not show. -/

/-- A character as it stands between quotes. -/
def quoteChar (c : Char) : String :=
  if c = '"' then "\\\""
  else if c = '\\' then "\\\\"
  else if c = '\n' then "\\n"
  else if c = '\r' then "\\r"
  else if c = '\t' then "\\t"
  else if c = '\x00' then "\\0"
  else if isInvisible c then
    "\\u\x7b" ++ String.ofList (Nat.toDigits 16 c.toNat) ++ "\x7d"
  else c.toString

def quote (s : String) : String := "\"" ++ String.join (s.toList.map quoteChar) ++ "\""

end LoopMemory.Text
