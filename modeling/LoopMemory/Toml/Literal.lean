import LoopMemory.Toml.Value

/-!
TOML values without quotes or brackets: numbers, truth values, dates and times.
-/
namespace LoopMemory.Toml.Literal

abbrev Text := List Char

/-- Digits with single underscores between them, without the underscores. -/
def plain? (isDigit : Char → Bool) : Text → Option Text
  | [] => none
  | [c] => if isDigit c then some [c] else none
  | c :: '_' :: r => if isDigit c then (c :: ·) <$> plain? isDigit r else none
  | c :: r => if isDigit c then (c :: ·) <$> plain? isDigit r else none

def digit (c : Char) : Nat :=
  let n := c.toNat
  if n ≤ 0x39 then n - 0x30 else if n ≤ 0x46 then n - 0x37 else n - 0x57

def value (base : Nat) (s : Text) : Nat := s.foldl (fun n c => base * n + digit c) 0

def isHex (c : Char) : Bool :=
  c.isDigit || (0x41 ≤ c.toNat && c.toNat ≤ 0x46) || (0x61 ≤ c.toNat && c.toNat ≤ 0x66)

def isOctal (c : Char) : Bool := 0x30 ≤ c.toNat && c.toNat ≤ 0x37

def isBinary (c : Char) : Bool := c == '0' || c == '1'

/-- Decimal digits; more than one do not start with a zero. -/
def whole? (s : Text) : Option Text := do
  let d ← plain? Char.isDigit s
  match s with
  | '0' :: _ :: _ => none
  | _ => return d

def signed : Text → Bool × Text
  | '-' :: r => (true, r)
  | '+' :: r => (false, r)
  | r => (false, r)

def signedValue (negative : Bool) (d : Text) : Int :=
  if negative then -(value 10 d : Int) else value 10 d

def isExponentMark (c : Char) : Bool := c == 'e' || c == 'E'

/-- Whether the underscores past the first character stand between hexadecimal digits. -/
def separated : Text → Bool
  | c :: '_' :: r => isHex c && r.head?.any isHex && separated r
  | _ :: r => separated r
  | [] => true

/-- Decimal digits, and behind an underscore anything that belongs to no float. If not all of it
are decimal digits, the integer has no value. -/
def decimal? (s : Text) : Option (Option Int) :=
  let (negative, r) := signed s
  let (digits, tail) := r.span Char.isDigit
  let opens := (whole? digits).isSome &&
    (tail.isEmpty || (tail.head? == some '_' && digits != ['0']))
  if opens && separated r && !r.any fun c => c == '.' || isExponentMark c then
    let d := r.filter (· != '_')
    some (if d.all Char.isDigit then some (signedValue negative d) else none)
  else none

/-- Digits in another base than ten. Without any the integer has no value. -/
def based? (base : Nat) (isDigit : Char → Bool) (s : Text) : Option (Option Int) :=
  if s.isEmpty then some none else (fun d => some (value base d : Int)) <$> plain? isDigit s

/-- The value of an integer, or `none` in place of it for one that has no value. -/
def integer? : Text → Option (Option Int)
  | '0' :: 'x' :: r => based? 16 isHex r
  | '0' :: 'o' :: r => based? 8 isOctal r
  | '0' :: 'b' :: r => based? 2 isBinary r
  | s => decimal? s

def exponent? : Text → Option Int
  | [] => some 0
  | c :: r =>
    if isExponentMark c then
      let (negative, r) := signed r
      signedValue negative <$> plain? Char.isDigit r
    else none

/-- A fraction, an exponent or both have to follow the whole part. -/
def float? (s : Text) : Option Decimal := do
  let (negative, r) := signed s
  if r = ['i', 'n', 'f'] then return .infinite negative
  if r = ['n', 'a', 'n'] then return .undefined
  let (significand, tail) := r.span fun c => !isExponentMark c
  let (first, fraction) := significand.span (· != '.')
  let d ← whole? first
  let f ← match fraction with
    | [] => if tail.isEmpty then none else some []
    | _ :: f => plain? Char.isDigit f
  return .finite negative (value 10 (d ++ f)) ((← exponent? tail) - f.length)

def daysIn (year month : Nat) : Nat :=
  if month = 2 then
    if year % 4 = 0 ∧ (year % 100 ≠ 0 ∨ year % 400 = 0) then 29 else 28
  else if month = 4 ∨ month = 6 ∨ month = 9 ∨ month = 11 then 30 else 31

def number? (s : Text) : Option Nat :=
  if !s.isEmpty && s.all Char.isDigit then some (value 10 s) else none

def date? (s : Text) : Option Text :=
  match s with
  | [a, b, c, d, '-', e, f, '-', g, h] => do
    let year ← number? [a, b, c, d]
    let month ← number? [e, f]
    let day ← number? [g, h]
    if 1 ≤ month ∧ month ≤ 12 ∧ 1 ≤ day ∧ day ≤ daysIn year month then s else none
  | _ => none

def clock? (a b c d : Char) : Option Text := do
  let hour ← number? [a, b]
  let minute ← number? [c, d]
  if hour ≤ 23 ∧ minute ≤ 59 then some [a, b, ':', c, d] else none

/-- Nine digits of a fraction without zeros at the end, but at least one digit. -/
def trimFraction (f : Text) : Text :=
  match ((f.take 9).reverse.dropWhile (· == '0')).reverse with
  | [] => ['0']
  | t => t

/-- The seconds of a time may be left out, and so may a fraction of them. -/
def seconds? : Text → Option Text
  | [] => some []
  | ':' :: a :: b :: fraction => do
    let second ← number? [a, b]
    if 60 < second then none
    match fraction with
    | [] => return [':', a, b]
    | '.' :: f =>
      if !f.isEmpty && f.all Char.isDigit then return ':' :: a :: b :: '.' :: trimFraction f
      else none
    | _ => none
  | _ => none

def time? : Text → Option Text
  | a :: b :: ':' :: c :: d :: r => do return (← clock? a b c d) ++ (← seconds? r)
  | _ => none

/-- An offset of nothing is written with a plus. -/
def offset? : Text → Option Text
  | ['Z'] | ['z'] => some ['Z']
  | ['-', '0', '0', ':', '0', '0'] => some ['+', '0', '0', ':', '0', '0']
  | sign :: [a, b, ':', c, d] =>
    if sign = '+' ∨ sign = '-' then (sign :: ·) <$> clock? a b c d else none
  | _ => none

/-- A time with or without an offset behind it. -/
def zoned? (s : Text) : Option Text :=
  let (t, o) := s.span fun c => c != 'Z' && c != 'z' && c != '+' && c != '-'
  if o.isEmpty then time? t else do return (← time? t) ++ (← offset? o)

def datetime? (s : Text) : Option Text :=
  match date? (s.take 10), s.drop 10 with
  | some d, [] => some d
  | some d, sep :: t =>
    if sep = 'T' ∨ sep = 't' ∨ sep = ' ' then do return d ++ 'T' :: (← zoned? t) else none
  | none, _ => time? s

def value? (span : Span) (s : Text) : Option Value :=
  if s = "true".toList then some (.boolean span true)
  else if s = "false".toList then some (.boolean span false)
  else match integer? s, float? s, datetime? s with
    | some n, _, _ => some (.integer span n)
    | _, some x, _ => some (.float span x)
    | _, _, some t => some (.datetime span (String.ofList t))
    | _, _, _ => none

end LoopMemory.Toml.Literal
