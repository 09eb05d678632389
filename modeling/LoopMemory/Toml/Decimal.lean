/-!
Decimal numbers, rounded to the nearest binary floating-point number of 64 bits and written with
the fewest digits that round to it again.
-/
namespace LoopMemory.Toml

inductive Decimal where
  /-- `digits * 10 ^ exponent` -/
  | finite (negative : Bool) (digits : Nat) (exponent : Int)
  | infinite (negative : Bool)
  | undefined
deriving DecidableEq, Inhabited

/-- A positive number `mantissa * 2 ^ exponent` with at most 53 binary digits. -/
structure Binary where
  mantissa : Nat
  exponent : Int
deriving DecidableEq

namespace Binary

def minExponent : Int := -1074
def maxExponent : Int := 971
/-- The first number with more than 53 binary digits. -/
def maxMantissa : Nat := Nat.pow 2 53

end Binary

/-- A power of a base as numerator and denominator. -/
def ratio (base : Nat) (e : Int) : Nat × Nat :=
  if 0 ≤ e then (Nat.pow base e.toNat, 1) else (1, Nat.pow base (-e).toNat)

/-- The quotient rounded to the nearest integer, a tie to the even one. -/
def roundDiv (num den : Nat) : Nat :=
  let q := num / den
  let r := num % den
  if 2 * r < den then q else if den < 2 * r then q + 1 else if q % 2 = 0 then q else q + 1

/-- The quotient rounded to the nearest integer, a tie up. -/
def roundUpDiv (num den : Nat) : Nat := (2 * num + den) / (2 * den)

/-- The nearest number with the given exponent. -/
def atExponent (num den : Nat) (e : Int) : Nat :=
  let (n, d) := ratio 2 e
  roundDiv (num * d) (den * n)

/-- The nearest binary number to a positive fraction, or `none` past the largest one. -/
def nearest? (num den : Nat) : Option Binary :=
  let guess : Int := (num.log2 : Int) - den.log2 - 53
  let fit := (List.range 4).map (fun i : Nat => max (guess + i) Binary.minExponent)
  match fit.find? fun e => atExponent num den e < Binary.maxMantissa with
  | none => none
  | some e => if e ≤ Binary.maxExponent then some ⟨atExponent num den e, e⟩ else none

/-- Whether `n * 10 ^ k` rounds to the number: it lies between the midpoints to both neighbours,
and on a midpoint only if the mantissa is even. -/
def Binary.accepts (b : Binary) (n : Nat) (k : Int) : Bool :=
  let (num, den) := ratio 10 k
  nearest? (n * num) den == some b

/-- The number in units of the power `k` of ten: rounded, a tie up, then both whole neighbours. -/
def Binary.unitsAt (b : Binary) (k : Int) : List Nat :=
  let (bn, bd) := ratio 2 b.exponent
  let (tn, td) := ratio 10 k
  let num := b.mantissa * bn * td
  let den := bd * tn
  [roundUpDiv num den, num / den, num / den + 1]

def Binary.digitsAt? (b : Binary) (k : Int) : Option Nat :=
  (b.unitsAt k).find? fun n => 0 < n && b.accepts n k

/-- The digits at the coarsest power of ten, from 400 down, that has some. -/
def Binary.shortest (b : Binary) : Nat × Int :=
  let powers := (List.range 800).map fun i : Nat => (400 : Int) - i
  (powers.findSome? fun k => (b.digitsAt? k).map fun n => (n, k)).getD (b.mantissa, b.exponent)

/-- Digits with a point, and at least one digit on either side of it. -/
def positional (n : Nat) (k : Int) : String :=
  if 0 ≤ k then toString (n * Nat.pow 10 k.toNat) ++ ".0"
  else
    let places := (-k).toNat
    let digits := (toString n).toList
    let padded := List.replicate (places + 1 - digits.length) '0' ++ digits
    let whole := padded.take (padded.length - places)
    String.ofList whole ++ "." ++ String.ofList (padded.drop (padded.length - places))

namespace Decimal

def sign (negative : Bool) : String := if negative then "-" else ""

/-- The magnitude of the number, if it is neither zero for sure nor past every bound. -/
def binary? (digits : Nat) (exponent : Int) : Option (Option Binary) :=
  let size : Int := (toString digits).length + exponent
  if digits = 0 ∨ size < -400 then some none
  else if 400 < size then none
  else
    let (num, den) := ratio 10 exponent
    match nearest? (digits * num) den with
    | none => none
    | some b => if b.mantissa = 0 then some none else some (some b)

/-- Past the largest binary number. -/
def overflows : Decimal → Bool
  | finite _ digits exponent => (binary? digits exponent).isNone
  | _ => false

def text : Decimal → String
  | infinite negative => sign negative ++ "inf"
  | undefined => "NaN"
  | finite negative digits exponent =>
    match binary? digits exponent with
    | none => sign negative ++ "inf"
    | some none => sign negative ++ "0.0"
    | some (some b) => let (n, k) := b.shortest; sign negative ++ positional n k

end Decimal
end LoopMemory.Toml
