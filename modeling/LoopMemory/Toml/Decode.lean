import LoopMemory.Text
import LoopMemory.Toml.Document

/-!
Typed values from a TOML document. A value of another shape than the one that is asked for is a
mismatch, and the first one in the order of the keys is reported.
-/
namespace LoopMemory.Toml

inductive Shape where
  | wrongType (found expected : String)
  | wrongValue (found expected : String)
  | wrongLength (n : Nat) (expected : String)
  | unknownField (name : String) (known : List String)
  | unknownVariant (name : String) (known : List String)
  | missingField (name : String)
  | notOneEntry (tooMany : Bool)
  | neitherNameNorTable
  | contentOf (container : String)
  | noContainer (found : String)
  /-- A number that cannot be held. -/
  | overflow (kind : String)
deriving DecidableEq

namespace Shape

def tick (s : String) : String := "\x60" ++ s ++ "\x60"

/-- One name, a choice of two, or a list. -/
def oneOf : List String → String
  | [] => "nothing"
  | [a] => tick a
  | [a, b] => tick a ++ " or " ++ tick b
  | names => "one of " ++ ", ".intercalate (names.map tick)

def message : Shape → String
  | wrongType found expected => s!"invalid type: {found}, expected {expected}"
  | wrongValue found expected => s!"invalid value: {found}, expected {expected}"
  | wrongLength n expected => s!"invalid length {n}, expected {expected}"
  | unknownField name known => s!"unknown field {tick name}, expected {oneOf known}"
  | unknownVariant name known => s!"unknown variant {tick name}, expected {oneOf known}"
  | missingField name => s!"missing field {tick name}"
  | notOneEntry false => "wanted exactly 1 element, found 0 elements"
  | notOneEntry true => "wanted exactly 1 element, more than 1 element"
  | neitherNameNorTable => "wanted string or table"
  | contentOf container => s!"expected empty {container}"
  | noContainer found => s!"expected table, found {found}"
  | overflow kind => s!"{kind} overflowed"

end Shape

structure Mismatch where
  shape : Shape
  /-- The innermost value or key that the mismatch is about. -/
  span : Option Span := none
deriving DecidableEq

abbrev Decoder (α : Type) := Value → Except Mismatch α

namespace Decoder

/-- A mismatch without a place is about this one. -/
def within {α : Type} (span : Span) : Except Mismatch α → Except Mismatch α
  | .ok a => .ok a
  | .error e => .error { e with span := e.span.orElse fun _ => some span }

def reject {α : Type} (s : Shape) : Except Mismatch α := .error { shape := s }

def fitsInt64 (n : Int) : Bool := decide (Int64.minValue.toInt ≤ n ∧ n ≤ Int64.maxValue.toInt)

def fitsUInt64 (n : Int) : Bool := decide (0 ≤ n ∧ n < UInt64.size)

/-- What an integer is called; those past 64 bits are called by their width too. -/
def integerText? (n : Int) : Option String :=
  let text := "integer " ++ Shape.tick (toString n)
  if fitsInt64 n || fitsUInt64 n then some text
  else if -(Nat.pow 2 127 : Int) ≤ n ∧ n < Nat.pow 2 127 then some (text ++ " as i128")
  else if 0 ≤ n ∧ n < Nat.pow 2 128 then some (text ++ " as u128")
  else none

/-- What a value is called. A number that cannot be held has no name. -/
def describe : Value → Except Shape String
  | .string _ s => .ok ("string " ++ Text.quote s)
  | .integer _ n => match n.bind integerText? with
    | some text => .ok text
    | none => .error (.overflow "integer number")
  | .float _ x =>
    if x.overflows then .error (.overflow "floating-point number")
    else .ok ("floating point " ++ Shape.tick x.text)
  | .boolean _ b => .ok ("boolean " ++ Shape.tick (toString b))
  | .array _ _ => .ok "sequence"
  | .datetime _ _ | .table _ _ => .ok "map"

/-- A value that is not of the kind that is expected, or not in its range. -/
def refuse {α : Type} (shape : String → Shape) (v : Value) : Except Mismatch α :=
  within v.span (reject (match describe v with
    | .ok found => shape found
    | .error overflow => overflow))

def wrong {α : Type} (expected : String) : Value → Except Mismatch α :=
  refuse fun found => .wrongType found expected

/-- A number of 64 bits that is out of range; a wider one is of another kind. -/
def outOfRange {α : Type} (expected : String) (span : Span) (n : Int) : Except Mismatch α :=
  let v := .integer span (some n)
  if fitsInt64 n || fitsUInt64 n then refuse (fun found => .wrongValue found expected) v
  else wrong expected v

def string : Decoder String
  | .string _ s => .ok s
  | v => wrong "a string" v

def boolean : Decoder Bool
  | .boolean _ b => .ok b
  | v => wrong "a boolean" v

def unsigned : Decoder UInt64
  | .integer span (some n) =>
    if fitsUInt64 n then .ok (.ofNat n.toNat) else outOfRange "u64" span n
  | v => wrong "u64" v

def signed : Decoder Int64
  | .integer span (some n) => if fitsInt64 n then .ok (.ofInt n) else outOfRange "i64" span n
  | v => wrong "i64" v

def list {α : Type} (d : Decoder α) : Decoder (List α)
  | .array _ items => items.mapM d
  | v => wrong "a sequence" v

/-- The first two items of an array; further ones are not looked at. -/
def pair {α : Type} (d : Decoder α) : Decoder (α × α)
  | .array span (a :: b :: _) => within span do return (← d a, ← d b)
  | .array span items => within span do
    let _ ← items.mapM d
    reject (.wrongLength items.length "an array of length 2")
  | v => wrong "an array of length 2" v

/-- The one key of a date or time that is taken for a table. -/
def datetimeKey : String := "$__toml_private_datetime"

/-- The entries of a table, or of a date or time. -/
def entries? : Value → Option (List (Key × Value))
  | .table _ entries => some entries
  | .datetime span text => some [(⟨datetimeKey, span⟩, .string span text)]
  | _ => none

def dict {α : Type} (d : Decoder α) : Decoder (List (String × α)) := fun v =>
  match entries? v with
  | some entries => within v.span (entries.mapM fun e => do return (e.1.name, ← d e.2))
  | none => wrong "a map" v

/-- One of some names. An empty table or array under the name says the same. -/
def variant {α : Type} (variants : List (String × α)) : Decoder α
  | .string span s => within span (named s)
  | .table span [(k, v)] => within span do
    let a ← within k.span (named k.name)
    match v with
    | .table _ [] | .array _ [] => return a
    | .table s _ => within s (reject (.contentOf "table"))
    | .array s _ => within s (reject (.contentOf "array"))
    | v => within v.span (reject (.noContainer (kind v)))
  | .table span entries => within span (reject (.notOneEntry !entries.isEmpty))
  | v => within v.span (reject .neitherNameNorTable)
where
  named (s : String) : Except Mismatch α :=
    match variants.lookup s with
    | some a => .ok a
    | none => reject (.unknownVariant s (variants.map (·.1)))
  kind : Value → String
    | .string .. => "string"
    | .integer .. => "integer"
    | .float .. => "float"
    | .boolean .. => "boolean"
    | .datetime .. => "datetime"
    | .array .. => "array"
    | .table .. => "table"

/-- A field of a record, and how its value changes the record. -/
structure Field (α : Type) where
  name : String
  read : Value → α → Except Mismatch α
  required : Bool := false

/-- Sets the field to what a decoder reads. -/
def field {α β : Type} (name : String) (d : Decoder β) (set : α → β → α) : Field α :=
  { name, read := fun v a => set a <$> d v }

/-- A record with the value that it has when no field is given. -/
structure Record (α : Type) where
  name : String
  start : α
  fields : List (Field α)
  /-- An array stands for the record only if it gives every field. -/
  completeInArray : Bool := false

namespace Record
variable {α : Type} (r : Record α)

def readEntry (a : α) (e : Key × Value) : Except Mismatch α :=
  match r.fields.find? fun f => f.name == e.1.name with
  | none => within e.1.span (reject (.unknownField e.1.name (r.fields.map (·.name))))
  | some f => within e.2.span (f.read e.2 a)

def readEntries (entries : List (Key × Value)) : Except Mismatch α := do
  let a ← entries.foldlM r.readEntry r.start
  match r.fields.find? fun f => f.required && !entries.any fun e => e.1.name == f.name with
  | some f => reject (.missingField f.name)
  | none => return a

/-- The items of an array are the fields in order; further items are not looked at. -/
def readItems (items : List Value) : Except Mismatch α := do
  let a ← (r.fields.zip items).foldlM (fun a f => f.1.read f.2 a) r.start
  match (r.fields.zipIdx.drop items.length).find? fun f => r.completeInArray || f.1.required with
  | some f =>
    let count := r.fields.length
    let plural := if count = 1 then "element" else "elements"
    reject (.wrongLength f.2 s!"struct {r.name} with {count} {plural}")
  | none => return a

def decode : Decoder α
  | .array span items => within span (r.readItems items)
  | v => match entries? v with
    | some entries => within v.span (r.readEntries entries)
    | none => wrong s!"struct {r.name}" v

end Record
end Decoder

/-- Whether the value is a text that is written like a date or time. -/
def Value.isDatetimeText : Value → Bool
  | .string _ s => (Literal.datetime? s.toList).isSome
  | _ => false

mutual
/-- Whether a value can be held for itself: its numbers are signed integers of 64 bits and
floating-point numbers in range, and what is taken for a date or time is one. -/
def Value.holds : Value → Bool
  | .integer _ n => n.any Decoder.fitsInt64
  | .float _ x => !x.overflows
  | .array _ items => itemsHold items
  | .table _ entries => tableHolds entries
  | .string .. | .boolean .. | .datetime .. => true

def itemsHold : List Value → Bool
  | [] => true
  | v :: rest => v.holds && itemsHold rest

/-- A table whose first key is the one of dates and times is taken for one, whatever follows. -/
def tableHolds : List (Key × Value) → Bool
  | [] => true
  | (k, v) :: rest =>
    if k.name = Decoder.datetimeKey then v.isDatetimeText else v.holds && entriesHold rest

def entriesHold : List (Key × Value) → Bool
  | [] => true
  | (_, v) :: rest => v.holds && entriesHold rest
end

/-- A text that cannot be read: it is no TOML, or TOML of the wrong shape. -/
inductive Unreadable where
  | malformed (m : Malformed)
  | mismatch (m : Mismatch)
deriving DecidableEq

def Decoder.decodeText {α : Type} (d : Decoder α) (text : String) : Except Unreadable α :=
  match parse text with
  | .error m => .error (.malformed m)
  | .ok v => (d v).mapError .mismatch

/-- Whether the text is a document all of whose values can be held. -/
def isDocument (text : String) : Bool :=
  match parse text with
  | .ok (.table _ entries) => entriesHold entries
  | _ => false

namespace Unreadable

/-- What is wrong, in one line; a malformed text has no more to it than its place. -/
def message : Unreadable → String
  | malformed _ => "invalid TOML"
  | mismatch m => m.shape.message

def span? : Unreadable → Option Span
  | malformed m => some ⟨m.pos, m.pos⟩
  | mismatch m => m.span

/-- Line and column of a byte, from 0, and the text of that line from its start. -/
def locate (source : List Char) (pos : Nat) : Nat × Nat × List Char :=
  go source source 0 0 pos
where
  go (lineStart : List Char) : List Char → Nat → Nat → Nat → Nat × Nat × List Char
    | [], line, col, _ => (line, col, lineStart)
    | c :: r, line, col, left =>
      if left = 0 then (line, col, lineStart)
      else if c = '\n' then
        if r.isEmpty then (line, col + 1, lineStart) else go r r (line + 1) 0 (left - c.utf8Size)
      else go lineStart r line (col + 1) (left - c.utf8Size)

def spaces (n : Nat) : String := String.ofList (List.replicate n ' ')

/-- The line of the text that the fault is in, with a mark under the faulty stretch. -/
def excerpt (source : String) (span : Span) : String :=
  let (line, col, start) := locate source.toList span.start
  let content := start.takeWhile (· != '\n')
  let bytes := content.foldl (fun n c => n + c.utf8Size) 0
  let marks := max 1 (min (span.stop - span.start) (bytes - col))
  let number := toString (line + 1)
  let gutter := spaces (number.length + 1)
  s!"TOML parse error at line {number}, column {col + 1}\n{gutter}|\n" ++
    s!"{number} | {String.ofList content}\n{gutter}|{spaces (col + 1)}" ++
    String.ofList (List.replicate marks '^') ++ "\n"

def text (source : String) (u : Unreadable) : String :=
  ((u.span?.map (excerpt source)).getD "") ++ u.message ++ "\n"

end Unreadable
end LoopMemory.Toml
