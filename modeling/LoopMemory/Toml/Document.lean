import LoopMemory.Toml.Literal
import LoopMemory.Toml.Quoted

/-!
A TOML 1.1 document: pairs of keys and values under headers, put together into one table.
-/
namespace LoopMemory.Toml

/-- A key with dots: the keys before the last one, and that one. -/
structure KeyPath where
  path : List Key
  last : Key
deriving Inhabited

/-- The line that opens a table, or one more element of an array of tables. -/
structure Header where
  repeats : Bool
  span : Span
  key : KeyPath

/-- The pairs up to the next header. -/
structure Section where
  header : Option Header
  pairs : List (KeyPath × Value)

namespace Scan

def isBare (c : Char) : Bool := c.isAlphanum || c == '_' || c == '-'

def isQuote (c : Option Char) : Bool := c == some '"' || c == some '\''

def key : Scan Key := do
  let (span, name) ← spanned do
    if isQuote (← peek?) then return String.ofList (← Quoted.single)
    else
      let s ← takeWhile isBare
      if s.isEmpty then fail else return String.ofList s
  return { name, span }

/-- A key with dots from behind its first part on, with at most so many parts. -/
def moreKeys : Nat → Key → Scan KeyPath
  | 0, _ => fail
  | fuel + 1, k => do
    spaces
    if ← accept ['.'] then
      spaces
      let rest ← moreKeys fuel (← key)
      return { rest with path := k :: rest.path }
    else return { path := [], last := k }

/-- The most parts of a key with dots, and the most arrays and tables in braces around a value. -/
def maxDepth : Nat := 80

def keyPath : Scan KeyPath := do moreKeys maxDepth (← key)

def endsLiteral (c : Char) : Bool :=
  isSpace c || c == '\r' || c == '\n' || c == '#' || c == '=' || c == ',' ||
    c == '[' || c == ']' || c == '\x7b' || c == '\x7d'

def literalText : Scan (List Char) := takeWhile fun c => !endsLiteral c

/-- A time may follow its date after a space. -/
def literal : Scan Value := do
  let (span, s) ← spanned do
    let s ← literalText
    match (Literal.date? s).isSome, ← rest with
    | true, ' ' :: a :: b :: ':' :: _ =>
      if a.isDigit && b.isDigit then
        skip 1
        return s ++ ' ' :: (← literalText)
      else return s
    | _, _ => return s
  orFail (Literal.value? span s)

def scalar : Scan Value := do
  if isQuote (← peek?) then
    let (span, s) ← spanned Quoted.any
    return .string span (String.ofList s)
  else literal

/-- The items of an array and its closing bracket. -/
def arrayItems (item : Scan Value) : Nat → Scan (List Value)
  | 0 => fail
  | fuel + 1 => do
    blanks
    if ← accept [']'] then return []
    let v ← item
    blanks
    if ← accept [','] then return v :: (← arrayItems item fuel)
    expect [']']
    return [v]

/-- The entries of a table in braces and its closing brace. -/
def tableItems (item : Scan Value) : Nat → Items → Scan Items
  | 0, _ => fail
  | fuel + 1, items => do
    blanks
    if ← accept ['\x7d'] then return items
    let k ← keyPath
    blanks
    expect ['=']
    blanks
    let items ← orFail (items.addPair k.path k.last (← item))
    blanks
    if ← accept [','] then return ← tableItems item fuel items
    expect ['\x7d']
    return items

/-- A value with at most so many arrays and tables around each scalar. -/
def value : Nat → Scan Value
  | 0 => scalar
  | depth + 1 => do
    match ← peek? with
    | some '[' =>
      let (span, items) ← spanned do
        skip 1
        arrayItems (value depth) (← bound)
      return .array span items
    | some '\x7b' =>
      let (span, items) ← spanned do
        skip 1
        tableItems (value depth) (← bound) []
      return .table span (sealEntries items)
    | _ => scalar

def pair : Scan (KeyPath × Value) := do
  let k ← keyPath
  spaces
  expect ['=']
  spaces
  return (k, ← value maxDepth)

def header : Scan Header := do
  let (span, repeats, key) ← spanned do
    expect ['[']
    let repeats ← accept ['[']
    spaces
    let key ← keyPath
    spaces
    expect (if repeats then [']', ']'] else [']'])
    return (repeats, key)
  return { repeats, span, key }

/-- The sections from here on; `pairs` are those that the present one has so far. -/
def sections : Nat → Option Header → List (KeyPath × Value) → Scan (List Section)
  | 0, _, _ => fail
  | fuel + 1, h, pairs => do
    blanks
    match ← peek? with
    | none => return [{ header := h, pairs }]
    | some '[' =>
      let next ← header
      lineEnd
      return { header := h, pairs } :: (← sections fuel (some next) [])
    | some _ =>
      let p ← pair
      lineEnd
      sections fuel h (pairs ++ [p])

end Scan

namespace Section

def fill (s : Section) (items : Items) : Option Items :=
  s.pairs.foldlM (fun items p => items.addPair p.1.path p.1.last p.2) items

/-- Opens the table of the header in its parent. A table is opened once; one that other headers
have implied is taken over, and its key with it. -/
def enter (s : Section) (h : Header) (parent : Items) : Option Items :=
  let k := h.key.last
  match h.repeats, parent.item? k.name with
  | false, none => do return parent.set k (.table .header h.span (← s.fill []))
  | false, some (.table .implied _ sub) => do
    return parent.replace k (.table .header h.span (← s.fill sub))
  | true, none => do return parent.set k (.tables [(h.span, ← s.fill [])])
  | true, some (.tables elements) => do
    return parent.set k (.tables (elements ++ [(h.span, ← s.fill [])]))
  | _, _ => none

def addTo (root : Items) (s : Section) : Option Items :=
  match s.header with
  | none => s.fill root
  | some h => root.update false (fun _ parent => s.enter h parent) h.key.path .header

end Section

def byteOrderMark : Char := '\ufeff'

/-- The table that a text stands for. -/
def parse (text : String) : Except Malformed Value := do
  let scan : Scan (List Section) := do
    let _ ← Scan.accept [byteOrderMark]
    Scan.sections (← Scan.bound) none []
  let (sections, stop) ← scan { rest := text.toList }
  match sections.foldlM Section.addTo [] with
  | none => .error ⟨stop.pos⟩
  | some items => return .table ⟨0, stop.pos⟩ (sealEntries items)

end LoopMemory.Toml
