import LoopMemory.Toml.Decimal

/-!
The values of a TOML document, each with its place in the text.
-/
namespace LoopMemory.Toml

/-- A stretch of the text, in bytes. -/
structure Span where
  start : Nat
  stop : Nat
deriving DecidableEq, Inhabited

structure Key where
  name : String
  span : Span
deriving DecidableEq, Inhabited

inductive Value where
  | string (span : Span) (text : String)
  /-- An integer, or `none` if its digits have no value. -/
  | integer (span : Span) (n : Option Int)
  | float (span : Span) (x : Decimal)
  | boolean (span : Span) (b : Bool)
  /-- A date, a time, or both, as it is written. -/
  | datetime (span : Span) (text : String)
  | array (span : Span) (items : List Value)
  /-- In ascending order of the keys. -/
  | table (span : Span) (entries : List (Key × Value))
deriving Inhabited

namespace Value

def span : Value → Span
  | string s _ | integer s _ | float s _ | boolean s _ | datetime s _ | array s _ | table s _ => s

end Value

/-- How a table came to be. -/
inductive TableOrigin where
  /-- By a header of its own, or by braces. -/
  | header
  /-- By a header that names a table inside it. -/
  | implied
  /-- By a key with dots, or it has been implied first and a key with dots has led into it. -/
  | dotted
deriving DecidableEq, Inhabited

/-- A value, or a table that later lines may still add to. -/
inductive Item where
  | value (v : Value)
  | table (origin : TableOrigin) (span : Span) (entries : List (Key × Item))
  | tables (elements : List (Span × List (Key × Item)))
deriving Inhabited

abbrev Items := List (Key × Item)

namespace Items

def item? (items : Items) (name : String) : Option Item :=
  (List.find? (fun e : Key × Item => e.1.name == name) items).map (·.2)

/-- Sets the item of a key; a key that is there already stays in its place. -/
def set (k : Key) (i : Item) : Items → Items
  | [] => [(k, i)]
  | (j, x) :: rest => if j.name = k.name then (j, i) :: rest else (j, x) :: set k i rest

/-- Sets the item of a key, which takes the place of the key that was there. -/
def replace (k : Key) (i : Item) (items : Items) : Items :=
  List.filter (fun e : Key × Item => e.1.name != k.name) items ++ [(k, i)]

/-- A value for a key that has none yet. -/
def insertNew (k : Key) (v : Value) (items : Items) : Option Items :=
  if (items.item? k.name).isSome then none else some (items ++ [(k, .value v)])

/-- Applies a change to the table at the end of a path, and makes the tables on the way to it. A
path of dots does not enter tables with headers of their own, no path enters a finished value, and
the last element stands for an array of tables. -/
def update (dots : Bool) (f : TableOrigin → Items → Option Items) :
    List Key → TableOrigin → Items → Option Items
  | [], origin, items => f origin items
  | k :: path, _, items =>
    match items.item? k.name with
    | none => do
      let origin := if dots then .dotted else .implied
      let sub ← update dots f path origin []
      return items.set k (.table origin k.span sub)
    | some (.table origin span sub) =>
      if dots && origin == .header then none
      else do
        let origin := if dots then .dotted else origin
        return items.set k (.table origin span (← update dots f path origin sub))
    | some (.tables elements) =>
      match elements.getLast? with
      | none => none
      | some (span, last) => do
        let last ← update dots f path .header last
        return items.set k (.tables (elements.dropLast ++ [(span, last)]))
    | some (.value _) => none

/-- Adds a value under a key with dots. The key ends in the table at hand if it has no dots, and
otherwise in one without a header of its own. -/
def addPair (path : List Key) (k : Key) (v : Value) (items : Items) : Option Items :=
  update true (fun o sub => if (o == .dotted) == path.isEmpty then none else sub.insertNew k v)
    path .header items

end Items

/-- Puts an entry into its place among others in ascending order. -/
def placeEntry (k : Key) (v : Value) : List (Key × Value) → List (Key × Value)
  | [] => [(k, v)]
  | (j, w) :: rest =>
    if k.name < j.name then (k, v) :: (j, w) :: rest else (j, w) :: placeEntry k v rest

mutual
/-- The value of an item to which nothing is added any more. An array of tables is where its first
header is. -/
def Item.seal : Item → Value
  | .value v => v
  | .table _ span entries => .table span (sealEntries entries)
  | .tables elements => .array ((elements.head?.map (·.1)).getD default) (sealTables elements)

def sealEntries : List (Key × Item) → List (Key × Value)
  | [] => []
  | (k, i) :: rest => placeEntry k i.seal (sealEntries rest)

def sealTables : List (Span × List (Key × Item)) → List Value
  | [] => []
  | (span, entries) :: rest => .table span (sealEntries entries) :: sealTables rest
end

end LoopMemory.Toml
