/-!
JSON values and their form over several lines, with two spaces for each level.
-/
namespace LoopMemory

inductive Json where
  | null
  | bool (b : Bool)
  | number (n : Nat)
  | string (s : String)
  | array (items : List Json)
  /-- In the order in which the members are written. -/
  | object (members : List (String × Json))
deriving Inhabited

namespace Json

def hexDigit (n : Nat) : Char := Char.ofNat (if n < 10 then 0x30 + n else 0x57 + n)

def escapeChar (c : Char) : String :=
  if c = '"' then "\\\""
  else if c = '\\' then "\\\\"
  else if c = '\n' then "\\n"
  else if c = '\r' then "\\r"
  else if c = '\t' then "\\t"
  else if c = '\x08' then "\\b"
  else if c = '\x0c' then "\\f"
  else if c.toNat < 0x20 then
    "\\u00" ++ String.ofList [hexDigit (c.toNat / 16), hexDigit (c.toNat % 16)]
  else c.toString

def quote (s : String) : String := "\"" ++ String.join (s.toList.map escapeChar) ++ "\""

def indent (level : Nat) : String := String.ofList (List.replicate (2 * level) ' ')

/-- Parts on lines of their own between two brackets, or the empty brackets. -/
def enclose (start stop : String) (level : Nat) : List String → String
  | [] => start ++ stop
  | parts =>
    let lines := parts.map fun p => indent (level + 1) ++ p
    start ++ "\n" ++ ",\n".intercalate lines ++ "\n" ++ indent level ++ stop

mutual
def pretty (level : Nat) : Json → String
  | null => "null"
  | bool b => toString b
  | number n => toString n
  | string s => quote s
  | array items => enclose "[" "]" level (prettyItems (level + 1) items)
  | object members => enclose "\x7b" "\x7d" level (prettyMembers (level + 1) members)

def prettyItems (level : Nat) : List Json → List String
  | [] => []
  | v :: r => pretty level v :: prettyItems level r

def prettyMembers (level : Nat) : List (String × Json) → List String
  | [] => []
  | (k, v) :: r => (quote k ++ ": " ++ pretty level v) :: prettyMembers level r
end

def text (j : Json) : String := pretty 0 j

def strings (l : List String) : Json := .array (l.map .string)

def ofOption {α : Type} (f : α → Json) : Option α → Json
  | some a => f a
  | none => .null

end Json
end LoopMemory
