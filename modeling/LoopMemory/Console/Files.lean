import LoopMemory.Console.Path
import LoopMemory.Description.Names

/-!
The files that the program looks at, in whatever world it runs, and a world that is held in
memory.
-/
namespace LoopMemory.Console

inductive Trouble where
  | missing | notDirectory | isDirectory | nameTooLong | notText
  | other (text : String)
deriving DecidableEq

def Trouble.text : Trouble → String
  | missing => "No such file or directory (os error 2)"
  | notDirectory => "Not a directory (os error 20)"
  | isDirectory => "Is a directory (os error 21)"
  | nameTooLong => "File name too long (os error 36)"
  | notText => "stream did not contain valid UTF-8"
  | other text => text

structure World (m : Type → Type) where
  read : String → m (Except Trouble String)
  isFile : String → m Bool
  /-- The names in a directory; `none` if nothing is there. -/
  names : String → m (Option (Except Trouble (List String)))
  /-- Time in nanoseconds. -/
  clock : m Nat
  /-- What the program does where a number does not fit. -/
  arith : Arithmetic := .wrapping

/-- A directory tree. -/
inductive FileTree where
  | file (content : ByteArray)
  | dir (entries : List (String × FileTree))
deriving Inhabited

namespace FileTree

def child? (entries : List (String × FileTree)) (name : String) : Option FileTree :=
  entries.lookup name

def replace (name : String) (t : FileTree) : List (String × FileTree) → List (String × FileTree)
  | [] => [(name, t)]
  | (n, u) :: r => if n = name then (n, t) :: r else (n, u) :: replace name t r

/-- Puts a tree at a path, and makes the directories on the way to it. -/
def put : FileTree → List String → FileTree → FileTree
  | _, [], t => t
  | .dir entries, name :: path, t =>
    .dir (replace name (put ((child? entries name).getD (.dir [])) path t) entries)
  | .file _, name :: path, t => .dir [(name, put (.dir []) path t)]

/-- Bytes that a name may have. -/
def maxName : Nat := 255

/-- Bytes that a path may have. -/
def maxPath : Nat := 4095

/-- Goes down a path; the trees on the way, the innermost first, are what `..` leads back to, and
the outermost one leads back to itself. -/
def walk (t : FileTree) (up : List FileTree) : List String → Except Trouble FileTree
  | [] => .ok t
  | name :: path =>
    match t with
    | .file _ => .error .notDirectory
    | .dir entries =>
      if name = "" ∨ name = "." then walk t up path
      else if name = ".." then
        match up with
        | [] => walk t [] path
        | parent :: up => walk parent up path
      else if maxName < name.utf8ByteSize then .error .nameTooLong
      else match child? entries name with
        | none => .error .missing
        | some child => walk child (t :: up) path

/-- What is at a path. Around the tree there is a directory with nothing else in it. -/
def at? (t : FileTree) (path : String) : Except Trouble FileTree :=
  let names := (Path.parts path.toList).map String.ofList
  if maxPath < path.utf8ByteSize then .error .nameTooLong
  else match path.toList with
  | [] => .error .missing
  | '/' :: _ => walk (.dir []) [] names
  | _ => walk t [.dir []] names

def read (t : FileTree) (path : String) : Except Trouble String :=
  match t.at? path with
  | .error e => .error e
  | .ok (.dir _) => .error .isDirectory
  | .ok (.file content) =>
    match String.fromUTF8? content with
    | some s => .ok s
    | none => .error .notText

def isFile (t : FileTree) (path : String) : Bool :=
  match t.at? path with
  | .ok (.file _) => true
  | _ => false

def names (t : FileTree) (path : String) : Option (Except Trouble (List String)) :=
  match t.at? path with
  | .error _ => none
  | .ok (.file _) => some (.error .notDirectory)
  | .ok (.dir entries) => some (.ok (entries.map (·.1)))

/-- The world of a directory tree, where no time passes. -/
def world (t : FileTree) : World Id :=
  { read := t.read, isFile := t.isFile, names := t.names, clock := (0 : Nat) }

end FileTree
end LoopMemory.Console
