/-!
File paths as text, with a slash between their parts.
-/
namespace LoopMemory.Console.Path

abbrev Text := List Char

/-- A path without the slashes and lone dots at its end. -/
def trimEnd (s : Text) : Text := (go s.reverse).reverse
where
  go : Text → Text
    | '/' :: r => go r
    | '.' :: '/' :: r => go r
    | r => r

/-- The path of the enclosing directory; it is empty for a bare name. -/
def parent? (path : String) : Option String :=
  let s := path.toList
  match trimEnd s with
  | [] => none
  | t =>
    let above := (t.reverse.dropWhile (· != '/')).reverse
    let up := trimEnd above
    some (String.ofList (if up.isEmpty && !above.isEmpty then ['/'] else up))

def join (dir name : String) : String :=
  if dir.isEmpty || dir.toList.getLast? == some '/' then dir ++ name else dir ++ "/" ++ name

/-- What stands behind the last dot of a name, unless nothing stands before it. -/
def extension? (name : String) : Option String :=
  let s := name.toList.reverse
  let ext := s.takeWhile (· != '.')
  match s.drop ext.length with
  | [] | ['.'] => none
  | _ => if name = ".." then none else some (String.ofList ext.reverse)

def parts : Text → List Text
  | [] => [[]]
  | '/' :: r => [] :: parts r
  | c :: r =>
    match parts r with
    | p :: ps => (c :: p) :: ps
    | [] => [[c]]

end LoopMemory.Console.Path
