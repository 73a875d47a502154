namespace Offside.Path

/-- Drops slashes and further steps to the same directory, from a path read backwards. -/
def trimEnd : List Char → List Char
  | '/' :: cs => trimEnd cs
  | '.' :: '/' :: cs => trimEnd cs
  | cs => cs

/-- The last name of a path and what stands before it. A path keeps the form in which it was
given. -/
def split (path : String) : List Char × List Char :=
  let cs := trimEnd path.toList.reverse
  ((cs.dropWhile (· != '/')).reverse, (cs.takeWhile (· != '/')).reverse)

/-- The last name, if it names something in its directory. -/
def fileName? (path : String) : Option (List Char) :=
  match (split path).2 with
  | [] | ['.'] | ['.', '.'] => none
  | name => some name

/-- Divides a name at its last point. A point in front does not count. -/
def splitName (name : List Char) : List Char × Option (List Char) :=
  match name.reverse.dropWhile (· != '.') with
  | '.' :: c :: before => ((c :: before).reverse, some (name.reverse.takeWhile (· != '.')).reverse)
  | _ => (name, none)

def extension? (path : String) : Option String :=
  (fileName? path).bind fun name => (splitName name).2.map String.ofList

/-- The path with another extension; a name without one gets one. -/
def withExtension (path extension : String) : String :=
  match fileName? path with
  | none => path
  | some name => String.ofList ((split path).1 ++ (splitName name).1) ++ "." ++ extension

/-- The directory that a path lies in, empty if the path says nothing about it. -/
def parent (path : String) : String :=
  match (split path).1.reverse with
  | [] => ""
  | before =>
    match trimEnd before with
    | [] => "/"
    | cs => String.ofList cs.reverse

def ancestorsWithin : (steps : Nat) → String → List String
  | 0, _ => []
  | steps + 1, path => if path = "" then [] else path :: ancestorsWithin steps (parent path)

/-- A path, what it lies in, and so on outwards as far as the path says. -/
def ancestors (path : String) : List String := ancestorsWithin path.length path

/-- A path from a directory; the empty path adds nothing in front. -/
def join (directory path : String) : String :=
  if directory = "" || directory.endsWith "/" then directory ++ path
  else directory ++ "/" ++ path

/-- The names a path goes through. -/
def names (path : String) : List String :=
  (go [] path.toList).filter (· != "")
where
  go : (name : List Char) → List Char → List String
    | name, [] => [String.ofList name.reverse]
    | name, c :: cs => if c = '/' then String.ofList name.reverse :: go [] cs else go (c :: name) cs

end Offside.Path
