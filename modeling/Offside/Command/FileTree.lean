import Offside.Command.Failure
import Offside.Command.Path

namespace Offside

/-- Why a file operation fails. -/
inductive FileError where
  | notFound
  | notDirectory
  | isDirectory
  | exists
  | notText
  | other (text : String)
  deriving DecidableEq

def FileError.message : FileError → String
  | .notFound => "No such file or directory (os error 2)"
  | .notDirectory => "Not a directory (os error 20)"
  | .isDirectory => "Is a directory (os error 21)"
  | .exists => "File exists (os error 17)"
  | .notText => "stream did not contain valid UTF-8"
  | .other text => text

inductive FileEntry where
  | file (content : ByteArray)
  | directory

def FileEntry.isDirectory : FileEntry → Bool
  | .file _ => false
  | .directory => true

/-- What a walk through a directory meets, by its names from there down. The directory itself, which
is met first, has no names. -/
structure WalkEntry where
  names : List String
  isFile : Bool

/-- Everything in the working directory under its names from there down. There are no links: each
file and each directory has one place. -/
structure FileTree where
  entries : List (List String × FileEntry) := []

namespace FileTree

def entry? (t : FileTree) (place : List String) : Option FileEntry :=
  if place = [] then some .directory else t.entries.lookup place

def insert (t : FileTree) (place : List String) (e : FileEntry) : FileTree :=
  ⟨(place, e) :: t.entries.filter (·.1 != place)⟩

/-- One step from a directory. Nothing lies outside of the working directory. -/
def step (t : FileTree) (place : List String) (name : String) : Except FileError (List String) :=
  match t.entry? place with
  | none => .error .notFound
  | some (.file _) => .error .notDirectory
  | some .directory =>
    .ok (if name = "." then place else if name = ".." then place.dropLast else place ++ [name])

/-- The place a path leads to. There need not be anything, but it lies in a directory. -/
def place (t : FileTree) (path : String) : Except FileError (List String) :=
  (Path.names path).foldlM t.step []

/-- What a path leads to; a slash at its end demands a directory. -/
def find (t : FileTree) (path : String) : Except FileError FileEntry := do
  let place ← t.place path
  let place ← if path.endsWith "/" then t.step place "." else pure place
  match t.entry? place with
  | some e => return e
  | none => throw .notFound

def isDirectory (t : FileTree) (path : String) : Bool :=
  match t.find path with
  | .ok .directory => true
  | _ => false

def read (t : FileTree) (path : String) : Except FileError ByteArray := do
  match ← t.find path with
  | .file content => return content
  | .directory => throw .isDirectory

/-- Puts a file in place of what the path leads to, which is no directory. -/
def write (t : FileTree) (path : String) (content : ByteArray) : Except FileError FileTree := do
  let place ← t.place path
  if path.endsWith "/" || (t.entry? place).any FileEntry.isDirectory then throw .isDirectory
  else return t.insert place (.file content)

def makeDirectory (t : FileTree) (path : String) : Except FileError FileTree := do
  let place ← t.place path
  match t.entry? place with
  | some _ => throw .exists
  | none => return t.insert place .directory

/-- What lies below a place, and the place itself. -/
def below (t : FileTree) (place : List String) : List WalkEntry :=
  (([], .directory) :: t.entries).filterMap fun e =>
    if place.isPrefixOf e.1 then some ⟨e.1.drop place.length, !e.2.isDirectory⟩ else none

/-- A walk that goes through the names of each directory in order. -/
def walk (t : FileTree) (path : String) : List (Except Failure WalkEntry) :=
  match t.find path, t.place path with
  | .ok _, .ok place =>
    ((t.below place).mergeSort fun a b => (List.decidableLE a.names b.names).decide).map .ok
  | .error e, _ | _, .error e =>
    [.error ⟨"IO error for operation on " ++ path ++ ": " ++ e.message, [e.message]⟩]

end FileTree

end Offside
