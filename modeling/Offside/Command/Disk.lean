import Offside.Command.FileTree
import Offside.Eval.Environment

namespace Offside

class Disk (m : Type → Type) where
  isDirectory : (path : String) → m Bool
  /-- What a walk through a directory meets, one after another. -/
  walk : (path : String) → m (List (Except Failure WalkEntry))
  read : (path : String) → m (Except FileError ByteArray)
  write : (path : String) → (content : ByteArray) → m (Except FileError Unit)
  /-- Makes one directory in another one. -/
  makeDirectory : (path : String) → m (Except FileError Unit)
  input : m ByteArray
  print : Channel → String → m Unit

/-- A file tree, the standard input, what has been printed on each channel, and the way in which
directories are walked. -/
structure Machine where
  tree : FileTree := {}
  input : ByteArray := .empty
  out : String := ""
  err : String := ""
  walker : FileTree → String → List (Except Failure WalkEntry) := FileTree.walk

namespace Machine

def print (s : Machine) (channel : Channel) (text : String) : Machine :=
  match channel with
  | .out => { s with out := s.out ++ text }
  | .err => { s with err := s.err ++ text }

/-- Changes the tree, unless the change fails. -/
def change (s : Machine) : Except FileError FileTree → Except FileError Unit × Machine
  | .ok tree => (.ok (), { s with tree })
  | .error e => (.error e, s)

end Machine

instance : Disk (StateM Machine) where
  isDirectory path := fun s => (s.tree.isDirectory path, s)
  walk path := fun s => (s.walker s.tree path, s)
  read path := fun s => (s.tree.read path, s)
  write path content := fun s => s.change (s.tree.write path content)
  makeDirectory path := fun s => s.change (s.tree.makeDirectory path)
  input := fun s => (s.input, s)
  print channel text := fun s => ((), s.print channel text)

end Offside
