import Offside.Command.Arguments

namespace Offside

/-- The system's code for a path through something that is no directory comes with either sign. -/
def FileError.ofSystem : IO.Error → FileError
  | .noFileOrDirectory .. => .notFound
  | .alreadyExists .. => .exists
  | .inappropriateType _ code _ => if code = 20 ∨ code = -20 then .notDirectory else .isDirectory
  | e => .other (toString e)

def guarded {α : Type} (operation : IO α) : IO (Except FileError α) := do
  match ← operation.toBaseIO with
  | .ok a => return .ok a
  | .error e => return .error (.ofSystem e)

/-- The system's error for an operation on a path. -/
def Failure.ofSystem (path : String) (e : IO.Error) : Failure :=
  let text := (FileError.ofSystem e).message
  ⟨"IO error for operation on " ++ path ++ ": " ++ text, [text]⟩

/-- Links are met, but not followed. `names` leads from the root to the directory. -/
partial def walkBelow (directory : String) (names : List String) :
    IO (List (Except Failure WalkEntry)) := do
  match ← (do (← IO.FS.realPath directory).readDir).toBaseIO with
  | .error e => return [.error (.ofSystem directory e)]
  | .ok entries =>
    let sorted := entries.qsort fun a b => a.fileName < b.fileName
    let met ← sorted.toList.mapM fun entry => do
      let path := Path.join directory entry.fileName
      let below := names ++ [entry.fileName]
      match ← entry.path.symlinkMetadata.toBaseIO with
      | .error e => return [.error (.ofSystem path e)]
      | .ok data =>
        let met := Except.ok ⟨below, data.type == .file⟩
        if data.type == .dir then return met :: (← walkBelow path below) else return [met]
    return met.flatten

instance : Disk IO where
  isDirectory path := do
    match ← (IO.FS.realPath path).toBaseIO with
    | .ok path => path.isDir
    | .error _ => return false
  walk path := return .ok ⟨[], false⟩ :: (← walkBelow path [])
  read path := guarded (IO.FS.readBinFile path)
  write path content := guarded (IO.FS.writeBinFile path content)
  makeDirectory path := guarded (IO.FS.createDir path)
  input := do (← IO.getStdin).readBinToEnd
  print channel text := do
    let stream ← match channel with
      | .out => IO.getStdout
      | .err => IO.getStderr
    stream.putStr text
    stream.flush

end Offside

def main (arguments : List String) : IO UInt32 := do
  match Offside.Command.Options.ofArguments? {} arguments with
  | some options => return (← Offside.Command.run options).toUInt32
  | none =>
    IO.eprintln Offside.Command.usage
    return 2
