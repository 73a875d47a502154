import Offside.Command.Disk
import Offside.Command.Failure
import Offside.Expr.Dump
import Offside.Host.Console
import Offside.Program

namespace Offside.Command

structure Options where
  input : Option String := none
  output : Option String := none
  emit : String := "js"
  run : Bool := false

/-- What is written for a program. -/
inductive Emit where
  | javaScript
  | tree
  deriving DecidableEq

namespace Emit

def ofName? : String → Option Emit
  | "js" => some .javaScript
  | "ast" => some .tree
  | _ => none

def extension : Emit → String
  | .javaScript => "js"
  | .tree => "ast"

def render : Emit → List Expr → String
  | .javaScript, es => Program.javaScript es
  | .tree, es => String.join (es.map fun e => e.dump ++ "\n")

end Emit

def sourceExtension : String := "elm"

section

variable {m : Type → Type} [Monad m] [Disk m]

abbrev Action (m : Type → Type) (α : Type) := ExceptT Failure m α

def during {α : Type} (text : String) (action : Action m α) : Action m α :=
  ExceptT.adapt (Failure.during text) action

/-- A file operation that fails as its error says. -/
def attempt {α : Type} (operation : m (Except FileError α)) : Action m α :=
  ExceptT.mk do return (← operation).mapError fun e => ⟨e.message, []⟩

def print (channel : Channel) (text : String) : Action m Unit :=
  ExceptT.lift (Disk.print channel text)

def decode (content : ByteArray) : Except FileError String :=
  match String.fromUTF8? content with
  | some text => .ok text
  | none => .error .notText

def readSource (path : String) : Action m String :=
  during ("failed to read input file " ++ path)
    (attempt do return (← Disk.read path).bind decode)

/-- Makes a directory after those it lies in, which follow it in the list. -/
def makeDirectories : List String → m (Except FileError Unit)
  | [] => return .ok ()
  | path :: above => do
    match ← Disk.makeDirectory path with
    | .ok () => return .ok ()
    | .error .notFound =>
      match ← makeDirectories above with
      | .error e => return .error e
      | .ok () => settle path (← Disk.makeDirectory path)
    | .error e => settle path (.error e)
where
  /-- A directory that is there already will do. -/
  settle (path : String) : Except FileError Unit → m (Except FileError Unit)
    | .ok () => return .ok ()
    | .error e => do if ← Disk.isDirectory path then return .ok () else return .error e

def writeOutput (path text : String) : Action m Unit := do
  let parent := Path.parent path
  if parent != "" then
    during ("failed to create directory " ++ parent)
      (attempt (makeDirectories (Path.ancestors parent)))
  during ("failed to write output file " ++ path) (attempt (Disk.write path text.toUTF8))

def ofError {α : Type} : Except Error α → Action m α
  | .ok a => pure a
  | .error e => throw ⟨e.message, []⟩

/-- Evaluates a program with a console. What it printed is printed even if it fails. -/
def evaluate (es : List Expr) : Action m Unit := do
  let program : Eval Value := do
    Host.installConsole
    Program.evaluateAll Host.console es
  let (result, env) := match EStateM.run program .empty with
    | .ok v env => (Except.ok v, env)
    | .error e env => (.error e, env)
  env.output.forM fun line => print line.channel (line.text ++ "\n")
  let v ← ofError result
  print .out ("Program evaluated to " ++ v.render ++ "\n")

/-- Nothing is written unless the whole source can be read, and nothing is evaluated before all is
written. -/
def compile (source : String) (output : Option String) (emit : Emit) (run : Bool) :
    Action m Unit := do
  let es ← ofError (Program.parse source)
  match output with
  | some path => writeOutput path (emit.render es)
  | none => print .out (emit.render es)
  if run then evaluate es

/-- Whether what is met on a walk from `root` is a source. -/
def isSource (root : String) (e : WalkEntry) : Bool :=
  e.isFile &&
    Path.extension? (Path.join root ("/".intercalate e.names)) = some sourceExtension

/-- The sources below a directory, by their names from there down, as a walk meets them. -/
def sources (root : String) : Action m (List (List String)) := do
  let met ← ExceptT.lift (Disk.walk root)
  let entries ← during ("failed to walk " ++ root) (ExceptT.mk (pure (met.mapM id)))
  return (entries.filter (isSource root)).map (·.names)

def compileFile (input : String) (output : Option String) (emit : Emit) (run : Bool) :
    Action m Unit := do
  let source ← readSource input
  let target := output.getD (Path.withExtension input emit.extension)
  during ("failed to compile " ++ input) (compile source (some target) emit run)

/-- Each target has the place under the output directory that its source has under the root. -/
def compileDirectory (root : String) (output : Option String) (emit : Emit) : Action m Unit := do
  let files ← sources root
  if files.isEmpty then
    throw ⟨"no ." ++ sourceExtension ++ " files found under " ++ root, []⟩
  files.forM fun names => do
    let relative := "/".intercalate names
    let target := Path.withExtension (Path.join (output.getD root) relative) emit.extension
    compileFile (Path.join root relative) (some target) emit false

def execute (options : Options) : Action m Unit := do
  match Emit.ofName? options.emit with
  | none => throw ⟨"unsupported emit format: " ++ options.emit, []⟩
  | some emit =>
    match options.input with
    | none =>
      let source ← attempt do return decode (← Disk.input)
      compile source options.output emit options.run
    | some input =>
      if ← ExceptT.lift (Disk.isDirectory input) then
        if options.run then throw ⟨"--run needs a single input file", []⟩
        compileDirectory input options.output emit
      else compileFile input options.output emit options.run

/-- Runs a command, reports a failure, and gives the exit code. -/
def run (options : Options) : m Nat := do
  match ← (execute options).run with
  | .ok () => return 0
  | .error failure =>
    Disk.print .err failure.report
    return 1

end

end Offside.Command
