import Offside.Command.Run

namespace Offside.Command

def usage : String :=
  "usage: [--input=PATH] [--output=PATH] [--emit=js|ast] [--run]"

/-- The value behind the equals sign of an argument of the given name. -/
def valueOf? (name argument : String) : Option String :=
  let start := (name ++ "=").toList
  if start.isPrefixOf argument.toList then
    some (String.ofList (argument.toList.drop start.length))
  else none

namespace Options

def set? (o : Options) (argument : String) : Option Options :=
  if argument = "--run" then some { o with run := true }
  else
    match valueOf? "--input" argument, valueOf? "--output" argument, valueOf? "--emit" argument with
    | some value, _, _ => some { o with input := some value }
    | _, some value, _ => some { o with output := some value }
    | _, _, some value => some { o with emit := value }
    | none, none, none => none

/-- Each value stands behind an equals sign or is an argument of its own. -/
def ofArguments? (o : Options) : List String → Option Options
  | [] => some o
  | [argument] => o.set? argument
  | argument :: value :: others =>
    match o.set? argument with
    | some o => o.ofArguments? (value :: others)
    | none =>
      match o.set? (argument ++ "=" ++ value) with
      | some o => o.ofArguments? others
      | none => none

end Options

end Offside.Command
