import Offside.Eval.Environment
import Offside.Expr.JavaScript
import Offside.Value.Text

namespace Offside.Host

/-- Prints the arguments on one line, which is also the result. -/
def printLine (channel : Channel) (q : Request) : Reply :=
  let text := Value.renderLine q.arguments
  { q.answer (.string text) with lines := [⟨channel, text⟩] }

theorem printLine_relabel (channel : Channel) (ids : Nat → Nat) (q : Request) :
    printLine channel (q.relabel ids) = (printLine channel q).relabel ids := by
  simp [printLine, Request.answer, Request.relabel, Reply.relabel, Value.relabel, Except.map]

def unknown (q : Request) : Reply := q.refuse (.runtime (q.name ++ " is unknown"))

def consoleReply (q : Request) : Reply :=
  match q.name with
  | "console.log" => printLine .out q
  | "console.error" => printLine .err q
  | _ => unknown q

/-- A host whose natives print their arguments. -/
def console : Host where
  call := consoleReply
  impartial ids q _ _ := by
    unfold consoleReply
    rw [Request.name_relabel]
    split
    · exact printLine_relabel .out ids q
    · exact printLine_relabel .err ids q
    · rfl

/-- Makes the natives of the console known to programs. -/
def installConsole : Eval Unit := do
  let log ← Eval.newNative "console.log"
  let error ← Eval.newNative "console.error"
  let console ← Eval.newRecord [("log", log), ("error", error)]
  Eval.define Expr.hostName (← Eval.newRecord [("console", console)])

end Offside.Host
