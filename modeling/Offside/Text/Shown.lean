import Offside.Text.Printable

namespace Offside.Text.Shown

def hexDigits (n : Nat) : List Char := Nat.toDigits 16 n

/-- Characters that cannot be printed, or join the one before them, are named by their code point. -/
def escape (c : Char) : List Char :=
  if c = '"' then ['\\', '"']
  else if c = '\\' then ['\\', '\\']
  else if c = '\n' then ['\\', 'n']
  else if c = '\r' then ['\\', 'r']
  else if c = '\t' then ['\\', 't']
  else if c = '\x00' then ['\\', '0']
  else if isPrintable c then [c]
  else ['\\', 'u', '\x7b'] ++ hexDigits c.toNat ++ ['\x7d']

end Offside.Text.Shown

namespace Offside.Text

/-- The quoted form of a text that shows what is in it. -/
def inspect (s : String) : String :=
  String.ofList ('"' :: s.toList.flatMap Shown.escape ++ ['"'])

end Offside.Text
