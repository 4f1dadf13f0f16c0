import MethodLift.Text.Number
import MethodLift.Text.Printable

/-!
# Quoted text

A text between double quotes, in which quotes, backslashes and characters without a picture are
written as escapes.
-/

namespace MethodLift.Text

/-- How a character is written inside quotes. -/
def escaped (c : Char) : String :=
  match c with
  | '\x00' => "\\0"
  | '\t' => "\\t"
  | '\n' => "\\n"
  | '\r' => "\\r"
  | '"' => "\\\""
  | '\\' => "\\\\"
  | c =>
    if isPrintable c then String.ofList [c] else "\\u\x7b" ++ hex c.toNat ++ "\x7d"

def quoted (text : String) : String := "\"" ++ String.join (text.toList.map escaped) ++ "\""

end MethodLift.Text
