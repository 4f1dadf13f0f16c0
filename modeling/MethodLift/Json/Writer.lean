import MethodLift.Json.Basic
import MethodLift.Text.Number

/-!
# Writing JSON

Compact text without any space, and text laid out over lines with an indent of two spaces. In a
string the quote, the backslash and control characters are escaped, and nothing else.
-/

namespace MethodLift.Json

open MethodLift.Text

/-- A character of a string as it is written. -/
def escapedChar (c : Char) : String :=
  if c = '"' then "\\\""
  else if c = '\\' then "\\\\"
  else if c = '\n' then "\\n"
  else if c = '\r' then "\\r"
  else if c = '\t' then "\\t"
  else if c = '\x08' then "\\b"
  else if c = '\x0c' then "\\f"
  else if c.toNat < 0x20 then "\\u" ++ zeroPad 4 (hex c.toNat)
  else c.toString

def quotedText (text : String) : String :=
  "\"" ++ String.join (text.toList.map escapedChar) ++ "\""

mutual

/-- The text without spaces. -/
def compact : Json → String
  | null => "null"
  | bool b => if b then "true" else "false"
  | number literal => literal
  | string text => quotedText text
  | array items => "[" ++ ",".intercalate (compactItems items) ++ "]"
  | object members => "\x7b" ++ ",".intercalate (compactMembers members) ++ "\x7d"

def compactItems : List Json → List String
  | [] => []
  | v :: vs => v.compact :: compactItems vs

def compactMembers : List (String × Json) → List String
  | [] => []
  | (k, v) :: rest => (quotedText k ++ ":" ++ v.compact) :: compactMembers rest

end

/-- The lines of an array or object between its brackets; an empty one stays on one line. -/
def block (left right : String) (indent : String) : List String → String
  | [] => left ++ right
  | lines =>
    let inner := "\n" ++ indent ++ "  "
    left ++ inner ++ ("," ++ inner).intercalate lines ++ "\n" ++ indent ++ right

mutual

/-- The text over lines, the first of which is already indented. -/
def prettyFrom (indent : String) : Json → String
  | array items => block "[" "]" indent (prettyItems (indent ++ "  ") items)
  | object members => block "\x7b" "\x7d" indent (prettyMembers (indent ++ "  ") members)
  | null => "null"
  | bool b => if b then "true" else "false"
  | number literal => literal
  | string text => quotedText text

def prettyItems (indent : String) : List Json → List String
  | [] => []
  | v :: vs => prettyFrom indent v :: prettyItems indent vs

def prettyMembers (indent : String) : List (String × Json) → List String
  | [] => []
  | (k, v) :: rest =>
    (quotedText k ++ ": " ++ prettyFrom indent v) :: prettyMembers indent rest

end

/-- The text over lines. -/
def pretty (v : Json) : String := prettyFrom "" v

end MethodLift.Json
