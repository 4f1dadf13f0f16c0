import MethodLift.Json.Basic
import MethodLift.Text.Number

/-!
# Reading JSON

The grammar is followed to the letter: blanks are the four the format names, numbers have no leading
zero or plus sign, control characters in a string must be escaped, and escaped surrogates must form
pairs. Each reader takes characters off the front and hands back the rest. The number of characters
bounds the depth of the recursion.
-/

namespace MethodLift.Json

open MethodLift.Text

def skipBlanks (cs : List Char) : List Char :=
  cs.dropWhile fun c => c == ' ' || c == '\n' || c == '\t' || c == '\r'

/-! ## Numbers -/

def isDigit (c : Char) : Bool := '0' ≤ c && c ≤ '9'

/-- At least one digit. -/
def readDigitRun (cs : List Char) : Option (List Char × List Char) :=
  match cs.takeWhile isDigit with
  | [] => none
  | ds => some (ds, cs.dropWhile isDigit)

/-- The digits before the point: one zero, or digits that start with none. -/
def readWhole : List Char → Option (List Char × List Char)
  | '0' :: rest => some (['0'], rest)
  | cs => readDigitRun cs

def readFraction : List Char → Option (List Char × List Char)
  | '.' :: rest => (readDigitRun rest).map fun (ds, rest) => ('.' :: ds, rest)
  | cs => some ([], cs)

/-- The sign of an exponent. -/
def readSign : List Char → List Char × List Char
  | '+' :: rest => (['+'], rest)
  | '-' :: rest => (['-'], rest)
  | cs => ([], cs)

def readExponent : List Char → Option (List Char × List Char)
  | c :: rest =>
    if c = 'e' || c = 'E' then
      let (sign, rest) := readSign rest
      (readDigitRun rest).map fun (ds, rest) => (c :: sign ++ ds, rest)
    else some ([], c :: rest)
  | [] => some ([], [])

def readUnsigned (cs : List Char) : Option (List Char × List Char) := do
  let (whole, cs) ← readWhole cs
  let (fraction, cs) ← readFraction cs
  let (exponent, cs) ← readExponent cs
  return (whole ++ fraction ++ exponent, cs)

def readNumber : List Char → Option (List Char × List Char)
  | '-' :: rest => (readUnsigned rest).map fun (ds, rest) => ('-' :: ds, rest)
  | cs => readUnsigned cs

/-! ## Strings -/

/-- Four hexadecimal digits. -/
def readUnit : List Char → Option (Nat × List Char)
  | a :: b :: c :: d :: rest => (readDigits 16 [a, b, c, d]).map fun n => (n, rest)
  | _ => none

/-- The second half of a surrogate pair. -/
def readLowHalf (high : Nat) : List Char → Option (Char × List Char)
  | '\\' :: 'u' :: rest => do
    let (low, rest) ← readUnit rest
    if 0xDC00 ≤ low ∧ low < 0xE000 then
      some (Char.ofNat (0x10000 + (high - 0xD800) * 0x400 + (low - 0xDC00)), rest)
    else none
  | _ => none

/-- The character that an escape stands for, after the backslash. -/
def readEscape : List Char → Option (Char × List Char)
  | '"' :: rest => some ('"', rest)
  | '\\' :: rest => some ('\\', rest)
  | '/' :: rest => some ('/', rest)
  | 'b' :: rest => some ('\x08', rest)
  | 'f' :: rest => some ('\x0c', rest)
  | 'n' :: rest => some ('\n', rest)
  | 'r' :: rest => some ('\r', rest)
  | 't' :: rest => some ('\t', rest)
  | 'u' :: rest => do
    let (unit, rest) ← readUnit rest
    if 0xD800 ≤ unit ∧ unit < 0xDC00 then readLowHalf unit rest
    else if 0xDC00 ≤ unit ∧ unit < 0xE000 then none
    else some (Char.ofNat unit, rest)
  | _ => none

/-- The characters up to the closing quote; `seen` holds those before, the last one first. -/
def readStringFrom : Nat → List Char → List Char → Option (String × List Char)
  | 0, _, _ => none
  | _ + 1, _, [] => none
  | fuel + 1, seen, c :: rest =>
    if c = '"' then some (String.ofList seen.reverse, rest)
    else if c = '\\' then
      match readEscape rest with
      | some (e, rest) => readStringFrom fuel (e :: seen) rest
      | none => none
    else if c.toNat < 0x20 then none
    else readStringFrom fuel (c :: seen) rest

/-- A string after its opening quote. -/
def readString (cs : List Char) : Option (String × List Char) :=
  readStringFrom (cs.length + 1) [] cs

/-! ## Values -/

/-- A fixed word. -/
def readWord (word : List Char) (v : Json) (cs : List Char) : Option (Json × List Char) :=
  if word.isPrefixOf cs then some (v, cs.drop word.length) else none

/-- What follows an item: another one after a comma, or the end. -/
inductive Continuation where
  | next
  | close
  deriving DecidableEq, Repr

def readContinuation (right : Char) (cs : List Char) : Option (Continuation × List Char) :=
  match skipBlanks cs with
  | c :: rest =>
    if c = ',' then some (.next, rest) else if c = right then some (.close, rest) else none
  | [] => none

/-- Items of an array; `value` reads one. -/
def readItems (value : List Char → Option (Json × List Char)) :
    Nat → List Json → List Char → Option (List Json × List Char)
  | 0, _, _ => none
  | fuel + 1, seen, cs => do
    let (v, cs) ← value cs
    let (more, cs) ← readContinuation ']' cs
    match more with
    | .next => readItems value fuel (v :: seen) cs
    | .close => some ((v :: seen).reverse, cs)

/-- A key with its colon. -/
def readKey (cs : List Char) : Option (String × List Char) :=
  match skipBlanks cs with
  | '"' :: rest => do
    let (key, rest) ← readString rest
    match skipBlanks rest with
    | ':' :: rest => some (key, rest)
    | _ => none
  | _ => none

/-- Members of an object; `value` reads the value of one. -/
def readMembers (value : List Char → Option (Json × List Char)) :
    Nat → List (String × Json) → List Char → Option (List (String × Json) × List Char)
  | 0, _, _ => none
  | fuel + 1, seen, cs => do
    let (key, cs) ← readKey cs
    let (v, cs) ← value cs
    let (more, cs) ← readContinuation '\x7d' cs
    match more with
    | .next => readMembers value fuel ((key, v) :: seen) cs
    | .close => some (((key, v) :: seen).reverse, cs)

/-- A value nested at most `depth` deep. -/
def readValue : Nat → List Char → Option (Json × List Char)
  | 0, _ => none
  | depth + 1, cs =>
    match skipBlanks cs with
    | [] => none
    | c :: rest =>
      if c = 'n' then readWord "ull".toList null rest
      else if c = 't' then readWord "rue".toList (bool true) rest
      else if c = 'f' then readWord "alse".toList (bool false) rest
      else if c = '"' then (readString rest).map fun (text, rest) => (string text, rest)
      else if c = '[' then
        match skipBlanks rest with
        | ']' :: rest => some (array [], rest)
        | rest =>
          (readItems (readValue depth) (rest.length + 1) [] rest).map
            fun (items, rest) => (array items, rest)
      else if c = '\x7b' then
        match skipBlanks rest with
        | '\x7d' :: rest => some (object [], rest)
        | rest =>
          (readMembers (readValue depth) (rest.length + 1) [] rest).map
            fun (members, rest) => (object members, rest)
      else (readNumber (c :: rest)).map fun (ds, rest) => (number (String.ofList ds), rest)

/-- The value a text holds, with nothing but blanks around it. -/
def read? (text : String) : Option Json :=
  let cs := text.toList
  match readValue (cs.length + 1) cs with
  | some (v, rest) => if (skipBlanks rest).isEmpty then some v else none
  | none => none

end MethodLift.Json
