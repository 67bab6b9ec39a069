/-
Writing JSON, on one line and without blanks. In a string only quotes, backslashes and control
characters are escaped.
-/
import GraphPatterns.Json.Basic
import GraphPatterns.Text.Quoted

namespace GraphPatterns.Json

/-- A character inside a string. -/
def escape (c : Char) : List Char :=
  match c with
  | '"' => ['\\', '"']
  | '\\' => ['\\', '\\']
  | '\x08' => ['\\', 'b']
  | '\x0c' => ['\\', 'f']
  | '\n' => ['\\', 'n']
  | '\r' => ['\\', 'r']
  | '\t' => ['\\', 't']
  | _ =>
    if c.toNat < 16 then ['\\', 'u', '0', '0', '0'] ++ Text.hexadecimal c.toNat
    else if c.toNat < 32 then ['\\', 'u', '0', '0'] ++ Text.hexadecimal c.toNat
    else [c]

/-- A string between quotes. -/
def renderString (s : String) : String :=
  String.ofList (['"'] ++ s.toList.flatMap escape ++ ['"'])

/-- A number as it was written. -/
def renderNumeral (n : Numeral) : String :=
  let sign := if n.negative then ['-'] else []
  let fraction := if n.fraction.isEmpty then [] else '.' :: n.fraction
  let power :=
    match n.exponent with
    | none => []
    | some (negative, digits) => (if negative then ['e', '-'] else ['e']) ++ digits
  String.ofList (sign ++ n.whole ++ fraction ++ power)

mutual

def render : Json → String
  | .null => "null"
  | .bool true => "true"
  | .bool false => "false"
  | .number n => renderNumeral n
  | .string s => renderString (s.getD "")
  | .array items => "[" ++ ",".intercalate (renderItems items) ++ "]"
  | .object fields => "\x7b" ++ ",".intercalate (renderFields fields) ++ "\x7d"

def renderItems : List Json → List String
  | [] => []
  | item :: rest => render item :: renderItems rest

def renderFields : List (Option String × Json) → List String
  | [] => []
  | (name, value) :: rest =>
    (renderString (name.getD "") ++ ":" ++ render value) :: renderFields rest

end

end GraphPatterns.Json
