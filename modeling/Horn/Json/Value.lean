/-
JSON values and their compact text.  Whole numbers are kept apart from floats,
because a place for a small code accepts only the former.
-/
import Horn.Number.Layout
import Horn.Text.Quoted

namespace Horn

inductive Json
  | null
  | bool (value : Bool)
  | whole (value : Int)
  | real (value : Float)
  | string (text : String)
  | array (items : List Json)
  | object (members : List (String × Json))

namespace Json

/-- A hexadecimal number of at least four digits. -/
def fourDigits (n : Nat) : String :=
  let digits := Nat.toDigits 16 n
  zeros (4 - digits.length) ++ String.ofList digits

/-- One character of a JSON string.  Only quotes, backslashes and control
characters are escaped. -/
def escapeChar (c : Char) : String :=
  match c with
  | '"' => "\\\""
  | '\\' => "\\\\"
  | '\x08' => "\\b"
  | '\t' => "\\t"
  | '\n' => "\\n"
  | '\x0c' => "\\f"
  | '\r' => "\\r"
  | c => if c.toNat < 0x20 then "\\u" ++ fourDigits c.toNat else c.toString

def renderString (text : String) : String :=
  "\"" ++ String.join (text.toList.map escapeChar) ++ "\""

mutual

/-- Compact text, with members in the order in which they are held. -/
def render : Json → String
  | .null => "null"
  | .bool value => if value then "true" else "false"
  | .whole value => toString value
  | .real value => Layout.json.write value
  | .string text => renderString text
  | .array [] => "[]"
  | .array (first :: more) => "[" ++ first.render ++ renderItems more ++ "]"
  | .object [] => "\x7b\x7d"
  | .object ((name, value) :: more) =>
      "\x7b" ++ renderString name ++ ":" ++ value.render ++ renderMembers more ++ "\x7d"

/-- Further items, each after a comma. -/
def renderItems : List Json → String
  | [] => ""
  | item :: more => "," ++ item.render ++ renderItems more

/-- Further members, each after a comma. -/
def renderMembers : List (String × Json) → String
  | [] => ""
  | (name, value) :: more =>
      "," ++ renderString name ++ ":" ++ value.render ++ renderMembers more

end

end Json

end Horn
