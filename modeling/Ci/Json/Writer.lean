-- Writing JSON text: on one line, or with one item on each line.
import Ci.Double.Layout
import Ci.Json.Value

namespace Ci.Json

/-! ## Texts and numbers -/

/-- A hexadecimal digit in lower case. -/
def hexChar (n : Nat) : Char := if n < 10 then Char.ofNat (48 + n) else Char.ofNat (87 + n)

/-- A character inside a text. Quotes, backslashes and control characters are escaped. -/
def escaped (c : Char) : String :=
  if c == '"' then "\\\""
  else if c == '\\' then "\\\\"
  else if c == '\x08' then "\\b"
  else if c == '\t' then "\\t"
  else if c == '\n' then "\\n"
  else if c == '\x0c' then "\\f"
  else if c == '\r' then "\\r"
  else if c.toNat < 0x20 then
    "\\u00" ++ (hexChar (c.toNat / 16)).toString ++ (hexChar (c.toNat % 16)).toString
  else c.toString

/-- A text between quotes. -/
def quoted (s : String) : String := s.toList.foldl (fun acc c => acc ++ escaped c) "\"" ++ "\""

/-- A double. What is no finite number has no form in JSON and is written as null. -/
def doubleText (x : Double) : String :=
  if x.isNaN || x.isInfinite then "null" else x.text .json

/-- The text of a value that holds no other value. What is unreadable is written as null, and
containers are left to the writers. -/
def atom : Json → String
  | .bool b => if b then "true" else "false"
  | .integer n => toString n
  | .double x => doubleText x
  | .string s => quoted s
  | _ => "null"

/-! ## On one line -/

mutual

/-- Adds a value to a text, without blanks. -/
def compactOnto (acc : String) : Json → String
  | .array items => compactItems (acc ++ "[") "" items ++ "]"
  | .object fields => compactFields (acc ++ "\x7b") "" fields ++ "\x7d"
  | j => acc ++ atom j

/-- Adds the items of a list, the first after `separator`. -/
def compactItems (acc separator : String) : List Json → String
  | [] => acc
  | j :: rest => compactItems (compactOnto (acc ++ separator) j) "," rest

/-- Adds the fields of an object, the first after `separator`. -/
def compactFields (acc separator : String) : List (String × Json) → String
  | [] => acc
  | (name, j) :: rest =>
    compactFields (compactOnto (acc ++ separator ++ quoted name ++ ":") j) "," rest

end

/-- The text of a value on one line. -/
def compact (j : Json) : String := compactOnto "" j

/-! ## One item on each line -/

/-- A new line with two blanks for each container that is open. -/
def newLine (depth : Nat) : String := "\n" ++ String.ofList (List.replicate (2 * depth) ' ')

mutual

/-- Adds a value to a text, inside `depth` containers. Empty containers stay on their line. -/
def prettyOnto (depth : Nat) (acc : String) : Json → String
  | .array [] => acc ++ "[]"
  | .array items => prettyItems (depth + 1) (acc ++ "[") "" items ++ newLine depth ++ "]"
  | .object [] => acc ++ "\x7b\x7d"
  | .object fields => prettyFields (depth + 1) (acc ++ "\x7b") "" fields ++ newLine depth ++ "\x7d"
  | j => acc ++ atom j

/-- Adds the items of a list, each on its line, the first after `separator`. -/
def prettyItems (depth : Nat) (acc separator : String) : List Json → String
  | [] => acc
  | j :: rest =>
    prettyItems depth (prettyOnto depth (acc ++ separator ++ newLine depth) j) "," rest

/-- Adds the fields of an object, each on its line, the first after `separator`. -/
def prettyFields (depth : Nat) (acc separator : String) : List (String × Json) → String
  | [] => acc
  | (name, j) :: rest =>
    prettyFields depth
      (prettyOnto depth (acc ++ separator ++ newLine depth ++ quoted name ++ ": ") j) "," rest

end

/-- The text of a value with one item or field on each line. -/
def pretty (j : Json) : String := prettyOnto 0 "" j

end Ci.Json
