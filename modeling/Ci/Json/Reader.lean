-- Reading JSON text. The text holds one value with nothing but blanks around
-- it. The reader keeps the open containers on a stack, so text may be nested as
-- deep as it likes, but a container beyond the limit is unreadable.
import Ci.Json.Number

namespace Ci.Json

/-! ## Blanks and words -/

/-- A blank between tokens. -/
def isBlank (c : Char) : Bool := c == ' ' || c == '\n' || c == '\t' || c == '\r'

/-- The text from the first character that is not blank. -/
def skipBlanks (cs : List Char) : List Char := cs.dropWhile isBlank

/-- The word of a constant value, and what follows it. -/
def word? : List Char → Option (Json × List Char)
  | 'n' :: 'u' :: 'l' :: 'l' :: rest => some (.null, rest)
  | 't' :: 'r' :: 'u' :: 'e' :: rest => some (.bool true, rest)
  | 'f' :: 'a' :: 'l' :: 's' :: 'e' :: rest => some (.bool false, rest)
  | _ => none

/-! ## Texts -/

/-- A piece of a text between quotes. -/
inductive Piece where
  | char (c : Char)
  /-- A unit of 16 bits, written as a numeric escape. -/
  | unit (n : Nat)
deriving DecidableEq, Repr

/-- The value of a hexadecimal digit. -/
def hexDigit? (c : Char) : Option Nat :=
  if '0' ≤ c ∧ c ≤ '9' then some (c.toNat - '0'.toNat)
  else if 'a' ≤ c ∧ c ≤ 'f' then some (c.toNat - 'a'.toNat + 10)
  else if 'A' ≤ c ∧ c ≤ 'F' then some (c.toNat - 'A'.toNat + 10)
  else none

/-- The value of four hexadecimal digits. -/
def hexUnit? (a b c d : Char) : Option Nat := do
  return (((← hexDigit? a) * 16 + (← hexDigit? b)) * 16 + (← hexDigit? c)) * 16 + (← hexDigit? d)

/-- The character that a backslash and a letter stand for. -/
def escape? : Char → Option Char
  | '"' => some '"'
  | '\\' => some '\\'
  | '/' => some '/'
  | 'b' => some '\x08'
  | 'f' => some '\x0c'
  | 'n' => some '\n'
  | 'r' => some '\r'
  | 't' => some '\t'
  | _ => none

/-- The pieces of a text up to its closing quote, after those already read, and what follows
it. -/
def pieces? (before : List Piece) : List Char → Option (List Piece × List Char)
  | [] => none
  | '"' :: rest => some (before.reverse, rest)
  | '\\' :: 'u' :: a :: b :: c :: d :: rest =>
    match hexUnit? a b c d with
    | some n => pieces? (.unit n :: before) rest
    | none => none
  | '\\' :: c :: rest =>
    match escape? c with
    | some c => pieces? (.char c :: before) rest
    | none => none
  | c :: rest =>
    if c.toNat < 0x20 || c == '\\' then none else pieces? (.char c :: before) rest

/-- The unit is the first of a pair. -/
def isLead (n : Nat) : Bool := 0xD800 ≤ n && n < 0xDC00

/-- The unit is the second of a pair. -/
def isTrail (n : Nat) : Bool := 0xDC00 ≤ n && n < 0xE000

/-- The character of a pair of units. -/
def paired (lead trail : Nat) : Char :=
  Char.ofNat (0x10000 + (lead - 0xD800) * 0x400 + (trail - 0xDC00))

/-- The text that pieces stand for, after the characters already found. A character beyond the
first plane is a pair of units, and no unit of a pair stands alone. -/
def joined? (before : List Char) : List Piece → Option String
  | [] => some (String.ofList before.reverse)
  | .char c :: rest => joined? (c :: before) rest
  | .unit lead :: .unit trail :: rest =>
    if isLead lead then
      if isTrail trail then joined? (paired lead trail :: before) rest else none
    else if isTrail lead then none
    else joined? (Char.ofNat lead :: before) (.unit trail :: rest)
  | .unit n :: rest =>
    if isLead n || isTrail n then none else joined? (Char.ofNat n :: before) rest

/-- A text after its opening quote, unless it stands for nothing, and what follows it. -/
def text? (cs : List Char) : Option (Option String × List Char) :=
  (pieces? [] cs).map fun (pieces, rest) => (joined? [] pieces, rest)

/-- The name of a field with its colon, and what follows it. -/
def fieldName? (cs : List Char) : Option (Option String × List Char) :=
  match skipBlanks cs with
  | '"' :: rest => do
    let (name, rest) ← text? rest
    match skipBlanks rest with
    | ':' :: rest => some (name, rest)
    | _ => none
  | _ => none

/-! ## Open containers -/

/-- A container that is still open, with what it holds so far, the last first. -/
inductive Open where
  | array (items : List Json)
  /-- The value of the field `name` is still to come. -/
  | object (fields : List (Option String × Json)) (name : Option String)

/-- An object, unless a name in it stands for nothing. -/
def ofFields (fields : List (Option String × Json)) : Json :=
  match fields.mapM fun (name, j) => name.map fun s => (s, j) with
  | some fields => .object fields
  | none => .unreadable

/-- How far a text has been read. -/
structure Progress where
  /-- The number of open containers. -/
  depth : Nat
  /-- The open containers, the innermost first. -/
  stack : List Open
  /-- The value that has just been read. There is none when a value is due. -/
  value : Option Json
  rest : List Char

namespace Progress

/-- A container has been opened. -/
def opened (p : Progress) (c : Open) (rest : List Char) : Progress :=
  ⟨p.depth + 1, c :: p.stack, none, rest⟩

/-- A value without parts has been read. -/
def read (p : Progress) (j : Json) (rest : List Char) : Progress :=
  { p with value := some j, rest }

/-- A container inside `depth` others has been closed. -/
def closed (limit depth : Nat) (stack : List Open) (j : Json) (rest : List Char) : Progress :=
  ⟨depth, stack, some (if depth < limit then j else .unreadable), rest⟩

/-- Reads a value, or opens a container and goes to its first value. -/
def start? (limit : Nat) (p : Progress) : Option Progress :=
  match skipBlanks p.rest with
  | [] => none
  | c :: rest =>
    if c == '[' then
      match skipBlanks rest with
      | ']' :: rest => some (closed limit p.depth p.stack (.array []) rest)
      | rest => some (p.opened (.array []) rest)
    else if c == '\x7b' then
      match skipBlanks rest with
      | '\x7d' :: rest => some (closed limit p.depth p.stack (.object []) rest)
      | rest => (fieldName? rest).map fun (name, rest) => p.opened (.object [] name) rest
    else if c == '"' then
      (text? rest).map fun (s, rest) => p.read (s.elim .unreadable .string) rest
    else if c == '-' || isDigit c then
      (number? (c :: rest)).map fun (j, rest) => p.read j rest
    else (word? (c :: rest)).map fun (j, rest) => p.read j rest

/-- Adds a value to the innermost container, and goes to its next value or closes it. -/
def add? (limit depth : Nat) (stack : List Open) (j : Json) (cs : List Char) :
    Open → Option Progress
  | .array items =>
    match skipBlanks cs with
    | ',' :: rest => some ⟨depth + 1, .array (j :: items) :: stack, none, rest⟩
    | ']' :: rest => some (closed limit depth stack (.array (j :: items).reverse) rest)
    | _ => none
  | .object fields name =>
    match skipBlanks cs with
    | ',' :: rest => (fieldName? rest).map fun (next, rest) =>
      ⟨depth + 1, .object ((name, j) :: fields) next :: stack, none, rest⟩
    | '\x7d' :: rest =>
      some (closed limit depth stack (ofFields ((name, j) :: fields).reverse) rest)
    | _ => none

/-- The value of the whole text. The first argument bounds the steps. -/
def run? (limit : Nat) : Nat → Progress → Option Json
  | 0, _ => none
  | n + 1, p =>
    match p.value, p.stack with
    | none, _ =>
      match p.start? limit with
      | some p => run? limit n p
      | none => none
    | some j, [] => if (skipBlanks p.rest).isEmpty then some j else none
    | some j, c :: stack =>
      match add? limit (p.depth - 1) stack j p.rest c with
      | some p => run? limit n p
      | none => none

end Progress

/-- The value written in a text. At most `limit` containers inside each other are readable.
Every step takes a character, so there are no more steps than characters. -/
def read? (limit : Nat) (text : String) : Option Json :=
  let cs := text.toList
  Progress.run? limit (cs.length + 1) ⟨0, [], none, cs⟩

end Ci.Json
