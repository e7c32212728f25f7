-- JSON values. A number is an integer or a double. The fields of an object keep
-- the order in which they stand, and a name may stand twice: what that means is
-- for the reader of the object to say. Text can be well formed and yet stand for
-- no value. That does no harm where nobody asks for the value, so it has a place
-- among the values.
import Ci.Double.Rounding

namespace Ci

/-- A JSON value. -/
inductive Json where
  | null
  | bool (b : Bool)
  | integer (n : Int)
  | double (x : Double)
  | string (s : String)
  | array (items : List Json)
  | object (fields : List (String × Json))
  /-- Well-formed text that stands for nothing: half a character, a number beyond all
  doubles, or a container nested too deep. -/
  | unreadable

namespace Json

mutual

/-- No part of the value is unreadable. -/
def isReadable : Json → Bool
  | .array items => itemsReadable items
  | .object fields => fieldsReadable fields
  | .unreadable => false
  | _ => true

/-- No part of the items is unreadable. -/
def itemsReadable : List Json → Bool
  | [] => true
  | j :: rest => j.isReadable && itemsReadable rest

/-- No part of the fields is unreadable. -/
def fieldsReadable : List (String × Json) → Bool
  | [] => true
  | (_, j) :: rest => j.isReadable && fieldsReadable rest

end

/-! ## Plain values -/

/-- The value as a truth value. -/
def toBool? : Json → Option Bool
  | .bool b => some b
  | _ => none

/-- The value as a text. -/
def toString? : Json → Option String
  | .string s => some s
  | _ => none

/-- The value as a signed 64-bit word. -/
def toInt64? : Json → Option Int64
  | .integer n =>
    if Int64.minValue.toInt ≤ n ∧ n ≤ Int64.maxValue.toInt then some (Int64.ofInt n) else none
  | _ => none

/-- The value as an unsigned 32-bit word. -/
def toUInt32? : Json → Option UInt32
  | .integer n => if 0 ≤ n ∧ n < 4294967296 then some (UInt32.ofNat n.toNat) else none
  | _ => none

/-- The value as a double. An integer stands for the double nearest to it. -/
def toDouble? : Json → Option Double
  | .integer n => some (Double.ofInt n)
  | .double x => some x
  | _ => none

/-- The value as a list of things. -/
def toList? {α : Type} (item : Json → Option α) : Json → Option (List α)
  | .array items => items.mapM item
  | _ => none

/-- The value as a thing that may be missing. -/
def toOption? {α : Type} (item : Json → Option α) : Json → Option (Option α)
  | .null => some none
  | j => (item j).map some

/-! ## Records -/

/-- The fields of a record, found by their names. -/
structure Fields where
  /-- The record was written as a plain list of its fields, in order. -/
  listed : Bool
  fields : List (String × Json)

/-- No name of the first list stands twice among the fields. -/
def unrepeated (names : List String) (fields : List (String × Json)) : Bool :=
  names.all fun name => (fields.filter fun f => f.1 == name).length ≤ 1

/-- The value as a record with the given fields. It is an object, in which other fields do
not matter, or a list with one value for each field, in order, from which the last fields may
be missing. -/
def toRecord? (names : List String) : Json → Option Fields
  | .object fields => if unrepeated names fields then some ⟨false, fields⟩ else none
  | .array items => if items.length ≤ names.length then some ⟨true, names.zip items⟩ else none
  | _ => none

namespace Fields

/-- The value of a field. -/
def get? (r : Fields) (name : String) : Option Json := r.fields.lookup name

/-- A field that has to be there. -/
def required {α : Type} (r : Fields) (name : String) (value : Json → Option α) : Option α :=
  r.get? name >>= value

/-- A field that may be missing and then has a default value. -/
def defaulted {α : Type} (r : Fields) (name : String) (default : α) (value : Json → Option α) :
    Option α :=
  match r.get? name with
  | none => some default
  | some j => value j

/-- A field that may be null. In an object it may be left out, in a list it may not. -/
def nullable {α : Type} (r : Fields) (name : String) (value : Json → Option α) :
    Option (Option α) :=
  match r.get? name with
  | none => if r.listed then none else some none
  | some j => toOption? value j

end Fields

/-! ## Variants -/

/-- How the fields of a variant may be written. A plain record may always be a list. -/
inductive Layout where
  /-- As an object. -/
  | named
  /-- As an object, or as a list in which they stand in order. -/
  | listed
deriving DecidableEq, Repr

/-- The value as a named variant. A text is a variant without content, and an object with one
field is a variant whose content is the value of the field. -/
def toVariant? : Json → Option (String × Option Json)
  | .string name => some (name, none)
  | .object [(name, content)] => some (name, some content)
  | _ => none

/-- The content of a variant as a record with the given fields. -/
def toContent? (layout : Layout) (names : List String) (content : Json) : Option Fields :=
  match layout, content with
  | .named, .array _ => none
  | _, _ => content.toRecord? names

/-- The content of a variant that has nothing to say: there is none, or it is null. -/
def isBare : Option Json → Bool
  | none => true
  | some .null => true
  | some _ => false

/-- One of the named values, written as a variant without content. -/
def toName? {α : Type} (all : List α) (name : α → String) (j : Json) : Option α := do
  let (given, content) ← j.toVariant?
  if isBare content then all.find? fun a => name a == given else none

/-- A variant with content. -/
def variant (name : String) (content : Json) : Json := .object [(name, content)]

/-- A thing that may be missing. -/
def ofOption {α : Type} (item : α → Json) : Option α → Json
  | none => .null
  | some a => item a

/-- A list of things. -/
def ofList {α : Type} (item : α → Json) (items : List α) : Json := .array (items.map item)

end Json

end Ci
