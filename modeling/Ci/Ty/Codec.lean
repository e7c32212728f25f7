-- The JSON form of handles, intervals and types.
import Ci.Json.Value
import Ci.Ty.Basic

namespace Ci

/-! ## Going down into a value -/

namespace Json

/-- The content of a variant is smaller than the variant. -/
theorem sizeOf_content_lt {j c : Json} {name : String} (h : j.toVariant? = some (name, some c)) :
    sizeOf c < sizeOf j := by
  unfold toVariant? at h
  split at h
  · simp at h
  · simp only [Option.some.injEq, Prod.mk.injEq] at h
    obtain ⟨rfl, rfl⟩ := h
    simp +arith
  · simp at h

/-- What stands under a name in a list of fields is smaller than the list. -/
theorem sizeOf_lookup_lt {fields : List (String × Json)} {name : String} {v : Json}
    (h : fields.lookup name = some v) : sizeOf v < sizeOf fields := by
  induction fields with
  | nil => simp at h
  | cons f rest ih =>
    obtain ⟨n, w⟩ := f
    simp only [List.lookup_cons] at h
    split at h
    · simp only [Option.some.injEq] at h
      subst h
      simp +arith
    · have := ih h
      simp +arith
      omega

/-- Pairing items with names makes them no larger than their list and the names. -/
theorem sizeOf_zip_lookup_lt {names : List String} {items : List Json} {name : String} {v : Json}
    (h : (names.zip items).lookup name = some v) : sizeOf v < sizeOf items := by
  induction names generalizing items with
  | nil => simp at h
  | cons n names ih =>
    cases items with
    | nil => simp at h
    | cons w items =>
      simp only [List.zip_cons_cons, List.lookup_cons] at h
      split at h
      · simp only [Option.some.injEq] at h
        subst h
        simp +arith
      · have := ih h
        simp +arith
        omega

/-- A field of a record is smaller than the record. -/
theorem sizeOf_field_lt {names : List String} {c v : Json} {r : Fields} {name : String}
    (hr : c.toRecord? names = some r) (hv : r.get? name = some v) : sizeOf v < sizeOf c := by
  unfold toRecord? at hr
  unfold Fields.get? at hv
  split at hr
  · split at hr
    · simp only [Option.some.injEq] at hr
      subst hr
      dsimp only at hv
      have := sizeOf_lookup_lt hv
      simp +arith
      omega
    · simp at hr
  · split at hr
    · simp only [Option.some.injEq] at hr
      subst hr
      dsimp only at hv
      have := sizeOf_zip_lookup_lt hv
      simp +arith
      omega
    · simp at hr
  · simp at hr

/-- A field of the content of a variant is smaller than the content. -/
theorem sizeOf_contentField_lt {layout : Layout} {names : List String} {c v : Json} {r : Fields}
    {name : String} (hr : c.toContent? layout names = some r) (hv : r.get? name = some v) :
    sizeOf v < sizeOf c := by
  unfold toContent? at hr
  split at hr
  · simp at hr
  · exact sizeOf_field_lt hr hv

end Json

/-! ## Handles and intervals -/

namespace Handle

/-- The JSON form: the number of the slot. -/
def toJson {k : Kind} (h : Handle k) : Json := .integer h.index.toNat

def ofJson? {k : Kind} (j : Json) : Option (Handle k) := j.toUInt32?.map Handle.mk

end Handle

namespace Interval

def toJson (i : Interval) : Json :=
  .object [("min", .integer i.min.toInt), ("max", .integer i.max.toInt)]

def ofJson? (j : Json) : Option Interval := do
  let r ← j.toRecord? ["min", "max"]
  return ⟨← r.required "min" Json.toInt64?, ← r.required "max" Json.toInt64?⟩

end Interval

/-! ## Types -/

namespace IntWidth

def all : List IntWidth := [int32, int64]

def name : IntWidth → String
  | int32 => "Int32"
  | int64 => "Int64"

end IntWidth

namespace FloatWidth

def all : List FloatWidth := [single, double]

def name : FloatWidth → String
  | single => "Float"
  | double => "Double"

end FloatWidth

namespace Ty

/-- The types without content, by name. -/
def plain : List (String × Ty) :=
  [("Void", .void), ("Null", .null), ("Bool", .bool), ("Char", .char),
    ("StringPointer", .stringPointer), ("StringStorage", .stringStorage)]

def toJson : Ty → Json
  | .void => .string "Void"
  | .null => .string "Null"
  | .bool => .string "Bool"
  | .char => .string "Char"
  | .integer w => .variant "Integer" (.string w.name)
  | .floating w => .variant "Floating" (.string w.name)
  | .range i => .variant "Range" i.toJson
  | .stringPointer => .string "StringPointer"
  | .stringStorage => .string "StringStorage"
  | .arrayPointer t writable =>
    .variant "ArrayPointer" (.object [("element", t.toJson), ("mutable", .bool writable)])
  | .arrayStorage t n =>
    .variant "ArrayStorage" (.object [("element", t.toJson), ("length", .integer n.toNat)])
  | .classPointer c writable =>
    .variant "ClassPointer" (.object [("class", c.toJson), ("mutable", .bool writable)])
  | .classStorage c => .variant "ClassStorage" c.toJson
  | .enumeration e => .variant "Enum" e.toJson

/-- A type with content other than a type, by the name of its form. -/
def flat? (layout : Json.Layout) (name : String) (c : Json) : Option Ty :=
  match name with
  | "Integer" => (c.toName? IntWidth.all IntWidth.name).map .integer
  | "Floating" => (c.toName? FloatWidth.all FloatWidth.name).map .floating
  | "Range" => (Interval.ofJson? c).map .range
  | "ClassPointer" => do
    let r ← c.toContent? layout ["class", "mutable"]
    return .classPointer (← r.required "class" Handle.ofJson?) (← r.required "mutable" Json.toBool?)
  | "ClassStorage" => (Handle.ofJson? c).map .classStorage
  | "Enum" => (Handle.ofJson? c).map .enumeration
  | _ => none

def ofJson? (layout : Json.Layout) (j : Json) : Option Ty :=
  match _hj : j.toVariant? with
  | none => none
  | some (name, none) => plain.lookup name
  | some (name, some c) =>
    if name = "ArrayPointer" then
      match _hr : c.toContent? layout ["element", "mutable"] with
      | none => none
      | some r =>
        match _he : r.get? "element" with
        | none => none
        | some e => do
          return .arrayPointer (← ofJson? layout e) (← r.required "mutable" Json.toBool?)
    else if name = "ArrayStorage" then
      match _hr : c.toContent? layout ["element", "length"] with
      | none => none
      | some r =>
        match _he : r.get? "element" with
        | none => none
        | some e => do
          return .arrayStorage (← ofJson? layout e) (← r.required "length" Json.toUInt32?)
    else if Json.isBare (some c) then plain.lookup name
    else flat? layout name c
termination_by sizeOf j
decreasing_by
  · have := Json.sizeOf_content_lt _hj
    have := Json.sizeOf_contentField_lt _hr _he
    omega
  · have := Json.sizeOf_content_lt _hj
    have := Json.sizeOf_contentField_lt _hr _he
    omega

end Ty

end Ci
