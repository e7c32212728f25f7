-- What can be wrong with a program, the words for it, and the report that tools
-- read.
import Ci.Json.Value

namespace Ci

/-- What is wrong with a program. -/
inductive Fault where
  | symbolNotFound (name : String)
  | baseClassNotFound (name : String)
  | circularInheritance (name : String)
  | circularConstant (name : String)
  | duplicateSymbol (name : String)
  | typeMismatch (expected got : String)
  | invalidType (reason : String)
  | integerTooBig
  | expectedNonNegativeInteger
  | expectedConstant
  | rangeMinGreaterThanMax (min max : Int64)
  | moduloByZero
  | divisionByZero
  | indexNotInt32
  | argumentCountMismatch (expected got : Nat)
  | invalidExpression (reason : String)
  | invalidStatement (reason : String)
deriving DecidableEq, Repr

namespace Fault

/-- The fault in words. -/
def message : Fault → String
  | symbolNotFound name => name ++ " not found"
  | baseClassNotFound name => "Base class " ++ name ++ " not found"
  | circularInheritance name => "Circular inheritance for class " ++ name
  | circularConstant name => "Circular dependency in value of constant " ++ name
  | duplicateSymbol name => "Duplicate symbol " ++ name
  | typeMismatch expected got => "Expected " ++ expected ++ ", got " ++ got
  | invalidType reason => "Invalid type: " ++ reason
  | integerTooBig => "Integer too big"
  | expectedNonNegativeInteger => "Expected non-negative integer"
  | expectedConstant => "Expected constant value"
  | rangeMinGreaterThanMax min max =>
    "Range min " ++ toString min.toInt ++ " greater than max " ++ toString max.toInt
  | moduloByZero => "Modulo by zero"
  | divisionByZero => "Division by zero"
  | indexNotInt32 => "Index is not 32-bit"
  | argumentCountMismatch expected got =>
    "Expected " ++ toString expected ++ " arguments, got " ++ toString got
  | invalidExpression reason => "Invalid expression: " ++ reason
  | invalidStatement reason => "Invalid statement: " ++ reason

/-- The stable code of the kind of fault. -/
def code : Fault → String
  | symbolNotFound _ => "E0001"
  | baseClassNotFound _ => "E0002"
  | circularInheritance _ => "E0003"
  | circularConstant _ => "E0004"
  | duplicateSymbol _ => "E0005"
  | typeMismatch _ _ => "E0100"
  | invalidType _ => "E0101"
  | integerTooBig => "E0102"
  | expectedNonNegativeInteger => "E0103"
  | expectedConstant => "E0104"
  | rangeMinGreaterThanMax _ _ => "E0105"
  | moduloByZero => "E0200"
  | divisionByZero => "E0201"
  | indexNotInt32 => "E0202"
  | argumentCountMismatch _ _ => "E0203"
  | invalidExpression _ => "E0204"
  | invalidStatement _ => "E0205"

end Fault

/-- A fault and the place in the source where it was found. -/
structure Diagnostic where
  file : String
  line : UInt32
  fault : Fault
deriving DecidableEq, Repr

namespace Diagnostic

/-- The place and the fault in words. -/
def text (d : Diagnostic) : String :=
  d.file ++ ":" ++ toString d.line.toNat ++ ": " ++ d.fault.message

/-- The place, unless the line is zero, which is no line of a file. -/
def location (d : Diagnostic) : Json :=
  if d.line = 0 then .null
  else .object [("file", .string d.file), ("line", .integer d.line.toNat)]

/-- The report for tools. -/
def report (d : Diagnostic) : Json :=
  .object [("code", .string d.fault.code), ("severity", .string "Error"),
    ("message", .string d.fault.message), ("location", d.location)]

end Diagnostic

end Ci
