-- The summary of a resolved program: its files, its classes with their bases
-- first, its enumerations, and the number of its global constants.
import Ci.Json.Value
import Ci.Program.Query

namespace Ci

/-- A class in a summary. -/
structure ClassSummary where
  name : String
  base : Option String
  consts : Nat
  fields : Nat
  methods : Nat
deriving DecidableEq, Repr

/-- A summary. -/
structure Summary where
  files : List String
  classes : List ClassSummary
  enums : List String
  globalConsts : Nat
deriving DecidableEq, Repr

namespace Program

/-- The summary of a class. -/
def summarizeClass (p : Program) (c : ClassId) : Query ClassSummary := do
  let d ← p.classes.fetch c
  let base ← d.base.mapM fun b => do return (← p.classes.fetch b).name
  return ⟨d.name, base, d.consts.length, d.fields.length, d.methods.length⟩

/-- The summary of a resolved program. -/
def summarize (p : Program) : Query Summary := do
  let classes ← p.ordered.mapM p.summarizeClass
  return ⟨p.files.toList, classes, p.enums.toList.map (·.name), p.globals.length⟩

end Program

namespace ClassSummary

/-- The JSON form. -/
def toJson (c : ClassSummary) : Json :=
  .object [("name", .string c.name), ("base", Json.ofOption .string c.base),
    ("consts", .integer c.consts), ("fields", .integer c.fields),
    ("methods", .integer c.methods)]

end ClassSummary

namespace Summary

/-- The JSON form. -/
def toJson (s : Summary) : Json :=
  .object [("success", .bool true), ("files", Json.ofList .string s.files),
    ("classes", Json.ofList ClassSummary.toJson s.classes),
    ("enums", Json.ofList .string s.enums), ("global_consts", .integer s.globalConsts)]

end Summary

end Ci
