-- The command line. A command line is read into a command, and a command and the
-- text of its input give what to print, what to write, and the exit code. Reading
-- and writing files is left to the caller.
import Ci.Json.Reader
import Ci.Json.Writer
import Ci.Program.Codec
import Ci.Resolve.Run
import Ci.Summary

namespace Ci

/-- What the command line asks for. -/
inductive Command where
  /-- Tell the version. -/
  | version
  /-- Resolve a program, and report the first fault. -/
  | check (input : String) (json : Bool)
  /-- Resolve a program, and write it with its types. -/
  | dump (input : String) (output : Option String)
deriving DecidableEq, Repr

namespace Command

/-! ## Reading the command line -/

/-- The arguments of a command that have been read so far. -/
structure Arguments where
  input : Option String
  json : Bool
  output : Option String
deriving DecidableEq, Repr

namespace Arguments

/-- Nothing has been read. -/
def none : Arguments := ⟨.none, false, .none⟩

/-- Adds the input, which is named once. -/
def addInput? (a : Arguments) (path : String) : Option Arguments :=
  if a.input.isNone && !path.isEmpty then some { a with input := some path } else .none

/-- Adds the output, which is named once. -/
def addOutput? (a : Arguments) (path : String) : Option Arguments :=
  if a.output.isNone && !path.isEmpty then some { a with output := some path } else .none

/-- Adds the wish for a report, which is made once. -/
def addJson? (a : Arguments) : Option Arguments :=
  if a.json then .none else some { a with json := true }

end Arguments

/-- The argument starts like an option. A single hyphen is a path. -/
def looksLikeOption (arg : String) : Bool := arg.startsWith "-" && arg != "-"

/-- The path that is written into an option. -/
def attached? (arg : String) : Option String :=
  if arg.startsWith "--output=" then some (String.ofList (arg.toList.drop 9))
  else if arg.startsWith "-o=" then some (String.ofList (arg.toList.drop 3))
  else if arg.startsWith "-o" && arg != "-o" then some (String.ofList (arg.toList.drop 2))
  else none

/-- Reads arguments after the one that ends the options. -/
def readPaths? : Arguments → List String → Option Arguments
  | a, [] => some a
  | a, arg :: rest => do readPaths? (← a.addInput? arg) rest

/-- Reads the arguments of `check`. -/
def readCheck? : Arguments → List String → Option Arguments
  | a, [] => some a
  | a, arg :: rest => do
    if arg = "--" then readPaths? a rest
    else if arg = "--json" then readCheck? (← a.addJson?) rest
    else if looksLikeOption arg then none
    else readCheck? (← a.addInput? arg) rest

/-- Reads the arguments of `dump`. -/
def readDump? : Arguments → List String → Option Arguments
  | a, [] => some a
  | a, [arg] => do
    if arg = "--" then some a
    else match attached? arg with
      | some path => a.addOutput? path
      | none => if looksLikeOption arg then none else a.addInput? arg
  | a, arg :: value :: rest => do
    if arg = "--" then readPaths? a (value :: rest)
    else if arg = "-o" ∨ arg = "--output" then
      if looksLikeOption value then none else readDump? (← a.addOutput? value) rest
    else match attached? arg with
      | some path => readDump? (← a.addOutput? path) (value :: rest)
      | none =>
        if looksLikeOption arg then none else readDump? (← a.addInput? arg) (value :: rest)

/-- Reads a command line. -/
def read? : List String → Option Command
  | "--version" :: _ => some version
  | "-V" :: _ => some version
  | "check" :: rest => do
    let a ← readCheck? .none rest
    return check (← a.input) a.json
  | "dump" :: rest => do
    let a ← readDump? .none rest
    return dump (← a.input) a.output
  | _ => none

/-! ## Carrying out a command -/

/-- What a command leaves behind. -/
structure Outcome where
  exit : UInt8
  output : String
  errors : String
deriving DecidableEq, Repr

namespace Outcome

/-- All went well. -/
def done (output : String) : Outcome := ⟨0, output, ""⟩

/-- Something in the world or in the program is wrong. -/
def failed (errors : String) : Outcome := ⟨1, "", errors⟩

/-- The command line makes no sense. -/
def misused : Outcome := ⟨2, "", "usage: ci-resolve check INPUT [--json]\n" ++
  "       ci-resolve dump INPUT [--output FILE]\n"⟩

/-- The handles of the program make no sense. -/
def crashed : Outcome := ⟨101, "", "broken handles\n"⟩

end Outcome

/-- What is left to do. -/
inductive Plan where
  /-- Print, and exit. -/
  | finish (o : Outcome)
  /-- Write a file, then print whether it was written, and exit. -/
  | save (path text : String)
deriving DecidableEq, Repr

/-- How deep the containers of an input may be nested where they are asked for. -/
def maxDepth : Nat := 127

/-- Reads a program. -/
def load? (text : String) : Option Program :=
  Json.read? maxDepth text >>= Program.ofJson? .listed

/-- What follows when a program cannot be resolved. -/
def aborted (json : Bool) : Abort → Outcome
  | .broken _ => .crashed
  | .fault d =>
    if json then ⟨1, d.report.pretty ++ "\n", ""⟩ else .failed ("error: " ++ d.text ++ "\n")

/-- Resolves a program, and reports the first fault. -/
def runCheck (json : Bool) (p : Program) : Outcome :=
  let r := p.resolve
  match r.abort with
  | some a => aborted json a
  | none =>
    if json then
      match r.program.summarize with
      | .ok s => .done (s.toJson.pretty ++ "\n")
      | .error _ => .crashed
    else .done "✅ No errors found\n"

/-- Resolves a program, and writes it with its types. -/
def runDump (output : Option String) (p : Program) : Plan :=
  let r := p.resolve
  match r.abort with
  | some a => .finish (aborted false a)
  | none =>
    let text := r.program.toJson.pretty
    match output with
    | some path => .save path text
    | none => .finish (.done (text ++ "\n"))

/-- What follows when a file has been written, or could not be. -/
def saved (path : String) (written : Bool) : Outcome :=
  if written then .done ("  [✓] Wrote " ++ path ++ "\n")
  else .failed ("Error: writing " ++ path ++ "\n")

/-- Goes on with the program in an input, if the input can be read. -/
def withInput (path : String) (text : Option String) (next : Program → Plan) : Plan :=
  match text with
  | none => .finish (.failed ("Error: reading " ++ path ++ "\n"))
  | some text =>
    match load? text with
    | none => .finish (.failed ("Error: parsing " ++ path ++ "\n"))
    | some p => next p

/-- The file that a command reads. -/
def input? : Command → Option String
  | version => none
  | check input _ => some input
  | dump input _ => some input

/-- What a command does with the text of its input. -/
def plan (text : Option String) : Command → Plan
  | version => .finish (.done "ci-resolve 0.1.0\n")
  | check input json => withInput input text fun p => .finish (runCheck json p)
  | dump input output => withInput input text (runDump output)

end Command

end Ci
