-- The program that the command line starts.
import Ci.Command

open Ci

/-- The text of a file that can be read. -/
def readInput (path : String) : IO (Option String) := do
  try
    return some (← IO.FS.readFile path)
  catch _ => return none

/-- Writes a file, and tells whether it could be written. -/
def writeOutput (path text : String) : IO Bool := do
  try
    IO.FS.writeFile path text
    return true
  catch _ => return false

/-- Prints what a command leaves behind. -/
def exitWith (o : Command.Outcome) : IO UInt32 := do
  IO.print o.output
  IO.eprint o.errors
  return o.exit.toUInt32

/-- Runs the command line. -/
def main (args : List String) : IO UInt32 := do
  match Command.read? args with
  | none => exitWith .misused
  | some command =>
    let text ← match command.input? with
      | some path => readInput path
      | none => pure none
    match command.plan text with
    | .finish o => exitWith o
    | .save path text => exitWith (Command.saved path (← writeOutput path text))
