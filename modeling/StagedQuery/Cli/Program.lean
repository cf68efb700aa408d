/-
StagedQuery/Cli/Program.lean

The program as a function: from its arguments and its standard input to what it
writes and the code it ends with.  The code is 0 where the command does its work,
1 where a problem keeps it from that, and 2 where the line is wrong.

Standard input is looked at only by a command that works on a text and was not
given one; it must be UTF-8.
-/
import StagedQuery.Cli.Arguments
import StagedQuery.Cli.Conversion
import StagedQuery.Cli.Manual

namespace StagedQuery.Cli

/-- What a run of the program leaves. -/
structure Outcome where
  /-- The code it ends with. -/
  code : UInt32
  /-- What it writes to standard output. -/
  stdout : String := ""
  /-- What it writes to standard error. -/
  stderr : String := ""

/-- The version line. -/
def versionLine : String := "stageline 0.1.0\n"

/-- How the commands are used. -/
def usage : String := Manual.page
  ["Usage: stageline [-v] <COMMAND>",
   "",
   "Commands:",
   "  compile [-p] [-i <JSON>]    Surface JSON -> backend JSON",
   "  decompile [-p] [-i <JSON>]  Backend JSON -> surface JSON",
   "  validate [-i <JSON>]        Check that surface JSON compiles",
   "  docs                        List the topics",
   "  doc <TOPIC>                 Show one topic"]

/-- Whether a command works on the standard input. -/
def Command.readsInput : Command → Bool
  | .compile none _ | .decompile none _ | .validate none => true
  | _ => false

/-- The text a command works on: the one given, or else the standard input, if
there is any. -/
def textOf (given : Option String) (stdin : Option ByteArray) :
    Except Problem (Option String) :=
  match given, stdin with
  | some text, _ => .ok (some text)
  | none, none => .ok none
  | none, some bytes =>
    match String.fromUTF8? bytes with
    | some text => .ok (some text)
    | none => .error (.io "stream did not contain valid UTF-8")

/-- What a command writes. -/
def Command.output (command : Command) (stdin : Option ByteArray) : Except Problem String :=
  match command with
  | .compile text pretty => do return (← Cli.compile (← textOf text stdin) pretty) ++ "\n"
  | .decompile text pretty => do return (← Cli.decompile (← textOf text stdin) pretty) ++ "\n"
  | .validate text => do
    let stages ← Cli.validate (← textOf text stdin)
    return "Configuration is valid (" ++ toString stages ++ " stages)\n"
  | .topics => .ok Manual.overview
  | .topic name => Topic.pageOf name
  | .version => .ok versionLine
  | .help => .ok usage

/-- Run the program. -/
def run (arguments : List String) (stdin : Option ByteArray) : Outcome :=
  match Command.ofArguments? arguments with
  | none => { code := 2, stderr := usage }
  | some command =>
    match command.output stdin with
    | .ok text => { code := 0, stdout := text }
    | .error problem => { code := 1, stderr := problem.message ++ "\n" }

/-- Whether a run looks at the standard input. -/
def readsInput (arguments : List String) : Bool :=
  (Command.ofArguments? arguments).any Command.readsInput

end StagedQuery.Cli
