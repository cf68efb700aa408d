/-
StagedQuery/Cli/Arguments.lean

The arguments of the command line.

A command comes first, and only general flags before it.  What may stand behind
it depends on the command: flags, of which none may come twice; one option, whose
value follows it or is joined to it; and for one command an operand.  Flags of a
letter can be put together behind one dash, the option being the last of them.
Two dashes alone make everything behind them an operand.

Arguments are read from left to right.  The first wrong one settles that the
line is wrong, and a flag that asks for help or for the version settles that
before anything behind it is looked at.
-/
import StagedQuery.Text.Stem

namespace StagedQuery.Cli

/-- What the command line can ask for. -/
inductive Command where
  /-- Expand the text given, or the standard input. -/
  | compile (text : Option String) (pretty : Bool)
  /-- Condense the text given, or the standard input. -/
  | decompile (text : Option String) (pretty : Bool)
  /-- Check the text given, or the standard input. -/
  | validate (text : Option String)
  /-- List the topics of the manual. -/
  | topics
  /-- Show a topic of the manual. -/
  | topic (name : String)
  /-- Show the version. -/
  | version
  /-- Show how the commands are used. -/
  | help
  deriving DecidableEq, Repr

/-- A flag, or the option. -/
inductive Flag where
  /-- Say more about what is done. -/
  | verbose
  /-- Ask for help. -/
  | help
  /-- Ask for the version. -/
  | version
  /-- Write with blanks. -/
  | pretty
  /-- The option that gives the text to work on. -/
  | input
  deriving DecidableEq, Repr

namespace Flag

/-- The flag of a letter. -/
def ofLetter? : Char → Option Flag
  | 'v' => some verbose
  | 'h' => some help
  | 'V' => some version
  | 'p' => some pretty
  | 'i' => some input
  | _ => none

/-- The flag of a word. -/
def ofWord? : String → Option Flag
  | "verbose" => some verbose
  | "help" => some help
  | "version" => some version
  | "pretty" => some pretty
  | "input" => some input
  | _ => none

end Flag

/-! ### Single arguments -/

/-- The form of an argument. -/
inductive Argument where
  /-- Two dashes and nothing else. -/
  | divider
  /-- A word behind two dashes, with what is joined to it by an equals sign. -/
  | word (name : String) (joined : Option String)
  /-- Letters behind one dash. -/
  | letters (letters : List Char)
  /-- Anything else, a lone dash included. -/
  | operand (text : String)
  deriving DecidableEq, Repr

/-- Cut a text at the first equals sign. -/
def cutAtEquals (cs : List Char) : String × Option String :=
  match cs.dropWhile (· ≠ '=') with
  | [] => (String.ofList cs, none)
  | _ :: joined => (String.ofList (cs.takeWhile (· ≠ '=')), some (String.ofList joined))

/-- The form of an argument. -/
def Argument.ofText (text : String) : Argument :=
  match text.toList with
  | ['-', '-'] => .divider
  | '-' :: '-' :: cs =>
    let (name, joined) := cutAtEquals cs
    .word name joined
  | ['-'] => .operand text
  | '-' :: cs => .letters cs
  | _ => .operand text

/-! ### A level of the command line -/

/-- What was given at a level. -/
structure Given where
  /-- The flags. -/
  flags : List Flag := []
  /-- The value of the option. -/
  input : Option String := none
  /-- The operand. -/
  operand : Option String := none

/-- Why the arguments are not read to the end. -/
inductive Halt where
  /-- An argument is wrong. -/
  | misuse
  /-- Help is asked for. -/
  | help
  /-- The version is asked for. -/
  | version
  deriving DecidableEq, Repr

/-- What a level accepts. -/
structure Level where
  /-- Its flags. -/
  flags : List Flag
  /-- Whether it takes an operand. -/
  operand : Bool := false

namespace Level

/-- Take a flag. -/
def takeFlag (level : Level) (given : Given) (flag : Flag) : Except Halt Given :=
  if flag ∉ level.flags then .error .misuse
  else
    match flag with
    | .help => .error .help
    | .version => .error .version
    | .input => .error .misuse
    | flag =>
      if flag ∈ given.flags then .error .misuse
      else .ok { given with flags := flag :: given.flags }

/-- Take the option with its value. -/
def takeInput (level : Level) (given : Given) (value : String) : Except Halt Given :=
  if .input ∉ level.flags ∨ given.input.isSome then .error .misuse
  else .ok { given with input := some value }

/-- Take an operand. -/
def takeOperand (level : Level) (given : Given) (text : String) : Except Halt Given :=
  if level.operand ∧ given.operand.isNone then .ok { given with operand := some text }
  else .error .misuse

/-- Take letters put together; beside what is given then, whether the value of the
option is still to come. -/
def takeLetters (level : Level) (given : Given) : List Char → Except Halt (Given × Bool)
  | [] => .ok (given, false)
  | letter :: rest =>
    match Flag.ofLetter? letter with
    | none => .error .misuse
    | some .input =>
      match rest with
      | [] => .ok (given, true)
      | '=' :: value => (level.takeInput given (String.ofList value)).map (·, false)
      | value => (level.takeInput given (String.ofList value)).map (·, false)
    | some flag =>
      match level.takeFlag given flag with
      | .error halt => .error halt
      | .ok given => level.takeLetters given rest

/-- Take a word; beside what is given then, whether the value of the option is
still to come. -/
def takeWord (level : Level) (given : Given) (name : String) (joined : Option String) :
    Except Halt (Given × Bool) :=
  match Flag.ofWord? name, joined with
  | none, _ => .error .misuse
  | some .input, some value => (level.takeInput given value).map (·, false)
  | some .input, none => .ok (given, true)
  | some _, some _ => .error .misuse
  | some flag, none => (level.takeFlag given flag).map (·, false)

/-- Take a flag or several, or the option. -/
def takeDashed (level : Level) (given : Given) : Argument → Except Halt (Given × Bool)
  | .word name joined => level.takeWord given name joined
  | .letters letters => level.takeLetters given letters
  | .divider | .operand _ => .ok (given, false)

/-- Take all that is left as operands. -/
def takeOperands (level : Level) (given : Given) : List String → Except Halt Given
  | [] => .ok given
  | text :: rest =>
    match level.takeOperand given text with
    | .error halt => .error halt
    | .ok given => level.takeOperands given rest

/-- Take all arguments of a level. -/
def take (level : Level) (given : Given) : List String → Except Halt Given
  | [] => .ok given
  | text :: rest =>
    match Argument.ofText text with
    | .divider => level.takeOperands given rest
    | .operand text =>
      match level.takeOperand given text with
      | .error halt => .error halt
      | .ok given => level.take given rest
    | dashed =>
      match level.takeDashed given dashed with
      | .error halt => .error halt
      | .ok (given, false) => level.take given rest
      | .ok (given, true) =>
        -- the value of the option must not look like a flag
        match rest with
        | [] => .error .misuse
        | value :: rest =>
          match Argument.ofText value with
          | .operand value =>
            match level.takeInput given value with
            | .error halt => .error halt
            | .ok given => level.take given rest
          | _ => .error .misuse

end Level

/-! ### The whole line -/

/-- What may stand before the command. -/
def general : Level where
  flags := [.verbose, .help, .version]

/-- What a command that converts accepts. -/
def converting : Level where
  flags := [.verbose, .help, .pretty, .input]

/-- What the command that checks accepts. -/
def checking : Level where
  flags := [.verbose, .help, .input]

/-- What a command that takes nothing accepts. -/
def bare : Level where
  flags := [.verbose, .help]

/-- What a command on a topic accepts. -/
def naming : Level where
  flags := [.verbose, .help]
  operand := true

/-- The names of the commands. -/
def commandNames : List String :=
  ["compile", "decompile", "validate", "docs", "doc", "help"]

/-- What a command asks for with the arguments behind it. -/
def readCommand (name : String) (arguments : List String) : Except Halt Command :=
  match name with
  | "compile" => do
    let given ← converting.take {} arguments
    return .compile given.input (.pretty ∈ given.flags)
  | "decompile" => do
    let given ← converting.take {} arguments
    return .decompile given.input (.pretty ∈ given.flags)
  | "validate" => do
    let given ← checking.take {} arguments
    return .validate given.input
  | "docs" => do
    let _ ← bare.take {} arguments
    return .topics
  | "doc" => do
    let given ← naming.take {} arguments
    match given.operand with
    | some name => return .topic name
    | none => throw .misuse
  | "help" =>
    match arguments with
    | [] => .ok .help
    | [name] => if name ∈ commandNames then .ok .help else .error .misuse
    | _ => .error .misuse
  | _ => .error .misuse

/-- What a whole line asks for, general flags given before the command included. -/
def readLine (given : Given) : List String → Except Halt Command
  | [] => .error .misuse
  | text :: rest =>
    match Argument.ofText text with
    | .operand name => readCommand name rest
    | .divider => .error .misuse
    | dashed =>
      match general.takeDashed given dashed with
      | .error halt => .error halt
      | .ok (_, true) => .error .misuse
      | .ok (given, false) => readLine given rest

/-- The command that a line asks for; nothing if the line is wrong. -/
def Command.ofArguments? (arguments : List String) : Option Command :=
  match readLine {} arguments with
  | .ok command => some command
  | .error .help => some .help
  | .error .version => some .version
  | .error .misuse => none

end StagedQuery.Cli
