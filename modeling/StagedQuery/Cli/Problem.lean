/-
StagedQuery/Cli/Problem.lean

What can keep a command from doing its work, with the wording shown for it and,
where there is one, the wording of the cause underneath.
-/
import StagedQuery.Fault
import StagedQuery.Json.Fault

namespace StagedQuery.Cli

/-- Why a command fails. -/
inductive Problem where
  /-- The query is refused. -/
  | configuration (fault : StagedQuery.Fault)
  /-- The text is no query. -/
  | json (fault : Json.Fault)
  /-- Reading the text failed. -/
  | io (reason : String)
  /-- There is no text to read. -/
  | noInput
  /-- No topic has this name. -/
  | unknownTopic (name : String)
  deriving DecidableEq, Repr

namespace Problem

/-- The wording of the cause, where there is one underneath. -/
def cause? : Problem → Option String
  | configuration fault => some fault.message
  | json fault => some fault.message
  | io reason => some reason
  | noInput => none
  | unknownTopic _ => none

/-- The wording of a problem. -/
def message : Problem → String
  | configuration fault => "Invalid configuration: " ++ fault.message
  | json fault => "Invalid JSON: " ++ fault.message
  | io reason => "IO error: " ++ reason
  | noInput => "No input provided. Use --input or pipe JSON to stdin."
  | unknownTopic name =>
    "Unknown topic: '" ++ name ++ "'\nRun 'stageline docs' to see available topics."

end Problem

end StagedQuery.Cli
