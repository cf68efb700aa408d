/-
StagedQuery/Fault.lean

What can be wrong with a query.  Every fault is one of configuration: none is
transient, and a pass that meets one hands out no partial query.  A fault is a
cause with the data that identifies it; its wording is in one place,
`Fault.message`.  Names stand raw between the quotes of a message.
-/

namespace StagedQuery

/-- The causes for which a query is refused, by either pass. -/
inductive Fault where
  /-- No input is declared, or no input of a stored query is a dataset. -/
  | noInputs
  /-- There is no stage. -/
  | noStages
  /-- The body of the stage at this position is blank. -/
  | blankBody (position : Nat)
  /-- The explicit input of the stage at this position names nothing visible there. -/
  | unknownInput (position : Nat) (name : String)
  /-- The stage at this position names no input and none follows from its place. -/
  | noInput (position : Nat)
  /-- A declared reference is not one to a dataset. -/
  | badReference (name reference : String)
  /-- A declared reference is blank. -/
  | blankReference (name : String)
  /-- A name has another target already. -/
  | nameTaken (name : String)
  /-- A declared name has the form of a stage id. -/
  | reservedName (name : String)
  /-- The output of a stored query is not its last stage. -/
  | outputNotLast (output last : String)
  /-- Two stages of a stored query have one id. -/
  | repeatedStage (id : String)
  deriving DecidableEq, Repr

namespace Fault

private def quoted (s : String) : String :=
  "\"" ++ s ++ "\""

private def atStage (position : Nat) : String :=
  "stage " ++ toString position ++ ": "

private def ofInput (name : String) : String :=
  "input " ++ quoted name ++ ": "

/-- The wording of a fault. -/
def message : Fault → String
  | noInputs => "at least one input must be declared"
  | noStages => "at least one stage must be declared"
  | blankBody position => atStage position ++ "pipeline must not be empty"
  | unknownInput position name =>
    atStage position ++ "input " ++ quoted name ++
      " does not match any declared input, earlier stage or alias"
  | noInput position => atStage position ++ "no input declared and none can be inferred"
  | badReference name reference =>
    ofInput name ++ quoted reference ++ " is not a valid dataset reference"
  | blankReference name => ofInput name ++ "dataset reference is empty"
  | nameTaken name => "name " ++ quoted name ++ " is already bound to a different input"
  | reservedName name =>
    ofInput name ++ "names of the form stage-<n> are reserved for stage ids"
  | outputNotLast output last =>
    "output stage " ++ quoted output ++ " is not the last stage " ++ quoted last
  | repeatedStage id => "stage id " ++ quoted id ++ " is used by more than one stage"

end Fault

end StagedQuery
