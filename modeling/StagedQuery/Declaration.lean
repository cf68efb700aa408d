/-
StagedQuery/Declaration.lean

From declared inputs to the scope that the first stage sees.

The declarations are taken in the order of their names.  A name must not have
the form of a stage id, its reference must not be blank, and the validator must
accept it; the name is then bound to the dataset whose bare id the validator
gave.  The first declaration that fails decides the fault, and the validator is
asked about no later one: `declare` also answers which references it was asked
about, in order.
-/
import StagedQuery.Dataset
import StagedQuery.Inputs
import StagedQuery.Scope
import StagedQuery.StageId

namespace StagedQuery

/-- Bind declared inputs one after the other; beside the outcome, the references
that the validator was asked about. -/
def declareEntries (validate : Validator) (scope : Scope) :
    List (String × String) → Except Fault Scope × List String
  | [] => (.ok scope, [])
  | (name, reference) :: rest =>
    if StageId.hasForm name then (.error (.reservedName name), [])
    else if Text.allBlank reference then (.error (.blankReference name), [])
    else
      match validate reference with
      | none => (.error (.badReference name reference), [reference])
      | some id =>
        match scope.bind (.dataset name id) with
        | .error fault => (.error fault, [reference])
        | .ok scope =>
          let (outcome, asked) := declareEntries validate scope rest
          (outcome, reference :: asked)

/-- The scope of the declared inputs, and the references asked about.  At least
one input must be declared. -/
def Inputs.declare (inputs : Inputs) (validate : Validator) :
    Except Fault Scope × List String :=
  if inputs.isEmpty then (.error .noInputs, [])
  else declareEntries validate .empty inputs.entries

/-- The scope of the declared inputs. -/
def Inputs.scope (inputs : Inputs) (validate : Validator) : Except Fault Scope :=
  (inputs.declare validate).1

/-- The references the validator is asked about, in order. -/
def Inputs.asked (inputs : Inputs) (validate : Validator) : List String :=
  (inputs.declare validate).2

end StagedQuery
