/-
StagedQuery/Condensation.lean

The reverse pass: a backend query is condensed into the smallest surface query
that expands to it again.

What expansion would infer from position is left out.  Supplemental inputs are
not carried over at all, since expansion finds them again in the bodies; every
dataset that occurs stays declared, whether or not a stage still names it.  A
stage gets an alias where a later stage refers to it by a name that is not the
id it will get, and an explicit input where its primary input is not the one
its place implies.

A query is refused unless its stage ids differ, its output is its last stage,
every stage has an input, some input is a dataset, and no dataset's name is given
to a second dataset or to a stage.
-/
import StagedQuery.Backend
import StagedQuery.Fault
import StagedQuery.StageId
import StagedQuery.Surface
import StagedQuery.Text.Mention

namespace StagedQuery

open Backend

/-! ### The shape of a stored query -/

/-- The first id that an earlier stage had already, given the ids so far. -/
def repeatedId? (seen : List String) : List Stage → Option String
  | [] => none
  | stage :: rest =>
    if stage.id ∈ seen then some stage.id else repeatedId? (stage.id :: seen) rest

/-- The position of a stage by its id. -/
def stagePosition? (stages : List Stage) (id : String) : Option Nat :=
  stages.findIdx? fun stage => stage.id = id

/-- The position of the first stage without inputs. -/
def inputlessStage? (stages : List Stage) : Option Nat :=
  stages.findIdx? fun stage => stage.inputs.isEmpty

/-- The inputs of all stages, in stage and then list order. -/
def allInputs (stages : List Stage) : List Input :=
  stages.flatMap (·.inputs)

/-! ### Declared inputs -/

/-- Declare the datasets among inputs; a name must not stand for two. -/
def declareDatasets (declared : Inputs) : List Input → Except Fault Inputs
  | [] => .ok declared
  | input :: rest =>
    match input.datasetId with
    | none => declareDatasets declared rest
    | some id =>
      match declared.get? input.name with
      | none => declareDatasets (declared.insert input.name id) rest
      | some bound =>
        if bound = id then declareDatasets declared rest else .error (.nameTaken input.name)

/-- The first input for a stage whose name is that of a dataset. -/
def sharedName? (declared : Inputs) (inputs : List Input) : Option String :=
  (inputs.find? fun input => input.stageId.isSome && declared.contains input.name).map (·.name)

/-- The datasets among the inputs of all stages, by name. -/
def datasetsOf (stages : List Stage) : Except Fault Inputs :=
  match declareDatasets .empty (allInputs stages) with
  | .error fault => .error fault
  | .ok declared =>
    match sharedName? declared (allInputs stages) with
    | some name => .error (.nameTaken name)
    | none => .ok declared

/-! ### Aliases -/

/-- The id of an earlier stage and the name by which an input of the stage at
`position` refers to it, where that name is not the id expansion would give. -/
def aliasUse? (stages : List Stage) (position : Nat) (input : Input) :
    Option (String × String) :=
  match input.stageId with
  | none => none
  | some id =>
    match stagePosition? stages id with
    | none => none
    | some earlier =>
      if earlier < position ∧ input.name ≠ stageId earlier then some (id, input.name) else none

/-- All such references, in stage and then list order. -/
def aliasUses (stages : List Stage) : List (String × String) :=
  stages.zipIdx.flatMap fun (stage, position) =>
    stage.inputs.filterMap (aliasUse? stages position)

/-- Keep a reference as the alias of its stage, unless the stage has an alias or
the name is one. -/
def keepAlias (kept : List (String × String)) (use : String × String) :
    List (String × String) :=
  if kept.any fun earlier => earlier.1 = use.1 || earlier.2 = use.2 then kept
  else kept ++ [use]

/-- The aliases of the stages: stage id and alias, each at most once. -/
def aliasesOf (stages : List Stage) : List (String × String) :=
  (aliasUses stages).foldl keepAlias []

/-- The alias of a stage. -/
def aliasOf? (aliases : List (String × String)) (id : String) : Option String :=
  (aliases.find? fun entry => entry.1 = id).map (·.2)

/-! ### Implied inputs -/

/-- Whether an input is the output of `previous`, by its id or its alias.  One
without a target counts by its name alone. -/
def continuesFrom (primary : Input) (previous : Stage) (previousAlias : Option String) : Bool :=
  primary.datasetId.isNone &&
    (primary.stageId.isNone || primary.stageId = some previous.id) &&
    (primary.name = previous.id || previousAlias = some primary.name)

/-- Whether the first stage starts from the only declared input. -/
def isOnlyInput (declared : Inputs) (primary : Input) : Bool :=
  declared.size = 1 && primary.datasetId.isSome && declared.contains primary.name

/-- Whether dropping the name of a primary input leaves the inputs of a stage as
they are.  Expansion will call it by the id `generated`; if it has another name
now, a body that mentions either name would get an input more or less. -/
def isRenamable (primary : Input) (body generated : String) : Bool :=
  primary.name = generated ||
    !(Text.mentions body primary.name || Text.mentions body generated)

/-- Whether the place of a stage implies its primary input: the stage before it,
with its position, or the declared inputs for the first stage. -/
def isImplied (declared : Inputs) (aliases : List (String × String))
    (before : Option (Stage × Nat)) (primary : Input) (body : String) : Bool :=
  match before with
  | none => isOnlyInput declared primary
  | some (previous, position) =>
    continuesFrom primary previous (aliasOf? aliases previous.id) &&
      isRenamable primary body (stageId position)

/-! ### The whole query -/

/-- Condense one stage, given the stage before it with its position. -/
def condenseStage (declared : Inputs) (aliases : List (String × String))
    (before : Option (Stage × Nat)) (stage : Stage) : Surface.Stage where
  aliasName := aliasOf? aliases stage.id
  inputName :=
    match stage.primary? with
    | none => none
    | some primary =>
      if isImplied declared aliases before primary stage.pipeline then none
      else some primary.name
  pipeline := stage.pipeline

/-- Condense stages from a position on. -/
def condenseFrom (declared : Inputs) (aliases : List (String × String))
    (before : Option (Stage × Nat)) (position : Nat) : List Stage → List Surface.Stage
  | [] => []
  | stage :: rest =>
    condenseStage declared aliases before stage ::
      condenseFrom declared aliases (some (stage, position)) (position + 1) rest

namespace Backend.Query

/-- What is wrong with the stages and the output, leaving names aside. -/
def shapeFault? (query : Query) : Option Fault :=
  match query.stages.getLast? with
  | none => some .noStages
  | some last =>
    match repeatedId? [] query.stages with
    | some id => some (.repeatedStage id)
    | none =>
      if query.output ≠ last.id then some (.outputNotLast query.output last.id)
      else (inputlessStage? query.stages).map .noInput

/-- The surface form of a query. -/
def condense (query : Query) : Except Fault Surface.Query :=
  match query.shapeFault? with
  | some fault => .error fault
  | none =>
    match datasetsOf query.stages with
    | .error fault => .error fault
    | .ok declared =>
      if declared.isEmpty then .error .noInputs
      else .ok ⟨declared, condenseFrom declared (aliasesOf query.stages) none 0 query.stages⟩

end Backend.Query

end StagedQuery
