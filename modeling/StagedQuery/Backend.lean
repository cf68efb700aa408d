/-
StagedQuery/Backend.lean

The backend form of a query: what is stored and run.  Every stage has an id and
lists all its inputs; the first of them is its primary input.  An input is a
name for a dataset or for the output of a stage.

The form is kept as it is stored, so an input may also have neither target, when
it passes a name through, or both; only `Input.dataset` and `Input.ofStage` build
proper references.
-/

namespace StagedQuery.Backend

/-- An input of a stage: a name, with the dataset or the stage behind it. -/
structure Input where
  /-- The name the body uses. -/
  name : String
  /-- The id of the dataset behind the name. -/
  datasetId : Option String := none
  /-- The id of the stage behind the name. -/
  stageId : Option String := none
  deriving DecidableEq, Inhabited

/-- One stage, fully spelled out. -/
structure Stage where
  /-- The id other stages refer to. -/
  id : String
  /-- The opaque body. -/
  pipeline : String
  /-- The inputs, the primary one first. -/
  inputs : List Input
  deriving DecidableEq, Inhabited

/-- A query as it is stored. -/
structure Query where
  /-- The id of the stage whose output is the result. -/
  output : String
  /-- The stages, in the order they run. -/
  stages : List Stage
  deriving DecidableEq, Inhabited

/-- A name for a dataset. -/
def Input.dataset (name id : String) : Input :=
  { name, datasetId := some id }

/-- A name for the output of a stage. -/
def Input.ofStage (name id : String) : Input :=
  { name, stageId := some id }

/-- A name that is passed through without a target. -/
def Input.placeholder (name : String) : Input :=
  { name }

/-- The input a stage starts from. -/
def Stage.primary? (stage : Stage) : Option Input :=
  stage.inputs.head?

end StagedQuery.Backend
