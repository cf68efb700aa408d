/-
StagedQuery/Surface.lean

The surface form of a query: what its author writes.  Stages chain by position,
so a stage names an input only where it does not continue from the stage before
it, and may carry an alias for later stages to refer to.

The form is built up from its parts: `Stage.ofBody` with `withAlias` and
`withInput`, and `Query.declare` and `Query.append` on a query so far.
-/
import StagedQuery.Inputs

namespace StagedQuery.Surface

/-- One stage as its author writes it. -/
structure Stage where
  /-- The name under which later stages may refer to this stage. -/
  aliasName : Option String := none
  /-- The input the stage starts from, where it names one. -/
  inputName : Option String := none
  /-- The opaque body. -/
  pipeline : String := ""
  deriving DecidableEq, Inhabited

/-- A query as its author writes it; the order of the stages counts. -/
structure Query where
  /-- The declared inputs. -/
  inputs : Inputs := .empty
  /-- The stages, in the order they run. -/
  stages : List Stage := []
  deriving DecidableEq, Inhabited

/-- A stage that has a body and nothing else. -/
def Stage.ofBody (pipeline : String) : Stage :=
  { pipeline }

/-- The stage under an alias. -/
def Stage.withAlias (stage : Stage) (name : String) : Stage :=
  { stage with aliasName := some name }

/-- The stage started from a named input. -/
def Stage.withInput (stage : Stage) (name : String) : Stage :=
  { stage with inputName := some name }

/-- The query with an input declared, in place of any earlier one of that name. -/
def Query.declare (query : Query) (name reference : String) : Query :=
  { query with inputs := query.inputs.insert name reference }

/-- The query with a stage after its last. -/
def Query.append (query : Query) (stage : Stage) : Query :=
  { query with stages := query.stages ++ [stage] }

end StagedQuery.Surface
