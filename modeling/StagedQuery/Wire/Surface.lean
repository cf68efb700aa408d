/-
StagedQuery/Wire/Surface.lean

Surface queries as JSON.  Every field may be left out when it is read.  When it
is written, a stage's alias and input appear only where it has them, everything
else always.
-/
import StagedQuery.Json.Layout
import StagedQuery.Json.Record
import StagedQuery.Surface

namespace StagedQuery

open Json

/-! ### Reading -/

/-- Declared inputs: of a name declared more than once, the last reference. -/
def Inputs.reader : Reader Inputs := fun tree =>
  (Reader.mapping Reader.text tree).map Inputs.ofList

namespace Surface

/-- The fields of a stage. -/
def Stage.fields : List (RecordField Stage) :=
  [.of "alias" false (Reader.optional Reader.text) fun aliasName stage =>
     { stage with aliasName },
   .of "input" false (Reader.optional Reader.text) fun inputName stage =>
     { stage with inputName },
   .of "pipeline" false Reader.text fun pipeline stage => { stage with pipeline }]

/-- A stage. -/
def Stage.reader : Reader Stage :=
  .record Stage.fields {}

/-- The fields of a query. -/
def Query.fields : List (RecordField Query) :=
  [.of "inputs" false Inputs.reader fun inputs query => { query with inputs },
   .of "stages" false (Reader.list Stage.reader) fun stages query => { query with stages }]

/-- A query. -/
def Query.reader : Reader Query :=
  .record Query.fields {}

end Surface

/-! ### Writing -/

/-- A member that is written only where there is a value. -/
def optionalMember (name : String) : Option String → List (String × Doc)
  | none => []
  | some value => [(name, .text value)]

/-- Declared inputs, by name. -/
def Inputs.toDoc (inputs : Inputs) : Doc :=
  .record (inputs.entries.map fun entry => (entry.1, .text entry.2))

namespace Surface

/-- A stage. -/
def Stage.toDoc (stage : Stage) : Doc :=
  .record (optionalMember "alias" stage.aliasName ++ optionalMember "input" stage.inputName ++
    [("pipeline", .text stage.pipeline)])

/-- A query. -/
def Query.toDoc (query : Query) : Doc :=
  .record [("inputs", query.inputs.toDoc), ("stages", .list (query.stages.map Stage.toDoc))]

/-- A query as a text. -/
def Query.render (query : Query) (layout : Layout) : String :=
  query.toDoc.render layout

/-- The query that a text holds. -/
def Query.ofText (text : String) : Except Json.Fault Query :=
  Query.reader.run text

end Surface

end StagedQuery
