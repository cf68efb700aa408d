/-
StagedQuery/Wire/Backend.lean

Backend queries as JSON.  All fields must be there when a query is read, but for
the two targets of an input, which are also the only ones that are left out when
it is written.
-/
import StagedQuery.Backend
import StagedQuery.Wire.Surface

namespace StagedQuery.Backend

open Json

/-! ### Reading -/

/-- The fields of an input. -/
def Input.fields : List (RecordField Input) :=
  [.of "inputName" true Reader.text fun name input => { input with name },
   .of "datasetId" false (Reader.optional Reader.text) fun datasetId input =>
     { input with datasetId },
   .of "stageId" false (Reader.optional Reader.text) fun stageId input =>
     { input with stageId }]

/-- An input. -/
def Input.reader : Reader Input :=
  .record Input.fields { name := "" }

/-- The fields of a stage. -/
def Stage.fields : List (RecordField Stage) :=
  [.of "id" true Reader.text fun id stage => { stage with id },
   .of "pipeline" true Reader.text fun pipeline stage => { stage with pipeline },
   .of "input" true (Reader.list Input.reader) fun inputs stage => { stage with inputs }]

/-- A stage. -/
def Stage.reader : Reader Stage :=
  .record Stage.fields ⟨"", "", []⟩

/-- The fields of a query. -/
def Query.fields : List (RecordField Query) :=
  [.of "outputStage" true Reader.text fun output query => { query with output },
   .of "stages" true (Reader.list Stage.reader) fun stages query => { query with stages }]

/-- A query. -/
def Query.reader : Reader Query :=
  .record Query.fields ⟨"", []⟩

/-! ### Writing -/

/-- An input. -/
def Input.toDoc (input : Input) : Doc :=
  .record (("inputName", .text input.name) ::
    (optionalMember "datasetId" input.datasetId ++ optionalMember "stageId" input.stageId))

/-- A stage. -/
def Stage.toDoc (stage : Stage) : Doc :=
  .record [("id", .text stage.id), ("pipeline", .text stage.pipeline),
    ("input", .list (stage.inputs.map Input.toDoc))]

/-- A query. -/
def Query.toDoc (query : Query) : Doc :=
  .record [("outputStage", .text query.output), ("stages", .list (query.stages.map Stage.toDoc))]

/-- A query as a text. -/
def Query.render (query : Query) (layout : Layout) : String :=
  query.toDoc.render layout

/-- The query that a text holds. -/
def Query.ofText (text : String) : Except Json.Fault Query :=
  Query.reader.run text

end StagedQuery.Backend
