/-
StagedQuery/Cli/Manual.lean

The manual: an overview of the topics and a page for each.  A topic goes by
several names, in capitals or not.
-/
import StagedQuery.Cli.Problem
import StagedQuery.Text.LowerCase

namespace StagedQuery.Cli

/-- What the manual tells about. -/
inductive Topic where
  /-- Declaring inputs. -/
  | inputs
  /-- The order of stages. -/
  | stages
  /-- Names for stages. -/
  | aliases
  /-- Mentions in a body. -/
  | references
  /-- The backend form. -/
  | backend
  deriving DecidableEq, Repr

namespace Manual

/-- Lines of text, each ended by a line feed. -/
def page (lines : List String) : String :=
  String.join (lines.map (· ++ "\n"))

/-! ### Pages -/

/-- The overview of the topics and commands. -/
def overview : String := page
  ["STAGELINE DOCUMENTATION",
   "",
   "Stageline compiles a declarative multi-stage pipeline configuration into the",
   "fully explicit form the backend stores, and reconstructs the declarative form",
   "from a stored query.",
   "",
   "TOPICS",
   "",
   "  inputs        Declaring named dataset inputs",
   "  stages        Stage order and implicit chaining",
   "  aliases       Naming a stage's output for later stages",
   "  references    @name references inside pipeline bodies",
   "  backend       The explicit backend JSON form",
   "",
   "COMMANDS",
   "",
   "  stageline compile     Surface JSON  -> backend JSON",
   "  stageline decompile   Backend JSON  -> surface JSON",
   "  stageline validate    Check that surface JSON compiles",
   "  stageline doc <topic> Show one topic"]

/-- The page on declaring inputs. -/
def inputs : String := page
  ["INPUTS",
   "",
   "Every query declares at least one named input:",
   "",
   "  \"inputs\": \x7b \"logs\": \"o:::dataset:41000123\", \"users\": \"41000456\" \x7d",
   "",
   "A reference is either a bare numeric dataset id or a dataset OID, optionally",
   "with a /<version> suffix. The backend always receives the bare id.",
   "",
   "Names of the form stage-<n> (stage-0, stage-1, ...) are reserved for stage",
   "ids and cannot be declared as inputs.",
   "",
   "When exactly one input is declared, the first stage uses it without naming it.",
   "With several inputs the first stage must name one via \"input\"."]

/-- The page on the order of stages. -/
def stages : String := page
  ["STAGES",
   "",
   "Stages run in order. A stage without \"input\" continues from the stage before",
   "it; a stage with \"input\" starts from that name instead.",
   "",
   "  \"stages\": [",
   "    \x7b \"input\": \"logs\", \"pipeline\": \"filter level = \\\"error\\\"\" \x7d,",
   "    \x7b \"pipeline\": \"statsby count(), group_by(service)\" \x7d",
   "  ]",
   "",
   "Each stage gets the id stage-<position> (stage-0, stage-1, ...). The last",
   "stage is the query's output. A later stage may name an earlier one by id."]

/-- The page on names for stages. -/
def aliases : String := page
  ["ALIASES",
   "",
   "An alias names a stage's output for later stages:",
   "",
   "  \x7b \"alias\": \"errors\", \"pipeline\": \"filter level = \\\"error\\\"\" \x7d,",
   "  \x7b \"pipeline\": \"statsby count()\" \x7d,",
   "  \x7b \"input\": \"errors\", \"pipeline\": \"pick_col message\" \x7d",
   "",
   "An alias is visible only to the stages after it. A name can be bound once:",
   "reusing a declared input name or another stage's alias is an error."]

/-- The page on mentions in a body. -/
def references : String := page
  ["REFERENCES",
   "",
   "A pipeline body that mentions @name pulls that input in alongside the stage's",
   "default input:",
   "",
   "  \x7b \"pipeline\": \"join on(id = @users.id)\" \x7d",
   "",
   "Detection is textual. @name inside a string or comment counts too, and so does",
   "a longer name that starts with it (@users_v2 also matches @users)."]

/-- The page on the backend form. -/
def backend : String := page
  ["BACKEND FORM",
   "",
   "  \x7b",
   "    \"outputStage\": \"stage-1\",",
   "    \"stages\": [",
   "      \x7b \"id\": \"stage-0\", \"pipeline\": \"...\",",
   "        \"input\": [\x7b \"inputName\": \"logs\", \"datasetId\": \"41000123\" \x7d] \x7d,",
   "      \x7b \"id\": \"stage-1\", \"pipeline\": \"...\",",
   "        \"input\": [\x7b \"inputName\": \"stage-0\", \"stageId\": \"stage-0\" \x7d] \x7d",
   "    ]",
   "  \x7d",
   "",
   "The first entry of \"input\" is the stage's default input. Further entries come",
   "from @name references, sorted by name."]

end Manual

/-! ### Topics -/

namespace Topic

/-- The page of a topic. -/
def page : Topic → String
  | inputs => Manual.inputs
  | stages => Manual.stages
  | aliases => Manual.aliases
  | references => Manual.references
  | backend => Manual.backend

/-- The topic that goes by a name. -/
def ofName? (name : String) : Option Topic :=
  match Text.lower name with
  | "inputs" | "input" => some inputs
  | "stages" | "stage" | "chaining" => some stages
  | "aliases" | "alias" => some aliases
  | "references" | "reference" | "refs" => some references
  | "backend" | "wire" => some backend
  | _ => none

/-- The page of the topic that goes by a name. -/
def pageOf (name : String) : Except Problem String :=
  match ofName? name with
  | some topic => .ok topic.page
  | none => .error (.unknownTopic name)

end Topic

end StagedQuery.Cli
