/-
StagedQuery/Expansion.lean

The forward pass: a surface query is expanded into its backend form.

The stages are taken in order.  Two things pass from one stage to the next: the
scope, and the binding that a stage without an input of its own starts from.
At the first stage that is the only declared input, if there is just one;
behind a stage it is that stage's own output, under its id.  Each stage

* must have a body that is not blank;
* starts from its explicit input, if it names one, or else from what was passed
  on to it;
* lists that primary input first, then every other visible name that its body
  mentions, in code-point order;
* then binds its id and its alias, which only later stages see.

`expandStage` answers the scope also where it fails: the id stays bound when it
is the alias that cannot be.
-/
import StagedQuery.Declaration
import StagedQuery.Surface
import StagedQuery.Text.Mention

namespace StagedQuery

/-! ### One stage -/

/-- The binding a stage starts from: its explicit input, or what was passed on. -/
def primaryOf (scope : Scope) (passed : Option Binding) (position : Nat)
    (stage : Surface.Stage) : Except Fault Binding :=
  if Text.allBlank stage.pipeline then .error (.blankBody position)
  else
    match stage.inputName with
    | some name =>
      match scope.resolve name with
      | some binding => .ok binding
      | none => .error (.unknownInput position name)
    | none =>
      match passed with
      | some binding => .ok binding
      | none => .error (.noInput position)

/-- The visible names, other than the primary one, that a body mentions. -/
def supplementalNames (scope : Scope) (primary : Binding) (body : String) : List String :=
  Text.mentioned body (scope.sortedNames.filter fun name => name ≠ primary.name)

/-- All inputs of a stage with this primary input and body. -/
def inputsOf (scope : Scope) (primary : Binding) (body : String) : List Backend.Input :=
  primary.toInput ::
    (supplementalNames scope primary body).filterMap fun name =>
      (scope.resolve name).map Binding.toInput

/-- Bind the id of a stage, then its alias if it has one.  The scope is answered
also where a name is refused. -/
def bindStage (scope : Scope) (id : String) (aliasName : Option String) :
    Except Fault Unit × Scope :=
  match scope.bind (.ownId id) with
  | .error fault => (.error fault, scope)
  | .ok withId =>
    match aliasName with
    | none => (.ok (), withId)
    | some name =>
      match withId.bind (.stage name id) with
      | .error fault => (.error fault, withId)
      | .ok withAlias => (.ok (), withAlias)

/-- Expand the stage at a position, and answer the scope behind it. -/
def expandStage (scope : Scope) (passed : Option Binding) (position : Nat)
    (stage : Surface.Stage) : Except Fault Backend.Stage × Scope :=
  match primaryOf scope passed position stage with
  | .error fault => (.error fault, scope)
  | .ok primary =>
    let id := stageId position
    match bindStage scope id stage.aliasName with
    | (.error fault, behind) => (.error fault, behind)
    | (.ok (), behind) =>
      (.ok ⟨id, stage.pipeline, inputsOf scope primary stage.pipeline⟩, behind)

/-- What a stage passes on: its own output under its id. -/
def passedOn (id : String) : Option Binding :=
  some (.ownId id)

/-! ### The whole query -/

/-- Expand stages from a position on. -/
def expandFrom (scope : Scope) (passed : Option Binding) (position : Nat) :
    List Surface.Stage → Except Fault (List Backend.Stage)
  | [] => .ok []
  | stage :: rest =>
    match expandStage scope passed position stage with
    | (.error fault, _) => .error fault
    | (.ok expanded, behind) =>
      match expandFrom behind (passedOn expanded.id) (position + 1) rest with
      | .error fault => .error fault
      | .ok others => .ok (expanded :: others)

namespace Surface.Query

/-- The backend form of the stages, on the scope of the declared inputs.  The
last stage is the output. -/
def expandIn (query : Query) (scope : Scope) : Except Fault Backend.Query :=
  if query.stages.isEmpty then .error .noStages
  else
    match expandFrom scope scope.only? 0 query.stages with
    | .error fault => .error fault
    | .ok stages => .ok ⟨stageId (stages.length - 1), stages⟩

/-- The backend form of a query, its references judged by a validator. -/
def expandWith (query : Query) (validate : Validator) : Except Fault Backend.Query :=
  match query.inputs.scope validate with
  | .error fault => .error fault
  | .ok scope => query.expandIn scope

/-- The backend form of a query. -/
def expand (query : Query) : Except Fault Backend.Query :=
  query.expandWith Dataset.bareId?

end Surface.Query

end StagedQuery
