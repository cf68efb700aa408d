/-
StagedQuery/Session.lean

Driving the expansion by hand: a session holds the scope and what is passed on
to the next stage, and each step either changes one of them or asks about the
scope.  A step that fails leaves the session as it was, but for the expansion of
a stage, which keeps the names it had bound before it failed.
-/
import StagedQuery.Expansion

namespace StagedQuery

/-- The state between two stages of an expansion. -/
structure Session where
  /-- The names bound so far. -/
  scope : Scope := .empty
  /-- What the next stage starts from unless it names an input. -/
  passed : Option Binding := none
  deriving DecidableEq

namespace Session

/-- What can be done in a session. -/
inductive Step where
  /-- Start over with the scope of declared inputs. -/
  | declare (inputs : Inputs) (validate : Validator)
  /-- Bind one name. -/
  | bind (binding : Binding)
  /-- Look a name up. -/
  | resolve (name : String)
  /-- List the names. -/
  | names
  /-- Pass the only bound name on, if there is just one. -/
  | passOnly
  /-- Pass the output of a stage on. -/
  | passStage (id : String)
  /-- Pass nothing on. -/
  | passNothing
  /-- Forget all names. -/
  | forget
  /-- Expand a stage. -/
  | stage (position : Nat) (stage : Surface.Stage)

/-- What a step answers when it succeeds. -/
inductive Answer where
  /-- The step is done. -/
  | done
  /-- What a name stands for. -/
  | binding (found : Option Binding)
  /-- The names in code-point order. -/
  | names (sorted : List String)
  /-- The expanded stage. -/
  | stage (expanded : Backend.Stage)
  deriving DecidableEq

/-- Take one step. -/
def step (session : Session) : Step → Except Fault Answer × Session
  | .declare inputs validate =>
    match inputs.scope validate with
    | .error fault => (.error fault, session)
    | .ok scope => (.ok .done, { session with scope })
  | .bind binding =>
    match session.scope.bind binding with
    | .error fault => (.error fault, session)
    | .ok scope => (.ok .done, { session with scope })
  | .resolve name => (.ok (.binding (session.scope.resolve name)), session)
  | .names => (.ok (.names session.scope.sortedNames), session)
  | .passOnly => (.ok .done, { session with passed := session.scope.only? })
  | .passStage id => (.ok .done, { session with passed := passedOn id })
  | .passNothing => (.ok .done, { session with passed := none })
  | .forget => (.ok .done, { session with scope := .empty })
  | .stage position stage =>
    match expandStage session.scope session.passed position stage with
    | (.error fault, scope) => (.error fault, { session with scope })
    | (.ok expanded, scope) => (.ok (.stage expanded), ⟨scope, passedOn expanded.id⟩)

end Session

end StagedQuery
