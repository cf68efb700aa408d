/-
StagedQuery/Cycle.lean

Going back and forth between the two forms.  A query in either form turns into
the other one by expansion or condensation; a run of turns ends early at the
first fault.
-/
import StagedQuery.Condensation
import StagedQuery.Expansion

namespace StagedQuery

/-- A query in one of its two forms. -/
inductive Form where
  /-- The surface form. -/
  | surface (query : Surface.Query)
  /-- The backend form. -/
  | backend (query : Backend.Query)
  deriving DecidableEq

namespace Form

/-- The other form of a query. -/
def turn : Form → Except Fault Form
  | surface query => query.expand.map backend
  | backend query => query.condense.map surface

/-- The outcomes of up to `count` turns in a row, each on the outcome before; a
fault is the last of them. -/
def turns : Nat → Form → List (Except Fault Form)
  | 0, _ => []
  | count + 1, form =>
    match form.turn with
    | .error fault => [.error fault]
    | .ok next => .ok next :: turns count next

end Form

end StagedQuery
