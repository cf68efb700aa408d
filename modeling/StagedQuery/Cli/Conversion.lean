/-
StagedQuery/Cli/Conversion.lean

The commands that work on a text: each reads a query from it, sends it through
one of the passes and writes what comes out, or only says that it would.  No text
at all is a problem of its own.
-/
import StagedQuery.Cli.Problem
import StagedQuery.Condensation
import StagedQuery.Expansion
import StagedQuery.Wire.Backend

namespace StagedQuery.Cli

/-- The layout that is asked for. -/
def layoutOf (pretty : Bool) : Json.Layout :=
  if pretty then .indented else .compact

/-- The surface query that a text holds, expanded. -/
def expandText : Option String → Except Problem Backend.Query
  | none => .error .noInput
  | some text =>
    match Surface.Query.ofText text with
    | .error fault => .error (.json fault)
    | .ok query => query.expand.mapError .configuration

/-- The backend query that a text holds, condensed. -/
def condenseText : Option String → Except Problem Surface.Query
  | none => .error .noInput
  | some text =>
    match Backend.Query.ofText text with
    | .error fault => .error (.json fault)
    | .ok query => query.condense.mapError .configuration

/-- The backend form of a surface query, as a text. -/
def compile (text : Option String) (pretty : Bool) : Except Problem String :=
  (expandText text).map (·.render (layoutOf pretty))

/-- The surface form of a backend query, as a text. -/
def decompile (text : Option String) (pretty : Bool) : Except Problem String :=
  (condenseText text).map (·.render (layoutOf pretty))

/-- How many stages a surface query has, if it can be expanded. -/
def validate (text : Option String) : Except Problem Nat :=
  (expandText text).map (·.stages.length)

end StagedQuery.Cli
