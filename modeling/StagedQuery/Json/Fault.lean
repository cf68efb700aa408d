/-
StagedQuery/Json/Fault.lean

Why a JSON text cannot be read as a value of a given shape.

A text can be broken in two ways: it ends too early, or it goes on with what the
grammar does not allow.  A sound text can still hold the wrong thing: a value of
another type, or a record with a field too few or twice.

Where a text breaks, the cause can depend on whether the value there is wanted
or passed over, since less is asked of a value that nobody wants: a `Break` keeps
the cause for either case.
-/

namespace StagedQuery.Json

/-- How a text can be broken. -/
inductive Cause where
  /-- The text ends inside a value. -/
  | truncated
  /-- The text goes on with what is not allowed there. -/
  | malformed
  deriving DecidableEq, Repr

/-- A place where a text is broken. -/
structure Break where
  /-- The cause when the value there is read. -/
  read : Cause
  /-- The cause when the value there is passed over. -/
  skipped : Cause
  deriving DecidableEq, Repr

namespace Break

/-- The text ends. -/
def truncated : Break := ⟨.truncated, .truncated⟩

/-- Something else than allowed. -/
def malformed : Break := ⟨.malformed, .malformed⟩

end Break

/-- Why a text cannot be read. -/
inductive Fault where
  /-- The text is broken. -/
  | broken (cause : Cause)
  /-- A value has the wrong type, or a record written as a list is too short. -/
  | mistyped
  /-- A record lacks a field. -/
  | missingField (name : String)
  /-- A record has a field twice. -/
  | duplicateField (name : String)
  deriving DecidableEq, Repr

/-- The wording of a fault. -/
def Fault.message : Fault → String
  | broken .truncated => "the text ends inside a value"
  | broken .malformed => "the text is not well formed"
  | mistyped => "a value has the wrong type"
  | missingField name => "missing field " ++ name
  | duplicateField name => "duplicate field " ++ name

end StagedQuery.Json
