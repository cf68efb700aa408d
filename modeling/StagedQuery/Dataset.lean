/-
StagedQuery/Dataset.lean

References to datasets.  Declaring an input gives a name to a reference; the
backend carries the bare id of the dataset instead.  What counts as a reference
is not fixed here: a `Validator` decides, by giving the bare id of a reference it
accepts.

The validator at hand, `Dataset.bareId?`, accepts a dataset's number, which may
follow `o:::dataset:` and may be followed by a slash and the number of a
version.  Blanks around the reference are no part of it; digits are the ASCII
ones.  A bare id is itself accepted, and is its own bare id.
-/
import StagedQuery.Text.Blank
import StagedQuery.Text.Stem

namespace StagedQuery

/-- Decides which references are to datasets: the bare id of a reference that
is, nothing for one that is not. -/
abbrev Validator := String → Option String

namespace Dataset

/-- What a reference may begin with. -/
def objectStem : String := "o:::dataset:"

/-- A non-empty run of digits. -/
def isNumber (cs : List Char) : Bool :=
  !cs.isEmpty && cs.all Char.isDigit

/-- What may follow the number of a dataset: nothing, or the number of a
version behind a slash. -/
def isVersion : List Char → Bool
  | [] => true
  | c :: number => c = '/' && isNumber number

/-- The digits of a dataset's number in a reference without blanks around it. -/
def number? (reference : List Char) : Option (List Char) :=
  let text := (Text.behind? objectStem.toList reference).getD reference
  let number := text.takeWhile Char.isDigit
  if isNumber number && isVersion (text.dropWhile Char.isDigit) then some number else none

/-- The bare id of the dataset that a reference is to. -/
def bareId? : Validator := fun reference =>
  (number? (Text.trim reference.toList)).map String.ofList

end Dataset

end StagedQuery
