/-
StagedQuery/Text/LowerCase.lean

Lower case as far as ASCII goes.  A topic is looked up by its name in lower case,
and all topic names are ASCII.  Besides the ASCII capitals only the Kelvin sign
has an ASCII letter for its lower case; every other character is left alone,
which keeps it distinct from all ASCII text.
-/

namespace StagedQuery.Text

/-- The sign for kelvins, whose lower case is the letter `k`. -/
def kelvinSign : Char := '\u212a'

/-- The lower case of a character, where that is ASCII. -/
def lowerChar (c : Char) : Char :=
  if c = kelvinSign then 'k' else c.toLower

/-- A text in lower case, as far as that is ASCII. -/
def lower (s : String) : String :=
  String.ofList (s.toList.map lowerChar)

end StagedQuery.Text
