/-
StagedQuery/Json/Layout.lean

Writing JSON.  What is written is a `Doc`: texts, lists and records, members in
the order given.  A layout says what blanks stand in it.  The compact layout has
none; the indented one gives every item and member a line of its own, two spaces
deeper than what holds it, and a space behind each colon.  In either layout an
empty list or record is just its two brackets.
-/
import StagedQuery.Json.Literal

namespace StagedQuery.Json

/-- What can be written. -/
inductive Doc where
  /-- A text. -/
  | text (s : String)
  /-- A list. -/
  | list (items : List Doc)
  /-- A record, with its members in order. -/
  | record (members : List (String × Doc))

/-- Where blanks stand. -/
structure Layout where
  /-- What stands before an item, a member or a closing bracket at a depth. -/
  gap : Nat → List Char
  /-- What stands behind a colon. -/
  space : List Char

namespace Layout

/-- No blanks. -/
def compact : Layout where
  gap _ := []
  space := []

/-- One line for each item and member, indented by two spaces a level. -/
def indented : Layout where
  gap depth := '\n' :: List.replicate (2 * depth) ' '
  space := [' ']

/-- Brackets around written parts, with a comma between two of them. -/
def enclose (layout : Layout) (depth : Nat) (opening closing : Char) :
    List (List Char) → List Char
  | [] => [opening, closing]
  | first :: rest =>
    opening :: (layout.gap (depth + 1) ++ first ++
      (rest.flatMap fun part => ',' :: (layout.gap (depth + 1) ++ part)) ++
      (layout.gap depth ++ [closing]))

end Layout

mutual

/-- Write at a depth. -/
def Doc.write (layout : Layout) (depth : Nat) : Doc → List Char
  | .text s => quote s
  | .list items => layout.enclose depth '[' ']' (writeItems layout (depth + 1) items)
  | .record members => layout.enclose depth '{' '}' (writeMembers layout (depth + 1) members)

/-- Write each item of a list. -/
def writeItems (layout : Layout) (depth : Nat) : List Doc → List (List Char)
  | [] => []
  | item :: rest => item.write layout depth :: writeItems layout depth rest

/-- Write each member of a record: its name, a colon and its value. -/
def writeMembers (layout : Layout) (depth : Nat) : List (String × Doc) → List (List Char)
  | [] => []
  | (name, value) :: rest =>
    (quote name ++ ':' :: (layout.space ++ value.write layout depth)) ::
      writeMembers layout depth rest

end

/-- The text of a document. -/
def Doc.render (doc : Doc) (layout : Layout) : String :=
  String.ofList (doc.write layout 0)

end StagedQuery.Json
