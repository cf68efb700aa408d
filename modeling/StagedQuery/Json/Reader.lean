/-
StagedQuery/Json/Reader.lean

Reading values of a given type from a tree.

A reader goes through a tree from left to right and ends at the first fault.
Where it meets a value of another type that is the fault, whatever may be broken
further on; only a string or a number must be sound itself to count as a value.
-/
import StagedQuery.Json.Tree

namespace StagedQuery.Json

/-- Reads a value of a type from a tree. -/
abbrev Reader (α : Type) := Tree → Except Fault α

/-- The fault of a tree that is not what a reader wants. -/
def Tree.mismatch : Tree → Fault
  | .broken why => .broken why.read
  | .num false => .broken .malformed
  | .str none => .broken .malformed
  | _ => .mistyped

/-- A container is read to its end. -/
def readStop {α : Type} (value : α) : Option Break → Except Fault α
  | none => .ok value
  | some why => .error (.broken why.read)

namespace Reader

variable {α : Type}

/-- A text. -/
def text : Reader String
  | .str (some s) => .ok s
  | tree => .error tree.mismatch

/-- A value, or the empty value where there is none. -/
def optional (reader : Reader α) : Reader (Option α)
  | .null => .ok none
  | tree => (reader tree).map some

/-- The items of a list, each read the same way. -/
def items (reader : Reader α) : List Tree → Option Break → Except Fault (List α)
  | [], stop => readStop [] stop
  | tree :: rest, stop =>
    match reader tree with
    | .error fault => .error fault
    | .ok value => (items reader rest stop).map (value :: ·)

/-- A list. -/
def list (reader : Reader α) : Reader (List α)
  | .list trees stop => items reader trees stop
  | tree => .error tree.mismatch

/-- The members of a record as pairs, each value read the same way. -/
def pairs (reader : Reader α) :
    List Member → Option Break → Except Fault (List (String × α))
  | [], stop => readStop [] stop
  | (none, _) :: _, _ => .error (.broken .malformed)
  | (some name, tree) :: rest, stop =>
    match reader tree with
    | .error fault => .error fault
    | .ok value => (pairs reader rest stop).map ((name, value) :: ·)

/-- A record with names of any kind, as pairs in the order they stand. -/
def mapping (reader : Reader α) : Reader (List (String × α))
  | .record members stop => pairs reader members stop
  | tree => .error tree.mismatch

/-- Read a whole text: nothing may follow the value. -/
def run (reader : Reader α) (text : String) : Except Fault α :=
  let whole := document text
  match reader whole.tree with
  | .error fault => .error fault
  | .ok value => if whole.trailing then .error (.broken .malformed) else .ok value

end Reader

end StagedQuery.Json
