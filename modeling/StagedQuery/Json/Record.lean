/-
StagedQuery/Json/Record.lean

Reading records with a fixed list of fields.

A record is written in one of two ways.  As members in any order: a name that is
no field is passed over, a field must not come twice, and a field that is wanted
must come.  Or as a list of the values in the order of the fields, which may end
early when nothing that is wanted is left.

A field takes its value into the record built so far, starting from a record
that has what a field left out stands for.
-/
import StagedQuery.Json.Reader

namespace StagedQuery.Json

/-- A field of a record of type `α`. -/
structure RecordField (α : Type) where
  /-- Its name in the text. -/
  name : String
  /-- Whether it must be there. -/
  wanted : Bool
  /-- Read its value and take that into the record. -/
  take : Tree → α → Except Fault α

namespace RecordField

variable {α β : Type}

/-- A field whose value is read and then put into the record. -/
def of (name : String) (wanted : Bool) (reader : Reader β) (put : β → α → α) :
    RecordField α where
  name
  wanted
  take tree record := (reader tree).map (put · record)

/-- The field of a name. -/
def find? (fields : List (RecordField α)) (name : String) : Option (RecordField α) :=
  List.find? (fun field => field.name = name) fields

/-- The first field that must be there and is not. -/
def missing? (fields : List (RecordField α)) (seen : List String) : Option (RecordField α) :=
  List.find? (fun field => field.wanted && field.name ∉ seen) fields

/-- Read members in any order into a record. -/
def readMembers (fields : List (RecordField α)) (stop : Option Break) :
    List Member → (seen : List String) → α → Except Fault α
  | [], seen, record =>
    match stop with
    | some why => .error (.broken why.read)
    | none =>
      match missing? fields seen with
      | some field => .error (.missingField field.name)
      | none => .ok record
  | (none, _) :: _, _, _ => .error (.broken .malformed)
  | (some name, tree) :: rest, seen, record =>
    match find? fields name with
    | none =>
      match tree.skip with
      | .error fault => .error fault
      | .ok () => readMembers fields stop rest seen record
    | some field =>
      if name ∈ seen then .error (.duplicateField name)
      else
        match field.take tree record with
        | .error fault => .error fault
        | .ok record => readMembers fields stop rest (name :: seen) record

/-- Read values in the order of the fields into a record. -/
def readItems (stop : Option Break) : List (RecordField α) → List Tree → α → Except Fault α
  | [], [], record => readStop record stop
  | [], _ :: _, _ => .error (.broken .malformed)
  | field :: fields, [], record =>
    match stop with
    | some why => .error (.broken why.read)
    | none => if field.wanted then .error .mistyped else readItems stop fields [] record
  | field :: fields, tree :: rest, record =>
    match field.take tree record with
    | .error fault => .error fault
    | .ok record => readItems stop fields rest record

end RecordField

/-- A record with these fields, built up from `initial`. -/
def Reader.record {α : Type} (fields : List (RecordField α)) (initial : α) : Reader α
  | .record members stop => RecordField.readMembers fields stop members [] initial
  | .list items stop => RecordField.readItems stop fields items initial
  | tree => .error tree.mismatch

end StagedQuery.Json
